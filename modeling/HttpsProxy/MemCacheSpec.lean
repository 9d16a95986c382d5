import HttpsProxy.MemQueues
import HttpsProxy.MemNodePool
import Mathlib.Algebra.BigOperators.Group.List.Basic
import Mathlib.Logic.Relation

/-! What the lists of a cache hold: each slab in the list it belongs to, and each
of its units either free or out. A cache owns some of the pages that its supply
has given; what it does leaves the others alone. -/
namespace HttpsProxy

/-- A supply gives pages that do not overlap. `held s ps` says that `ps` are the
pages given and not taken back, and `takes s` that each of them would be. -/
structure PageSupply.Lawful {σ : Type} (S : PageSupply σ) (size : ℕ) (held : σ → List ℕ → Prop)
    (takes : σ → Prop) : Prop where
  perm : ∀ {s ps ps'}, held s ps → ps.Perm ps' → held s ps'
  granted : ∀ {cpu s s' p ps}, held s ps → S.alloc cpu s = some (some p, s') → held s' (p :: ps)
  refused : ∀ {cpu s s' ps}, held s ps → S.alloc cpu s = some (none, s') → held s' ps
  freed : ∀ {cpu s s' p ps}, held s (p :: ps) → S.free cpu s p = some s' → held s' ps
  given : ∀ (cpu) {s p ps}, held s (p :: ps) → takes s → ∃ s', S.free cpu s p = some s' ∧ takes s'
  apart : ∀ {s ps}, held s ps → ps.Pairwise fun p q : ℕ => Apart p size q size
  good : ∀ {s ps}, held s ps → ∀ p ∈ ps, 0 < p ∧ 8 ∣ p

/-- A page is taken back. -/
def PageSupply.Frees {σ : Type} (S : PageSupply σ) (s s' : σ) : Prop := ∃ cpu p, S.free cpu s p = some s'

/-- A supply of descriptors need not take back what it has given. What it would
take back it takes also after it has got other descriptors and `S` pages. -/
structure DescSupply.Lawful {σ τ : Type} (D : DescSupply σ τ) (S : PageSupply σ) (size : ℕ)
    (held : τ → List ℕ → Prop) : Prop where
  perm : ∀ {t ps ps'}, held t ps → ps.Perm ps' → held t ps'
  granted : ∀ {t t' p ps}, held t ps → D.alloc t = some (some p, t') → held t' (p :: ps)
  refused : ∀ {t t' ps}, held t ps → D.alloc t = some (none, t') → held t' ps
  freed : ∀ {s t t' p ps}, held t (p :: ps) → D.free s t p = some t' → held t' ps
  kept : ∀ {s t t' p q ps}, held t (p :: ps) → D.free s t p = some t' → q ∈ ps →
    (D.free s t q).isSome → (D.free s t' q).isSome
  steady : ∀ {s s' t q}, S.Frees s s' → (D.free s t q).isSome → (D.free s' t q).isSome
  apart : ∀ {t ps}, held t ps → ps.Pairwise fun p q : ℕ => Apart p size q size
  good : ∀ {t ps}, held t ps → ∀ p ∈ ps, 0 < p ∧ 8 ∣ p

/-- A supply of pages, and one of descriptors. -/
structure Supplier (σ τ : Type) where
  gfp : PageSupply σ
  set : DescSupply σ τ
  pageSize : ℕ
  held : σ → List ℕ → Prop
  takes : σ → Prop
  heldDesc : τ → List ℕ → Prop
  pages : gfp.Lawful pageSize held takes
  descs : set.Lawful gfp slabSize heldDesc

namespace Supplier

variable {σ τ : Type} {E : Supplier σ τ} {s s' s'' : CacheState σ τ}

/-- What a cache has got would be taken back. For a cache whose descriptors lie
in its pages this is up to the pages. -/
structure TakesBack (E : Supplier σ τ) (s : CacheState σ τ) : Prop where
  pages : E.takes s.pages
  descs : s.cache.offslab = true → ∀ a, (s.slabs a).isSome → (E.set.free s.pages s.descs a).isSome

/-- Pages have been given back, and what is left would still be taken. -/
structure Returns (E : Supplier σ τ) (s s' : CacheState σ τ) : Prop where
  pages : Relation.ReflTransGen E.gfp.Frees s.pages s'.pages
  takes : E.TakesBack s → E.TakesBack s'

theorem Returns.trans (h : E.Returns s s') (h' : E.Returns s' s'') : E.Returns s s'' :=
  ⟨h.pages.trans h'.pages, fun ht => h'.takes (h.takes ht)⟩

/-- The supplies are as they were, and no slab is new. -/
theorem Returns.same (hp : s'.pages = s.pages) (hd : s'.descs = s.descs)
    (hoff : s'.cache.offslab = s.cache.offslab) (hs : ∀ a, (s'.slabs a).isSome → (s.slabs a).isSome) :
    E.Returns s s' := by
  refine ⟨by rw [hp], fun ht => ⟨hp ▸ ht.pages, ?_⟩⟩
  intro hoff' a ha
  rw [hp, hd]
  exact ht.descs (hoff ▸ hoff') a (hs a ha)

theorem Returns.refl (s : CacheState σ τ) : E.Returns s s := Returns.same rfl rfl rfl fun _ ha => ha

end Supplier

/-- The slabs in the lists of a cache, and the free units of each. -/
structure Shelf where
  lists : SlabQueue → List ℕ
  slab : ℕ → IMemSlab
  free : ℕ → List ℕ

namespace Shelf

def live (f : Shelf) : List ℕ := f.lists .free ++ f.lists .full ++ f.lists .partly

theorem mem_live {f : Shelf} {a : ℕ} : a ∈ f.live ↔ ∃ k, a ∈ f.lists k := by
  simp only [live, List.mem_append]
  constructor
  · rintro ((h | h) | h)
    · exact ⟨_, h⟩
    · exact ⟨_, h⟩
    · exact ⟨_, h⟩
  · rintro ⟨k, h⟩
    cases k with
    | free => exact Or.inl (Or.inl h)
    | full => exact Or.inl (Or.inr h)
    | partly => exact Or.inr h

theorem live_nodup {f : Shelf} {q : IQueues} (h : q.Lists f.lists) : f.live.Nodup := by
  simp only [live, List.nodup_append]
  refine ⟨⟨h.nodup _, h.nodup _, ?_⟩, h.nodup _, ?_⟩
  · rintro a ha b hb rfl
    exact h.disjoint (by decide) ha hb
  · rintro a ha b hb rfl
    rcases List.mem_append.mp ha with ha | ha
    · exact h.disjoint (by decide) ha hb
    · exact h.disjoint (by decide) ha hb

/-- How many units are free. -/
def total (f : Shelf) : ℕ := (f.live.map fun a => (f.free a).length).sum

end Shelf

/-- Which slabs belong to a list. -/
def Fits (k : SlabQueue) (units free : List ℕ) : Prop :=
  match k with
  | .free => ∀ u ∈ units, u ∈ free
  | .full => free = []
  | .partly => free ≠ [] ∧ ∃ u ∈ units, u ∉ free

/-- The parts of a cache that do not concern its lists. -/
structure IMemCache.Alike (c c' : IMemCache) : Prop where
  self : c'.self = c.self
  objSize : c'.objSize = c.objSize
  unitSize : c'.unitSize = c.unitSize
  pageSize : c'.pageSize = c.pageSize
  offslab : c'.offslab = c.offslab
  array : c'.array = c.array

theorem IMemCache.Alike.trans {c c' c'' : IMemCache} (h : c.Alike c') (h' : c'.Alike c'') :
    c.Alike c'' :=
  ⟨h'.self.trans h.self, h'.objSize.trans h.objSize, h'.unitSize.trans h.unitSize,
    h'.pageSize.trans h.pageSize, h'.offslab.trans h.offslab, h'.array.trans h.array⟩

/-- The lists of `s` are those of `f`, and `out` are the units that are not in
them. The slab in hand need not be in the right list. -/
structure Stored {σ τ : Type} (E : Supplier σ τ) (others othersDesc : List ℕ) (hand : Option ℕ)
    (s : CacheState σ τ) (f : Shelf) (out : List ℕ) : Prop where
  page_eq : s.cache.pageSize = E.pageSize
  unit_eq : s.cache.unitSize = roundUp (s.cache.objSize + 8)
  queues : s.cache.queues.Lists f.lists
  slabs_eq : ∀ a, s.slabs a = if a ∈ f.live then some (f.slab a) else none
  desc : ∀ a ∈ f.live, a ≠ 0 ∧ 8 ∣ a ∧ (f.slab a).extra = s.cache.self ∧
    (f.slab a).memsize = E.pageSize ∧ 8 ∣ (f.slab a).coloroff
  holds : ∀ a ∈ f.live, (f.slab a).Holds s.mem s.cache.unitSize (f.free a)
  fits : ∀ k, ∀ a ∈ f.lists k, hand ≠ some a →
    Fits k ((f.slab a).units s.cache.unitSize) (f.free a)
  units_ne : ∀ a ∈ f.live, (f.slab a).units s.cache.unitSize ≠ []
  held : E.held s.pages ((f.live.map fun a => (f.slab a).membase) ++ others)
  heldDesc : E.heldDesc s.descs ((if s.cache.offslab then f.live else []) ++ othersDesc)
  inside : s.cache.offslab = false → ∀ a ∈ f.live, (f.slab a).membase ≤ a ∧
    a + slabSize = (f.slab a).membase + (f.slab a).coloroff
  color : 8 ∣ s.cache.colorNext
  mem_out : ∀ u, u ∈ out ↔ ∃ a ∈ f.live, u ∈ (f.slab a).units s.cache.unitSize ∧ u ∉ f.free a
  nodup : out.Nodup
  word : ∀ a ∈ f.live, ∀ u ∈ (f.slab a).units s.cache.unitSize, u ∉ f.free a →
    s.mem u / 8 * 8 = a
  inuse_eq : s.cache.pagesInuse = f.live.length

/-- The counters of a cache. -/
structure Counted (c : IMemCache) (f : Shelf) : Prop where
  free_eq : c.countFree = (f.lists .free).length
  full_eq : c.countFull = (f.lists .full).length
  partial_eq : c.countPartial = (f.lists .partly).length
  objects_eq : c.freeObjects = f.total

namespace Stored

variable {σ τ : Type} {E : Supplier σ τ} {others othersDesc out : List ℕ} {hand : Option ℕ}
  {s : CacheState σ τ} {f : Shelf}

theorem size_le (h : Stored E others othersDesc hand s f out) :
    s.cache.objSize + 8 ≤ s.cache.unitSize := by
  rw [h.unit_eq]
  exact le_roundUp _

theorem base_pos (h : Stored E others othersDesc hand s f out) {a : ℕ} (ha : a ∈ f.live) :
    0 < (f.slab a).membase ∧ 8 ∣ (f.slab a).membase :=
  E.pages.good h.held _ (List.mem_append_left _ (List.mem_map_of_mem ha))

/-- The pages of two slabs do not overlap. -/
theorem pages_apart (h : Stored E others othersDesc hand s f out) {a b : ℕ} (ha : a ∈ f.live)
    (hb : b ∈ f.live) (hab : a ≠ b) :
    Apart (f.slab a).membase E.pageSize (f.slab b).membase E.pageSize := by
  have hpair := List.pairwise_map.mp (List.pairwise_append.mp (E.pages.apart h.held)).1
  have hsymm : Std.Symm fun a b : ℕ =>
      Apart (f.slab a).membase E.pageSize (f.slab b).membase E.pageSize :=
    ⟨fun _ _ => Apart.symm⟩
  exact hpair.forall ha hb hab

theorem unit_bounds (h : Stored E others othersDesc hand s f out) {a u : ℕ} (ha : a ∈ f.live)
    (hu : u ∈ (f.slab a).units s.cache.unitSize) : (f.slab a).membase + (f.slab a).coloroff ≤ u ∧
      u + s.cache.unitSize ≤ (f.slab a).membase + E.pageSize := by
  obtain ⟨-, -, -, hsize, -⟩ := h.desc a ha
  rw [← hsize]
  exact IMemSlab.mem_units hu

/-- A unit belongs to one slab only. -/
theorem unit_slab (h : Stored E others othersDesc hand s f out) {a b u : ℕ} (ha : a ∈ f.live)
    (hb : b ∈ f.live) (hua : u ∈ (f.slab a).units s.cache.unitSize)
    (hub : u ∈ (f.slab b).units s.cache.unitSize) : a = b := by
  by_contra hab
  obtain ⟨ha1, ha2⟩ := h.unit_bounds ha hua
  obtain ⟨hb1, hb2⟩ := h.unit_bounds hb hub
  have hsize := h.size_le
  rcases h.pages_apart ha hb hab with hap | hap
  · omega
  · omega

/-- Units do not overlap. -/
theorem units_apart (h : Stored E others othersDesc hand s f out) {a b u v : ℕ} (ha : a ∈ f.live)
    (hb : b ∈ f.live) (hu : u ∈ (f.slab a).units s.cache.unitSize)
    (hv : v ∈ (f.slab b).units s.cache.unitSize) (huv : u ≠ v) :
    u + s.cache.unitSize ≤ v ∨ v + s.cache.unitSize ≤ u := by
  by_cases hab : a = b
  · subst hab
    exact IMemSlab.units_apart hu hv huv
  · obtain ⟨ha1, ha2⟩ := h.unit_bounds ha hu
    obtain ⟨hb1, hb2⟩ := h.unit_bounds hb hv
    rcases h.pages_apart ha hb hab with hap | hap
    · omega
    · omega

theorem unit_pos (h : Stored E others othersDesc hand s f out) {a u : ℕ} (ha : a ∈ f.live)
    (hu : u ∈ (f.slab a).units s.cache.unitSize) : 0 < u := by
  have hb := (h.base_pos ha).1
  have := (h.unit_bounds ha hu).1
  omega

theorem unit_dvd (h : Stored E others othersDesc hand s f out) {a u : ℕ} (ha : a ∈ f.live)
    (hu : u ∈ (f.slab a).units s.cache.unitSize) : 8 ∣ u := by
  obtain ⟨i, -, rfl⟩ := IMemSlab.mem_row.mp hu
  have h1 := (h.base_pos ha).2
  obtain ⟨-, -, -, -, h2⟩ := h.desc a ha
  have h3 : 8 ∣ s.cache.unitSize := by
    rw [h.unit_eq]
    exact roundUp_dvd _
  exact Nat.dvd_add (Nat.dvd_add h1 h2) (h3.mul_left i)

theorem entry_eq (h : Stored E others othersDesc hand s f out) {a : ℕ} (ha : a ∈ f.live) :
    s.entry (.slab a) = some (a, f.slab a) := by
  rw [CacheState.entry, h.slabs_eq, if_pos ha, Option.map_some]

/-- The same slabs in other lists. -/
theorem relist (h : Stored E others othersDesc hand s f out) {c : IMemCache} (hc : s.cache.Alike c)
    (hcolor : c.colorNext = s.cache.colorNext) (hpages : c.pagesInuse = s.cache.pagesInuse)
    {lists : SlabQueue → List ℕ} (hq : c.queues.Lists lists)
    (hmem : ∀ a, (∃ k, a ∈ lists k) ↔ ∃ k, a ∈ f.lists k) {hand' : Option ℕ}
    (hfits : ∀ k, ∀ a ∈ lists k, hand' ≠ some a →
      Fits k ((f.slab a).units s.cache.unitSize) (f.free a)) :
    Stored E others othersDesc hand' { s with cache := c } { f with lists } out ∧
      ({ f with lists } : Shelf).live.Perm f.live := by
  obtain ⟨f', hf'⟩ : ∃ g : Shelf, g = { f with lists } := ⟨_, rfl⟩
  have hlive : ∀ a, a ∈ f'.live ↔ a ∈ f.live := by
    intro a
    rw [Shelf.mem_live, Shelf.mem_live, hf']
    exact hmem a
  have hperm : f'.live.Perm f.live := by
    refine (List.perm_ext_iff_of_nodup (Shelf.live_nodup (q := c.queues) ?_)
      (Shelf.live_nodup h.queues)).mpr hlive
    rw [hf']
    exact hq
  have hslab : f'.slab = f.slab := by rw [hf']
  have hfree : f'.free = f.free := by rw [hf']
  rw [← hf']
  refine ⟨⟨?_, ?_, ?_, ?_, ?_, ?_, ?_, ?_, ?_, ?_, ?_, ?_, ?_, h.nodup, ?_, ?_⟩, hperm⟩
  · exact hc.pageSize.trans h.page_eq
  · change c.unitSize = roundUp (c.objSize + 8)
    rw [hc.unitSize, hc.objSize]
    exact h.unit_eq
  · rw [hf']
    exact hq
  · intro a
    simp only [hlive, hslab]
    exact h.slabs_eq a
  · intro a ha
    rw [hslab, hc.self]
    exact h.desc a ((hlive a).mp ha)
  · intro a ha
    rw [hslab, hfree, hc.unitSize]
    exact h.holds a ((hlive a).mp ha)
  · intro k a ha hh
    rw [hslab, hfree, hc.unitSize]
    rw [hf'] at ha
    exact hfits k a ha hh
  · intro a ha
    rw [hslab, hc.unitSize]
    exact h.units_ne a ((hlive a).mp ha)
  · rw [hslab]
    exact E.pages.perm h.held ((hperm.symm.map _).append_right _)
  · rw [hc.offslab]
    refine E.descs.perm h.heldDesc ?_
    split
    · exact hperm.symm.append_right _
    · exact List.Perm.refl _
  · intro hoff a ha
    rw [hslab]
    rw [hc.offslab] at hoff
    exact h.inside hoff a ((hlive a).mp ha)
  · rw [hcolor]
    exact h.color
  · intro u
    simp only [hlive, hslab, hfree, hc.unitSize]
    exact h.mem_out u
  · intro a ha
    rw [hslab, hfree, hc.unitSize]
    exact h.word a ((hlive a).mp ha)
  · rw [hpages, h.inuse_eq, hperm.length_eq]

/-- A slab goes to another list. -/
theorem moved (h : Stored E others othersDesc hand s f out) (k' : SlabQueue) (hand' : Option ℕ)
    {a : ℕ} {k : SlabQueue} (hhand : ∀ b, hand = some b → b = a) (ha : a ∈ f.lists k) {xs : List ℕ}
    (hxs : xs.Perm (a :: Function.update f.lists k ((f.lists k).erase a) k')) {c : IMemCache}
    (hc : s.cache.Alike c) (hcolor : c.colorNext = s.cache.colorNext)
    (hpages : c.pagesInuse = s.cache.pagesInuse)
    (hq : c.queues.Lists (Function.update (Function.update f.lists k ((f.lists k).erase a)) k' xs))
    (hfits : hand' ≠ some a → Fits k' ((f.slab a).units s.cache.unitSize) (f.free a)) :
    Stored E others othersDesc hand' { s with cache := c }
        { f with lists := Function.update (Function.update f.lists k ((f.lists k).erase a)) k' xs }
        out ∧
      ({ f with lists := Function.update (Function.update f.lists k ((f.lists k).erase a)) k' xs } :
        Shelf).live.Perm f.live := by
  refine h.relist hc hcolor hpages hq ?_ ?_
  · intro x
    simp only [h.queues.mem_moved ha hxs]
    constructor
    · rintro ⟨j, ⟨rfl, -⟩ | ⟨-, hx⟩⟩
      · exact ⟨k, ha⟩
      · exact ⟨j, hx⟩
    · rintro ⟨j, hx⟩
      by_cases hxa : x = a
      · exact ⟨k', Or.inl ⟨hxa, rfl⟩⟩
      · exact ⟨j, Or.inr ⟨hxa, hx⟩⟩
  · intro j b hb hne
    rcases (h.queues.mem_moved ha hxs j b).mp hb with ⟨rfl, rfl⟩ | ⟨hba, hb⟩
    · exact hfits hne
    · exact h.fits j b hb fun hh => hba (hhand b hh)

/-- The slab in hand is in the right list. -/
theorem settle {a : ℕ} {k : SlabQueue} (h : Stored E others othersDesc (some a) s f out)
    (ha : a ∈ f.lists k) (hfits : Fits k ((f.slab a).units s.cache.unitSize) (f.free a)) :
    Stored E others othersDesc none s f out := by
  refine { h with fits := ?_ }
  intro j b hb _
  by_cases hba : b = a
  · subst hba
    have hjk : j = k := by
      by_contra hjk
      exact h.queues.disjoint hjk hb ha
    exact hjk ▸ hfits
  · refine h.fits j b hb ?_
    rintro he
    exact hba (Option.some.inj he).symm

theorem total_perm {f f' : Shelf} (hperm : f'.live.Perm f.live) (hfree : f'.free = f.free) :
    f'.total = f.total := by
  rw [Shelf.total, Shelf.total, hfree]
  exact (hperm.map _).sum_eq

/-- The free units of one slab change. -/
theorem total_update {f : Shelf} (hnd : f.live.Nodup) {a : ℕ} (ha : a ∈ f.live) (d : IMemSlab)
    (free : List ℕ) :
    ({ f with slab := Function.update f.slab a d, free := Function.update f.free a free } :
      Shelf).total + (f.free a).length = f.total + free.length := by
  have hperm := List.perm_cons_erase ha
  have hnot := hnd.not_mem_erase (a := a)
  have hrest : (f.live.erase a).map (fun b => (Function.update f.free a free b).length) =
      (f.live.erase a).map fun b => (f.free b).length := by
    apply List.map_congr_left
    intro b hb
    rw [Function.update_of_ne]
    rintro rfl
    exact hnot hb
  have hl : ({ f with slab := Function.update f.slab a d, free := Function.update f.free a free } :
      Shelf).live = f.live := rfl
  simp only [Shelf.total, hl]
  rw [(hperm.map _).sum_eq, (hperm.map fun b => (f.free b).length).sum_eq, List.map_cons,
    List.map_cons, List.sum_cons, List.sum_cons, Function.update_self, hrest]
  omega

/-- One unit of a slab changes between free and out, and so does its first word. -/
theorem setUnit (h : Stored E others othersDesc hand s f out) {a u v : ℕ}
    (hhand : ∀ b, hand = some b → b = a) (ha : a ∈ f.live)
    (hu : u ∈ (f.slab a).units s.cache.unitSize) {d : IMemSlab} {free out' : List ℕ}
    (hbase : d.membase = (f.slab a).membase) (hsize : d.memsize = (f.slab a).memsize)
    (hcol : d.coloroff = (f.slab a).coloroff) (hextra : d.extra = (f.slab a).extra)
    (hholds : d.Holds (Function.update s.mem u v) s.cache.unitSize free)
    (hfree : ∀ x ∈ (f.slab a).units s.cache.unitSize, x ≠ u → (x ∈ free ↔ x ∈ f.free a))
    (hout : ∀ x, x ∈ out' ↔ (x ∈ out ∧ x ≠ u) ∨ (x = u ∧ u ∉ free)) (hnd : out'.Nodup)
    (hword : u ∉ free → v / 8 * 8 = a) {c : IMemCache} (hc : s.cache.Alike c)
    (hcolor : c.colorNext = s.cache.colorNext) (hpages : c.pagesInuse = s.cache.pagesInuse)
    (hq : c.queues = s.cache.queues) :
    Stored E others othersDesc (some a)
      { s with slabs := Function.update s.slabs a (some d), mem := Function.update s.mem u v,
               cache := c }
      { f with slab := Function.update f.slab a d, free := Function.update f.free a free } out' := by
  -- the geometry of `d` is that of the old descriptor, so no unit moves
  have hunits : ∀ b, ((Function.update f.slab a d) b).units c.unitSize =
      (f.slab b).units s.cache.unitSize := by
    intro b
    rw [hc.unitSize]
    by_cases hb : b = a
    · subst hb
      simp only [Function.update_self, IMemSlab.units, hbase, hsize, hcol]
    · rw [Function.update_of_ne hb]
  have hslab : ∀ b, ((Function.update f.slab a d) b).membase = (f.slab b).membase ∧
      ((Function.update f.slab a d) b).memsize = (f.slab b).memsize ∧
      ((Function.update f.slab a d) b).coloroff = (f.slab b).coloroff ∧
      ((Function.update f.slab a d) b).extra = (f.slab b).extra := by
    intro b
    by_cases hb : b = a
    · subst hb
      rw [Function.update_self]
      exact ⟨hbase, hsize, hcol, hextra⟩
    · rw [Function.update_of_ne hb]
      exact ⟨rfl, rfl, rfl, rfl⟩
  -- no other slab has the unit
  have hother : ∀ b ∈ f.live, b ≠ a → u ∉ (f.slab b).units s.cache.unitSize :=
    fun b hb hba hub => hba (h.unit_slab hb ha hub hu)
  refine ⟨hc.pageSize.trans h.page_eq, ?_, hq ▸ h.queues, ?_, ?_, ?_, ?_, ?_, ?_, ?_, ?_, ?_, ?_, hnd,
    ?_, hpages.trans h.inuse_eq⟩
  · change c.unitSize = roundUp (c.objSize + 8)
    rw [hc.unitSize, hc.objSize]
    exact h.unit_eq
  · intro b
    by_cases hb : b = a
    · subst hb
      have hb' : b ∈ Shelf.live { f with slab := Function.update f.slab b d,
                                         free := Function.update f.free b free } := ha
      rw [if_pos hb']
      simp only [Function.update_self]
    · simp only [Function.update_of_ne hb]
      exact h.slabs_eq b
  · intro b hb
    obtain ⟨h1, h2, h3, h4⟩ := hslab b
    simp only [h2, h3, h4, hc.self]
    exact h.desc b hb
  · intro b hb
    by_cases hba : b = a
    · subst hba
      simp only [Function.update_self, hc.unitSize]
      exact hholds
    · simp only [Function.update_of_ne hba, hc.unitSize]
      refine (h.holds b hb).congr ?_
      intro x hx
      refine Function.update_of_ne ?_ _ _
      rintro rfl
      exact hother b hb hba ((h.holds b hb).sub x hx)
  -- `a` is in hand now, so only the other slabs have to fit their lists
  · intro k b hb hne
    have hba : b ≠ a := fun he => hne (he ▸ rfl)
    rw [hunits]
    simp only [Function.update_of_ne hba]
    exact h.fits k b hb fun hh => hba (hhand b hh)
  · intro b hb
    simp only [hunits]
    exact h.units_ne b hb
  · simp only [hslab]
    exact h.held
  · simp only [hc.offslab]
    exact h.heldDesc
  · intro hoff b hb
    simp only [hslab]
    exact h.inside (hc.offslab ▸ hoff) b hb
  · rw [hcolor]
    exact h.color
  · intro x
    simp only [hunits]
    rw [hout]
    by_cases hxu : x = u
    · subst hxu
      constructor
      · rintro (⟨-, hne⟩ | ⟨-, hnot⟩)
        · exact absurd rfl hne
        · exact ⟨a, ha, hu, by rwa [Function.update_self]⟩
      · rintro ⟨b, hb, hxb, hnot⟩
        obtain rfl := h.unit_slab hb ha hxb hu
        rw [Function.update_self] at hnot
        exact Or.inr ⟨rfl, hnot⟩
    -- any other unit is free or out as before
    · have hstay : ∀ b ∈ f.live, x ∈ (f.slab b).units s.cache.unitSize →
          (x ∉ Function.update f.free a free b ↔ x ∉ f.free b) := by
        intro b _ hxb
        by_cases hba : b = a
        · subst hba
          rw [Function.update_self, hfree x hxb hxu]
        · rw [Function.update_of_ne hba]
      rw [h.mem_out]
      constructor
      · rintro (⟨⟨b, hb, hxb, hnot⟩, -⟩ | ⟨he, -⟩)
        · exact ⟨b, hb, hxb, (hstay b hb hxb).mpr hnot⟩
        · exact absurd he hxu
      · rintro ⟨b, hb, hxb, hnot⟩
        exact Or.inl ⟨⟨b, hb, hxb, (hstay b hb hxb).mp hnot⟩, hxu⟩
  · intro b hb x hx hnot
    rw [hunits] at hx
    by_cases hxu : x = u
    · subst hxu
      obtain rfl := h.unit_slab hb ha hx hu
      simp only [Function.update_self] at hnot ⊢
      exact hword hnot
    · simp only [Function.update_of_ne hxu]
      refine h.word b hb x hx ?_
      by_cases hba : b = a
      · subst hba
        simp only [Function.update_self] at hnot
        rwa [hfree x hx hxu] at hnot
      · simpa only [Function.update_of_ne hba] using hnot

/-- A unit is taken from a slab that has one. -/
theorem takeUnit_spec {a u : ℕ} {rest : List ℕ} (h : Stored E others othersDesc hand s f out)
    (hcnt : Counted s.cache f) (hhand : ∀ b, hand = some b → b = a) (ha : a ∈ f.lists .partly)
    (hfree : f.free a = u :: rest) :
    ∃ s' f', s.takeUnit (.slab a) = some (u + 8, s') ∧
      Stored E others othersDesc none s' f' (u :: out) ∧ Counted s'.cache f' ∧
      s.cache.Alike s'.cache ∧ s'.mem = Function.update s.mem u a := by
  have hlive : a ∈ f.live := Shelf.mem_live.mpr ⟨_, ha⟩
  have hh := h.holds a hlive
  rw [hfree] at hh
  have hu := hh.sub u List.mem_cons_self
  have hrest : u ∉ rest := (List.nodup_cons.mp hh.chain.nodup).1
  have hnotfull : (f.slab a).isFull ≠ true := fun hf => List.cons_ne_nil u rest (hh.isFull.mp hf)
  obtain ⟨d, halloc, hholds, hd⟩ := IMemSlab.alloc_spec hh
  -- what is free is not out, as a unit lies in one slab only
  have hout : u ∉ out := by
    intro hin
    obtain ⟨b, hb, hub, hnot⟩ := (h.mem_out u).mp hin
    obtain rfl := h.unit_slab hb hlive hub hu
    rw [hfree] at hnot
    exact hnot List.mem_cons_self
  -- the source tests the counter before it decrements it; here the test always succeeds
  have hpos : s.cache.freeObjects ≠ 0 := by
    have htotal := total_update (Shelf.live_nodup h.queues) hlive d rest
    rw [hfree, List.length_cons] at htotal
    rw [hcnt.objects_eq]
    omega
  -- the state after `alloc`, before the slab may have to change its list
  obtain ⟨c1, hc1⟩ : ∃ c : IMemCache, c = { s.cache with
      freeObjects := if s.cache.freeObjects ≠ 0 then s.cache.freeObjects - 1
        else s.cache.freeObjects } := ⟨_, rfl⟩
  have halike : s.cache.Alike c1 := by
    rw [hc1]
    exact ⟨rfl, rfl, rfl, rfl, rfl, rfl⟩
  obtain ⟨f1, hf1⟩ : ∃ g : Shelf, g = { f with
      slab := Function.update f.slab a d, free := Function.update f.free a rest } := ⟨_, rfl⟩
  obtain ⟨s1, hs1⟩ : ∃ t : CacheState σ τ, t = { s with
      slabs := Function.update s.slabs a (some d), mem := Function.update s.mem u a,
      cache := c1 } := ⟨_, rfl⟩
  have hst : Stored E others othersDesc (some a) s1 f1 (u :: out) := by
    rw [hs1, hf1]
    refine h.setUnit hhand hlive hu (by rw [hd]) (by rw [hd]) (by rw [hd]) (by rw [hd]) ?_ ?_ ?_
      (List.nodup_cons.mpr ⟨hout, h.nodup⟩) ?_ halike (by rw [hc1]) (by rw [hc1]) (by rw [hc1])
    · refine hholds.congr ?_
      intro x hx
      refine Function.update_of_ne ?_ _ _
      rintro rfl
      exact hrest hx
    · intro x _ hxu
      rw [hfree, List.mem_cons, or_iff_right hxu]
    · intro x
      rw [List.mem_cons]
      constructor
      · rintro (rfl | hx)
        · exact Or.inr ⟨rfl, hrest⟩
        · exact Or.inl ⟨hx, fun hxu => hout (hxu ▸ hx)⟩
      · rintro (⟨hx, -⟩ | ⟨rfl, -⟩)
        · exact Or.inr hx
        · exact Or.inl rfl
    · intro _
      obtain ⟨-, h8, -⟩ := h.desc a hlive
      exact Nat.div_mul_cancel h8
  have hcnt1 : Counted c1 f1 := by
    have htotal := total_update (Shelf.live_nodup h.queues) hlive d rest
    rw [hfree, List.length_cons, ← hf1] at htotal
    have hobj := hcnt.objects_eq
    rw [hc1]
    simp only [if_pos hpos]
    refine ⟨?_, ?_, ?_, ?_⟩
    · rw [hf1]
      exact hcnt.free_eq
    · rw [hf1]
      exact hcnt.full_eq
    · rw [hf1]
      exact hcnt.partial_eq
    · change s.cache.freeObjects - 1 = (f1.total : ℤ)
      omega
  have hslab1 : f1.slab a = d ∧ f1.free a = rest := by
    rw [hf1]
    exact ⟨Function.update_self _ _ _, Function.update_self _ _ _⟩
  have hlists1 : f1.lists = f.lists := by rw [hf1]
  have hholds1 : d.Holds s.mem s.cache.unitSize rest := hholds
  have hunits : (f1.slab a).units s1.cache.unitSize = (f.slab a).units s.cache.unitSize := by
    rw [hslab1.1, hd, hs1, halike.unitSize]
    rfl
  -- the slab moves to the full list exactly when this was its last free unit
  cases hr : rest with
  | nil =>
    rw [hr] at hholds1
    have hfull : d.isFull = true := hholds1.isFull.mpr rfl
    have ha1 : a ∈ f1.lists .partly := hlists1 ▸ ha
    obtain ⟨queues, hmove, hq⟩ := hst.queues.moveTo ha1 .full
    have hqueues : s1.cache.queues = s.cache.queues := by rw [hs1, hc1]
    have hmoved := hst.moved .full none (fun b hb => (Option.some.inj hb).symm) ha1
      (List.Perm.refl _) (c := { c1 with
        queues, countPartial := c1.countPartial - 1, countFull := c1.countFull + 1 })
      (by rw [hs1]; exact ⟨rfl, rfl, rfl, rfl, rfl, rfl⟩) (by rw [hs1]) (by rw [hs1]) hq
      (fun _ => by rw [hslab1.2, hr]; rfl)
    have hlen := IQueues.Lists.length_moved ha1 (by decide : SlabQueue.partly ≠ .full)
      (List.Perm.refl (a :: Function.update f1.lists .partly ((f1.lists .partly).erase a) .full))
    refine ⟨_, _, ?_, hmoved.1, ?_, ?_, ?_⟩
    · simp only [CacheState.takeUnit, h.entry_eq hlive, Option.bind_some, if_neg hnotfull, halloc,
        hfull, if_true]
      rw [← hqueues, hmove, hs1, hc1]
      rfl
    · refine ⟨?_, ?_, ?_, ?_⟩
      · rw [hlen .free]
        simpa using hcnt1.free_eq
      · rw [hlen .full]
        simpa using hcnt1.full_eq
      · rw [hlen .partly]
        simpa using hcnt1.partial_eq
      · rw [total_perm hmoved.2 rfl]
        exact hcnt1.objects_eq
    · rw [hs1, hc1]
      exact ⟨rfl, rfl, rfl, rfl, rfl, rfl⟩
    · rw [hs1]
  | cons v vs =>
    rw [hr] at hholds1
    have hnf : ¬ d.isFull = true := fun hf => List.cons_ne_nil v vs (hholds1.isFull.mp hf)
    refine ⟨s1, f1, ?_, hst.settle (k := .partly) (hlists1 ▸ ha) ?_, ?_, ?_, ?_⟩
    · simp only [CacheState.takeUnit, h.entry_eq hlive, Option.bind_some, if_neg hnotfull, halloc,
        if_neg hnf]
      rw [hs1, hc1]
    · rw [hunits, hslab1.2, hr]
      refine ⟨List.cons_ne_nil v vs, u, hu, ?_⟩
      rw [← hr]
      exact hrest
    · rw [hs1]
      exact hcnt1
    · rw [hs1]
      exact halike
    · rw [hs1]

end Stored

end HttpsProxy
