import HttpsProxy.MemCacheCalls

/-! A cache over any sequence of calls: its users get memory that is theirs until
they give it back, and nothing else passes for an object of theirs. -/
namespace HttpsProxy

/-- A call to a cache, or what a user does with an object of his. -/
inductive CacheCall where
  | alloc (cpu : Processor)
  | free (cpu : Processor) (cache : Option ℕ) (ptr : ℕ)
  | shrink (cpu : Processor)
  | write (ptr w v : ℕ)

/-- The objects in use, and the words that have been written into them. -/
structure Owned where
  inUse : List ℕ
  words : ℕ → Option ℕ

namespace CacheState

variable {σ τ : Type} (gfp : PageSupply σ) (set : DescSupply σ τ)

/-- Users give back, and write into, what they have got. -/
def call (s : CacheState σ τ) (o : Owned) : CacheCall → Option (CacheState σ τ × Owned)
  | .alloc cpu => (alloc gfp set cpu s).map fun r =>
    match r.1 with
    | none => (r.2, o)
    | some p => (r.2,
      { inUse := p :: o.inUse
        words := fun w => if p ≤ w ∧ w < p + s.cache.objSize then none else o.words w })
  | .free cpu cache ptr =>
    if ptr ∈ o.inUse ∧ (∀ a, cache = some a → a = s.cache.self) then
      (free gfp set cpu cache ptr s).map fun s => (s, { o with inUse := o.inUse.erase ptr })
    else none
  | .shrink cpu => (shrink gfp set cpu s).map fun s => (s, o)
  | .write ptr w v =>
    if ptr ∈ o.inUse ∧ ptr ≤ w ∧ w + 8 ≤ ptr + s.cache.objSize ∧ 8 ∣ w then
      some ({ s with mem := Function.update s.mem w v },
        { o with words := Function.update o.words w (some v) })
    else none

def run : CacheState σ τ → Owned → List CacheCall → Option (CacheState σ τ × Owned)
  | s, o, [] => some (s, o)
  | s, o, c :: cs => (call gfp set s o c).bind fun r => run r.1 r.2 cs

/-- A cache that has just been created. -/
def start (c : IMemCache) (mem : PageWords) (pages : σ) (descs : τ) : CacheState σ τ :=
  { cache := c, mem, slabs := fun _ => none, pages, descs }

end CacheState

def Owned.nothing : Owned := { inUse := [], words := fun _ => none }

/-- What the users have got is in order. -/
structure Serves {σ τ : Type} (E : Supplier σ τ) (others othersDesc : List ℕ) (s : CacheState σ τ)
    (f : Shelf) (kept : Processor → List ℕ) (units : List ℕ) (o : Owned) : Prop where
  keeps : Cached E others othersDesc s f kept [] units
  inUse_eq : o.inUse = units.map (· + 8)
  words : ∀ u ∈ units, ∀ w v, u + 8 ≤ w → w + 8 ≤ u + 8 + s.cache.objSize → o.words w = some v →
    s.mem w = v

namespace Serves

open CacheState

variable {σ τ : Type} {E : Supplier σ τ} {others othersDesc : List ℕ} {s : CacheState σ τ} {f : Shelf}
  {kept : Processor → List ℕ} {units : List ℕ} {o : Owned}

theorem mem_inUse (h : Serves E others othersDesc s f kept units o) {u : ℕ} :
    u + 8 ∈ o.inUse ↔ u ∈ units := by
  rw [h.inUse_eq, List.mem_map]
  simp

/-- The words of objects that a call spares keep what has been written into them. -/
theorem spared (h : Serves E others othersDesc s f kept units o) {s' : CacheState σ τ} {us : List ℕ}
    (hs : Spares s s' us) {u w v : ℕ} (hu : u ∈ units) (hus : u ∈ us) (hw : u + 8 ≤ w)
    (hw' : w + 8 ≤ u + 8 + s.cache.objSize) (hv : o.words w = some v) : s'.mem w = v := by
  have hsize := h.keeps.stored.size_le
  rw [hs.untouched u hus w (by omega) (by omega)]
  exact h.words u hu w v hw hw' hv

/-- What one call does. -/
theorem call (h : Serves E others othersDesc s f kept units o) {c : CacheCall}
    {r : CacheState σ τ × Owned} (hc : CacheState.call E.gfp E.set s o c = some r) :
    ∃ f' kept' units', Serves E others othersDesc r.1 f' kept' units' r.2 ∧
      s.cache.Steady r.1.cache := by
  cases c with
  | alloc cpu =>
    rw [CacheState.call, Option.map_eq_some_iff] at hc
    obtain ⟨r', halloc, rfl⟩ := hc
    rcases h.keeps.alloc_spec cpu with hnone | ⟨s', f', kept', ha, hk, hs⟩ |
      ⟨u, s', f', kept', ha, hk, hs⟩
    · rw [hnone] at halloc
      cases halloc
    -- nothing was free and no slab could be made, but the cache may have changed
    · obtain rfl := Option.some.inj (halloc.symm.trans ha)
      refine ⟨f', kept', units, ⟨hk, h.inUse_eq, ?_⟩, hs.steady⟩
      intro v hv w x hw hw' hx
      rw [hs.steady.objSize] at hw'
      exact h.spared hs hv hv hw hw' hx
    · obtain rfl := Option.some.inj (halloc.symm.trans ha)
      refine ⟨f', kept', u :: units, ⟨hk, ?_, ?_⟩, hs.steady⟩
      · rw [List.map_cons, ← h.inUse_eq]
      · intro v hv w x hw hw' hx
        simp only [hs.steady.objSize] at hw'
        have hsize : s.cache.objSize + 8 ≤ s.cache.unitSize := h.keeps.stored.size_le
        have hnd := (List.nodup_append.mp hk.stored.nodup).2.1
        rw [List.nil_append, List.nodup_cons] at hnd
        -- nothing has been written yet into the new object
        by_cases hin : u + 8 ≤ w ∧ w < u + 8 + s.cache.objSize
        · simp only [if_pos hin] at hx
          cases hx
        · simp only [if_neg hin] at hx
          have hvu : v ≠ u := by
            rintro rfl
            exact hin ⟨hw, by omega⟩
          have hvin : v ∈ units := (List.mem_cons.mp hv).resolve_left hvu
          exact h.spared hs hvin hvin hw hw' hx
  | free cpu cache ptr =>
    rw [CacheState.call] at hc
    split at hc
    -- the call is made with a pointer that is in use, and a unit lies 8 below it
    · rename_i hguard
      obtain ⟨hptr, hcache⟩ := hguard
      rw [h.inUse_eq, List.mem_map] at hptr
      obtain ⟨u, hu, rfl⟩ := hptr
      rcases h.keeps.free_spec cpu cache hcache hu with ⟨hf, -⟩ | ⟨s', f', kept', hf, hk, hs, -⟩
      · rw [hf] at hc
        cases hc
      rw [hf, Option.map_some] at hc
      obtain rfl := Option.some.inj hc
      refine ⟨f', kept', units.erase u, ⟨hk, ?_, ?_⟩, hs.steady⟩
      · change o.inUse.erase (u + 8) = _
        rw [h.inUse_eq, List.map_erase (add_left_injective 8)]
      · intro v hv w x hw hw' hx
        simp only [hs.steady.objSize] at hw'
        exact h.spared hs (List.mem_of_mem_erase hv) hv hw hw' hx
    · cases hc
  -- what is out stays out, so only the cached units move
  | shrink cpu =>
    rcases h.keeps.shrink_spec cpu with ⟨hsh, -⟩ | ⟨s', f', hsh, hk, hs, -⟩
    · rw [CacheState.call, hsh] at hc
      cases hc
    rw [CacheState.call, hsh, Option.map_some] at hc
    obtain rfl := Option.some.inj hc
    refine ⟨f', _, units, ⟨hk, h.inUse_eq, ?_⟩, hs.steady⟩
    intro v hv w x hw hw' hx
    simp only [hs.steady.objSize] at hw'
    exact h.spared hs hv hv hw hw' hx
  | write ptr w v =>
    rw [CacheState.call] at hc
    split at hc
    · rename_i hguard
      obtain ⟨hptr, hw, hw', -⟩ := hguard
      rw [h.inUse_eq, List.mem_map] at hptr
      obtain ⟨u, hu, rfl⟩ := hptr
      obtain rfl := Option.some.inj hc
      have hsize := h.keeps.stored.size_le
      refine ⟨f, kept, units, ⟨h.keeps.write hu (by omega) (by omega) v, h.inUse_eq, ?_⟩, rfl, rfl,
        rfl⟩
      intro x hx y z hy hy' hz
      by_cases hyw : y = w
      · subst hyw
        simp only [Function.update_self, Option.some.injEq] at hz ⊢
        exact hz
      · simp only [Function.update_of_ne hyw] at hz ⊢
        exact h.words x hx y z hy hy' hz
    · cases hc

theorem run {cs : List CacheCall} :
    ∀ {s : CacheState σ τ} {f : Shelf} {kept : Processor → List ℕ} {units : List ℕ} {o : Owned}
      {r : CacheState σ τ × Owned}, Serves E others othersDesc s f kept units o →
      CacheState.run E.gfp E.set s o cs = some r →
      ∃ f' kept' units', Serves E others othersDesc r.1 f' kept' units' r.2 ∧
        s.cache.Steady r.1.cache := by
  induction cs with
  | nil =>
    intro s f kept units o r h hr
    obtain rfl := Option.some.inj hr
    exact ⟨f, kept, units, h, rfl, rfl, rfl⟩
  | cons c cs ih =>
    intro s f kept units o r h hr
    rw [CacheState.run, Option.bind_eq_some_iff] at hr
    obtain ⟨r1, hc, hrest⟩ := hr
    obtain ⟨f1, kept1, units1, h1, hs1⟩ := h.call hc
    obtain ⟨f', kept', units', h', hs'⟩ := ih h1 hrest
    exact ⟨f', kept', units', h', hs1.trans hs'⟩

/-- The lists of a cache that has just been created. -/
def noSlabs : Shelf :=
  { lists := fun _ => [], slab := fun _ => ⟨0, 0, 0, 0, 0, 0⟩, free := fun _ => [] }

@[simp] theorem noSlabs_live : noSlabs.live = [] := rfl

@[simp] theorem noSlabs_lists (k : SlabQueue) : noSlabs.lists k = [] := rfl

theorem start {self objSize : ℕ} {c : IMemCache}
    (hc : IMemCache.create self objSize E.pageSize = some c) {pages : σ} {descs : τ}
    (hp : E.held pages others) (hd : E.heldDesc descs othersDesc) (mem : PageWords) :
    Serves E others othersDesc (CacheState.start c mem pages descs) noSlabs (fun _ => []) []
        Owned.nothing ∧ c.self = self ∧ c.objSize = objSize := by
  unfold IMemCache.create at hc
  split at hc
  · obtain rfl := Option.some.inj hc
    refine ⟨⟨⟨⟨rfl, rfl, ?_, ?_, ?_, ?_, ?_, ?_, ?_, ?_, ?_, ?_, ?_, ?_, ?_, rfl⟩, ⟨rfl, rfl, rfl, rfl⟩,
      fun _ => rfl, ?_, ?_, ?_, ?_⟩, rfl, ?_⟩, rfl, rfl⟩
    · refine ⟨?_, ?_, ?_⟩
      · intro k
        refine List.isChain_cons_cons.mpr ⟨?_, List.IsChain.singleton _⟩
        cases k <;> exact ⟨rfl, rfl⟩
      · intro k
        exact List.nodup_singleton _
      · intro k k' hk
        simp [Ne.symm hk]
    · intro a
      rw [if_neg (show a ∉ noSlabs.live by simp)]
      rfl
    · intro a ha
      simp at ha
    · intro a ha
      simp at ha
    · intro k a ha
      simp at ha
    · intro a ha
      simp at ha
    · exact hp
    · change E.heldDesc descs _
      rw [noSlabs_live, ite_self]
      exact hd
    · intro _ a ha
      simp at ha
    · exact dvd_zero 8
    · intro u
      simp
    · simp
    · intro a ha
      simp at ha
    · intro i j hj
      exact absurd hj (Nat.not_lt_zero j)
    · intro i
      have hlimit : ∀ n : ℕ, (if arrayLimit ≤ n then arrayLimit else n) ≤ arrayLimit := by
        intro n
        split
        · exact le_rfl
        · omega
      refine ⟨hlimit _, ?_⟩
      exact (Nat.div_le_self _ 2).trans (hlimit _)
    · intro u hu
      simp at hu
    · intro u hu
      simp at hu
    · intro u hu
      simp at hu
  · cases hc

end Serves

namespace CacheState

variable {σ τ : Type}

/-- Objects in use do not overlap each other, lie in pages that the supply has
given to this cache, and keep what their users have written into them. -/
theorem objects_own_memory (E : Supplier σ τ) {self objSize : ℕ} {c : IMemCache} {pages : σ} {descs : τ}
    {others othersDesc : List ℕ} (hc : IMemCache.create self objSize E.pageSize = some c)
    (hp : E.held pages others) (hd : E.heldDesc descs othersDesc) (mem : PageWords)
    {calls : List CacheCall} {s : CacheState σ τ} {o : Owned}
    (hrun : run E.gfp E.set (start c mem pages descs) Owned.nothing calls = some (s, o)) :
    o.inUse.Pairwise (fun p q : ℕ => Apart p objSize q objSize) ∧
      (∃ mine, E.held s.pages (mine ++ others) ∧ ∀ p ∈ o.inUse, 8 ∣ p ∧ ∃ page ∈ mine,
        page ≤ p ∧ p + objSize ≤ page + E.pageSize) ∧
      ∀ p ∈ o.inUse, ∀ w v, p ≤ w → w + 8 ≤ p + objSize → o.words w = some v → s.mem w = v := by
  obtain ⟨hstart, -, hobj⟩ := Serves.start hc hp hd mem
  -- all three parts hold of the state reached, by its invariant
  obtain ⟨f, kept, units, h, hsteady⟩ := hstart.run hrun
  have hsize : s.cache.objSize = objSize := hsteady.objSize.trans hobj
  have hst := h.keeps.stored
  have hle := hst.size_le
  rw [hsize] at hle
  refine ⟨?_, ⟨_, hst.held, ?_⟩, ?_⟩
  · have hap := h.keeps.objects_apart
    rw [hsize] at hap
    rwa [h.inUse_eq]
  · intro p hp
    rw [h.inUse_eq, List.mem_map] at hp
    obtain ⟨u, hu, rfl⟩ := hp
    -- an object lies in a unit, the unit in a slab, the slab in its page
    obtain ⟨a, ha, hua, -⟩ := hst.out_unit (Cached.mem_out.mpr (Or.inr hu))
    obtain ⟨hb1, hb2⟩ := hst.unit_bounds ha hua
    have h8 := hst.unit_dvd ha hua
    refine ⟨by omega, (f.slab a).membase, List.mem_map.mpr ⟨a, ha, rfl⟩, by omega, by omega⟩
  · intro p hp w v hw hw' hv
    rw [h.inUse_eq, List.mem_map] at hp
    obtain ⟨u, hu, rfl⟩ := hp
    exact h.words u hu w v hw (by rw [hsize]; exact hw') hv

end CacheState

/-- Memory that is never used twice. -/
def freshPages (size : ℕ) : PageSupply ℕ where
  alloc _ n := some (some (8 * size * (n + 1)), n + 1)
  free _ n _ := some n

/-- The pages that have been given and not taken back. -/
def freshHeld (size n : ℕ) (ps : List ℕ) : Prop :=
  ps.Nodup ∧ ∀ p ∈ ps, ∃ i < n, p = 8 * size * (i + 1)

theorem freshPages_lawful (size : ℕ) (hpos : 0 < size) :
    (freshPages size).Lawful size (freshHeld size) fun _ => True := by
  have happ : ∀ i j : ℕ, i < j → 8 * size * (i + 1) + 8 * size ≤ 8 * size * (j + 1) := by
    intro i j hij
    have hmul := Nat.mul_le_mul_left (8 * size) (show i + 1 + 1 ≤ j + 1 by omega)
    rwa [Nat.mul_succ] at hmul
  refine ⟨?_, ?_, ?_, ?_, fun _ _ _ _ _ _ => ⟨_, rfl, trivial⟩, ?_, ?_⟩
  · intro n ps ps' h hp
    exact ⟨hp.nodup h.1, fun p hin => h.2 p (hp.mem_iff.mpr hin)⟩
  · intro cpu n n' p ps h ha
    obtain ⟨hp, rfl⟩ := Prod.mk.inj (Option.some.inj ha)
    obtain rfl := Option.some.inj hp
    refine ⟨List.nodup_cons.mpr ⟨?_, h.1⟩, ?_⟩
    · intro hin
      obtain ⟨i, hi, he⟩ := h.2 _ hin
      have := happ i n hi
      omega
    · intro q hq
      rcases List.mem_cons.mp hq with rfl | hq
      · exact ⟨n, Nat.lt_succ_self n, rfl⟩
      · obtain ⟨i, hi, he⟩ := h.2 q hq
        exact ⟨i, by omega, he⟩
  · intro cpu n n' ps h ha
    cases (Prod.mk.inj (Option.some.inj ha)).1
  · intro cpu n n' p ps h hf
    obtain rfl := Option.some.inj hf
    exact ⟨(List.nodup_cons.mp h.1).2, fun q hq => h.2 q (List.mem_cons_of_mem _ hq)⟩
  · intro n ps h
    refine h.1.imp_of_mem ?_
    intro p q hp hq hpq
    obtain ⟨i, -, rfl⟩ := h.2 p hp
    obtain ⟨j, -, rfl⟩ := h.2 q hq
    have hij : i ≠ j := by
      rintro rfl
      exact hpq rfl
    rcases Nat.lt_or_gt_of_ne hij with hlt | hlt
    · left
      have hle := happ i j hlt
      exact_mod_cast (by omega : 8 * size * (i + 1) + size ≤ 8 * size * (j + 1))
    · right
      have hle := happ j i hlt
      exact_mod_cast (by omega : 8 * size * (j + 1) + size ≤ 8 * size * (i + 1))
  · intro n ps h p hp
    obtain ⟨i, -, rfl⟩ := h.2 p hp
    have hmul : 0 < 8 * size * (i + 1) := Nat.mul_pos (by omega) (Nat.succ_pos i)
    exact ⟨hmul, Dvd.intro (size * (i + 1)) (by ring)⟩

/-- Descriptors from such memory. -/
def freshDescs (σ : Type) : DescSupply σ ℕ where
  alloc := (freshPages slabSize).alloc ⟨0, by decide⟩
  free _ := (freshPages slabSize).free ⟨0, by decide⟩

theorem freshDescs_lawful {σ : Type} (S : PageSupply σ) :
    (freshDescs σ).Lawful S slabSize (freshHeld slabSize) := by
  have h := freshPages_lawful slabSize (by decide)
  refine ⟨h.perm, ?_, ?_, ?_, fun _ _ _ _ => rfl, fun _ _ => rfl, h.apart, h.good⟩
  · intro t t' p ps hh ha
    exact h.granted hh (show (freshPages slabSize).alloc ⟨0, by decide⟩ t = some (some p, t') from ha)
  · intro t t' ps hh ha
    exact h.refused hh (show (freshPages slabSize).alloc ⟨0, by decide⟩ t = some (none, t') from ha)
  · intro s t t' p ps hh hf
    exact h.freed hh (show (freshPages slabSize).free ⟨0, by decide⟩ t p = some t' from hf)

/-- Pages of 4224 bytes. -/
def freshSupplier : Supplier ℕ ℕ where
  gfp := freshPages 4224
  set := freshDescs ℕ
  pageSize := 4224
  held := freshHeld 4224
  takes _ := True
  heldDesc := freshHeld slabSize
  pages := freshPages_lawful 4224 (by decide)
  descs := freshDescs_lawful _

theorem freshSupplier_takesBack (s : CacheState ℕ ℕ) : freshSupplier.TakesBack s :=
  ⟨trivial, fun _ _ _ => rfl⟩

/-- A cache of four objects a page. -/
def smallCache : IMemCache := (IMemCache.create 1000 1016 4224).get (by decide)

theorem smallCache_eq : IMemCache.create 1000 1016 freshSupplier.pageSize = some smallCache :=
  (Option.some_get _).symm

/-- Two objects are handed out, to two processors, and the first one is written
into. -/
def twoObjects (i j : Processor) : List CacheCall := [.alloc i, .write 102488 102488 7, .alloc j]

namespace CacheState

/-- The slab at 101392 has the second unit of its four in use. -/
theorem run_twoObjects : ∃ s o,
    run freshSupplier.gfp freshSupplier.set (start smallCache (fun _ => 0) 0 0) Owned.nothing
      (twoObjects 0 3) = some (s, o) ∧ o.inUse = [172136, 102488] ∧ o.words 102488 = some 7 ∧
      ∃ d, s.slabs 101392 = some d ∧
        d.units s.cache.unitSize = [101456, 102480, 103504, 104528] := by
  have hrun : (run freshSupplier.gfp freshSupplier.set (start smallCache (fun _ => 0) 0 0)
      Owned.nothing (twoObjects 0 3)).map (fun r => (r.2.inUse, r.2.words 102488,
        (r.1.slabs 101392).map fun d => d.units r.1.cache.unitSize)) =
      some ([172136, 102488], some 7, some [101456, 102480, 103504, 104528]) := by decide +kernel
  obtain ⟨r, hr, he⟩ := Option.map_eq_some_iff.mp hrun
  obtain ⟨h1, h2⟩ := Prod.mk.inj he
  obtain ⟨h2, h3⟩ := Prod.mk.inj h2
  obtain ⟨d, hd, hunits⟩ := Option.map_eq_some_iff.mp h3
  exact ⟨r.1, r.2, hr, h1, h2, d, hd, hunits⟩

theorem freshHeld_nil (size : ℕ) : freshHeld size 0 [] :=
  ⟨List.nodup_nil, fun _ hp => absurd hp List.not_mem_nil⟩

theorem objects_own_memory_two : ∃ s o,
    run freshSupplier.gfp freshSupplier.set (start smallCache (fun _ => 0) 0 0) Owned.nothing
      (twoObjects 0 3) = some (s, o) ∧ o.inUse = [172136, 102488] ∧ s.mem 102488 = 7 ∧
      o.inUse.Pairwise (fun p q : ℕ => Apart p (1016 : ℕ) q (1016 : ℕ)) := by
  obtain ⟨s, o, hrun, hin, hw, -⟩ := run_twoObjects
  obtain ⟨hap, -, hkept⟩ := objects_own_memory freshSupplier smallCache_eq
    (freshHeld_nil 4224) (freshHeld_nil slabSize) (fun _ => 0) hrun
  refine ⟨s, o, hrun, hin, hkept 102488 ?_ 102488 7 le_rfl (by decide) hw, hap⟩
  rw [hin]
  decide

end CacheState

end HttpsProxy
