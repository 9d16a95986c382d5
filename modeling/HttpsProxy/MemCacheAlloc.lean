import HttpsProxy.MemCacheSpec

/-! `imemcache_list_alloc`: a unit of a slab that has one, of an empty slab, or of
a new one. -/
namespace HttpsProxy

namespace Stored

variable {σ τ : Type} {E : Supplier σ τ} {others othersDesc out : List ℕ} {hand : Option ℕ}
  {s : CacheState σ τ} {f : Shelf}

/-- Nothing is written into the units that are out. -/
def Untouched (s s' : CacheState σ τ) (out : List ℕ) : Prop :=
  ∀ v ∈ out, ∀ w, v ≤ w → w < v + s.cache.unitSize → s'.mem w = s.mem w

theorem out_unit (h : Stored E others othersDesc hand s f out) {u : ℕ} (hu : u ∈ out) :
    ∃ a ∈ f.live, u ∈ (f.slab a).units s.cache.unitSize ∧ u ∉ f.free a :=
  (h.mem_out u).mp hu

/-- A word that is written at another unit is in none of them. -/
theorem untouched_update (h : Stored E others othersDesc hand s f out) {a u v : ℕ} (ha : a ∈ f.live)
    (hu : u ∈ (f.slab a).units s.cache.unitSize) {outs : List ℕ} (hsub : ∀ x ∈ outs, x ∈ out ∧ x ≠ u)
    {s' : CacheState σ τ} (hs' : s'.mem = Function.update s.mem u v) : Untouched s s' outs := by
  intro x hx w hxw hwx
  obtain ⟨hxo, hxu⟩ := hsub x hx
  obtain ⟨b, hb, hxb, -⟩ := h.out_unit hxo
  have hpos := h.size_le
  rw [hs']
  refine Function.update_of_ne ?_ _ _
  rintro rfl
  rcases h.units_apart hb ha hxb hu hxu with hap | hap <;> omega

/-- What a new slab has got: a page, and a descriptor in front of its units or
somewhere else. -/
structure Placed (E : Supplier σ τ) (others othersDesc : List ℕ) (s : CacheState σ τ) (f : Shelf)
    (slab page coloroff : ℕ) (pages : σ) (descs : τ) : Prop where
  held : E.held pages (page :: ((f.live.map fun a => (f.slab a).membase) ++ others))
  heldDesc : E.heldDesc descs ((if s.cache.offslab then slab :: f.live else []) ++ othersDesc)
  inside : s.cache.offslab = false → page ≤ slab ∧ slab + slabSize = page + coloroff
  color : 8 ∣ coloroff
  pos : slab ≠ 0

theorem Placed.new_slab (h : Stored E others othersDesc none s f out) {slab page coloroff : ℕ}
    {pages : σ} {descs : τ} (hp : Placed E others othersDesc s f slab page coloroff pages descs)
    (hfit : coloroff + s.cache.unitSize ≤ E.pageSize) : slab ∉ f.live := by
  intro hin
  have hsize := h.size_le
  have hslab : slabSize = 64 := rfl
  by_cases hoff : s.cache.offslab = true
  · have hd := hp.heldDesc
    rw [if_pos hoff] at hd
    have hap := (List.pairwise_cons.mp (E.descs.apart hd)).1 slab (List.mem_append_left _ hin)
    rcases hap with hap | hap <;> omega
  · have hoff' : s.cache.offslab = false := by simpa using hoff
    obtain ⟨hp1, hp2⟩ := hp.inside hoff'
    obtain ⟨hs1, hs2⟩ := h.inside hoff' slab hin
    obtain ⟨u, hu⟩ := List.exists_mem_of_ne_nil _ (h.units_ne slab hin)
    obtain ⟨hu1, hu2⟩ := h.unit_bounds hin hu
    have hap := (List.pairwise_cons.mp (E.pages.apart hp.held)).1 _
      (List.mem_append_left _ (List.mem_map_of_mem hin))
    rcases hap with hap | hap <;> omega

/-- The new slab joins the lists. -/
theorem Placed.join (h : Stored E others othersDesc none s f out) (hcnt : Counted s.cache f)
    {slab page coloroff : ℕ} {pages : σ} {descs : τ}
    (hp : Placed E others othersDesc s f slab page coloroff pages descs) (h8 : 8 ∣ slab) {d : IMemSlab}
    {mem : PageWords} (hbase : d.membase = page) (hmemsize : d.memsize = E.pageSize)
    (hcol : d.coloroff = coloroff) (hextra : d.extra = s.cache.self)
    (hholds : d.Holds mem s.cache.unitSize (d.units s.cache.unitSize))
    (hmem : ∀ x, x ∉ d.units s.cache.unitSize → x ≠ 0 → mem x = s.mem x)
    (hne : d.units s.cache.unitSize ≠ []) {c : IMemCache} (hc : s.cache.Alike c)
    (hcolor : 8 ∣ c.colorNext) (hpages : c.pagesInuse = s.cache.pagesInuse + 1)
    (hq : c.queues.Lists (Function.update f.lists .partly (slab :: f.lists .partly)))
    (hfree : c.countFree = s.cache.countFree) (hfull : c.countFull = s.cache.countFull)
    (hpart : c.countPartial = s.cache.countPartial + 1)
    (hobj : c.freeObjects = s.cache.freeObjects + (d.units s.cache.unitSize).length) :
    ∃ f', Stored E others othersDesc (some slab)
        { s with slabs := Function.update s.slabs slab (some d), mem, cache := c, pages, descs } f'
        out ∧ Counted c f' ∧ slab ∈ f'.lists .partly ∧ f'.free slab = d.units s.cache.unitSize ∧
      Untouched s { s with slabs := Function.update s.slabs slab (some d), mem, cache := c, pages,
                           descs } out := by
  obtain ⟨u, hu⟩ := List.exists_mem_of_ne_nil _ hne
  have hub := IMemSlab.mem_units hu
  -- the supplier never gives out an address that is held, so the slab is new
  have hnew : slab ∉ f.live := hp.new_slab h (by omega)
  obtain ⟨f', hf'⟩ : ∃ g : Shelf, g = {
      lists := Function.update f.lists .partly (slab :: f.lists .partly)
      slab := Function.update f.slab slab d
      free := Function.update f.free slab (d.units s.cache.unitSize) } := ⟨_, rfl⟩
  have hlists : f'.lists = Function.update f.lists .partly (slab :: f.lists .partly) := by rw [hf']
  have hslab : f'.slab slab = d ∧ f'.free slab = d.units s.cache.unitSize := by
    rw [hf']
    exact ⟨Function.update_self _ _ _, Function.update_self _ _ _⟩
  -- all facts about the slabs of `f'` follow from this one, by the cases in `hcases`
  have hperm : f'.live.Perm (slab :: f.live) := by
    simp only [Shelf.live, hlists, Function.update_self]
    rw [Function.update_of_ne (by decide), Function.update_of_ne (by decide)]
    exact List.perm_middle
  have hne_of : ∀ b ∈ f.live, b ≠ slab := fun b hb he => hnew (he ▸ hb)
  have hold : ∀ b ∈ f.live, f'.slab b = f.slab b ∧ f'.free b = f.free b := by
    intro b hb
    rw [hf']
    exact ⟨Function.update_of_ne (hne_of b hb) _ _, Function.update_of_ne (hne_of b hb) _ _⟩
  have hmap : f'.live.map (fun a => (f'.slab a).membase) |>.Perm
      (page :: f.live.map fun a => (f.slab a).membase) := by
    refine (hperm.map _).trans ?_
    rw [List.map_cons, hslab.1, hbase]
    refine List.Perm.cons _ (List.Perm.of_eq (List.map_congr_left ?_))
    intro b hb
    rw [(hold b hb).1]
  -- the units there have been lie in other pages
  have hstay : ∀ b ∈ f.live, ∀ x ∈ (f.slab b).units s.cache.unitSize, ∀ w, x ≤ w →
      w < x + s.cache.unitSize → w ∉ d.units s.cache.unitSize ∧ mem w = s.mem w := by
    intro b hb x hx w hxw hwx
    have hwd : w ∉ d.units s.cache.unitSize := by
      intro hin
      obtain ⟨hx1, hx2⟩ := IMemSlab.mem_units hin
      obtain ⟨hx3, hx4⟩ := h.unit_bounds hb hx
      have hap := (List.pairwise_cons.mp (E.pages.apart hp.held)).1 _
        (List.mem_append_left _ (List.mem_map_of_mem hb))
      have hsize := h.size_le
      rcases hap with hap | hap <;> omega
    have hpos := h.unit_pos hb hx
    exact ⟨hwd, hmem w hwd (by omega)⟩
  have hfirst : ∀ b ∈ f.live, ∀ x ∈ (f.slab b).units s.cache.unitSize, mem x = s.mem x := by
    intro b hb x hx
    have hsize := h.size_le
    exact (hstay b hb x hx x le_rfl (by omega)).2
  have hcases : ∀ b ∈ f'.live, b = slab ∨ b ∈ f.live := fun b hb =>
    List.mem_cons.mp (hperm.mem_iff.mp hb)
  -- each clause holds of the new slab by hypothesis, of the others as it did before
  refine ⟨f', ⟨hc.pageSize.trans h.page_eq, ?_, hlists ▸ hq, ?_, ?_, ?_, ?_, ?_, ?_, ?_, ?_, hcolor,
    ?_, h.nodup, ?_, ?_⟩, ⟨?_, ?_, ?_, ?_⟩, ?_, hslab.2, ?_⟩
  · change c.unitSize = roundUp (c.objSize + 8)
    rw [hc.unitSize, hc.objSize]
    exact h.unit_eq
  · intro b
    by_cases hb : b = slab
    · subst hb
      have hin : b ∈ f'.live := hperm.mem_iff.mpr List.mem_cons_self
      rw [if_pos hin, hslab.1]
      exact Function.update_self _ _ _
    · change Function.update s.slabs slab (some d) b = _
      rw [Function.update_of_ne hb, h.slabs_eq]
      by_cases hin : b ∈ f.live
      · rw [if_pos hin, if_pos (hperm.mem_iff.mpr (List.mem_cons_of_mem _ hin)), (hold b hin).1]
      · rw [if_neg hin, if_neg]
        intro hb'
        exact (hcases b hb').elim hb hin
  · intro b hb
    simp only [hc.self]
    rcases hcases b hb with rfl | hb
    · rw [hslab.1]
      exact ⟨hp.pos, h8, hextra, hmemsize, hcol ▸ hp.color⟩
    · rw [(hold b hb).1]
      exact h.desc b hb
  · intro b hb
    simp only [hc.unitSize]
    rcases hcases b hb with rfl | hb
    · rw [hslab.1, hslab.2]
      exact hholds
    · rw [(hold b hb).1, (hold b hb).2]
      exact (h.holds b hb).congr fun x hx => hfirst b hb x ((h.holds b hb).sub x hx)
  -- the new slab is in hand: it need not fit its list until the unit is taken
  · intro k b hb hh
    simp only [hc.unitSize]
    have hbs : b ≠ slab := fun he => hh (he ▸ rfl)
    have hbk : b ∈ f.lists k := by
      rw [hlists] at hb
      by_cases hk : k = .partly
      · subst hk
        rw [Function.update_self] at hb
        exact (List.mem_cons.mp hb).resolve_left hbs
      · rwa [Function.update_of_ne hk] at hb
    have hbl : b ∈ f.live := Shelf.mem_live.mpr ⟨k, hbk⟩
    rw [(hold b hbl).1, (hold b hbl).2]
    exact h.fits k b hbk (Option.some_ne_none b).symm
  · intro b hb
    simp only [hc.unitSize]
    rcases hcases b hb with rfl | hb
    · rw [hslab.1]
      exact hne
    · rw [(hold b hb).1]
      exact h.units_ne b hb
  -- the suppliers do not care in which order the held addresses are listed
  · refine E.pages.perm hp.held ?_
    exact (hmap.symm.append_right others)
  · refine E.descs.perm hp.heldDesc ?_
    simp only [hc.offslab]
    split
    · exact hperm.symm.append_right _
    · exact List.Perm.refl _
  · intro hoff b hb
    have hoff' : s.cache.offslab = false := hc.offslab ▸ hoff
    rcases hcases b hb with rfl | hb
    · rw [hslab.1, hbase, hcol]
      exact hp.inside hoff'
    · rw [(hold b hb).1]
      exact h.inside hoff' b hb
  · intro x
    simp only [hc.unitSize]
    rw [h.mem_out]
    constructor
    -- nothing of the new slab is out: all its units are free
    · rintro ⟨b, hb, hxb, hnot⟩
      refine ⟨b, hperm.mem_iff.mpr (List.mem_cons_of_mem _ hb), ?_, ?_⟩
      · rwa [(hold b hb).1]
      · rwa [(hold b hb).2]
    · rintro ⟨b, hb, hxb, hnot⟩
      rcases hcases b hb with rfl | hb
      · rw [hslab.2] at hnot
        rw [hslab.1] at hxb
        exact absurd hxb hnot
      · rw [(hold b hb).1] at hxb
        rw [(hold b hb).2] at hnot
        exact ⟨b, hb, hxb, hnot⟩
  -- a unit that is out still has its slab in its first word
  · intro b hb x hx hnot
    simp only [hc.unitSize] at hx
    rcases hcases b hb with rfl | hb
    · rw [hslab.2] at hnot
      rw [hslab.1] at hx
      exact absurd hx hnot
    · rw [(hold b hb).1] at hx
      rw [(hold b hb).2] at hnot
      change mem x / 8 * 8 = b
      rw [hfirst b hb x hx]
      exact h.word b hb x hx hnot
  · change c.pagesInuse = _
    rw [hpages, h.inuse_eq, hperm.length_eq, List.length_cons]
    push_cast
    rfl
  · rw [hlists, Function.update_of_ne (by decide), hfree]
    exact hcnt.free_eq
  · rw [hlists, Function.update_of_ne (by decide), hfull]
    exact hcnt.full_eq
  · rw [hlists, Function.update_self, hpart, hcnt.partial_eq, List.length_cons]
    push_cast
    rfl
  · have hsum : f'.total = (d.units s.cache.unitSize).length + f.total := by
      rw [Shelf.total, (hperm.map _).sum_eq, List.map_cons, List.sum_cons, hslab.2, Shelf.total]
      congr 2
      apply List.map_congr_left
      intro b hb
      rw [(hold b hb).2]
    rw [hobj, hcnt.objects_eq, hsum]
    push_cast
    omega
  · rw [hlists, Function.update_self]
    exact List.mem_cons_self

  · intro v hv w hvw hwv
    obtain ⟨b, hb, hvb, -⟩ := h.out_unit hv
    exact (hstay b hb v hvb w hvw hwv).2

/-- The end of `imemcache_slab_create`. -/
theorem place_spec (slab page coloroff : ℕ) (hpage : page ≠ 0) (hunit : 8 ≤ s.cache.unitSize) :
    s.place slab page coloroff = none ∨ ∃ (d : IMemSlab) (mem : PageWords),
      s.place slab page coloroff =
        some (some (slab, ((d.units s.cache.unitSize).length : ℤ)),
          { s with
            mem
            slabs := Function.update s.slabs slab (some d)
            cache := { s.cache with
              queues := s.cache.queues.init (.slab slab)
              colorNext := if s.cache.colorLimit ≤ s.cache.colorNext + roundSize then 0
                else s.cache.colorNext + roundSize
              pagesNew := s.cache.pagesNew + 1
              pagesInuse := s.cache.pagesInuse + 1 } }) ∧
      8 ∣ slab ∧ d.membase = page ∧ d.memsize = s.cache.pageSize ∧ d.coloroff = coloroff ∧
      d.extra = s.cache.self ∧ d.Holds mem s.cache.unitSize (d.units s.cache.unitSize) ∧
      ∀ x, x ∉ d.units s.cache.unitSize → x ≠ 0 → mem x = s.mem x := by
  by_cases h8 : roundUp slab = slab
  · right
    obtain ⟨r, mem, hinit, hbase, hsize, hcol, -, hholds, hmem⟩ := IMemSlab.init_spec
      s.mem s.cache.pageSize coloroff hpage hunit
    have hlen : (r.units s.cache.unitSize).length =
        (s.cache.pageSize - coloroff) / s.cache.unitSize := by
      simp only [IMemSlab.units, IMemSlab.row, List.length_map, List.length_range, hsize, hcol]
    refine ⟨{ r with extra := s.cache.self }, mem, ?_, h8 ▸ roundUp_dvd slab, hbase, hsize, hcol, rfl,
      ⟨hholds.chain, hholds.sub, hholds.inuse_eq⟩, hmem⟩
    simp only [CacheState.place, if_pos h8, hinit, Option.map_some]
    rw [← hlen]
    rfl
  · left
    rw [CacheState.place, if_neg h8]

/-- A page is not given, or given back. -/
theorem supplied (h : Stored E others othersDesc hand s f out) {pages : σ} {descs : τ}
    (hp : E.held pages ((f.live.map fun a => (f.slab a).membase) ++ others))
    (hd : E.heldDesc descs ((if s.cache.offslab then f.live else []) ++ othersDesc)) :
    Stored E others othersDesc hand { s with pages, descs } f out :=
  { h with held := hp, heldDesc := hd }

theorem inHand (h : Stored E others othersDesc none s f out) (a : ℕ) :
    Stored E others othersDesc (some a) s f out :=
  { h with fits := fun k b hb _ => h.fits k b hb (by simp) }

/-- What comes of the search for a slab with a free unit. -/
inductive Chosen (E : Supplier σ τ) (others othersDesc : List ℕ) (s : CacheState σ τ) (f : Shelf)
    (out : List ℕ) : Option (Option QueueNode × CacheState σ τ) → Prop where
  /-- An `assert` of the supplies has failed. -/
  | aborted : Chosen E others othersDesc s f out none
  | refused {s' : CacheState σ τ} (stored : Stored E others othersDesc none s' f out)
      (counted : Counted s'.cache f) (alike : s.cache.Alike s'.cache) (mem : s'.mem = s.mem) :
      Chosen E others othersDesc s f out (some (none, s'))
  /-- A new slab has not even one unit. -/
  | useless {p : QueueNode} {s' : CacheState σ τ} (none : s'.takeUnit p = none) :
      Chosen E others othersDesc s f out (some (some p, s'))
  | found {a : ℕ} {s' : CacheState σ τ} {f' : Shelf}
      (stored : Stored E others othersDesc (some a) s' f' out) (counted : Counted s'.cache f')
      (alike : s.cache.Alike s'.cache) (listed : a ∈ f'.lists .partly) (free : f'.free a ≠ [])
      (untouched : Untouched s s' out) : Chosen E others othersDesc s f out (some (some (.slab a), s'))

/-- The end of `imemcache_slab_create` and what follows it. -/
theorem chosen_place (h : Stored E others othersDesc none s f out) (hcnt : Counted s.cache f)
    {slab page coloroff : ℕ} {pages : σ} {descs : τ}
    (hp : Placed E others othersDesc s f slab page coloroff pages descs) :
    Chosen E others othersDesc s f out
      ((CacheState.place { s with pages, descs } slab page coloroff).bind CacheState.enlist) := by
  have hgood := E.pages.good hp.held page List.mem_cons_self
  have hsize := h.size_le
  have hunit : 8 ≤ s.cache.unitSize := by omega
  rcases place_spec (s := { s with pages, descs }) slab page coloroff (by omega) hunit with
    hnone | ⟨d, mem, hplace, h8, hbase, hmemsize, hcol, hextra, hholds, hmem⟩
  · rw [hnone]
    exact .aborted
  · rw [hplace, Option.bind_some]
    by_cases hne : d.units s.cache.unitSize = []
    · cases hadd : (s.cache.queues.init (.slab slab)).add (.slab slab) (.head .partly) with
      | none =>
        simp only [CacheState.enlist, hadd]
        exact .aborted
      | some queues =>
        simp only [CacheState.enlist, hadd, Option.map_some]
        refine .useless ?_
        have hfull : d.isFull = true := hholds.isFull.mpr hne
        simp only [CacheState.takeUnit, CacheState.entry, Function.update_self, Option.map_some,
          Option.bind_some, hfull, if_true]
    · obtain ⟨u, hu⟩ := List.exists_mem_of_ne_nil _ hne
      have hub := IMemSlab.mem_units hu
      have hpe := h.page_eq
      have hms : d.memsize = E.pageSize := hmemsize.trans h.page_eq
      have hnew : slab ∉ f.live := hp.new_slab h (by omega)
      have hnewk : ∀ k, slab ∉ f.lists k := fun k hin => hnew (Shelf.mem_live.mpr ⟨k, hin⟩)
      obtain ⟨queues, hadd, hq⟩ := (h.queues.init hnewk).add hnewk .partly
      simp only [CacheState.enlist, hadd, Option.map_some]
      obtain ⟨f', hst, hc, hl, hf, hun⟩ := hp.join h hcnt h8 hbase hms hcol hextra hholds hmem hne
        (c := { s.cache with
          queues, colorNext := if s.cache.colorLimit ≤ s.cache.colorNext + roundSize then 0
            else s.cache.colorNext + roundSize
          pagesNew := s.cache.pagesNew + 1, pagesInuse := s.cache.pagesInuse + 1
          freeObjects := s.cache.freeObjects + (d.units s.cache.unitSize).length
          countPartial := s.cache.countPartial + 1 })
        ⟨rfl, rfl, rfl, rfl, rfl, rfl⟩ (by
          change 8 ∣ if s.cache.colorLimit ≤ s.cache.colorNext + roundSize then 0
            else s.cache.colorNext + roundSize
          split
          · exact dvd_zero 8
          · exact Nat.dvd_add h.color (dvd_refl 8)) rfl hq rfl rfl rfl rfl
      exact .found hst hc ⟨rfl, rfl, rfl, rfl, rfl, rfl⟩ hl (hf ▸ hne) hun

theorem chosen_create (h : Stored E others othersDesc none s f out) (hcnt : Counted s.cache f)
    (cpu : Processor) :
    Chosen E others othersDesc s f out
      ((CacheState.slabCreate E.gfp E.set cpu s).bind CacheState.enlist) := by
  unfold CacheState.slabCreate
  have halike : s.cache.Alike s.cache := ⟨rfl, rfl, rfl, rfl, rfl, rfl⟩
  cases hpage : E.gfp.alloc cpu s.pages with
  | none => exact .aborted
  | some r =>
    obtain ⟨p, pages⟩ := r
    cases p with
    | none =>
      exact .refused (h.supplied (E.pages.refused h.held hpage) h.heldDesc) hcnt halike rfl
    | some page =>
      have hheld := E.pages.granted h.held hpage
      by_cases hoff : s.cache.offslab = true
      · simp only [hoff, if_true]
        cases hdesc : E.set.alloc s.descs with
        | none => exact .aborted
        | some r =>
          obtain ⟨q, descs⟩ := r
          have hold := h.heldDesc
          rw [if_pos hoff] at hold
          cases q with
          | none =>
            cases hfree : E.gfp.free cpu pages page with
            | none =>
              simp only [Option.map_none, Option.bind_none]
              exact .aborted
            | some pages' =>
              simp only [Option.map_some, Option.bind_some]
              refine .refused (h.supplied (E.pages.freed hheld hfree) ?_) hcnt halike rfl
              rw [if_pos hoff]
              exact E.descs.refused hold hdesc
          | some slab =>
            have hheldDesc := E.descs.granted hold hdesc
            refine h.chosen_place hcnt ⟨hheld, ?_, ?_, h.color, ?_⟩
            · rw [if_pos hoff]
              exact hheldDesc
            · intro hoff'
              rw [hoff] at hoff'
              exact absurd hoff' (by decide)
            · have := E.descs.good hheldDesc slab List.mem_cons_self
              omega
      · have hoff' : s.cache.offslab = false := by simpa using hoff
        simp only [hoff', Bool.false_eq_true, if_false]
        have hgood := E.pages.good hheld page List.mem_cons_self
        have hle := le_roundUp (page + s.cache.colorNext)
        refine @chosen_place _ _ _ _ _ _ _ _ h hcnt _ _ _ _ s.descs ⟨hheld, ?_, ?_, ?_, ?_⟩
        · rw [if_neg hoff]
          have hold := h.heldDesc
          rwa [if_neg hoff] at hold
        · intro _
          exact ⟨Nat.le_add_right _ _, by omega⟩
        · have hdvd : (8 : ℕ) ∣ roundUp (page + s.cache.colorNext) := roundUp_dvd _
          have hslab : slabSize = 64 := rfl
          omega
        · omega

/-- The search ends at a slab with a free unit, unless there is no page for it. -/
theorem choose_spec (h : Stored E others othersDesc none s f out) (hcnt : Counted s.cache f)
    (cpu : Processor) :
    Chosen E others othersDesc s f out (CacheState.choose E.gfp E.set cpu s) := by
  have hpart := (h.queues.ends .partly).1
  have hfr := (h.queues.ends .free).1
  have halike : s.cache.Alike s.cache := ⟨rfl, rfl, rfl, rfl, rfl, rfl⟩
  cases hp : f.lists .partly with
  | cons a as =>
    rw [hp] at hpart
    have ha : a ∈ f.lists .partly := hp ▸ List.mem_cons_self
    have hchoose : CacheState.choose E.gfp E.set cpu s = some (some (.slab a), s) := by
      simp only [CacheState.choose, hpart, List.map_cons, List.headD_cons]
      rfl
    rw [hchoose]
    exact .found (h.inHand a) hcnt halike ha (h.fits _ a ha (by simp)).1 fun _ _ _ _ _ => rfl
  | nil =>
    rw [hp, List.map_nil, List.headD_nil] at hpart
    cases hf : f.lists .free with
    | cons a as =>
      rw [hf] at hfr
      have ha : a ∈ f.lists .free := hf ▸ List.mem_cons_self
      have hlive : a ∈ f.live := Shelf.mem_live.mpr ⟨_, ha⟩
      obtain ⟨queues, hmove, hq⟩ := h.queues.moveTo ha .partly
      have hchoose : CacheState.choose E.gfp E.set cpu s = some (some (.slab a),
          { s with cache := { s.cache with
              queues, countFree := s.cache.countFree - 1,
              countPartial := s.cache.countPartial + 1 } }) := by
        simp only [CacheState.choose, hpart, hfr, List.map_cons, List.headD_cons]
        simp only [if_true, reduceCtorEq, if_false, hmove, Option.map_some]
      rw [hchoose]
      have hmoved := h.moved .partly (some a) (by simp) ha (List.Perm.refl _)
        (c := { s.cache with
          queues, countFree := s.cache.countFree - 1, countPartial := s.cache.countPartial + 1 })
        ⟨rfl, rfl, rfl, rfl, rfl, rfl⟩ rfl rfl hq (fun hne => absurd rfl hne)
      have hlen := IQueues.Lists.length_moved ha (by decide : SlabQueue.free ≠ .partly)
        (List.Perm.refl (a :: Function.update f.lists .free ((f.lists .free).erase a) .partly))
      obtain ⟨u, hu⟩ := List.exists_mem_of_ne_nil _ (h.units_ne a hlive)
      have hfree : f.free a ≠ [] := List.ne_nil_of_mem (h.fits _ a ha (by simp) u hu)
      refine .found hmoved.1 ⟨?_, ?_, ?_, ?_⟩ ⟨rfl, rfl, rfl, rfl, rfl, rfl⟩ ?_ hfree
        fun _ _ _ _ _ => rfl
      · rw [hlen .free]
        simpa using hcnt.free_eq
      · rw [hlen .full]
        simpa using hcnt.full_eq
      · rw [hlen .partly]
        simpa using hcnt.partial_eq
      · rw [total_perm hmoved.2 rfl]
        exact hcnt.objects_eq
      · exact (h.queues.mem_moved ha (List.Perm.refl _) .partly a).mpr (Or.inl ⟨rfl, rfl⟩)
    | nil =>
      rw [hf, List.map_nil, List.headD_nil] at hfr
      have hc := h.chosen_create hcnt cpu
      rw [CacheState.choose]
      simp only [hpart, hfr, if_true]
      exact hc

/-- What comes of `imemcache_list_alloc`. -/
inductive Taken (E : Supplier σ τ) (others othersDesc : List ℕ) (s : CacheState σ τ) (f : Shelf)
    (out : List ℕ) : Option (Option ℕ × CacheState σ τ) → Prop where
  | aborted : Taken E others othersDesc s f out none
  | refused {s' : CacheState σ τ} (stored : Stored E others othersDesc none s' f out)
      (counted : Counted s'.cache f) (alike : s.cache.Alike s'.cache) (mem : s'.mem = s.mem) :
      Taken E others othersDesc s f out (some (none, s'))
  | taken {u : ℕ} {s' : CacheState σ τ} {f' : Shelf}
      (stored : Stored E others othersDesc none s' f' (u :: out)) (counted : Counted s'.cache f')
      (alike : s.cache.Alike s'.cache) (untouched : Untouched s s' out) (word : 8 ∣ s'.mem u) :
      Taken E others othersDesc s f out (some (some (u + 8), s'))

theorem listAlloc_spec (h : Stored E others othersDesc none s f out) (hcnt : Counted s.cache f)
    (cpu : Processor) :
    Taken E others othersDesc s f out (CacheState.listAlloc E.gfp E.set cpu s) := by
  unfold CacheState.listAlloc
  have hchosen := h.choose_spec hcnt cpu
  revert hchosen
  generalize CacheState.choose E.gfp E.set cpu s = r
  intro hchosen
  cases hchosen with
  | aborted => exact .aborted
  | refused stored counted alike mem => exact .refused stored counted alike mem
  | useless hnone =>
    simp only [Option.bind_some, hnone, Option.map_none]
    exact .aborted
  | @found a s1 f1 stored counted alike listed free untouched =>
    obtain ⟨u, rest, hfree⟩ := List.exists_cons_of_ne_nil free
    obtain ⟨s', f', htake, hst, hcnt', halike, hmem⟩ := stored.takeUnit_spec counted
      (fun b hb => (Option.some.inj hb).symm) listed hfree
    have hlive : a ∈ f1.live := Shelf.mem_live.mpr ⟨_, listed⟩
    have hu : u ∈ (f1.slab a).units s1.cache.unitSize :=
      (stored.holds a hlive).sub u (hfree ▸ List.mem_cons_self)
    have hnot : u ∉ out := (List.nodup_cons.mp hst.nodup).1
    have hun := stored.untouched_update hlive hu
      (fun x hx => ⟨hx, fun hxu => hnot (hxu ▸ hx)⟩) hmem
    simp only [Option.bind_some, htake, Option.map_some]
    refine .taken hst hcnt' (alike.trans halike) ?_ ?_
    · intro v hv w hvw hwv
      rw [hun v hv w hvw (by rw [alike.unitSize]; exact hwv), untouched v hv w hvw hwv]
    · rw [hmem, Function.update_self]
      exact (stored.desc a hlive).2.1

end Stored

end HttpsProxy
