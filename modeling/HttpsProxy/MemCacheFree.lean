import HttpsProxy.MemCacheAlloc

/-! `imemcache_list_free` and `imemcache_drain_list`: a unit goes back to its
slab, and free slabs go back to the supply. -/
namespace HttpsProxy

namespace Stored

variable {σ τ : Type} {E : Supplier σ τ} {others othersDesc out : List ℕ} {hand : Option ℕ}
  {s : CacheState σ τ} {f : Shelf}

/-- A slab with a unit that is out is full, or partly free. -/
theorem queue_of_out (h : Stored E others othersDesc none s f out) {a u : ℕ} (ha : a ∈ f.live)
    (hu : u ∈ (f.slab a).units s.cache.unitSize) (hfree : u ∉ f.free a) :
    if f.free a = [] then a ∈ f.lists .full else a ∈ f.lists .partly := by
  obtain ⟨k, hk⟩ := Shelf.mem_live.mp ha
  have hfits := h.fits k a hk (by simp)
  split
  · rename_i hnil
    cases k with
    | free => exact absurd (hfits u hu) hfree
    | full => exact hk
    | partly => exact absurd hnil hfits.1
  · rename_i hne
    cases k with
    | free => exact absurd (hfits u hu) hfree
    | full => exact absurd hfits hne
    | partly => exact hk

theorem unfill_spec (h : Stored E others othersDesc none s f out) (hcnt : Counted s.cache f) {a u : ℕ}
    (ha : a ∈ f.live) (hu : u ∈ (f.slab a).units s.cache.unitSize) (hfree : u ∉ f.free a) :
    ∃ c f', s.unfill a (f.slab a) = some { s with cache := c } ∧
      Stored E others othersDesc (some a) { s with cache := c } f' out ∧ Counted c f' ∧
      s.cache.Alike c ∧ a ∈ f'.lists .partly ∧ f'.slab = f.slab ∧ f'.free = f.free := by
  have hq := h.queue_of_out ha hu hfree
  have hfull := (h.holds a ha).isFull
  by_cases hnil : f.free a = []
  · rw [if_pos hnil] at hq
    have hcount : s.cache.countFull ≠ 0 := by
      have hpos := List.length_pos_of_mem hq
      rw [hcnt.full_eq]
      omega
    obtain ⟨q1, hdel, h1, hnot⟩ := h.queues.del hq
    obtain ⟨queues, hadd, h2⟩ := (h1.init hnot).addTail hnot .partly
    have hperm : (Function.update f.lists .full ((f.lists .full).erase a) .partly ++ [a]).Perm
        (a :: Function.update f.lists .full ((f.lists .full).erase a) .partly) :=
      List.perm_append_singleton _ _
    obtain ⟨c, hc⟩ : ∃ c : IMemCache, c = { s.cache with
        queues, countFull := s.cache.countFull - 1,
        countPartial := s.cache.countPartial + 1 } := ⟨_, rfl⟩
    have halike : s.cache.Alike c := by
      rw [hc]
      exact ⟨rfl, rfl, rfl, rfl, rfl, rfl⟩
    have hmoved := h.moved .partly (some a) (by simp) hq hperm halike (by rw [hc])
      (by rw [hc]) (by rw [hc]; exact h2) (fun hne => absurd rfl hne)
    have hlen := IQueues.Lists.length_moved hq (by decide : SlabQueue.full ≠ .partly) hperm
    refine ⟨c, _, ?_, hmoved.1, ⟨?_, ?_, ?_, ?_⟩, halike, ?_, rfl, rfl⟩
    · simp only [CacheState.unfill, if_pos (hfull.mpr hnil), if_neg hcount, hdel, Option.bind_some,
        hadd, Option.map_some, hc]
    · rw [hlen .free, hc]
      simpa using hcnt.free_eq
    · rw [hlen .full, hc]
      simpa using hcnt.full_eq
    · rw [hlen .partly, hc]
      simpa using hcnt.partial_eq
    · rw [total_perm hmoved.2 rfl, hc]
      exact hcnt.objects_eq
    · exact (h.queues.mem_moved hq hperm .partly a).mpr (Or.inl ⟨rfl, rfl⟩)
  · rw [if_neg hnil] at hq
    refine ⟨s.cache, f, ?_, h.inHand a, hcnt, ⟨rfl, rfl, rfl, rfl, rfl, rfl⟩, hq, rfl, rfl⟩
    rw [CacheState.unfill, if_neg fun hf => hnil (hfull.mp hf)]

/-- A unit that is out is given back. -/
theorem giveUnit_spec (h : Stored E others othersDesc none s f out) (hcnt : Counted s.cache f)
    {a u : ℕ} (ha : a ∈ f.live) (hu : u ∈ (f.slab a).units s.cache.unitSize) (huo : u ∈ out) :
    ∃ s' f', s.giveUnit a (f.slab a) u = some s' ∧
      Stored E others othersDesc none s' f' (out.erase u) ∧ Counted s'.cache f' ∧
      s.cache.Alike s'.cache ∧ Untouched s s' (out.erase u) ∧ E.Returns s s' := by
  have hfree : u ∉ f.free a := by
    obtain ⟨b, hb, hub, hnot⟩ := (h.mem_out u).mp huo
    obtain rfl := h.unit_slab hb ha hub hu
    exact hnot
  -- a full slab goes back to the partial list before it gets its unit back
  obtain ⟨c, f1, hunfill, hst, hcnt1, halike, hpart, hslab, hf1⟩ := h.unfill_spec hcnt ha hu hfree
  have ha1 : a ∈ f1.live := Shelf.mem_live.mpr ⟨_, hpart⟩
  have hu1 : u ∈ (f1.slab a).units c.unitSize := by
    rw [hslab, halike.unitSize]
    exact hu
  have hholds : (f.slab a).Holds s.mem c.unitSize (f.free a) := by
    rw [halike.unitSize]
    exact h.holds a ha
  have hsize := h.size_le
  have hpos := h.unit_pos ha hu
  rw [hslab] at hu1
  obtain ⟨d, mem, hgive, hholds', hd, hmem⟩ := IMemSlab.free_spec hholds
    (by rw [halike.unitSize]; omega) hu1 (by omega) hfree
  -- the state after the unit is back, with the slab still on the partial list
  obtain ⟨c2, hc2⟩ : ∃ c2 : IMemCache, c2 = { c with freeObjects := c.freeObjects + 1 } := ⟨_, rfl⟩
  have halike2 : c.Alike c2 := by
    rw [hc2]
    exact ⟨rfl, rfl, rfl, rfl, rfl, rfl⟩
  obtain ⟨f2, hf2⟩ : ∃ g : Shelf, g = { f1 with
      slab := Function.update f1.slab a d, free := Function.update f1.free a (u :: f.free a) } :=
    ⟨_, rfl⟩
  obtain ⟨s2, hs2⟩ : ∃ t : CacheState σ τ, t = { s with
      slabs := Function.update s.slabs a (some d), mem, cache := c2 } := ⟨_, rfl⟩
  have hst2 : Stored E others othersDesc (some a) s2 f2 (out.erase u) := by
    rw [hs2, hf2, hmem]
    refine hst.setUnit (s := { s with cache := c }) (fun b hb => (Option.some.inj hb).symm) ha1
      (hslab ▸ hu1) (by rw [hd, hslab]) (by rw [hd, hslab]) (by rw [hd, hslab]) (by rw [hd, hslab])
      ?_ ?_ ?_ (h.nodup.erase u) (fun hnot => absurd List.mem_cons_self hnot) halike2
      (by rw [hc2]) (by rw [hc2]) (by rw [hc2])
    · rw [← hmem]
      exact hholds'
    · intro x _ hxu
      rw [hf1, List.mem_cons, or_iff_right hxu]
    · intro x
      rw [h.nodup.mem_erase_iff, and_comm]
      constructor
      · exact Or.inl
      · rintro (hx | ⟨-, hnot⟩)
        · exact hx
        · exact absurd List.mem_cons_self hnot
  have hcnt2 : Counted c2 f2 := by
    have htotal := total_update (Shelf.live_nodup hst.queues) ha1 d (u :: f.free a)
    rw [← hf2, hf1, List.length_cons] at htotal
    have hobj := hcnt1.objects_eq
    rw [hc2]
    refine ⟨?_, ?_, ?_, ?_⟩
    · rw [hf2]
      exact hcnt1.free_eq
    · rw [hf2]
      exact hcnt1.full_eq
    · rw [hf2]
      exact hcnt1.partial_eq
    · change c.freeObjects + 1 = (f2.total : ℤ)
      omega
  have hslab2 : f2.slab a = d ∧ f2.free a = u :: f.free a := by
    rw [hf2]
    exact ⟨Function.update_self _ _ _, Function.update_self _ _ _⟩
  have hlists2 : f2.lists = f1.lists := by rw [hf2]
  have hpart2 : a ∈ f2.lists .partly := hlists2 ▸ hpart
  have hunits : ∀ n, d.units n = (f.slab a).units n := by
    intro n
    rw [hd]
    rfl
  -- only the first word of `u` is written, and `u` is no longer out
  have hun : Untouched s s2 (out.erase u) := by
    refine h.untouched_update ha hu ?_ (by rw [hs2, hmem])
    intro x hx
    obtain ⟨hxu, hxo⟩ := (h.nodup.mem_erase_iff).mp hx
    exact ⟨hxo, hxu⟩
  -- the slab is there before and after, and the supplies are not asked
  have hback : E.Returns s s2 := by
    rw [hs2]
    refine Supplier.Returns.same rfl rfl (halike.trans halike2).offslab ?_
    intro b hb
    change (Function.update s.slabs a (some d) b).isSome at hb
    by_cases hba : b = a
    · rw [hba, h.slabs_eq, if_pos ha]
      rfl
    · rwa [Function.update_of_ne hba] at hb
  -- a slab that has all its units again moves to the free list
  by_cases hempty : d.isEmpty = true
  · have hall := hholds'.isEmpty.mp hempty
    obtain ⟨queues, hmove, hq⟩ := hst2.queues.moveTo hpart2 .free
    have hqueues : s2.cache.queues = c.queues := by rw [hs2, hc2]
    have hmoved := hst2.moved .free none (fun b hb => (Option.some.inj hb).symm)
      hpart2 (List.Perm.refl _) (c := { c2 with
        queues, countPartial := c2.countPartial - 1, countFree := c2.countFree + 1 })
      (by rw [hs2]; exact ⟨rfl, rfl, rfl, rfl, rfl, rfl⟩) (by rw [hs2]) (by rw [hs2]) hq
      (fun _ => by
        rw [hslab2.1, hslab2.2, hs2]
        change ∀ x ∈ d.units c2.unitSize, x ∈ u :: f.free a
        rw [halike2.unitSize]
        exact hall)
    have hlen := IQueues.Lists.length_moved hpart2 (by decide : SlabQueue.partly ≠ .free)
      (List.Perm.refl (a :: Function.update f2.lists .partly ((f2.lists .partly).erase a) .free))
    refine ⟨_, _, ?_, hmoved.1, ⟨?_, ?_, ?_, ?_⟩, ?_, ?_,
      hback.trans (Supplier.Returns.same rfl rfl (by rw [hs2]) fun _ hb => hb)⟩
    · simp only [CacheState.giveUnit, hunfill, Option.bind_some, hgive, hempty, if_true]
      rw [← hqueues, hmove, hs2, hc2]
      rfl
    · rw [hlen .free]
      simpa using hcnt2.free_eq
    · rw [hlen .full]
      simpa using hcnt2.full_eq
    · rw [hlen .partly]
      simpa using hcnt2.partial_eq
    · rw [total_perm hmoved.2 rfl]
      exact hcnt2.objects_eq
    · refine halike.trans (halike2.trans ?_)
      exact ⟨rfl, rfl, rfl, rfl, rfl, rfl⟩
    · intro v hv w hvw hwv
      exact hun v hv w hvw hwv
  · refine ⟨s2, f2, ?_, hst2.settle hpart2 ?_, ?_, ?_, hun, hback⟩
    · simp only [CacheState.giveUnit, hunfill, Option.bind_some, hgive, if_neg hempty]
      rw [hs2, hc2]
    · rw [hslab2.1, hslab2.2]
      refine ⟨List.cons_ne_nil _ _, ?_⟩
      by_contra hall
      push Not at hall
      rw [hs2] at hall
      change ∀ x ∈ d.units c2.unitSize, x ∈ u :: f.free a at hall
      rw [halike2.unitSize] at hall
      exact hempty (hholds'.isEmpty.mpr hall)
    · rw [hs2]
      exact hcnt2
    · rw [hs2]
      exact halike.trans halike2

/-- Once nothing of the slab is free all its units count as used. -/
theorem exhaust_spec {mem : PageWords} {objSize : ℕ} {free : List ℕ} :
    ∀ (fuel : ℕ) {slab : IMemSlab}, slab.Holds mem objSize free → free.length < fuel →
      ∃ d, CacheState.exhaust mem fuel slab = some d ∧ d.membase = slab.membase ∧
        d.inuse = (slab.units objSize).length := by
  induction free with
  | nil =>
    intro fuel slab h hf
    obtain ⟨n, rfl⟩ : ∃ n, fuel = n + 1 := ⟨fuel - 1, by omega⟩
    refine ⟨slab, ?_, rfl, ?_⟩
    · rw [CacheState.exhaust, if_pos (h.isFull.mpr rfl)]
    · rw [h.inuse_eq, List.length_nil]
      simp
  | cons u rest ih =>
    intro fuel slab h hf
    rw [List.length_cons] at hf
    obtain ⟨n, rfl⟩ : ∃ n, fuel = n + 1 := ⟨fuel - 1, by omega⟩
    have hnf : ¬ slab.isFull = true := fun hf => List.cons_ne_nil u rest (h.isFull.mp hf)
    obtain ⟨d, halloc, hholds, hd⟩ := IMemSlab.alloc_spec h
    obtain ⟨d', he, hb, hi⟩ := ih n hholds (by omega)
    refine ⟨d', ?_, ?_, ?_⟩
    · rw [CacheState.exhaust, if_neg hnf, halloc, he]
    · rw [hb, hd]
    · rw [hi, hd]
      rfl

/-- A slab leaves the lists, and its page is given back. -/
theorem dropped (h : Stored E others othersDesc none s f out) {a : ℕ} {k : SlabQueue}
    (ha : a ∈ f.lists k) {c : IMemCache} (hc : s.cache.Alike c)
    (hcolor : c.colorNext = s.cache.colorNext) (hpages : c.pagesInuse = s.cache.pagesInuse - 1)
    (hq : c.queues.Lists (Function.update f.lists k ((f.lists k).erase a))) {f' : Shelf}
    (hf' : f' = { f with lists := Function.update f.lists k ((f.lists k).erase a) }) {pages : σ}
    {descs : τ}
    (hp : E.held pages (((f.live.erase a).map fun a => (f.slab a).membase) ++ others))
    (hd : E.heldDesc descs ((if s.cache.offslab then f.live.erase a else []) ++ othersDesc)) :
    Stored E others othersDesc none
        { s with slabs := Function.update s.slabs a none, cache := c, pages, descs } f'
        (out.filter fun u => u ∉ (f.slab a).units s.cache.unitSize) ∧
      f.total = f'.total + (f.free a).length := by
  have hlive : a ∈ f.live := Shelf.mem_live.mpr ⟨k, ha⟩
  have hnd := Shelf.live_nodup h.queues
  have hlists : f'.lists = Function.update f.lists k ((f.lists k).erase a) := by rw [hf']
  have hslab : f'.slab = f.slab := by rw [hf']
  have hfree : f'.free = f.free := by rw [hf']
  -- `a` is on the list `k` only, so nothing else changes
  have hk : ∀ j x, x ∈ f'.lists j ↔ x ≠ a ∧ x ∈ f.lists j := by
    intro j x
    rw [hlists]
    by_cases hj : j = k
    · subst hj
      rw [Function.update_self]
      exact (h.queues.nodup j).mem_erase_iff
    · rw [Function.update_of_ne hj]
      refine ⟨fun hx => ⟨?_, hx⟩, fun hx => hx.2⟩
      rintro rfl
      exact h.queues.disjoint hj hx ha
  have hmem : ∀ x, x ∈ f'.live ↔ x ≠ a ∧ x ∈ f.live := by
    intro x
    simp only [Shelf.mem_live, hk]
    constructor
    · rintro ⟨j, hxa, hx⟩
      exact ⟨hxa, j, hx⟩
    · rintro ⟨hxa, j, hx⟩
      exact ⟨j, hxa, hx⟩
  have hperm : f'.live.Perm (f.live.erase a) := by
    refine (List.perm_ext_iff_of_nodup (Shelf.live_nodup (q := c.queues) (hlists ▸ hq))
      (hnd.erase a)).mpr ?_
    intro x
    rw [hmem, hnd.mem_erase_iff]
  refine ⟨⟨hc.pageSize.trans h.page_eq, ?_, hlists ▸ hq, ?_, ?_, ?_, ?_, ?_, ?_, ?_, ?_, ?_, ?_,
    h.nodup.filter _, ?_, ?_⟩, ?_⟩
  · change c.unitSize = roundUp (c.objSize + 8)
    rw [hc.unitSize, hc.objSize]
    exact h.unit_eq
  · intro b
    simp only [hmem, hslab]
    by_cases hb : b = a
    · subst hb
      simp
    · rw [Function.update_of_ne hb, h.slabs_eq]
      simp [hb]
  · intro b hb
    rw [hslab, hc.self]
    exact h.desc b ((hmem b).mp hb).2
  · intro b hb
    rw [hslab, hfree, hc.unitSize]
    exact h.holds b ((hmem b).mp hb).2
  · intro j b hb hh
    rw [hslab, hfree, hc.unitSize]
    exact h.fits j b ((hk j b).mp hb).2 hh
  · intro b hb
    rw [hslab, hc.unitSize]
    exact h.units_ne b ((hmem b).mp hb).2
  · rw [hslab]
    exact E.pages.perm hp ((hperm.symm.map _).append_right _)
  · rw [hc.offslab]
    refine E.descs.perm hd ?_
    split
    · exact hperm.symm.append_right _
    · exact List.Perm.refl _
  · intro hoff b hb
    rw [hslab]
    rw [hc.offslab] at hoff
    exact h.inside hoff b ((hmem b).mp hb).2
  · rw [hcolor]
    exact h.color
  -- the units of `a` are no longer counted as out, whether they were free or not
  · intro u
    simp only [List.mem_filter, decide_eq_true_eq, hmem, hslab, hfree, hc.unitSize, h.mem_out]
    constructor
    · rintro ⟨⟨b, hb, hub, hnot⟩, hua⟩
      refine ⟨b, ⟨?_, hb⟩, hub, hnot⟩
      rintro rfl
      exact hua hub
    · rintro ⟨b, ⟨hba, hb⟩, hub, hnot⟩
      exact ⟨⟨b, hb, hub, hnot⟩, fun hua => hba (h.unit_slab hb hlive hub hua)⟩
  · intro b hb
    rw [hslab, hfree, hc.unitSize]
    exact h.word b ((hmem b).mp hb).2
  · change c.pagesInuse = _
    have hpos := List.length_pos_of_mem hlive
    rw [hpages, h.inuse_eq, hperm.length_eq, List.length_erase_of_mem hlive]
    omega
  -- the free units of `a` go with it
  · have hcons := List.perm_cons_erase hlive
    rw [Shelf.total, (hcons.map _).sum_eq, List.map_cons, List.sum_cons, Shelf.total,
      (hperm.map _).sum_eq, hfree]
    omega

/-- What a drained list has lost. -/
structure Drained (E : Supplier σ τ) (others othersDesc : List ℕ) (k : SlabQueue)
    (s : CacheState σ τ) (f : Shelf) (out : List ℕ) (n : ℕ) (s' : CacheState σ τ) (f' : Shelf)
    (out' : List ℕ) : Prop where
  stored : Stored E others othersDesc none s' f' out'
  sub : ∀ u ∈ out', u ∈ out
  mem : s'.mem = s.mem
  alike : s.cache.Alike s'.cache
  countFree : s'.cache.countFree = s.cache.countFree
  countFull : s'.cache.countFull = s.cache.countFull
  countPartial : s'.cache.countPartial = s.cache.countPartial
  length : (f'.lists k).length + n = (f.lists k).length
  lists : ∀ j, j ≠ k → f'.lists j = f.lists j
  back : E.Returns s s'
  free : k = .free → out' = out ∧ s'.cache.freeObjects - f'.total = s.cache.freeObjects - f.total

/-- `imemcache_slab_delete` gives back the page of a slab, and the descriptor if
it is not in the page; each of them has to be taken. -/
theorem slabDelete_spec (h : Stored E others othersDesc none s f out) (cpu : Processor) {a : ℕ}
    (ha : a ∈ f.live) {d : IMemSlab} (hd : d.membase = (f.slab a).membase) {c : IMemCache}
    (hoff : c.offslab = s.cache.offslab) :
    (CacheState.slabDelete E.gfp E.set cpu { s with cache := c } a d = none ∧ ¬E.TakesBack s) ∨
      ∃ pages descs s', CacheState.slabDelete E.gfp E.set cpu { s with cache := c } a d = some s' ∧
        s' = { s with
          slabs := Function.update s.slabs a none, pages, descs
          cache := { c with pagesDel := c.pagesDel + 1, pagesInuse := c.pagesInuse - 1 } } ∧
        E.held pages (((f.live.erase a).map fun a => (f.slab a).membase) ++ others) ∧
        E.heldDesc descs ((if s.cache.offslab then f.live.erase a else []) ++ othersDesc) ∧
        E.Returns s s' := by
  have hcons := List.perm_cons_erase ha
  have hheld : E.held s.pages ((f.slab a).membase ::
      (((f.live.erase a).map fun a => (f.slab a).membase) ++ others)) :=
    E.pages.perm h.held ((hcons.map fun a => (f.slab a).membase).append_right others)
  have hlive : ∀ b, (s.slabs b).isSome → b ∈ f.live := by
    intro b hb
    by_contra hnot
    rw [h.slabs_eq, if_neg hnot] at hb
    cases hb
  have hsome : (s.slabs a).isSome := by
    rw [h.slabs_eq, if_pos ha]
    rfl
  unfold CacheState.slabDelete
  cases hpage : E.gfp.free cpu s.pages (f.slab a).membase with
  | none =>
    left
    refine ⟨by simp only [hd, hpage, Option.bind_none], fun ht => ?_⟩
    obtain ⟨pages, hpages, -⟩ := E.pages.given cpu hheld ht.pages
    rw [hpage] at hpages
    cases hpages
  | some pages =>
    have hfrees : E.gfp.Frees s.pages pages := ⟨cpu, _, hpage⟩
    have htakes : E.TakesBack s → E.takes pages := by
      intro ht
      obtain ⟨pages', hpages, ht'⟩ := E.pages.given cpu hheld ht.pages
      obtain rfl := Option.some.inj (hpage.symm.trans hpages)
      exact ht'
    have hold := h.heldDesc
    rw [← hoff] at hold ⊢
    simp only [hd, hpage, Option.bind_some]
    by_cases hout : c.offslab = true
    · simp only [if_pos hout] at hold ⊢
      have holdDesc := E.descs.perm hold (hcons.append_right othersDesc)
      cases hdesc : E.set.free pages s.descs a with
      | none =>
        left
        refine ⟨rfl, fun ht => ?_⟩
        have hstill := E.descs.steady hfrees (ht.descs (hoff ▸ hout) a hsome)
        rw [hdesc] at hstill
        cases hstill
      | some descs =>
        right
        refine ⟨pages, descs, _, rfl, rfl, E.pages.freed hheld hpage, E.descs.freed holdDesc hdesc,
          Relation.ReflTransGen.single hfrees, fun ht => ⟨htakes ht, ?_⟩⟩
        -- the other descriptors are still good
        intro _ b hb
        change (Function.update s.slabs a none b).isSome at hb
        by_cases hba : b = a
        · rw [hba, Function.update_self] at hb
          cases hb
        · rw [Function.update_of_ne hba] at hb
          have hin : b ∈ f.live.erase a := (List.mem_erase_of_ne hba).mpr (hlive b hb)
          exact E.descs.kept holdDesc hdesc (List.mem_append_left _ hin)
            (E.descs.steady hfrees (ht.descs (hoff ▸ hout) b hb))
    · simp only [if_neg hout] at hold ⊢
      right
      refine ⟨pages, s.descs, _, rfl, rfl, E.pages.freed hheld hpage, hold,
        Relation.ReflTransGen.single hfrees, fun ht => ⟨htakes ht, ?_⟩⟩
      intro hin
      exact absurd hin hout

theorem drainOne_spec (h : Stored E others othersDesc none s f out) (cpu : Processor) {k : SlabQueue}
    (hne : f.lists k ≠ []) :
    (CacheState.drainOne E.gfp E.set cpu k s = none ∧ ¬E.TakesBack s) ∨
      ∃ s' f' out', CacheState.drainOne E.gfp E.set cpu k s = some s' ∧
        Drained E others othersDesc k s f out 1 s' f' out' := by
  obtain ⟨a, hlast⟩ : ∃ a, a = (f.lists k).getLast hne := ⟨_, rfl⟩
  have ha : a ∈ f.lists k := hlast ▸ List.getLast_mem hne
  have hlive : a ∈ f.live := Shelf.mem_live.mpr ⟨k, ha⟩
  -- the loop takes the last slab of the list
  have hprev : s.cache.queues.prev (.head k) = .slab a := by
    rw [(h.queues.ends k).2, hlast, List.getLastD_eq_getLast?, List.getLast?_map,
      List.getLast?_eq_some_getLast hne]
    rfl
  obtain ⟨queues, hdel, hq, -⟩ := h.queues.del ha
  -- only for the free list does the source take units off the counter, one by one as it
  -- empties the slab
  obtain ⟨free, hfree⟩ : ∃ x : ℤ, x = if k = .free then
      s.cache.freeObjects - ((f.slab a).units s.cache.unitSize).length
        else s.cache.freeObjects := ⟨_, rfl⟩
  have hholds := h.holds a hlive
  -- `imemcache_slab_delete` looks at the base of the slab only, not at its units
  have hdrain : ∃ d : IMemSlab, d.membase = (f.slab a).membase ∧
      CacheState.drainOne E.gfp E.set cpu k s = CacheState.slabDelete E.gfp E.set cpu
        { s with cache := { s.cache with queues, freeObjects := free } } a d := by
    unfold CacheState.drainOne
    simp only [hprev, h.entry_eq hlive, Option.bind_some, hdel]
    -- the fuel suffices: a slab has at most `memsize` units
    by_cases hk : k = .free
    · obtain ⟨d, hex, hbase, hinuse⟩ := exhaust_spec ((f.slab a).memsize + 1) hholds
        (by
          have hle := hholds.count_le
          have hdiv := Nat.div_le_self ((f.slab a).memsize - (f.slab a).coloroff) s.cache.unitSize
          simp only [IMemSlab.units, IMemSlab.row, List.length_map, List.length_range] at hle
          omega)
      rw [if_pos hk] at hfree
      refine ⟨d, hbase, ?_⟩
      simp only [if_pos hk, CacheState.setQueues, hex, Option.bind_some, hinuse, hfree]
    · rw [if_neg hk] at hfree
      refine ⟨f.slab a, rfl, ?_⟩
      simp only [if_neg hk, CacheState.setQueues, hfree]
  obtain ⟨d, hbase, hdrain⟩ := hdrain
  rw [hdrain]
  have hcache : ({ s.cache with queues, freeObjects := free } : IMemCache).offslab = s.cache.offslab := rfl
  rcases h.slabDelete_spec cpu hlive hbase hcache with
    hnone | ⟨pages, descs, s', hdelete, hs', hpages, hdescs, hback⟩
  · exact Or.inl hnone
  right
  rw [hdelete]
  obtain ⟨c, hc⟩ : ∃ c : IMemCache, c = { s.cache with
      queues, freeObjects := free, pagesDel := s.cache.pagesDel + 1,
      pagesInuse := s.cache.pagesInuse - 1 } := ⟨_, rfl⟩
  have halike : s.cache.Alike c := by
    rw [hc]
    exact ⟨rfl, rfl, rfl, rfl, rfl, rfl⟩
  obtain ⟨f', hf'⟩ : ∃ g : Shelf, g =
      { f with lists := Function.update f.lists k ((f.lists k).erase a) } := ⟨_, rfl⟩
  obtain ⟨hst, htotal⟩ := h.dropped ha halike (by rw [hc]) (by rw [hc]) (by rw [hc]; exact hq) hf'
    hpages hdescs
  have hfinal : s' = { s with slabs := Function.update s.slabs a none, cache := c, pages, descs } := by
    rw [hs', hc]
  subst hfinal
  refine ⟨_, f', _, rfl, hst, ?_, rfl, halike, by rw [hc], by rw [hc], by rw [hc], ?_, ?_, hback, ?_⟩
  · intro u hu
    exact (List.mem_filter.mp hu).1
  · have hpos := List.length_pos_of_mem ha
    simp only [hf', Function.update_self, List.length_erase_of_mem ha]
    omega
  · intro j hj
    simp only [hf', Function.update_of_ne hj]
  -- on the free list no unit is out, so nothing is lost
  · rintro rfl
    have hall : ∀ u ∈ (f.slab a).units s.cache.unitSize, u ∈ f.free a := h.fits _ a ha (by simp)
    constructor
    · refine List.filter_eq_self.mpr ?_
      intro u hu
      rw [decide_eq_true_iff]
      intro hua
      obtain ⟨b, hb, hub, hnot⟩ := h.out_unit hu
      obtain rfl := h.unit_slab hb hlive hub hua
      exact hnot (hall u hua)
    · have hempty := hholds.isEmpty.mpr hall
      have hz : (f.slab a).inuse = 0 := by simpa [IMemSlab.isEmpty] using hempty
      have hi := hholds.inuse_eq
      rw [if_pos rfl] at hfree
      simp only [hc, hfree]
      omega

/-- The loop stops when the list is empty, or when it has freed as much as it may. -/
theorem drainLoop_spec (cpu : Processor) (k : SlabQueue) (tofree : ℤ) :
    ∀ (fuel : ℕ) (freeCount : ℤ) {s : CacheState σ τ} {f : Shelf} {out : List ℕ},
      Stored E others othersDesc none s f out → (f.lists k).length < fuel →
      (CacheState.drainLoop E.gfp E.set cpu k tofree fuel freeCount s = none ∧ ¬E.TakesBack s) ∨
        ∃ (n : ℕ) (s' : CacheState σ τ) (f' : Shelf) (out' : List ℕ),
          CacheState.drainLoop E.gfp E.set cpu k tofree fuel freeCount s = some (freeCount + n, s') ∧
          Drained E others othersDesc k s f out n s' f' out' ∧ (tofree < 0 → f'.lists k = []) := by
  intro fuel
  induction fuel with
  | zero =>
    intro freeCount s f out _ hlen
    exact absurd hlen (Nat.not_lt_zero _)
  | succ fuel ih =>
    intro freeCount s f out h hlen
    have hnone : Drained E others othersDesc k s f out 0 s f out :=
      ⟨h, fun _ hu => hu, rfl, ⟨rfl, rfl, rfl, rfl, rfl, rfl⟩, rfl, rfl, rfl, rfl, fun _ _ => rfl,
        Supplier.Returns.refl s, fun _ => ⟨rfl, rfl⟩⟩
    by_cases hempty : s.cache.queues.isEmpty k = true
    · refine Or.inr ⟨0, s, f, out, ?_, hnone, fun _ => h.queues.isEmpty.mp hempty⟩
      rw [CacheState.drainLoop, if_pos hempty]
      simp
    · by_cases hstop : 0 ≤ tofree ∧ tofree ≤ freeCount
      · refine Or.inr ⟨0, s, f, out, ?_, hnone, fun hneg => by omega⟩
        rw [CacheState.drainLoop, if_neg hempty, if_pos hstop]
        simp
      · rcases h.drainOne_spec cpu (fun hnil => hempty (h.queues.isEmpty.mpr hnil)) with
          ⟨hone, hbad⟩ | ⟨s1, f1, out1, hone, hd1⟩
        · left
          refine ⟨?_, hbad⟩
          rw [CacheState.drainLoop, if_neg hempty, if_neg hstop, hone, Option.bind_none]
        have hlen1 := hd1.length
        rcases ih (freeCount + 1) hd1.stored (by omega) with
          ⟨hloop, hbad⟩ | ⟨n, s', f', out', hloop, hd, hall⟩
        · left
          refine ⟨?_, fun ht => hbad (hd1.back.takes ht)⟩
          rw [CacheState.drainLoop, if_neg hempty, if_neg hstop, hone, Option.bind_some, hloop]
        right
        refine ⟨n + 1, s', f', out', ?_, ⟨hd.stored, fun u hu => hd1.sub u (hd.sub u hu),
          hd.mem.trans hd1.mem, hd1.alike.trans hd.alike, hd.countFree.trans hd1.countFree,
          hd.countFull.trans hd1.countFull, hd.countPartial.trans hd1.countPartial, ?_, ?_,
          hd1.back.trans hd.back, ?_⟩, hall⟩
        · rw [CacheState.drainLoop, if_neg hempty, if_neg hstop, hone, Option.bind_some, hloop]
          push_cast
          rw [add_assoc, add_comm 1 (n : ℤ)]
        · have := hd.length
          omega
        · intro j hj
          rw [hd.lists j hj, hd1.lists j hj]
        · intro hk
          obtain ⟨ho, ht⟩ := hd.free hk
          obtain ⟨ho1, ht1⟩ := hd1.free hk
          exact ⟨ho.trans ho1, ht.trans ht1⟩

theorem length_lt_fuel (h : Stored E others othersDesc none s f out) (k : SlabQueue) :
    (f.lists k).length < s.cache.pagesInuse.toNat + 1 := by
  have hsub : (f.lists k).length ≤ f.live.length := by
    simp only [Shelf.live, List.length_append]
    cases k <;> omega
  rw [h.inuse_eq]
  omega

/-- Draining the list of free slabs. -/
theorem drainFree_spec (h : Stored E others othersDesc none s f out) (hcnt : Counted s.cache f)
    (cpu : Processor) (tofree : ℤ) :
    (CacheState.drainList E.gfp E.set cpu .free tofree s = none ∧ ¬E.TakesBack s) ∨
      ∃ n s' f', CacheState.drainList E.gfp E.set cpu .free tofree s = some (n, s') ∧
        Stored E others othersDesc none s' f' out ∧ Counted s'.cache f' ∧ s.cache.Alike s'.cache ∧
        s'.mem = s.mem ∧ (tofree < 0 → f'.lists .free = []) ∧
        (∀ j, j ≠ .free → f'.lists j = f.lists j) ∧ E.Returns s s' := by
  rcases drainLoop_spec cpu .free tofree _ 0 h (h.length_lt_fuel .free) with
    ⟨hloop, hbad⟩ | ⟨n, s1, f1, out1, hloop, hd, hall⟩
  · exact Or.inl ⟨by rw [CacheState.drainList, hloop, Option.map_none], hbad⟩
  right
  obtain ⟨rfl, hobj⟩ := hd.free rfl
  have hlen := hd.length
  have halike : s1.cache.Alike { s1.cache with countFree := s1.cache.countFree - (0 + n) } :=
    ⟨rfl, rfl, rfl, rfl, rfl, rfl⟩
  refine ⟨0 + n, { s1 with cache := { s1.cache with countFree := s1.cache.countFree - (0 + n) } },
    f1, ?_, { hd.stored with }, ⟨?_, ?_, ?_, ?_⟩, hd.alike.trans halike, hd.mem, hall, hd.lists,
    hd.back.trans (Supplier.Returns.same rfl rfl rfl fun _ ha => ha)⟩
  · rw [CacheState.drainList, hloop]
    rfl
  · have h1 := hcnt.free_eq
    have h2 := hd.countFree
    change s1.cache.countFree - (0 + n) = _
    omega
  · rw [hd.lists _ (by decide), ← hcnt.full_eq]
    exact hd.countFull
  · rw [hd.lists _ (by decide), ← hcnt.partial_eq]
    exact hd.countPartial
  · have h1 := hcnt.objects_eq
    change s1.cache.freeObjects = _
    omega

/-- `imemcache_list_free` takes back a unit that is out, if its first word is the
address of its slab. -/
theorem listFree_spec (h : Stored E others othersDesc none s f out) (hcnt : Counted s.cache f)
    (cpu : Processor) {cache : Option ℕ} (hcache : ∀ a, cache = some a → a = s.cache.self) {u : ℕ}
    (huo : u ∈ out) (hword : 8 ∣ s.mem u) :
    (CacheState.listFree E.gfp E.set cpu cache (u + 8) s = none ∧ ¬E.TakesBack s) ∨
      ∃ s' f', CacheState.listFree E.gfp E.set cpu cache (u + 8) s = some s' ∧
        Stored E others othersDesc none s' f' (out.erase u) ∧ Counted s'.cache f' ∧
        s.cache.Alike s'.cache ∧ Untouched s s' (out.erase u) ∧ E.Returns s s' := by
  obtain ⟨a, ha, hu, hfree⟩ := h.out_unit huo
  have hslab : s.mem u = a := by
    rw [← h.word a ha u hu hfree, Nat.div_mul_cancel hword]
  obtain ⟨h0, -, hextra, hsize, -⟩ := h.desc a ha
  obtain ⟨hb1, hb2⟩ := h.unit_bounds ha hu
  have hpos := h.size_le
  obtain ⟨s1, f1, hgive, hst, hcnt1, halike, hun, hback⟩ := h.giveUnit_spec hcnt ha hu huo
  have hguard : a ≠ 0 ∧ (f.slab a).membase ≤ u ∧ u < (f.slab a).membase + (f.slab a).memsize ∧
      (∀ b, cache = some b → b = (f.slab a).extra) ∧ (f.slab a).extra = s.cache.self := by
    refine ⟨h0, by omega, by omega, ?_, hextra⟩
    intro b hb
    rw [hextra]
    exact hcache b hb
  have hfirst : CacheState.listFree E.gfp E.set cpu cache (u + 8) s =
      if s1.cache.nodrain = false ∧ s1.cache.freeLimit ≤ s1.cache.freeObjects then
        if 0 < s1.cache.countFree / 2 then
          (CacheState.drainList E.gfp E.set cpu .free (s1.cache.countFree / 2) s1).map Prod.snd
        else some s1
      else some s1 := by
    simp only [CacheState.listFree, Nat.add_sub_cancel, hslab, h.slabs_eq, if_pos ha,
      Option.bind_some, if_pos hguard, hgive, if_neg (by omega : ¬ u + 8 < 8)]
  rw [hfirst]
  have hkeep : ∃ s' f', some s1 = some s' ∧ Stored E others othersDesc none s' f' (out.erase u) ∧
      Counted s'.cache f' ∧ s.cache.Alike s'.cache ∧ Untouched s s' (out.erase u) ∧ E.Returns s s' :=
    ⟨s1, f1, rfl, hst, hcnt1, halike, hun, hback⟩
  split
  · split
    · rcases hst.drainFree_spec hcnt1 cpu (s1.cache.countFree / 2) with
        ⟨hdrain, hbad⟩ | ⟨n, s2, f2, hdrain, hst2, hcnt2, halike2, hmem2, -, -, hback2⟩
      · exact Or.inl ⟨by rw [hdrain]; rfl, fun ht => hbad (hback.takes ht)⟩
      right
      refine ⟨s2, f2, by rw [hdrain]; rfl, hst2, hcnt2, halike.trans halike2, ?_, hback.trans hback2⟩
      intro v hv w hvw hwv
      rw [hmem2]
      exact hun v hv w hvw hwv
    · exact Or.inr hkeep
  · exact Or.inr hkeep

end Stored

end HttpsProxy
