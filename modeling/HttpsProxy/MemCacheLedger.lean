import HttpsProxy.MemCacheRuns
import Mathlib.Algebra.BigOperators.Ring.Finset

/-! What the counters of a cache count, what is given back by `imemcache_shrink`
and `imemcache_release`, and when `imemcache_free` fails. -/
namespace HttpsProxy

namespace Cached

open CacheState

variable {σ τ : Type} {E : Supplier σ τ} {others othersDesc : List ℕ} {s : CacheState σ τ} {f : Shelf}
  {kept : Processor → List ℕ} {loose inUse : List ℕ}

/-- The first word of a unit that no user has is a link or the address of a slab. -/
theorem unmarked (h : Cached E others othersDesc s f kept [] inUse) {a u : ℕ} (ha : a ∈ f.live)
    (hu : u ∈ (f.slab a).units s.cache.unitSize) (hnot : u ∉ inUse) : 8 ∣ s.mem u := by
  by_cases hfree : u ∈ f.free a
  · rcases (h.stored.holds a ha).chain.next_mem hfree with h0 | hin
    · rw [h0]
      exact dvd_zero 8
    · exact h.stored.unit_dvd ha ((h.stored.holds a ha).sub _ hin)
  · have hout := (h.stored.mem_out u).mpr ⟨a, ha, hu, hfree⟩
    rw [mem_out] at hout
    exact h.word u (hout.resolve_right hnot)

theorem free_refused (h : Cached E others othersDesc s f kept [] inUse) {a u : ℕ} (ha : a ∈ f.live)
    (hu : u ∈ (f.slab a).units s.cache.unitSize) (hnot : u ∉ inUse) (cpu : Processor)
    (cache : Option ℕ) : free E.gfp E.set cpu cache (u + 8) s = none := by
  have hword := h.unmarked ha hu hnot
  have hmark : s.mem u &&& checkMagic ≠ checkMagic := by
    rw [Ne, and_magic]
    omega
  unfold CacheState.free
  simp only [Nat.add_sub_cancel, if_neg (by omega : ¬ u + 8 < 8)]
  exact if_pos hmark

/-- All objects of one array are on their way back. -/
theorem emptied (h : Cached E others othersDesc s f kept loose inUse) (i : Processor) :
    Cached E others othersDesc (s.setArray i { s.cache.array i with avial := 0 }) f
      (Function.update kept i []) (kept i ++ loose) inUse := by
  have hperm : (allKept kept).Perm (kept i ++ allKept (Function.update kept i [])) := by
    have hp := allKept_perm kept i (kept i)
    rwa [Function.update_eq_self] at hp
  refine ⟨?_, ?_, ?_, ?_, ?_, ?_, h.magic⟩
  · refine (h.stored.perm ?_).setArray i _
    refine (hperm.append_right _).trans ?_
    rw [List.append_assoc, List.append_assoc, ← List.append_assoc]
    refine (List.perm_append_comm.append_right _).trans ?_
    rw [List.append_assoc]
  · exact ⟨h.counted.free_eq, h.counted.full_eq, h.counted.partial_eq, h.counted.objects_eq⟩
  · intro j
    by_cases hj : j = i
    · subst hj
      simp only [CacheState.setArray, Function.update_self, List.length_nil]
    · simp only [CacheState.setArray, Function.update_of_ne hj]
      exact h.avial j
  · intro j n hn
    by_cases hj : j = i
    · subst hj
      simp at hn
    · simp only [Function.update_of_ne hj] at hn ⊢
      simp only [CacheState.setArray, Function.update_of_ne hj]
      exact h.entry j n hn
  · intro j
    by_cases hj : j = i
    · subst hj
      simp only [CacheState.setArray, Function.update_self]
      exact h.limits j
    · simp only [CacheState.setArray, Function.update_of_ne hj]
      exact h.limits j
  · intro v hv
    refine h.word v ?_
    rw [hperm.mem_iff, List.mem_append]
    rw [List.mem_append] at hv
    tauto

theorem giveAll (cpu : Processor) (us : List ℕ) :
    ∀ {s : CacheState σ τ} {f : Shelf}, Cached E others othersDesc s f kept (us ++ loose) inUse →
      E.TakesBack s →
      ∃ s' f', (us.map (· + 8)).foldlM (fun s ptr => listFree E.gfp E.set cpu none ptr s) s =
          some s' ∧ Cached E others othersDesc s' f' kept loose inUse ∧ E.TakesBack s' := by
  induction us with
  | nil =>
    intro s f h ht
    exact ⟨s, f, rfl, h, ht⟩
  | cons u us ih =>
    intro s f h ht
    obtain ⟨s1, f1, hgive, h1, -, -, hback⟩ :=
      (h.give cpu none (by simp)).resolve_left fun hnone => hnone.2 ht
    obtain ⟨s', f', hrest, h'⟩ := ih h1 (hback.takes ht)
    refine ⟨s', f', ?_, h'⟩
    rw [List.map_cons, List.foldlM_cons, hgive]
    exact hrest

theorem releaseArray_spec (h : Cached E others othersDesc s f kept [] inUse) (ht : E.TakesBack s)
    (cpu i : Processor) :
    ∃ s' f' kept', releaseArray E.gfp E.set cpu i s = some s' ∧
      Cached E others othersDesc s' f' kept' [] inUse ∧ E.TakesBack s' := by
  have hentries : (List.range (s.cache.array i).avial).map (s.cache.array i).entry =
      (kept i).map (· + 8) := by
    apply List.ext_getElem
    · simp [h.avial i]
    · intro j h1 h2
      simp only [List.length_map] at h2
      simp only [List.getElem_map, List.getElem_range]
      exact h.entry i j h2
  have h1 := h.emptied i
  have ht1 : E.TakesBack (s.setArray i { s.cache.array i with avial := 0 }) := ⟨ht.pages, ht.descs⟩
  obtain ⟨s', f', hall, h'⟩ := giveAll cpu (kept i) h1 ht1
  refine ⟨s', f', _, ?_, h'⟩
  simp only [releaseArray, hentries]
  exact hall

theorem releaseArrays_spec (cpu : Processor) (is : List Processor) :
    ∀ {s : CacheState σ τ} {f : Shelf} {kept : Processor → List ℕ},
      Cached E others othersDesc s f kept [] inUse → E.TakesBack s → ∃ s' f' kept',
        is.foldlM (fun s i => releaseArray E.gfp E.set cpu i s) s = some s' ∧
        Cached E others othersDesc s' f' kept' [] inUse ∧ E.TakesBack s' := by
  induction is with
  | nil =>
    intro s f kept h ht
    exact ⟨s, f, kept, rfl, h, ht⟩
  | cons i is ih =>
    intro s f kept h ht
    obtain ⟨s1, f1, kept1, hone, h1, ht1⟩ := h.releaseArray_spec ht cpu i
    obtain ⟨s', f', kept', hrest, h'⟩ := ih h1 ht1
    refine ⟨s', f', kept', ?_, h'⟩
    rw [List.foldlM_cons, hone]
    exact hrest

end Cached

namespace Stored

open CacheState

variable {σ τ : Type} {E : Supplier σ τ} {others othersDesc out : List ℕ} {s : CacheState σ τ}
  {f : Shelf}

/-- A list is drained to the end. -/
theorem drainAll_spec (h : Stored E others othersDesc none s f out) (ht : E.TakesBack s)
    (cpu : Processor) (k : SlabQueue) : ∃ n s' f' out', drainList E.gfp E.set cpu k (-1) s = some (n, s') ∧
      Stored E others othersDesc none s' f' out' ∧ f'.lists k = [] ∧
      (∀ j, j ≠ k → f'.lists j = f.lists j) ∧ E.TakesBack s' := by
  obtain ⟨n, s1, f1, out1, hloop, hd, hall⟩ :=
    (drainLoop_spec cpu k (-1) _ 0 h (h.length_lt_fuel k)).resolve_left fun hnone => hnone.2 ht
  have ht1 := hd.back.takes ht
  refine ⟨_, _, f1, out1, by rw [drainList, hloop, Option.map_some], ?_, hall (by decide), hd.lists, ?_⟩
  · cases k with
    | free => exact { hd.stored with }
    | full => exact { hd.stored with }
    | partly => exact { hd.stored with }
  · cases k <;> exact ⟨ht1.pages, ht1.descs⟩

/-- `imemcache_destroy_list` gives everything back, whatever is out. -/
theorem destroyList_spec (h : Stored E others othersDesc none s f out) (ht : E.TakesBack s)
    (cpu : Processor) : ∃ s', destroyList E.gfp E.set cpu s = some s' ∧
      E.held s'.pages others ∧ E.heldDesc s'.descs othersDesc := by
  obtain ⟨n1, s1, f1, out1, h1, hst1, hnil1, hl1, ht1⟩ := h.drainAll_spec ht cpu .free
  obtain ⟨n2, s2, f2, out2, h2, hst2, hnil2, hl2, ht2⟩ := hst1.drainAll_spec ht1 cpu .full
  obtain ⟨n3, s3, f3, out3, h3, hst3, hnil3, hl3, -⟩ := hst2.drainAll_spec ht2 cpu .partly
  have hlive : f3.live = [] := by
    rw [Shelf.live, hl3 .free (by decide), hl3 .full (by decide), hl2 .free (by decide), hnil1, hnil2,
      hnil3]
    rfl
  have hheld := hst3.held
  have hdesc := hst3.heldDesc
  rw [hlive] at hheld hdesc
  rw [ite_self] at hdesc
  refine ⟨{ s3 with cache := { s3.cache with
      countFree := 0, countFull := 0, countPartial := 0, freeObjects := 0 } }, ?_, hheld, hdesc⟩
  simp only [destroyList, h1, h2, h3, Option.bind_some, Option.map_some]

end Stored

namespace CacheState

variable {σ τ : Type}

/-- `iqueue_foreach_entry` over a list of slabs: the slabs met, if that is over
after `fuel` nodes. -/
def walk (s : CacheState σ τ) (k : SlabQueue) : ℕ → QueueNode → Option (List ℕ)
  | 0, _ => none
  | fuel+1, p =>
    if p = .head k then some []
    else match p with
      | .slab a => (walk s k fuel (s.cache.queues.next p)).map (a :: ·)
      | _ => none

/-- How many units of a slab are not free, and how many are. -/
def inuseOf (s : CacheState σ τ) (a : ℕ) : ℤ := ((s.slabs a).map IMemSlab.inuse).getD 0

def freeOf (s : CacheState σ τ) (a : ℕ) : ℤ :=
  ((s.slabs a).map fun d => ((d.units s.cache.unitSize).length : ℤ) - d.inuse).getD 0

theorem walk_linked {s : CacheState σ τ} {k : SlabQueue} {xs : List ℕ} :
    ∀ {x : QueueNode} {fuel : ℕ}, Links.Linked s.cache.queues.next s.cache.queues.prev
        (x :: (xs.map QueueNode.slab ++ [.head k])) → xs.length < fuel →
      s.walk k fuel (s.cache.queues.next x) = some xs := by
  induction xs with
  | nil =>
    intro x fuel h hf
    obtain ⟨n, rfl⟩ : ∃ n, fuel = n + 1 := ⟨fuel - 1, by rw [List.length_nil] at hf; omega⟩
    have hx := (List.isChain_cons_cons.mp h).1.1
    unfold walk
    rw [if_pos hx]
  | cons a xs ih =>
    intro x fuel h hf
    rw [List.length_cons] at hf
    obtain ⟨n, rfl⟩ : ∃ n, fuel = n + 1 := ⟨fuel - 1, by omega⟩
    obtain ⟨⟨hx, -⟩, ht⟩ := List.isChain_cons_cons.mp h
    unfold walk
    rw [hx, if_neg (by simp)]
    change (s.walk k n (s.cache.queues.next (.slab a))).map (a :: ·) = _
    rw [ih ht (by omega), Option.map_some]

end CacheState

namespace Stored

open CacheState

variable {σ τ : Type} {E : Supplier σ τ} {others othersDesc out : List ℕ} {s : CacheState σ τ}
  {f : Shelf}

theorem walk_spec (h : Stored E others othersDesc none s f out) (k : SlabQueue) :
    s.walk k (s.cache.pagesInuse.toNat + 1) (s.cache.queues.next (.head k)) = some (f.lists k) :=
  walk_linked (Links.Rings.ring h.queues k) (h.length_lt_fuel k)

theorem inuseOf_eq (h : Stored E others othersDesc none s f out) {a : ℕ} (ha : a ∈ f.live) :
    s.inuseOf a = ((f.slab a).units s.cache.unitSize).length - (f.free a).length ∧
      s.freeOf a = (f.free a).length := by
  have hi := (h.holds a ha).inuse_eq
  rw [inuseOf, freeOf, h.slabs_eq, if_pos ha]
  simp only [Option.map_some, Option.getD_some]
  omega

/-- The units of a slab that are not free. -/
def outOf (s : CacheState σ τ) (f : Shelf) (a : ℕ) : List ℕ :=
  ((f.slab a).units s.cache.unitSize).filter fun u => u ∉ f.free a

theorem unit_size_pos (h : Stored E others othersDesc none s f out) : 0 < s.cache.unitSize := by
  have := h.size_le
  omega

theorem outOf_length (h : Stored E others othersDesc none s f out) {a : ℕ} (ha : a ∈ f.live) :
    ((outOf s f a).length : ℤ) = s.inuseOf a := by
  have hholds := h.holds a ha
  have hnd : ((f.slab a).units s.cache.unitSize).Nodup := IMemSlab.row_nodup h.unit_size_pos _ _
  have hsplit := List.length_eq_length_filter_add (l := (f.slab a).units s.cache.unitSize)
    fun u => decide (u ∉ f.free a)
  have hfree : (((f.slab a).units s.cache.unitSize).filter fun u => !decide (u ∉ f.free a)).Perm
      (f.free a) := by
    refine (List.perm_ext_iff_of_nodup (hnd.filter _) hholds.chain.nodup).mpr ?_
    intro u
    rw [List.mem_filter]
    simp only [decide_not, Bool.not_not, decide_eq_true_eq]
    exact ⟨fun hu => hu.2, fun hu => ⟨hholds.sub u hu, hu⟩⟩
  rw [hfree.length_eq] at hsplit
  rw [(h.inuseOf_eq ha).1]
  unfold outOf
  omega

/-- Every unit that is out belongs to one slab. -/
theorem out_perm (h : Stored E others othersDesc none s f out) :
    out.Perm (f.live.flatMap (outOf s f)) := by
  refine (List.perm_ext_iff_of_nodup h.nodup ?_).mpr ?_
  · refine List.nodup_flatMap.mpr ⟨?_, ?_⟩
    · intro a _
      exact (IMemSlab.row_nodup h.unit_size_pos _ _).filter _
    · refine (Shelf.live_nodup h.queues).imp_of_mem ?_
      intro a b ha hb hab u hua hub
      exact hab (h.unit_slab ha hb (List.mem_filter.mp hua).1 (List.mem_filter.mp hub).1)
  · intro u
    rw [h.mem_out, List.mem_flatMap]
    simp only [outOf, List.mem_filter, decide_eq_true_eq]

theorem sum_inuse (h : Stored E others othersDesc none s f out) :
    (f.live.map s.inuseOf).sum = out.length := by
  have hmap : f.live.map s.inuseOf = f.live.map fun a => ((outOf s f a).length : ℤ) := by
    apply List.map_congr_left
    intro a ha
    exact (h.outOf_length ha).symm
  rw [hmap, h.out_perm.length_eq, List.length_flatMap, Nat.cast_list_sum, List.map_map]
  rfl

theorem sum_free (h : Stored E others othersDesc none s f out) :
    (f.live.map s.freeOf).sum = f.total := by
  have hmap : f.live.map s.freeOf = f.live.map fun a => ((f.free a).length : ℤ) := by
    apply List.map_congr_left
    intro a ha
    exact (h.inuseOf_eq ha).2
  rw [hmap, Shelf.total, Nat.cast_list_sum, List.map_map]
  rfl

end Stored

namespace CacheState

variable {σ τ : Type}

/-- An object of a slab is taken back only if it is in use: not if it is given
back twice, and not if it has never been handed out. And if it is in use, and the
slabs would be taken back, then so is the object. -/
theorem free_accepted_iff (E : Supplier σ τ) {self objSize : ℕ} {c : IMemCache} {pages : σ} {descs : τ}
    {others othersDesc : List ℕ} (hc : IMemCache.create self objSize E.pageSize = some c)
    (hp : E.held pages others) (hd : E.heldDesc descs othersDesc) (mem : PageWords)
    {calls : List CacheCall} {s : CacheState σ τ} {o : Owned}
    (hrun : run E.gfp E.set (start c mem pages descs) Owned.nothing calls = some (s, o))
    {slab u : ℕ} {d : IMemSlab} (hslab : s.slabs slab = some d) (hu : u ∈ d.units s.cache.unitSize)
    (cpu : Processor) {cache : Option ℕ} (hcache : ∀ a, cache = some a → a = self) :
    ((free E.gfp E.set cpu cache (u + 8) s).isSome → u + 8 ∈ o.inUse) ∧
      (E.TakesBack s → ((free E.gfp E.set cpu cache (u + 8) s).isSome ↔ u + 8 ∈ o.inUse)) := by
  obtain ⟨hstart, hself, -⟩ := Serves.start hc hp hd mem
  obtain ⟨f, kept, units, h, hsteady⟩ := hstart.run hrun
  -- there is a slab at this address, so it is one of the shelf
  have hlive : slab ∈ f.live := by
    by_contra hnot
    rw [h.keeps.stored.slabs_eq, if_neg hnot] at hslab
    cases hslab
  have hd' : f.slab slab = d := by
    rw [h.keeps.stored.slabs_eq, if_pos hlive] at hslab
    exact Option.some.inj hslab
  rw [h.mem_inUse]
  -- a unit that is in a processor's array or in its slab is refused
  by_cases hin : u ∈ units
  · have hcache' : ∀ a, cache = some a → a = s.cache.self := by
      intro a ha
      exact (hcache a ha).trans (hsteady.self.trans hself).symm
    refine ⟨fun _ => hin, fun ht => ?_⟩
    obtain ⟨s', f', kept', hfree, -⟩ :=
      (h.keeps.free_spec cpu cache hcache' hin).resolve_left fun hnone => hnone.2 ht
    rw [hfree]
    exact iff_of_true rfl hin
  · rw [h.keeps.free_refused hlive (hd' ▸ hu) hin cpu cache]
    exact ⟨fun hsome => absurd hsome (by simp), fun _ => iff_of_false (by simp) hin⟩

theorem free_accepted_iff_two : ∃ s o,
    run freshSupplier.gfp freshSupplier.set (start smallCache (fun _ => 0) 0 0) Owned.nothing
      (twoObjects 0 3) = some (s, o) ∧
      (free freshSupplier.gfp freshSupplier.set 5 none 102488 s).isSome ∧
      free freshSupplier.gfp freshSupplier.set 5 (some 1000) 101464 s = none := by
  obtain ⟨s, o, hrun, hin, -, d, hd, hunits⟩ := run_twoObjects
  refine ⟨s, o, hrun, ?_, ?_⟩
  · refine ((free_accepted_iff freshSupplier smallCache_eq (freshHeld_nil 4224)
      (freshHeld_nil slabSize) (fun _ => 0) hrun hd (u := 102480) (by rw [hunits]; decide) 5
      (by simp)).2 (freshSupplier_takesBack s)).mpr ?_
    rw [hin]
    decide
  · refine Option.not_isSome_iff_eq_none.mp fun hsome => ?_
    have hmem := (free_accepted_iff freshSupplier smallCache_eq (freshHeld_nil 4224)
      (freshHeld_nil slabSize) (fun _ => 0) hrun hd (u := 101456) (by rw [hunits]; decide) 5
      (by simp)).1 hsome
    rw [hin] at hmem
    exact absurd hmem (by decide)

/-- Each list has as many slabs as its counter says, and they are the slabs that
belong there. The units that are not free are those in use and in the arrays,
and the others have been counted as free. -/
theorem counters_hold (E : Supplier σ τ) {self objSize : ℕ} {c : IMemCache} {pages : σ} {descs : τ}
    {others othersDesc : List ℕ} (hc : IMemCache.create self objSize E.pageSize = some c)
    (hp : E.held pages others) (hd : E.heldDesc descs othersDesc) (mem : PageWords)
    {calls : List CacheCall} {s : CacheState σ τ} {o : Owned}
    (hrun : run E.gfp E.set (start c mem pages descs) Owned.nothing calls = some (s, o)) :
    ∃ lists : SlabQueue → List ℕ,
      (∀ k, s.walk k (s.cache.pagesInuse.toNat + 1) (s.cache.queues.next (.head k)) =
        some (lists k)) ∧
      s.cache.countFree = (lists .free).length ∧ s.cache.countFull = (lists .full).length ∧
      s.cache.countPartial = (lists .partly).length ∧
      s.cache.pagesInuse = s.cache.countFree + s.cache.countFull + s.cache.countPartial ∧
      (∀ k, ∀ a ∈ lists k, ∃ d, s.slabs a = some d ∧ (d.inuse = 0 ↔ k = .free) ∧
        (d.bufctl = 0 ↔ k = .full)) ∧
      ((lists .free ++ lists .full ++ lists .partly).map s.inuseOf).sum =
        o.inUse.length + ((List.finRange 8).map fun i => ((s.cache.array i).avial : ℤ)).sum ∧
      ((lists .free ++ lists .full ++ lists .partly).map s.freeOf).sum = s.cache.freeObjects := by
  obtain ⟨hstart, -, -⟩ := Serves.start hc hp hd mem
  obtain ⟨f, kept, units, h, -⟩ := hstart.run hrun
  have hst := h.keeps.stored
  have hcnt := h.keeps.counted
  refine ⟨f.lists, hst.walk_spec, hcnt.free_eq, hcnt.full_eq, hcnt.partial_eq, ?_, ?_, ?_, ?_⟩
  · rw [hst.inuse_eq, hcnt.free_eq, hcnt.full_eq, hcnt.partial_eq, Shelf.live, List.length_append,
      List.length_append]
    push_cast
    rfl
  · intro k a ha
    have hlive : a ∈ f.live := Shelf.mem_live.mpr ⟨k, ha⟩
    have hholds := hst.holds a hlive
    have hfits := hst.fits k a ha (by simp)
    obtain ⟨u, hu⟩ := List.exists_mem_of_ne_nil _ (hst.units_ne a hlive)
    -- the two tests of the source, in terms of the free units
    have hempty : (f.slab a).inuse = 0 ↔ ∀ u ∈ (f.slab a).units s.cache.unitSize, u ∈ f.free a := by
      rw [← hholds.isEmpty, IMemSlab.isEmpty, decide_eq_true_iff]
    have hfull : (f.slab a).bufctl = 0 ↔ f.free a = [] := by
      rw [← hholds.isFull, IMemSlab.isFull, decide_eq_true_iff]
    refine ⟨f.slab a, by rw [hst.slabs_eq, if_pos hlive], ?_, ?_⟩
    · rw [hempty]
      cases k with
      | free => exact iff_of_true hfits rfl
      | full =>
        refine iff_of_false ?_ (by decide)
        intro hall
        have hin := hall u hu
        rw [show f.free a = [] from hfits] at hin
        exact absurd hin List.not_mem_nil
      | partly =>
        refine iff_of_false ?_ (by decide)
        intro hall
        obtain ⟨v, hv, hnot⟩ := hfits.2
        exact hnot (hall v hv)
    · rw [hfull]
      cases k with
      | free => exact iff_of_false (List.ne_nil_of_mem (hfits u hu)) (by decide)
      | full => exact iff_of_true hfits rfl
      | partly => exact iff_of_false hfits.1 (by decide)
  -- what is out of the slabs is with the users or in the arrays of the processors
  · have hkept : ((List.finRange 8).map fun i => ((s.cache.array i).avial : ℤ)).sum =
        (allKept kept).length := by
      rw [allKept, List.length_flatMap, Nat.cast_list_sum, List.map_map]
      congr 1
      apply List.map_congr_left
      intro i _
      rw [h.keeps.avial i]
      rfl
    rw [hkept, h.inUse_eq, List.length_map]
    have hsum := hst.sum_inuse
    rw [List.length_append, List.nil_append] at hsum
    rw [← Shelf.live, hsum]
    push_cast
    ring
  · rw [← Shelf.live, hst.sum_free, hcnt.objects_eq]

theorem counters_hold_two : ∃ s o,
    run freshSupplier.gfp freshSupplier.set (start smallCache (fun _ => 0) 0 0) Owned.nothing
      (twoObjects 0 3) = some (s, o) ∧ o.inUse.length = 2 ∧
      ∃ lists : SlabQueue → List ℕ,
        s.cache.countFull = (lists .full).length ∧
        ((lists .free ++ lists .full ++ lists .partly).map s.inuseOf).sum =
          2 + ((List.finRange 8).map fun i => ((s.cache.array i).avial : ℤ)).sum := by
  obtain ⟨s, o, hrun, hin, -⟩ := run_twoObjects
  obtain ⟨lists, -, -, hfull, -, -, -, hsum, -⟩ := counters_hold freshSupplier smallCache_eq
    (freshHeld_nil 4224) (freshHeld_nil slabSize) (fun _ => 0) hrun
  refine ⟨s, o, hrun, by rw [hin]; rfl, lists, hfull, ?_⟩
  rw [hsum, hin]
  rfl

/-- After `imemcache_shrink` no page is left if and only if no object was in use
and none was kept back for another processor than the first one. It may not get
that far if a slab of the cache would not be taken back. -/
theorem shrink_empties_iff (E : Supplier σ τ) {self objSize : ℕ} {c : IMemCache} {pages : σ} {descs : τ}
    {others othersDesc : List ℕ} (hc : IMemCache.create self objSize E.pageSize = some c)
    (hp : E.held pages others) (hd : E.heldDesc descs othersDesc) (mem : PageWords)
    {calls : List CacheCall} {s : CacheState σ τ} {o : Owned}
    (hrun : run E.gfp E.set (start c mem pages descs) Owned.nothing calls = some (s, o))
    (ht : E.TakesBack s) (cpu : Processor) : ∃ s' mine, shrink E.gfp E.set cpu s = some s' ∧
      E.held s'.pages (mine ++ others) ∧ s'.cache.pagesInuse = mine.length ∧
      (mine = [] ↔ o.inUse = [] ∧ ∀ i, i ≠ 0 → (s.cache.array i).avial = 0) := by
  obtain ⟨hstart, -, -⟩ := Serves.start hc hp hd mem
  obtain ⟨f, kept, units, h, -⟩ := hstart.run hrun
  obtain ⟨s', f', hshrink, hk, -, hfree⟩ :=
    (h.keeps.shrink_spec cpu).resolve_left fun hnone => hnone.2 ht
  have hst := hk.stored
  refine ⟨s', _, hshrink, hst.held, ?_, ?_⟩
  · rw [hst.inuse_eq, List.length_map]
  have hout : f'.live = [] ↔ allKept (Function.update kept 0 []) ++ ([] ++ units) = [] := by
    constructor
    · intro hnil
      refine List.eq_nil_iff_forall_not_mem.mpr ?_
      intro u hu
      obtain ⟨a, ha, -⟩ := hst.out_unit hu
      rw [hnil] at ha
      exact absurd ha List.not_mem_nil
    · intro hnil
      refine List.eq_nil_iff_forall_not_mem.mpr ?_
      intro a ha
      obtain ⟨k, hak⟩ := Shelf.mem_live.mp ha
      have hfits := hst.fits k a hak (by simp)
      -- each slab that is left has a unit that is out
      obtain ⟨u, hu, hnot⟩ : ∃ u ∈ (f'.slab a).units s'.cache.unitSize, u ∉ f'.free a := by
        cases k with
        | free =>
          rw [hfree] at hak
          exact absurd hak List.not_mem_nil
        | full =>
          obtain ⟨u, hu⟩ := List.exists_mem_of_ne_nil _ (hst.units_ne a ha)
          refine ⟨u, hu, ?_⟩
          rw [show f'.free a = [] from hfits]
          exact List.not_mem_nil
        | partly => exact hfits.2
      have hin := (hst.mem_out u).mpr ⟨a, ha, hu, hnot⟩
      rw [hnil] at hin
      exact absurd hin List.not_mem_nil
  rw [List.map_eq_nil_iff, hout, List.nil_append, List.append_eq_nil_iff, h.inUse_eq,
    List.map_eq_nil_iff, and_comm]
  refine and_congr_right fun _ => ?_
  rw [allKept, List.flatMap_eq_nil_iff]
  constructor
  · intro hall i hi
    have hnil := hall i (List.mem_finRange i)
    rw [Function.update_of_ne hi] at hnil
    rw [h.keeps.avial i, hnil, List.length_nil]
  · intro hall i _
    by_cases hi : i = 0
    · rw [hi, Function.update_self]
    · have hlen := hall i hi
      rw [h.keeps.avial i] at hlen
      rw [Function.update_of_ne hi]
      exact List.length_eq_zero_iff.mp hlen

theorem shrink_empties_iff_two : ∃ s o s' mine,
    run freshSupplier.gfp freshSupplier.set (start smallCache (fun _ => 0) 0 0) Owned.nothing
      (twoObjects 0 3) = some (s, o) ∧
      shrink freshSupplier.gfp freshSupplier.set 0 s = some s' ∧
      s'.cache.pagesInuse = (mine : List ℕ).length ∧ mine ≠ [] := by
  obtain ⟨s, o, hrun, hin, -⟩ := run_twoObjects
  obtain ⟨s', mine, hshrink, -, hlen, hiff⟩ := shrink_empties_iff freshSupplier smallCache_eq
    (freshHeld_nil 4224) (freshHeld_nil slabSize) (fun _ => 0) hrun (freshSupplier_takesBack s) 0
  refine ⟨s, o, s', mine, hrun, hshrink, hlen, ?_⟩
  intro hnil
  have hnone := (hiff.mp hnil).1
  rw [hin] at hnone
  cases hnone

/-- `imemcache_release` gives back every page and every descriptor, also those of
objects that are still in use, if they are taken back. -/
theorem release_returns_pages (E : Supplier σ τ) {self objSize : ℕ} {c : IMemCache} {pages : σ}
    {descs : τ} {others othersDesc : List ℕ}
    (hc : IMemCache.create self objSize E.pageSize = some c)
    (hp : E.held pages others) (hd : E.heldDesc descs othersDesc) (mem : PageWords)
    {calls : List CacheCall} {s : CacheState σ τ} {o : Owned}
    (hrun : run E.gfp E.set (start c mem pages descs) Owned.nothing calls = some (s, o))
    (ht : E.TakesBack s) (cpu : Processor) :
    ∃ s', release E.gfp E.set cpu s = some s' ∧ E.held s'.pages others ∧
      E.heldDesc s'.descs othersDesc := by
  obtain ⟨hstart, -, -⟩ := Serves.start hc hp hd mem
  obtain ⟨f, kept, units, h, -⟩ := hstart.run hrun
  obtain ⟨s1, f1, kept1, harrays, hk, ht1⟩ :=
    Cached.releaseArrays_spec cpu (List.finRange 8) h.keeps ht
  obtain ⟨s', hdestroy, hpages, hdescs⟩ := hk.stored.destroyList_spec ht1 cpu
  exact ⟨s', by rw [release, harrays, Option.bind_some, hdestroy], hpages, hdescs⟩

theorem release_returns_pages_two : ∃ s o s',
    run freshSupplier.gfp freshSupplier.set (start smallCache (fun _ => 0) 0 0) Owned.nothing
      (twoObjects 0 3) = some (s, o) ∧ o.inUse.length = 2 ∧
      release freshSupplier.gfp freshSupplier.set 0 s = some s' ∧ freshHeld 4224 s'.pages [] := by
  obtain ⟨s, o, hrun, hin, -⟩ := run_twoObjects
  obtain ⟨s', hrelease, hheld, -⟩ := release_returns_pages freshSupplier smallCache_eq
    (freshHeld_nil 4224) (freshHeld_nil slabSize) (fun _ => 0) hrun (freshSupplier_takesBack s) 0
  exact ⟨s, o, s', hrun, by rw [hin]; rfl, hrelease, hheld⟩

end CacheState

end HttpsProxy
