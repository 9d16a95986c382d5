import HttpsProxy.MemCacheKeeps

/-! What the calls of a cache do to the objects kept back and in use. -/
namespace HttpsProxy

/-- What no call changes. -/
structure IMemCache.Steady (c c' : IMemCache) : Prop where
  self : c'.self = c.self
  objSize : c'.objSize = c.objSize
  unitSize : c'.unitSize = c.unitSize

theorem IMemCache.Steady.trans {c c' c'' : IMemCache} (h : c.Steady c') (h' : c'.Steady c'') :
    c.Steady c'' :=
  ⟨h'.self.trans h.self, h'.objSize.trans h.objSize, h'.unitSize.trans h.unitSize⟩

theorem IMemCache.Alike.steady {c c' : IMemCache} (h : c.Alike c') : c.Steady c' :=
  ⟨h.self, h.objSize, h.unitSize⟩

/-- A call that leaves the objects in `inUse` alone. -/
structure Spares {σ τ : Type} (s s' : CacheState σ τ) (inUse : List ℕ) : Prop where
  steady : s.cache.Steady s'.cache
  untouched : Stored.Untouched s s' inUse

theorem Spares.refl {σ τ : Type} (s : CacheState σ τ) (inUse : List ℕ) : Spares s s inUse :=
  ⟨⟨rfl, rfl, rfl⟩, fun _ _ _ _ _ => rfl⟩

theorem Spares.trans {σ τ : Type} {s s' s'' : CacheState σ τ} {inUse : List ℕ}
    (h : Spares s s' inUse) (h' : Spares s' s'' inUse) : Spares s s'' inUse := by
  refine ⟨h.steady.trans h'.steady, ?_⟩
  intro v hv w hvw hwv
  rw [h'.untouched v hv w hvw (by rw [h.steady.unitSize]; exact hwv), h.untouched v hv w hvw hwv]

namespace Cached

variable {σ τ : Type} {E : Supplier σ τ} {others othersDesc : List ℕ} {s : CacheState σ τ} {f : Shelf}
  {kept : Processor → List ℕ} {loose inUse : List ℕ}

/-- `imemcache_fill_batch` moves units from the slabs into the array, as long as
there are any. -/
theorem fillLoop_spec (cpu : Processor) (n : ℕ) :
    ∀ {s : CacheState σ τ} {f : Shelf} {kept : Processor → List ℕ},
      Cached E others othersDesc s f kept [] inUse →
      CacheState.fillLoop E.gfp E.set cpu n s = none ∨ ∃ s' f' kept',
        CacheState.fillLoop E.gfp E.set cpu n s = some s' ∧
        Cached E others othersDesc s' f' kept' [] inUse ∧ Spares s s' inUse := by
  induction n with
  | zero =>
    intro s f kept h
    exact Or.inr ⟨s, f, kept, rfl, h, Spares.refl s inUse⟩
  | succ n ih =>
    intro s f kept h
    rw [CacheState.fillLoop]
    by_cases hroom : (s.cache.array cpu).avial < (s.cache.array cpu).batchcount
    · rw [if_pos hroom]
      have htaken := h.stored.listAlloc_spec h.counted cpu
      revert htaken
      generalize CacheState.listAlloc E.gfp E.set cpu s = r
      intro htaken
      cases htaken with
      | aborted => exact Or.inl rfl
      | @refused s' stored counted alike mem =>
        right
        refine ⟨s', f, kept, rfl, h.relist _ alike stored counted ?_ ?_, alike.steady, ?_⟩
        · intro u hu
          rw [mem]
          exact h.word u hu
        · intro u _
          rw [mem]
        · intro v _ w _ _
          rw [mem]
      | @taken u s1 f1 stored counted alike untouched word =>
        have hfirst : ∀ v ∈ allKept kept ++ ([] ++ inUse), s1.mem v = s.mem v := by
          intro v hv
          have hsize := h.stored.size_le
          exact untouched v hv v le_rfl (by omega)
        -- the unit is on its way until it is in the array
        have h1 : Cached E others othersDesc s1 f1 kept [u] inUse := by
          refine h.relist _ alike (stored.perm List.perm_middle.symm) counted ?_ ?_
          · intro v hv
            by_cases hvu : v = u
            · rw [hvu]
              exact word
            · have hv' : v ∈ allKept kept := by
                rw [List.mem_singleton] at hv
                exact hv.resolve_right hvu
              rw [hfirst v (List.mem_append_left _ hv')]
              exact h.word v (Or.inl hv')
          · intro v hv
            exact hfirst v (List.mem_append_right _ hv)
        have hspare : Spares s s1 inUse :=
          ⟨alike.steady, fun v hv => untouched v (List.mem_append_right _ hv)⟩
        have hlim := (h.limits cpu).2
        obtain ⟨a, hpush, h2⟩ := h1.push cpu (by rw [alike.array]; omega)
        simp only [Option.bind_some, hpush]
        rcases ih h2 with hnone | ⟨s', f', kept', hloop, hk, hs⟩
        · exact Or.inl hnone
        · exact Or.inr ⟨s', f', kept', hloop, hk, hspare.trans
            ⟨⟨hs.steady.self, hs.steady.objSize, hs.steady.unitSize⟩, hs.untouched⟩⟩
    · rw [if_neg hroom]
      exact Or.inr ⟨s, f, kept, rfl, h, Spares.refl s inUse⟩

theorem fillBatch_spec (h : Cached E others othersDesc s f kept [] inUse) (cpu : Processor) :
    CacheState.fillBatch E.gfp E.set cpu s = none ∨ ∃ s' f' kept',
      CacheState.fillBatch E.gfp E.set cpu s = some s' ∧
      Cached E others othersDesc s' f' kept' [] inUse ∧ Spares s s' inUse := by
  rcases fillLoop_spec cpu (s.cache.array cpu).batchcount h with hnone | ⟨s1, f1, kept1, hl, hk, hs⟩
  · left
    rw [CacheState.fillBatch, hnone, Option.map_none]
  · right
    rw [CacheState.fillBatch, hl, Option.map_some]
    split
    · refine ⟨_, f1, kept1, rfl, ?_, ⟨hs.steady.self, hs.steady.objSize, hs.steady.unitSize⟩,
        hs.untouched⟩
      exact hk.relist { s1 with cache := { s1.cache with pagesHiwater := s1.cache.pagesInuse } }
        ⟨rfl, rfl, rfl, rfl, rfl, rfl⟩ { hk.stored with } { hk.counted with } hk.word fun _ _ => rfl
    · exact ⟨s1, f1, kept1, rfl, hk, hs⟩

/-- The object handed out is the last one of the array. -/
theorem takeObject_spec (h : Cached E others othersDesc s f kept [] inUse) (cpu : Processor) :
    (CacheState.takeObject cpu s = (none, s) ∧ kept cpu = []) ∨ ∃ u s' kept',
      CacheState.takeObject cpu s = (some (u + 8), s') ∧
      Cached E others othersDesc s' f kept' [] (u :: inUse) ∧ Spares s s' inUse := by
  rcases List.eq_nil_or_concat' (kept cpu) with hnil | ⟨ks, u, hk⟩
  · left
    refine ⟨?_, hnil⟩
    have hav := h.avial cpu
    rw [hnil, List.length_nil] at hav
    simp only [CacheState.takeObject, if_pos hav]
  · right
    obtain ⟨hentry, h1⟩ := h.pop hk
    have hav := h.avial cpu
    rw [hk, List.length_append, List.length_singleton] at hav
    have hne : ¬ (s.cache.array cpu).avial = 0 := by omega
    have hptr : ¬ u + 8 = 0 := by omega
    have h2 := h1.handOut
    refine ⟨u, _, _, ?_, h2, ⟨rfl, rfl, rfl⟩, ?_⟩
    · simp only [CacheState.takeObject, if_neg hne, hentry, if_neg hptr, Nat.add_sub_cancel]
    · -- only the first word of the object's own unit is written
      intro v hv w hvw hwv
      refine Function.update_of_ne ?_ _ _
      rintro rfl
      obtain ⟨a, ha, hua, -⟩ := h2.stored.out_unit (mem_out.mpr (Or.inr List.mem_cons_self))
      obtain ⟨b, hb, hvb, -⟩ := h2.stored.out_unit
        (mem_out.mpr (Or.inr (List.mem_cons_of_mem _ hv)))
      have hvu : v ≠ w := by
        rintro rfl
        have hnd := (List.nodup_append.mp h2.stored.nodup).2.1
        rw [List.nil_append] at hnd
        exact (List.nodup_cons.mp hnd).1 hv
      have hsize : s.cache.objSize + 8 ≤ s.cache.unitSize := h.stored.size_le
      rcases h2.stored.units_apart hb ha hvb hua hvu with hap | hap
      · change v + s.cache.unitSize ≤ w at hap
        omega
      · change w + s.cache.unitSize ≤ v at hap
        omega

/-- `imemcache_alloc`. -/
theorem alloc_spec (h : Cached E others othersDesc s f kept [] inUse) (cpu : Processor) :
    CacheState.alloc E.gfp E.set cpu s = none ∨
      (∃ s' f' kept', CacheState.alloc E.gfp E.set cpu s = some (none, s') ∧
        Cached E others othersDesc s' f' kept' [] inUse ∧ Spares s s' inUse) ∨
      ∃ u s' f' kept', CacheState.alloc E.gfp E.set cpu s = some (some (u + 8), s') ∧
        Cached E others othersDesc s' f' kept' [] (u :: inUse) ∧ Spares s s' inUse := by
  have htake : ∀ {s1 : CacheState σ τ} {f1 kept1}, Cached E others othersDesc s1 f1 kept1 [] inUse →
      Spares s s1 inUse →
      (∃ s' f' kept', (some s1).map (CacheState.takeObject cpu) = some (none, s') ∧
        Cached E others othersDesc s' f' kept' [] inUse ∧ Spares s s' inUse) ∨
      ∃ u s' f' kept', (some s1).map (CacheState.takeObject cpu) = some (some (u + 8), s') ∧
        Cached E others othersDesc s' f' kept' [] (u :: inUse) ∧ Spares s s' inUse := by
    intro s1 f1 kept1 h1 hs
    rcases h1.takeObject_spec cpu with ⟨hnone, -⟩ | ⟨u, s', kept', htake, hk, hs'⟩
    · exact Or.inl ⟨s1, f1, kept1, by rw [Option.map_some, hnone], h1, hs⟩
    · exact Or.inr ⟨u, s', f1, kept', by rw [Option.map_some, htake], hk, hs.trans hs'⟩
  unfold CacheState.alloc
  split
  · rcases h.fillBatch_spec cpu with hnone | ⟨s1, f1, kept1, hfill, h1, hs⟩
    · left
      simp only [hnone, Option.map_none]
    · right
      simp only [hfill]
      exact htake h1 hs
  · exact Or.inr (htake h (Spares.refl s inUse))

/-- The array is spilled down to `least` objects. -/
theorem spillLoop_spec (cpu i : Processor) (least : ℕ) (n : ℕ) :
    ∀ {s : CacheState σ τ} {f : Shelf} {kept : Processor → List ℕ},
      Cached E others othersDesc s f kept loose inUse → (kept i).length ≤ n →
      (CacheState.spillLoop E.gfp E.set cpu i least n s = none ∧ ¬E.TakesBack s) ∨
        ∃ s' f', CacheState.spillLoop E.gfp E.set cpu i least n s = some s' ∧
          Cached E others othersDesc s' f' (Function.update kept i ((kept i).take least)) loose inUse ∧
          Spares s s' inUse ∧ E.Returns s s' := by
  -- on the objects of the array: the last one goes back to its slab
  induction n with
  | zero =>
    intro s f kept h hn
    have hnil : kept i = [] := List.length_eq_zero_iff.mp (by omega)
    refine Or.inr ⟨s, f, rfl, ?_, Spares.refl s inUse, Supplier.Returns.refl s⟩
    have hself : Function.update kept i ((kept i).take least) = kept := by
      rw [hnil, List.take_nil, ← hnil, Function.update_eq_self]
    rwa [hself]
  | succ n ih =>
    intro s f kept h hn
    have hav := h.avial i
    rw [CacheState.spillLoop]
    by_cases hl : least < (s.cache.array i).avial
    · obtain ⟨ks, u, hk⟩ := (List.eq_nil_or_concat' (kept i)).resolve_left (by
        intro hnil
        rw [hnil, List.length_nil] at hav
        omega)
      have hlen : (kept i).length = ks.length + 1 := by
        rw [hk, List.length_append, List.length_singleton]
      obtain ⟨hentry, h1⟩ := h.pop hk
      have hset : E.Returns s
          (s.setArray i { s.cache.array i with avial := (s.cache.array i).avial - 1 }) :=
        Supplier.Returns.same rfl rfl rfl fun _ ha => ha
      simp only [if_pos hl, hentry]
      rcases h1.give cpu (some s.cache.self) (fun a ha => (Option.some.inj ha).symm) with
        ⟨hgive, hbad⟩ | ⟨s1, f1, hgive, h2, halike, hun, hback⟩
      · left
        exact ⟨by rw [hgive, Option.bind_none], fun ht => hbad (hset.takes ht)⟩
      have hback1 := hset.trans hback
      rw [hgive, Option.bind_some]
      rcases ih h2 (by
        rw [Function.update_self]
        omega) with ⟨hloop, hbad⟩ | ⟨s', f', hloop, h3, hs, hback'⟩
      · exact Or.inl ⟨hloop, fun ht => hbad (hback1.takes ht)⟩
      right
      have hspare : Spares s s1 inUse := by
        refine ⟨⟨halike.self, halike.objSize, halike.unitSize⟩, ?_⟩
        intro v hv
        exact hun v (mem_out.mpr (Or.inr hv))
      refine ⟨s', f', hloop, ?_, hspare.trans hs, hback1.trans hback'⟩
      rw [Function.update_self, Function.update_idem] at h3
      have htake : (kept i).take least = ks.take least := by
        rw [hk, List.take_append_of_le_length (by omega)]
      rwa [htake]
    · refine Or.inr ⟨s, f, by simp only [if_neg hl], ?_, Spares.refl s inUse, Supplier.Returns.refl s⟩
      rw [List.take_of_length_le (by omega), Function.update_eq_self]
      exact h

theorem drain_spec (h : Cached E others othersDesc s f kept loose inUse) (cpu : Processor)
    (tofree : ℤ) :
    (CacheState.drainList E.gfp E.set cpu .free tofree s = none ∧ ¬E.TakesBack s) ∨
      ∃ n s' f', CacheState.drainList E.gfp E.set cpu .free tofree s = some (n, s') ∧
        Cached E others othersDesc s' f' kept loose inUse ∧ Spares s s' inUse ∧
        (tofree < 0 → f'.lists .free = []) ∧ E.Returns s s' := by
  rcases h.stored.drainFree_spec h.counted cpu tofree with
    hnone | ⟨n, s', f', hdrain, hst, hcnt, halike, hmem, hall, -, hback⟩
  · exact Or.inl hnone
  right
  refine ⟨n, s', f', hdrain, h.relist s' halike hst hcnt ?_ ?_, ⟨halike.steady, ?_⟩, hall, hback⟩
  · intro u hu
    rw [hmem]
    exact h.word u hu
  · intro u _
    rw [hmem]
  · intro v _ w _ _
    rw [hmem]

/-- The end of `imemcache_free`. -/
theorem keepObject_spec {u : ℕ} (h : Cached E others othersDesc s f kept [u] inUse)
    (cpu : Processor) :
    (CacheState.keepObject E.gfp E.set cpu (u + 8) s = none ∧ ¬E.TakesBack s) ∨
      ∃ s' f' kept', CacheState.keepObject E.gfp E.set cpu (u + 8) s = some s' ∧
        Cached E others othersDesc s' f' kept' [] inUse ∧ Spares s s' inUse ∧ E.Returns s s' := by
  have hav := h.avial cpu
  have hlim := (h.limits cpu).1
  unfold CacheState.keepObject
  by_cases hfull : (s.cache.array cpu).limit ≤ (s.cache.array cpu).avial
  · -- a full array is spilled, the object goes to its slab, and free slabs may be drained
    simp only [if_pos hfull]
    rcases spillLoop_spec cpu cpu (s.cache.array cpu).batchcount (s.cache.array cpu).avial h hav.ge with
      ⟨hspill, hbad⟩ | ⟨s1, f1, hspill, h1, hs1, hback1⟩
    · exact Or.inl ⟨by rw [hspill, Option.bind_none], hbad⟩
    rw [hspill, Option.bind_some]
    rcases h1.give cpu (some s1.cache.self) (fun a ha => (Option.some.inj ha).symm) with
      ⟨hgive, hbad⟩ | ⟨s2, f2, hgive, h2, halike2, hun2, hback⟩
    · exact Or.inl ⟨by rw [hgive, Option.bind_none], fun ht => hbad (hback1.takes ht)⟩
    have hback2 := hback1.trans hback
    have hs2 : Spares s s2 inUse := by
      refine hs1.trans ⟨halike2.steady, ?_⟩
      intro v hv
      exact hun2 v (mem_out.mpr (Or.inr hv))
    rw [hgive, Option.bind_some]
    split
    · rcases h2.drain_spec cpu (s2.cache.countFree / 2) with
        ⟨hdrain, hbad⟩ | ⟨n, s3, f3, hdrain, h3, hs3, -, hback3⟩
      · exact Or.inl ⟨by rw [hdrain]; rfl, fun ht => hbad (hback2.takes ht)⟩
      · exact Or.inr ⟨s3, f3, _, by rw [hdrain]; rfl, h3, hs2.trans hs3, hback2.trans hback3⟩
    · exact Or.inr ⟨s2, f2, _, rfl, h2, hs2, hback2⟩
  · obtain ⟨a, hpush, h1⟩ := h.push cpu (by omega)
    simp only [if_neg hfull, hpush, Option.map_some]
    exact Or.inr ⟨_, f, _, rfl, h1, ⟨⟨rfl, rfl, rfl⟩, fun _ _ _ _ _ => rfl⟩,
      Supplier.Returns.same rfl rfl rfl fun _ ha => ha⟩

/-- `imemcache_free` takes back every object that is in use, if the supplies take
back what it may have to give back itself. -/
theorem free_spec (h : Cached E others othersDesc s f kept [] inUse) (cpu : Processor)
    (cache : Option ℕ) (hcache : ∀ a, cache = some a → a = s.cache.self) {u : ℕ} (hu : u ∈ inUse) :
    (CacheState.free E.gfp E.set cpu cache (u + 8) s = none ∧ ¬E.TakesBack s) ∨
      ∃ s' f' kept', CacheState.free E.gfp E.set cpu cache (u + 8) s = some s' ∧
        Cached E others othersDesc s' f' kept' [] (inUse.erase u) ∧ Spares s s' (inUse.erase u) ∧
        E.Returns s s' := by
  obtain ⟨a, ha, hua, hnot⟩ := h.stored.out_unit (mem_out.mpr (Or.inr hu))
  have hmagic := h.magic u hu
  have hword := h.stored.word a ha u hua hnot
  have h1 := h.takeBack hu
  rw [hword] at h1
  obtain ⟨-, -, hextra, -⟩ := h.stored.desc a ha
  have hfree : CacheState.free E.gfp E.set cpu cache (u + 8) s =
      CacheState.keepObject E.gfp E.set cpu (u + 8) { s with mem := Function.update s.mem u a } := by
    have hmark : ¬ (s.mem u &&& CacheState.checkMagic ≠ CacheState.checkMagic) := by
      rw [not_not, and_magic]
      exact Or.inl hmagic
    have hround : s.mem u / roundSize * roundSize = a := hword
    have hguard : (∀ b, cache = some b → b = (f.slab a).extra) ∧
        (f.slab a).extra = s.cache.self := by
      refine ⟨?_, hextra⟩
      intro b hb
      rw [hextra]
      exact hcache b hb
    simp only [CacheState.free, Nat.add_sub_cancel, if_neg (by omega : ¬ u + 8 < 8), if_neg hmark,
      hround, h.stored.slabs_eq, if_pos ha, Option.bind_some, if_pos hguard]
  -- the mark is off, and the supplies have not been asked yet
  have hback1 : E.Returns s { s with mem := Function.update s.mem u a } :=
    Supplier.Returns.same rfl rfl rfl fun _ hb => hb
  rw [hfree]
  rcases h1.keepObject_spec cpu with ⟨hkeep, hbad⟩ | ⟨s', f', kept', hkeep, hk, hs, hback⟩
  · exact Or.inl ⟨hkeep, fun ht => hbad (hback1.takes ht)⟩
  right
  refine ⟨s', f', kept', hkeep, hk, ⟨hs.steady, ?_⟩, hback1.trans hback⟩
  intro v hv w hvw hwv
  rw [hs.untouched v hv w hvw hwv]
  refine Function.update_of_ne ?_ _ _
  rintro rfl
  have hnd := (List.nodup_append.mp (List.nodup_append.mp h.stored.nodup).2.1).2.1
  obtain ⟨hvu, hvin⟩ := hnd.mem_erase_iff.mp hv
  obtain ⟨b, hb, hvb, -⟩ := h.stored.out_unit (mem_out.mpr (Or.inr hvin))
  have hsize := h.stored.size_le
  rcases h.stored.units_apart hb ha hvb hua hvu with hap | hap <;> omega

/-- `imemcache_shrink`. -/
theorem shrink_spec (h : Cached E others othersDesc s f kept [] inUse) (cpu : Processor) :
    (CacheState.shrink E.gfp E.set cpu s = none ∧ ¬E.TakesBack s) ∨
      ∃ s' f', CacheState.shrink E.gfp E.set cpu s = some s' ∧
        Cached E others othersDesc s' f' (Function.update kept 0 []) [] inUse ∧ Spares s s' inUse ∧
        f'.lists .free = [] := by
  have hav := h.avial 0
  unfold CacheState.shrink
  rcases spillLoop_spec cpu 0 0 (s.cache.array 0).avial h hav.ge with
    ⟨hspill, hbad⟩ | ⟨s1, f1, hspill, h1, hs1, hback1⟩
  · exact Or.inl ⟨by rw [hspill, Option.bind_none], hbad⟩
  rw [List.take_zero] at h1
  rw [hspill, Option.bind_some]
  rcases h1.drain_spec cpu (-1) with ⟨hdrain, hbad⟩ | ⟨n, s2, f2, hdrain, h2, hs2, hall, -⟩
  · exact Or.inl ⟨by rw [hdrain, Option.map_none], fun ht => hbad (hback1.takes ht)⟩
  · exact Or.inr ⟨s2, f2, by rw [hdrain, Option.map_some], h2, hs1.trans hs2, hall (by decide)⟩

end Cached

end HttpsProxy
