import HttpsProxy.MemCacheFree

/-! The objects a cache keeps back for each processor, and those its users have. -/
namespace HttpsProxy

/-- The units kept back for all processors. -/
def allKept (kept : Processor → List ℕ) : List ℕ := (List.finRange 8).flatMap kept

@[simp] theorem allKept_nil : allKept (fun _ => []) = [] := List.flatMap_eq_nil_iff.mpr fun _ _ => rfl

theorem allKept_perm (kept : Processor → List ℕ) (i : Processor) (xs : List ℕ) :
    (allKept (Function.update kept i xs)).Perm (xs ++ allKept (Function.update kept i [])) := by
  have hi : (List.finRange 8).Perm (i :: (List.finRange 8).erase i) :=
    List.perm_cons_erase (List.mem_finRange i)
  have hnot : i ∉ (List.finRange 8).erase i := (List.nodup_finRange 8).not_mem_erase
  have hrest : ∀ ys, ((List.finRange 8).erase i).flatMap (Function.update kept i ys) =
      ((List.finRange 8).erase i).flatMap kept := by
    intro ys
    apply List.flatMap_congr
    intro j hj
    rw [Function.update_of_ne]
    rintro rfl
    exact hnot hj
  have hall : ∀ ys, (allKept (Function.update kept i ys)).Perm
      (ys ++ ((List.finRange 8).erase i).flatMap kept) := by
    intro ys
    refine (hi.flatMap_right _).trans ?_
    rw [List.flatMap_cons, Function.update_self, hrest]
  exact (hall xs).trans ((hall []).symm.append_left xs)

theorem allKept_update {kept : Processor → List ℕ} {i : Processor} {xs ys zs : List ℕ}
    (h : xs.Perm (ys ++ zs)) :
    (allKept (Function.update kept i xs)).Perm (ys ++ allKept (Function.update kept i zs)) := by
  refine (allKept_perm kept i xs).trans ?_
  refine (h.append_right _).trans ?_
  rw [List.append_assoc]
  exact (allKept_perm kept i zs).symm.append_left ys

namespace Stored

variable {σ τ : Type} {E : Supplier σ τ} {others othersDesc out out' : List ℕ} {hand : Option ℕ}
  {s : CacheState σ τ} {f : Shelf}

theorem perm (h : Stored E others othersDesc hand s f out) (hp : out.Perm out') :
    Stored E others othersDesc hand s f out' :=
  { h with
    mem_out := fun u => by rw [← hp.mem_iff]; exact h.mem_out u
    nodup := hp.nodup h.nodup }

/-- Other parts of the cache have changed. -/
theorem setArray (h : Stored E others othersDesc hand s f out) (i : Processor) (a : IMemLru) :
    Stored E others othersDesc hand (s.setArray i a) f out := { h with }

/-- Words are written that are no links of free units, and that leave the slabs
of the others alone. -/
theorem remember (h : Stored E others othersDesc hand s f out) {mem : PageWords}
    (hfree : ∀ a ∈ f.live, ∀ u ∈ f.free a, mem u = s.mem u)
    (hout : ∀ u ∈ out, mem u / 8 * 8 = s.mem u / 8 * 8) :
    Stored E others othersDesc hand { s with mem } f out :=
  { h with
    holds := fun a ha => (h.holds a ha).congr (hfree a ha)
    word := by
      intro a ha u hu hnot
      rw [hout u ((h.mem_out u).mpr ⟨a, ha, hu, hnot⟩)]
      exact h.word a ha u hu hnot }

theorem free_not_out (h : Stored E others othersDesc hand s f out) {a u : ℕ} (ha : a ∈ f.live)
    (hu : u ∈ f.free a) : u ∉ out := by
  intro hin
  obtain ⟨b, hb, hub, hnot⟩ := h.out_unit hin
  obtain rfl := h.unit_slab hb ha hub ((h.holds a ha).sub u hu)
  exact hnot hu

end Stored

/-- A cache with its slabs and counters in order, `kept` in its arrays, `loose`
on their way between arrays and slabs and `inUse` with the users. Only the
objects of users have the mark in the words before them. -/
structure Cached {σ τ : Type} (E : Supplier σ τ) (others othersDesc : List ℕ) (s : CacheState σ τ)
    (f : Shelf) (kept : Processor → List ℕ) (loose inUse : List ℕ) : Prop where
  stored : Stored E others othersDesc none s f (allKept kept ++ (loose ++ inUse))
  counted : Counted s.cache f
  avial : ∀ i, (s.cache.array i).avial = (kept i).length
  entry : ∀ i j (hj : j < (kept i).length), (s.cache.array i).entry j = (kept i)[j] + 8
  limits : ∀ i, (s.cache.array i).limit ≤ arrayLimit ∧ (s.cache.array i).batchcount ≤ arrayLimit
  word : ∀ u, u ∈ allKept kept ∨ u ∈ loose → 8 ∣ s.mem u
  magic : ∀ u ∈ inUse, s.mem u % 8 = CacheState.checkMagic

namespace Cached

variable {σ τ : Type} {E : Supplier σ τ} {others othersDesc : List ℕ} {s : CacheState σ τ} {f : Shelf}
  {kept : Processor → List ℕ} {loose inUse : List ℕ}

theorem mem_out {u : ℕ} : u ∈ allKept kept ++ (loose ++ inUse) ↔
    (u ∈ allKept kept ∨ u ∈ loose) ∨ u ∈ inUse := by
  rw [List.mem_append, List.mem_append, or_assoc]

/-- One array and the list of its objects are replaced. -/
theorem setArray (h : Cached E others othersDesc s f kept loose inUse) (i : Processor) {a : IMemLru}
    {ks loose' : List ℕ}
    (hst : Stored E others othersDesc none s f
      (allKept (Function.update kept i ks) ++ (loose' ++ inUse)))
    (havial : a.avial = ks.length) (hentry : ∀ n (hn : n < ks.length), a.entry n = ks[n] + 8)
    (hlimits : a.limit ≤ arrayLimit ∧ a.batchcount ≤ arrayLimit)
    (hword : ∀ u, u ∈ allKept (Function.update kept i ks) ∨ u ∈ loose' → 8 ∣ s.mem u) :
    Cached E others othersDesc (s.setArray i a) f (Function.update kept i ks) loose' inUse := by
  refine ⟨hst.setArray i a, ?_, ?_, ?_, ?_, hword, h.magic⟩
  · exact ⟨h.counted.free_eq, h.counted.full_eq, h.counted.partial_eq, h.counted.objects_eq⟩
  -- the other arrays are as they were
  · intro j
    by_cases hj : j = i
    · subst hj
      simp only [CacheState.setArray, Function.update_self, havial]
    · simp only [CacheState.setArray, Function.update_of_ne hj]
      exact h.avial j
  · intro j n hn
    by_cases hj : j = i
    · subst hj
      simp only [Function.update_self] at hn ⊢
      simp only [CacheState.setArray, Function.update_self]
      exact hentry n hn
    · simp only [Function.update_of_ne hj] at hn ⊢
      simp only [CacheState.setArray, Function.update_of_ne hj]
      exact h.entry j n hn
  · intro j
    by_cases hj : j = i
    · subst hj
      simp only [CacheState.setArray, Function.update_self]
      exact hlimits
    · simp only [CacheState.setArray, Function.update_of_ne hj]
      exact h.limits j

/-- The last object of an array is taken out of it. -/
theorem pop (h : Cached E others othersDesc s f kept loose inUse) {i : Processor} {ks : List ℕ} {u : ℕ}
    (hk : kept i = ks ++ [u]) :
    (s.cache.array i).entry ((s.cache.array i).avial - 1) = u + 8 ∧
      Cached E others othersDesc
        (s.setArray i { s.cache.array i with avial := (s.cache.array i).avial - 1 }) f
        (Function.update kept i ks) (u :: loose) inUse := by
  have hav := h.avial i
  have hlen : (kept i).length = ks.length + 1 := by rw [hk, List.length_append, List.length_singleton]
  have hperm : (allKept kept).Perm ([u] ++ allKept (Function.update kept i ks)) := by
    have hself : kept = Function.update kept i (kept i) := (Function.update_eq_self i kept).symm
    rw [hself, hk, Function.update_idem]
    exact allKept_update List.perm_append_comm
  refine ⟨?_, h.setArray i ?_ ?_ ?_ (h.limits i) ?_⟩
  · rw [hav, hlen, Nat.add_sub_cancel, h.entry i ks.length (by omega)]
    simp [hk]
  · refine h.stored.perm ((hperm.append_right _).trans ?_)
    rw [List.append_assoc, List.singleton_append, List.cons_append]
    exact List.perm_middle.symm
  · simp only
    omega
  · intro n hn
    simp only
    rw [h.entry i n (by omega)]
    simp only [hk, List.getElem_append_left hn]
  · intro v hv
    refine h.word v ?_
    rw [hperm.mem_iff]
    simp only [List.mem_append, List.mem_cons, List.not_mem_nil, or_false] at hv ⊢
    tauto

/-- An object on its way is put into an array. -/
theorem push (h : Cached E others othersDesc s f kept (u :: loose) inUse) (i : Processor)
    (hroom : (s.cache.array i).avial < arrayLimit) :
    ∃ a, (s.cache.array i).push (u + 8) = some a ∧
      Cached E others othersDesc (s.setArray i a) f (Function.update kept i (kept i ++ [u])) loose
        inUse := by
  have hav := h.avial i
  have hperm : (allKept (Function.update kept i (kept i ++ [u]))).Perm (u :: allKept kept) := by
    have hp := @allKept_update kept i _ _ _
      (show (kept i ++ [u]).Perm ([u] ++ kept i) from List.perm_append_comm)
    rwa [Function.update_eq_self] at hp
  let a : IMemLru := { s.cache.array i with
    entry := Function.update (s.cache.array i).entry (s.cache.array i).avial (u + 8)
    avial := (s.cache.array i).avial + 1 }
  have hpush : (s.cache.array i).push (u + 8) = some a := by rw [IMemLru.push, if_pos hroom]
  refine ⟨a, hpush, h.setArray i ?_ ?_ ?_ (h.limits i) ?_⟩
  · refine h.stored.perm (List.perm_middle.trans ?_)
    rw [← List.cons_append]
    exact hperm.symm.append_right _
  · simp only [a, List.length_append, List.length_singleton, hav]
  · intro n hn
    rw [List.length_append, List.length_singleton] at hn
    simp only [a, hav]
    by_cases hlast : n = (kept i).length
    · subst hlast
      rw [Function.update_self]
      simp
    · rw [Function.update_of_ne hlast, h.entry i n (by omega)]
      rw [List.getElem_append_left (by omega)]
  · intro v hv
    refine h.word v ?_
    rw [hperm.mem_iff, List.mem_cons] at hv
    rw [List.mem_cons]
    tauto

/-- What happens to the lists does not concern the arrays. -/
theorem relist (h : Cached E others othersDesc s f kept loose inUse) (s' : CacheState σ τ)
    {f' : Shelf} {loose' : List ℕ} (halike : s.cache.Alike s'.cache)
    (hst : Stored E others othersDesc none s' f' (allKept kept ++ (loose' ++ inUse)))
    (hcnt : Counted s'.cache f') (hword : ∀ u, u ∈ allKept kept ∨ u ∈ loose' → 8 ∣ s'.mem u)
    (hmagic : ∀ u ∈ inUse, s'.mem u = s.mem u) :
    Cached E others othersDesc s' f' kept loose' inUse := by
  refine ⟨hst, hcnt, ?_, ?_, ?_, hword, ?_⟩
  · rw [halike.array]
    exact h.avial
  · rw [halike.array]
    exact h.entry
  · rw [halike.array]
    exact h.limits
  · intro u hu
    rw [hmagic u hu]
    exact h.magic u hu

/-- An object on its way is given back to its slab. -/
theorem give (h : Cached E others othersDesc s f kept (u :: loose) inUse) (cpu : Processor)
    (cache : Option ℕ) (hcache : ∀ a, cache = some a → a = s.cache.self) :
    (CacheState.listFree E.gfp E.set cpu cache (u + 8) s = none ∧ ¬E.TakesBack s) ∨
      ∃ s' f', CacheState.listFree E.gfp E.set cpu cache (u + 8) s = some s' ∧
        Cached E others othersDesc s' f' kept loose inUse ∧ s.cache.Alike s'.cache ∧
        Stored.Untouched s s' (allKept kept ++ (loose ++ inUse)) ∧ E.Returns s s' := by
  have hperm : (allKept kept ++ (u :: loose ++ inUse)).Perm
      (u :: (allKept kept ++ (loose ++ inUse))) := List.perm_middle
  have hst := h.stored.perm hperm
  rcases hst.listFree_spec h.counted cpu hcache List.mem_cons_self
      (h.word u (Or.inr List.mem_cons_self)) with
    hnone | ⟨s', f', hfree, hst', hcnt', halike, hun, hback⟩
  · exact Or.inl hnone
  right
  rw [List.erase_cons_head] at hst' hun
  have hfirst : ∀ v ∈ allKept kept ++ (loose ++ inUse), s'.mem v = s.mem v := by
    intro v hv
    have hsize := hst.size_le
    exact hun v hv v le_rfl (by omega)
  refine ⟨s', f', hfree, h.relist s' halike hst' hcnt' ?_ ?_, halike, hun, hback⟩
  · intro v hv
    rw [hfirst v (mem_out.mpr (Or.inl hv))]
    refine h.word v ?_
    rw [List.mem_cons]
    tauto
  · intro v hv
    exact hfirst v (mem_out.mpr (Or.inr hv))

/-- Word `w` of an object is no first word of a unit. -/
theorem inside_ne (h : Cached E others othersDesc s f kept loose inUse) {u v w a b : ℕ}
    (ha : a ∈ f.live) (hu : u ∈ (f.slab a).units s.cache.unitSize) (hb : b ∈ f.live)
    (hv : v ∈ (f.slab b).units s.cache.unitSize) (hw : u + 8 ≤ w) (hw' : w < u + s.cache.unitSize) :
    v ≠ w := by
  rintro rfl
  have hvu : u ≠ v := by omega
  have hsize := h.stored.size_le
  rcases h.stored.units_apart ha hb hu hv hvu with hap | hap <;> omega

/-- The owner of an object writes into it. -/
theorem write (h : Cached E others othersDesc s f kept loose inUse) {u w : ℕ} (hu : u ∈ inUse)
    (hw : u + 8 ≤ w) (hw' : w < u + s.cache.unitSize) (v : ℕ) :
    Cached E others othersDesc { s with mem := Function.update s.mem w v } f kept loose inUse := by
  obtain ⟨a, ha, hua, -⟩ := h.stored.out_unit (mem_out.mpr (Or.inr hu))
  have hstay : ∀ x ∈ allKept kept ++ (loose ++ inUse), Function.update s.mem w v x = s.mem x := by
    intro x hx
    obtain ⟨b, hb, hxb, -⟩ := h.stored.out_unit hx
    exact Function.update_of_ne (h.inside_ne ha hua hb hxb hw hw') _ _
  refine h.relist { s with mem := Function.update s.mem w v }
    ⟨rfl, rfl, rfl, rfl, rfl, rfl⟩ (h.stored.remember ?_ ?_) h.counted ?_ ?_
  · intro b hb x hx
    exact Function.update_of_ne
      (h.inside_ne ha hua hb ((h.stored.holds b hb).sub x hx) hw hw') _ _
  · intro x hx
    rw [hstay x hx]
  · intro x hx
    simp only [hstay x (mem_out.mpr (Or.inl hx))]
    exact h.word x hx
  · intro x hx
    exact hstay x (mem_out.mpr (Or.inr hx))

theorem or_magic {n : ℕ} (h : 8 ∣ n) : n ||| CacheState.checkMagic = n + 5 := by
  obtain ⟨k, rfl⟩ := h
  exact (Nat.two_pow_add_eq_or_of_lt (i := 3) (b := 5) (by decide) k).symm

theorem and_magic (n : ℕ) : n &&& CacheState.checkMagic = CacheState.checkMagic ↔
    n % 8 = 5 ∨ n % 8 = 7 := by
  have hmod : n &&& 5 = (n % 8) &&& 5 := by
    have h := Nat.and_mod_two_pow (a := n) (b := 5) (n := 3)
    have hle : n &&& 5 ≤ 5 := Nat.and_le_right
    rw [Nat.mod_eq_of_lt (by omega)] at h
    exact h
  have hlt : n % 8 < 8 := Nat.mod_lt _ (by decide)
  unfold CacheState.checkMagic
  rw [hmod]
  generalize n % 8 = r at hlt
  revert r
  decide

/-- The first word of a unit that is out changes in its last bits only. -/
theorem setHead (h : Cached E others othersDesc s f kept loose inUse) {u v : ℕ}
    (hu : u ∈ allKept kept ++ (loose ++ inUse)) (hv : v / 8 * 8 = s.mem u / 8 * 8) :
    Stored E others othersDesc none { s with mem := Function.update s.mem u v } f
      (allKept kept ++ (loose ++ inUse)) := by
  refine h.stored.remember ?_ ?_
  · intro b hb x hx
    refine Function.update_of_ne ?_ _ _
    rintro rfl
    exact h.stored.free_not_out hb hx hu
  · intro x hx
    by_cases hxu : x = u
    · subst hxu
      rw [Function.update_self]
      exact hv
    · rw [Function.update_of_ne hxu]

/-- An object on its way is marked and handed out. -/
theorem handOut (h : Cached E others othersDesc s f kept (u :: loose) inUse) :
    Cached E others othersDesc
      { s with mem := Function.update s.mem u (s.mem u ||| CacheState.checkMagic) } f kept loose
      (u :: inUse) := by
  have hword := h.word u (Or.inr List.mem_cons_self)
  have hperm : (allKept kept ++ (u :: loose ++ inUse)).Perm
      (allKept kept ++ (loose ++ u :: inUse)) := List.perm_middle.symm.append_left _
  have hnd := h.stored.nodup
  have hst := h.setHead (u := u) (v := s.mem u ||| CacheState.checkMagic) (by simp) (by
    rw [or_magic hword]
    omega)
  have hnot : ∀ x, x ∈ allKept kept ∨ x ∈ loose ∨ x ∈ inUse → x ≠ u := by
    rintro x hx rfl
    have hnd' := List.nodup_cons.mp (List.perm_middle.nodup_iff.mp hnd)
    refine hnd'.1 ?_
    change x ∈ allKept kept ++ (loose ++ inUse)
    rw [List.mem_append, List.mem_append]
    exact hx
  -- only the word before `u` has the mark now, and `u` is among the users' objects
  refine ⟨hst.perm hperm, h.counted, h.avial, h.entry, h.limits, ?_, ?_⟩
  · intro x hx
    simp only [Function.update_of_ne (hnot x (by tauto))]
    exact h.word x (by rw [List.mem_cons]; tauto)
  · intro x hx
    rcases List.mem_cons.mp hx with rfl | hx
    · simp only [Function.update_self, or_magic hword]
      unfold CacheState.checkMagic
      omega
    · simp only [Function.update_of_ne (hnot x (by tauto))]
      exact h.magic x hx

/-- An object of a user loses its mark and is on its way back. -/
theorem takeBack (h : Cached E others othersDesc s f kept loose inUse) {u : ℕ} (hu : u ∈ inUse) :
    Cached E others othersDesc { s with mem := Function.update s.mem u (s.mem u / 8 * 8) } f kept
      (u :: loose) (inUse.erase u) := by
  have hin : u ∈ allKept kept ++ (loose ++ inUse) := mem_out.mpr (Or.inr hu)
  have hperm : (allKept kept ++ (loose ++ inUse)).Perm
      (allKept kept ++ (u :: loose ++ inUse.erase u)) := by
    refine List.Perm.append_left _ ?_
    exact ((List.perm_cons_erase hu).append_left loose).trans List.perm_middle
  have hst := (h.setHead hin (v := s.mem u / 8 * 8) (by omega)).perm hperm
  have hnd := List.perm_middle.nodup_iff.mp hst.nodup
  have hnot : ∀ x, x ∈ allKept kept ∨ x ∈ loose ∨ x ∈ inUse.erase u → x ≠ u := by
    rintro x hx rfl
    refine (List.nodup_cons.mp hnd).1 ?_
    change x ∈ allKept kept ++ (loose ++ inUse.erase x)
    rw [List.mem_append, List.mem_append]
    exact hx
  refine ⟨hst, h.counted, h.avial, h.entry, h.limits, ?_, ?_⟩
  · intro x hx
    by_cases hxu : x = u
    · subst hxu
      simp only [Function.update_self]
      exact Dvd.intro_left _ rfl
    · simp only [Function.update_of_ne hxu]
      refine h.word x ?_
      rw [List.mem_cons] at hx
      tauto
  · intro x hx
    simp only [Function.update_of_ne (hnot x (by tauto))]
    exact h.magic x (List.mem_of_mem_erase hx)

/-- The objects of users do not overlap. -/
theorem objects_apart (h : Cached E others othersDesc s f kept loose inUse) :
    (inUse.map (· + 8)).Pairwise fun p q : ℕ => Apart p s.cache.objSize q s.cache.objSize := by
  have hnd := (List.nodup_append.mp (List.nodup_append.mp h.stored.nodup).2.1).2.1
  have hsize := h.stored.size_le
  rw [List.pairwise_map]
  refine hnd.imp_of_mem ?_
  intro u v hu hv huv
  obtain ⟨a, ha, hua, -⟩ := h.stored.out_unit (mem_out.mpr (Or.inr hu))
  obtain ⟨b, hb, hvb, -⟩ := h.stored.out_unit (mem_out.mpr (Or.inr hv))
  rcases h.stored.units_apart ha hb hua hvb huv with hap | hap
  · left
    push_cast
    omega
  · right
    push_cast
    omega

end Cached

end HttpsProxy
