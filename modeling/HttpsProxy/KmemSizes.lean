import HttpsProxy.Kmem
import Mathlib.Data.List.Induction

/-! The sizes of the caches of `ikmem_init`: the list that is searched is in order,
so that a request gets the smallest cache there is for it. -/
namespace HttpsProxy

/-- The larger one first. -/
def KmemCache.Above (a b : KmemCache) : Prop := b.objSize ≤ a.objSize

/-- Below its first entry `ikmem_append` keeps the list sorted. -/
theorem ikmemSift_spec (h x : KmemCache) (pre : List KmemCache) :
    ∀ post : List KmemCache, (pre ++ post).Pairwise KmemCache.Above → (∀ p ∈ post, x.Above p) →
      ∃ m, ikmemSift (pre.length + 1) (h :: (pre ++ x :: post)) = h :: m ∧
        m.Perm (x :: (pre ++ post)) ∧ m.Pairwise KmemCache.Above := by
  induction pre using List.reverseRecOn with
  | nil =>
    intro post hsorted hx
    exact ⟨x :: post, rfl, List.Perm.refl _, List.pairwise_cons.mpr ⟨hx, hsorted⟩⟩
  | append_singleton pre b ih =>
    intro post hsorted hx
    have hlen : (pre ++ [b]).length + 1 = pre.length + 2 := by simp
    have hat : (h :: (pre ++ [b] ++ x :: post))[pre.length + 2]? = some x := by
      simp
    have hbelow : (h :: (pre ++ [b] ++ x :: post))[pre.length + 1]? = some b := by
      simp
    rw [hlen, ikmemSift, hat, hbelow]
    simp only
    by_cases hlt : x.objSize < b.objSize
    · rw [if_pos hlt]
      refine ⟨pre ++ [b] ++ x :: post, rfl, List.perm_middle, ?_⟩
      obtain ⟨hpre, hpost, hcross⟩ := List.pairwise_append.mp hsorted
      refine List.pairwise_append.mpr ⟨hpre, List.pairwise_cons.mpr ⟨hx, hpost⟩, ?_⟩
      intro a ha c hc
      rcases List.mem_cons.mp hc with rfl | hc
      · rcases List.mem_append.mp ha with ha | ha
        · have hab := (List.pairwise_append.mp hpre).2.2 a ha b List.mem_cons_self
          exact le_trans hlt.le hab
        · obtain rfl := List.mem_singleton.mp ha
          exact hlt.le
      · exact hcross a ha c hc
    · rw [if_neg hlt]
      have hswap : ((h :: (pre ++ [b] ++ x :: post)).set (pre.length + 2) b).set (pre.length + 1) x =
          h :: (pre ++ x :: (b :: post)) := by
        simp
      rw [hswap]
      have hsorted' : (pre ++ b :: post).Pairwise KmemCache.Above := by
        simpa using hsorted
      obtain ⟨m, hm, hperm, hm'⟩ := ih (b :: post) hsorted' (by
        intro p hp
        rcases List.mem_cons.mp hp with rfl | hp
        · exact not_lt.mp hlt
        · exact hx p hp)
      refine ⟨m, hm, hperm.trans ?_, hm'⟩
      simp

theorem IMemCache.create_isSome (self objSize pageSize : ℕ) :
    (IMemCache.create self objSize pageSize).isSome ↔ 8 ≤ objSize ∧ objSize + 8 ≤ pageSize := by
  have hround : roundSize = 8 := rfl
  rw [IMemCache.create]
  split
  · rename_i h
    exact iff_of_true rfl ⟨h.1, by omega⟩
  · rename_i h
    refine iff_of_false (by simp) ?_
    omega

theorem IMemCache.create_objSize {self objSize pageSize : ℕ} {c : IMemCache}
    (h : IMemCache.create self objSize pageSize = some c) : c.objSize = objSize := by
  rw [IMemCache.create] at h
  split at h
  · obtain rfl := Option.some.inj h
    rfl
  · cases h

namespace Kmem

/-- The caches by their sizes, the largest first; each takes its pages from
`imem_gfp_default` or from an earlier cache that has room for eight units of it. -/
structure Ordered (k : Kmem) : Prop where
  sorted : ∃ h m, k.lookup = h :: m ∧ h.objSize + 8 = k.pageSize ∧ m.Pairwise KmemCache.Above ∧
    (h :: m).Perm k.array
  apart : k.array.Pairwise fun a b => a.objSize ≠ b.objSize
  size : ∀ c ∈ k.array, 8 ≤ c.objSize ∧ c.objSize + 8 ≤ k.pageSize
  created : ∀ c ∈ k.array, ∃ self,
    IMemCache.create self c.objSize (c.gfp.pageSize k.pageSize) = some c.cache
  founded : ∀ (i : ℕ) (c : KmemCache), k.array[i]? = some c → c.gfp = .default ∨
    ∃ j < i, ∃ d, k.array[j]? = some d ∧ c.gfp = d.pageSupply ∧ mayServe c.objSize d = true
  page_le : k.pageSize ≤ 2 ^ 57 + 128

variable {k k' : Kmem} {size : ℕ} {gfp : KmemGfp}

/-- What `ikmem_choose_gfp` may return. -/
theorem chooseGfp_spec (k : Kmem) (size : ℕ) : k.chooseGfp size = .default ∨
    ∃ d ∈ k.array, k.chooseGfp size = d.pageSupply ∧ mayServe size d = true := by
  have hfold : ∀ (cs : List KmemCache) (best : ℕ × KmemGfp),
      (best.2 = .default ∨ ∃ d ∈ k.array, best.2 = d.pageSupply ∧ mayServe size d = true) →
      (∀ c ∈ cs, c ∈ k.array) →
      (cs.foldl (fun best c => if mayServe size c then
          let waste := k.gfpWaste size c.pageSupply
          if waste < best.1 then (waste, c.pageSupply) else best
        else best) best).2 = .default ∨ ∃ d ∈ k.array,
        (cs.foldl (fun best c => if mayServe size c then
          let waste := k.gfpWaste size c.pageSupply
          if waste < best.1 then (waste, c.pageSupply) else best
        else best) best).2 = d.pageSupply ∧ mayServe size d = true := by
    intro cs
    induction cs with
    | nil => exact fun best h _ => h
    | cons c cs ih =>
      intro best h hcs
      rw [List.foldl_cons]
      refine ih _ ?_ fun d hd => hcs d (List.mem_cons_of_mem c hd)
      split
      · rename_i hserve
        simp only
        split
        · exact Or.inr ⟨c, hcs c List.mem_cons_self, rfl, hserve⟩
        · exact h
      · exact h
  exact hfold k.array (k.pageSize, .default) (Or.inl rfl) fun _ hc => hc

/-- Nothing wraps for sizes that go into a page of up to 2^57 bytes. -/
theorem mayServe_iff {c : KmemCache} (hsize : size + 8 ≤ 2 ^ 57 + 128) : mayServe size c = true ↔
    roundUp (size + 8) * 8 ≤ c.objSize ∧ c.objSize ≤ roundUp (size + 8) * 64 := by
  have hround : roundUp (size + 8) ≤ size + 15 := by
    simp only [roundUp, roundSize]
    omega
  rw [mayServe, decide_eq_true_eq, Nat.mod_eq_of_lt (by omega), Nat.mod_eq_of_lt (by omega)]

/-- A cache can be made for every size that a page has room for, and only then. -/
theorem Ordered.append (h : k.Ordered) (hgfp : gfp = .default ∨
      ∃ d ∈ k.array, gfp = d.pageSupply ∧ mayServe size d = true)
    (hnew : ∀ c ∈ k.array, c.objSize ≠ size) :
    (k.append size gfp = none ∧ ¬ (8 ≤ size ∧ size + 8 ≤ k.pageSize)) ∨
      ((8 ≤ size ∧ size + 8 ≤ k.pageSize) ∧ ∃ c k', k.append size gfp = some k' ∧ k'.Ordered ∧
        k'.pageSize = k.pageSize ∧ k'.pageShift = k.pageShift ∧ k'.array = k.array ++ [c] ∧
        c.objSize = size) := by
  -- a cache that serves as supplier hands out units smaller than a page, but large enough here
  have hroom : size + 8 ≤ gfp.pageSize k.pageSize ↔ size + 8 ≤ k.pageSize := by
    rcases hgfp with rfl | ⟨d, hd, rfl, hserve⟩
    · exact Iff.rfl
    · have h2 := (h.size d hd).2
      have h3 := le_roundUp (size + 8)
      change size + 8 ≤ d.objSize ↔ size + 8 ≤ k.pageSize
      refine ⟨fun hle => by omega, fun hle => ?_⟩
      obtain ⟨h1, -⟩ := (mayServe_iff (le_trans hle h.page_le)).mp hserve
      omega
  have hsome := IMemCache.create_isSome (k.address k.array.length) size
    (gfp.pageSize k.pageSize)
  rw [hroom] at hsome
  cases hc : IMemCache.create (k.address k.array.length) size (gfp.pageSize k.pageSize) with
  | none =>
    left
    rw [hc] at hsome
    exact ⟨by rw [Kmem.append, hc, Option.map_none], fun hs => absurd (hsome.mpr hs) (by simp)⟩
  | some cache =>
    right
    rw [hc] at hsome
    have hsize := hsome.mp rfl
    obtain ⟨c, hcdef⟩ : ∃ c : KmemCache, c = ⟨cache, gfp⟩ := ⟨_, rfl⟩
    have hobj : c.objSize = size := by
      rw [hcdef]
      exact IMemCache.create_objSize hc
    -- the first cache of `lookup` is the largest and never moves, so the rest is a plain insertion sort
    obtain ⟨top, m, hlook, htop, hm, hperm⟩ := h.sorted
    obtain ⟨m', hsift, hperm', hm'⟩ := ikmemSift_spec top c m [] (by simpa using hm) (by simp)
    have hlen : k.array.length = m.length + 1 := by
      rw [← hperm.length_eq, List.length_cons]
    rw [List.append_nil] at hperm'
    refine ⟨hsize, c, { k with
      array := k.array ++ [c], lookup := ikmemSift k.array.length (k.lookup ++ [c]) },
      by rw [Kmem.append, hc, Option.map_some, hcdef], ⟨?_, ?_, ?_, ?_, ?_, h.page_le⟩, rfl, rfl, rfl, hobj⟩
    · refine ⟨top, m', ?_, htop, hm', ?_⟩
      · simp only [hlook, hlen, List.cons_append]
        exact hsift
      · refine ((hperm'.cons top).trans (List.Perm.swap c top m)).trans ?_
        exact (hperm.cons c).trans (List.perm_append_singleton c k.array).symm
    · refine List.pairwise_append.mpr ⟨h.apart, List.pairwise_singleton _ _, ?_⟩
      intro a ha b hb
      obtain rfl := List.mem_singleton.mp hb
      rw [hobj]
      exact hnew a ha
    · intro a ha
      rcases List.mem_append.mp ha with ha | ha
      · exact h.size a ha
      · obtain rfl := List.mem_singleton.mp ha
        rw [hobj]
        exact hsize
    · intro a ha
      rcases List.mem_append.mp ha with ha | ha
      · exact h.created a ha
      · obtain rfl := List.mem_singleton.mp ha
        refine ⟨k.address k.array.length, ?_⟩
        rw [hobj, hcdef]
        exact hc
    -- each cache takes its pages from the system or from a cache before it, so there is no cycle
    · intro i a ha
      rcases lt_or_ge i k.array.length with hi | hi
      · simp only [List.getElem?_append_left hi] at ha
        rcases h.founded i a ha with hdef | ⟨j, hj, d, hd, hrest⟩
        · exact Or.inl hdef
        · refine Or.inr ⟨j, hj, d, ?_, hrest⟩
          simp only [List.getElem?_append_left (hj.trans hi), hd]
      · simp only [List.getElem?_append_right hi, List.getElem?_singleton] at ha
        split at ha
        · obtain rfl := Option.some.inj ha
          rcases hgfp with rfl | ⟨d, hd, rfl, hserve⟩
          · exact Or.inl (by rw [hcdef])
          · obtain ⟨j, hj, hjd⟩ := List.getElem_of_mem hd
            refine Or.inr ⟨j, lt_of_lt_of_le hj hi, d, ?_, by rw [hcdef], by rw [hobj]; exact hserve⟩
            simp only [List.getElem?_append_left hj, List.getElem?_eq_getElem hj, hjd]
        · cases ha

theorem covers_iff {approxy : Bool} {c : KmemCache} : covers size approxy c = true ↔
    size = c.objSize ∨ size < c.objSize ∧ c.objSize - size ≤ size / 16 ∧ approxy = true := by
  rw [covers, decide_eq_true_eq]

/-- The caches there are stay, and one of them is for the size. -/
theorem Ordered.insert (h : k.Ordered) (size : ℕ) (approxy : Bool) :
    (k.insert size approxy = none ∧ ¬ (8 ≤ size ∧ size + 8 ≤ k.pageSize)) ∨
      ((8 ≤ size ∧ size + 8 ≤ k.pageSize) ∧ ∃ k', k.insert size approxy = some k' ∧ k'.Ordered ∧
        k'.pageSize = k.pageSize ∧ k'.pageShift = k.pageShift ∧ (∀ c ∈ k.array, c ∈ k'.array) ∧
        ∃ c ∈ k'.array, covers size approxy c = true) := by
  rw [Kmem.insert]
  by_cases hany : k.array.any (covers size approxy)
  · right
    rw [if_pos hany]
    obtain ⟨c, hc, hcover⟩ := List.any_eq_true.mp hany
    obtain ⟨h8, hpage⟩ := h.size c hc
    refine ⟨?_, k, rfl, h, rfl, rfl, fun _ hd => hd, c, hc, hcover⟩
    rcases covers_iff.mp hcover with he | ⟨hlt, hnear, -⟩
    · omega
    · omega
  · rw [if_neg hany]
    have hnew : ∀ c ∈ k.array, c.objSize ≠ size := by
      intro c hc he
      exact hany (List.any_eq_true.mpr ⟨c, hc, covers_iff.mpr (Or.inl he.symm)⟩)
    rcases h.append (k.chooseGfp_spec size) hnew with hnone |
      ⟨hsize, c, k', happ, hord, hpage, hshift, harr, hobj⟩
    · exact Or.inl hnone
    · right
      refine ⟨hsize, k', happ, hord, hpage, hshift, ?_, c, ?_, covers_iff.mpr (Or.inl hobj.symm)⟩
      · intro d hd
        rw [harr]
        exact List.mem_append_left _ hd
      · rw [harr]
        exact List.mem_append_right _ List.mem_cons_self

/-- So it is for a list of sizes. -/
theorem Ordered.insertAll (approxy : Bool) (sizes : List ℕ) : ∀ {k : Kmem}, k.Ordered →
    (sizes.foldlM (fun (k : Kmem) size => k.insert size approxy) k = none ∧
        ¬ ∀ s ∈ sizes, 8 ≤ s ∧ s + 8 ≤ k.pageSize) ∨
      ((∀ s ∈ sizes, 8 ≤ s ∧ s + 8 ≤ k.pageSize) ∧ ∃ k' : Kmem,
        sizes.foldlM (fun (k : Kmem) size => k.insert size approxy) k = some k' ∧ k'.Ordered ∧
        k'.pageSize = k.pageSize ∧ k'.pageShift = k.pageShift ∧ (∀ c ∈ k.array, c ∈ k'.array) ∧
        ∀ s ∈ sizes, ∃ c ∈ k'.array, covers s approxy c = true) := by
  induction sizes with
  | nil =>
    intro k h
    right
    refine ⟨?_, k, rfl, h, rfl, rfl, fun _ hc => hc, ?_⟩
    · intro s hs
      exact absurd hs List.not_mem_nil
    · intro s hs
      exact absurd hs List.not_mem_nil
  | cons size sizes ih =>
    intro k h
    rw [List.foldlM_cons]
    rcases h.insert size approxy with ⟨hnone, hsize⟩ |
      ⟨hsize, k1, hone, h1, hpage1, hshift1, hmem1, c, hc, hcover⟩
    · left
      rw [hnone]
      exact ⟨rfl, fun hall => hsize (hall size List.mem_cons_self)⟩
    · rw [hone]
      rcases ih h1 with ⟨hnone, hsizes⟩ | ⟨hsizes, k', hrest, h', hpage', hshift', hmem', hall⟩
      · left
        refine ⟨hnone, fun hall => hsizes ?_⟩
        intro s hs
        rw [hpage1]
        exact hall s (List.mem_cons_of_mem _ hs)
      · right
        refine ⟨?_, k', hrest, h', hpage'.trans hpage1, hshift'.trans hshift1,
          fun d hd => hmem' d (hmem1 d hd), ?_⟩
        · intro s hs
          rcases List.mem_cons.mp hs with rfl | hs
          · exact hsize
          · rw [← hpage1]
            exact hsizes s hs
        · intro s hs
          rcases List.mem_cons.mp hs with rfl | hs
          · exact ⟨c, hmem' c hc, hcover⟩
          · exact hall s hs

/-- The smallest cache of at least a size. -/
def Smallest (k : Kmem) (size : ℕ) (c : KmemCache) : Prop :=
  c ∈ k.array ∧ ∀ d ∈ k.array, size ≤ d.objSize ↔ c.objSize ≤ d.objSize

theorem Smallest.le {c : KmemCache} (h : k.Smallest size c) : size ≤ c.objSize :=
  (h.2 c h.1).mpr le_rfl

/-- `ikmem_choose_size` finds it. -/
theorem Ordered.chooseSize (h : k.Ordered) (size : ℕ) :
    (k.chooseSize size = none ∧ k.pageSize < size + 8) ∨
      (size + 8 ≤ k.pageSize ∧ ∃ c, k.chooseSize size = some c ∧ k.Smallest size c) := by
  obtain ⟨top, m, hlook, htop, hm, hperm⟩ := h.sorted
  have hsorted : k.lookup.Pairwise KmemCache.Above := by
    rw [hlook]
    refine List.pairwise_cons.mpr ⟨?_, hm⟩
    intro c hc
    have := (h.size c (hperm.mem_iff.mp (List.mem_cons_of_mem _ hc))).2
    unfold KmemCache.Above
    omega
  have hmem : ∀ c, c ∈ k.lookup ↔ c ∈ k.array := by
    intro c
    rw [hlook]
    exact hperm.mem_iff
  by_cases hroom : size + 8 ≤ k.pageSize
  · right
    refine ⟨hroom, ?_⟩
    have hfirst : ¬ k.lookup.head?.any (fun c => c.objSize < size) := by
      rw [hlook, List.head?_cons, Option.any_some, decide_eq_true_eq]
      omega
    rw [Kmem.chooseSize, if_neg (by omega), if_neg hfirst]
    cases hfind : k.lookup.reverse.find? fun c => size ≤ c.objSize with
    | none =>
      have htop' := List.find?_eq_none.mp hfind top
        (List.mem_reverse.mpr (hlook ▸ List.mem_cons_self))
      rw [decide_eq_true_eq] at htop'
      omega
    | some c =>
      obtain ⟨hc, as, bs, hsplit, has⟩ := List.find?_eq_some_iff_append.mp hfind
      rw [decide_eq_true_eq] at hc
      refine ⟨c, rfl, ?_, ?_⟩
      · rw [← hmem, ← List.mem_reverse, hsplit]
        exact List.mem_append_right _ List.mem_cons_self
      · intro d hd
        refine ⟨fun hle => ?_, fun hle => le_trans hc hle⟩
        rw [← hmem, ← List.mem_reverse, hsplit, List.mem_append] at hd
        have hrev := List.pairwise_reverse.mpr hsorted
        rw [hsplit] at hrev
        rcases hd with hd | hd
        · have := has d hd
          rw [Bool.not_eq_true', decide_eq_false_iff_not] at this
          exact absurd hle this
        · rcases List.mem_cons.mp hd with rfl | hd
          · exact le_rfl
          · exact (List.pairwise_cons.mp (List.pairwise_append.mp hrev).2.1).1 d hd
  · left
    refine ⟨?_, by omega⟩
    rw [Kmem.chooseSize]
    split
    · rfl
    · rw [hlook, List.head?_cons, Option.any_some, if_pos (decide_eq_true (by omega))]

end Kmem

theorem kmemPass_perm (xs : List ℕ) : ∀ x, ((kmemPass x xs).1 :: (kmemPass x xs).2).Perm (x :: xs) := by
  induction xs with
  | nil => exact fun x => List.Perm.refl _
  | cons y ys ih =>
    intro x
    rw [kmemPass]
    split
    · exact (List.Perm.swap _ _ _).trans ((ih y).cons x)
    · refine (List.Perm.swap _ _ _).trans (((ih x).cons y).trans (List.Perm.swap _ _ _))

theorem kmemSort_perm (n : ℕ) : ∀ xs, (kmemSort n xs).Perm xs := by
  induction n with
  | zero => exact fun xs => List.Perm.refl _
  | succ n ih =>
    intro xs
    cases xs with
    | nil => exact List.Perm.refl _
    | cons x xs => exact ((ih _).cons _).trans (kmemPass_perm xs x)

theorem kmemFib_bounds {bound : ℕ} (fuel : ℕ) : ∀ {fib1 fib2 : ℕ}, 8 ≤ fib2 → fib1 ≤ fib2 →
    ∀ f ∈ kmemFib bound fuel fib1 fib2, 8 ≤ f ∧ f < 2 * bound := by
  induction fuel with
  | zero =>
    intro fib1 fib2 _ _ f hf
    exact absurd hf List.not_mem_nil
  | succ fuel ih =>
    intro fib1 fib2 h8 hle f hf
    rw [kmemFib] at hf
    split at hf
    · rcases List.mem_cons.mp hf with rfl | hf
      · omega
      · exact ih (by omega) (by omega) f hf
    · exact absurd hf List.not_mem_nil

/-- The sizes that are built in fit if and only if a page is not too small for 330. -/
theorem kmemSizes_fit {n page : ℕ} (hpage : page = 2 ^ n + 128) :
    (∀ s ∈ kmemSizes n page, 8 ≤ s ∧ s + 8 ≤ page) ↔ 8 ≤ n := by
  constructor
  · intro h
    have h330 := (h 330 (by simp [kmemSizes, kmemOdd])).2
    by_contra hn
    have hpow : 2 ^ n ≤ 2 ^ 7 := Nat.pow_le_pow_right (by decide) (by omega)
    omega
  · intro hn s hs
    have hpow : 2 ^ 8 ≤ 2 ^ n := Nat.pow_le_pow_right (by decide) hn
    rw [kmemSizes, List.mem_append, List.mem_append] at hs
    rcases hs with (hs | hs) | hs
    · obtain ⟨i, hi, rfl⟩ := List.mem_map.mp hs
      rw [List.mem_range] at hi
      have h3 : 2 ^ 3 ≤ 2 ^ (n - i) := Nat.pow_le_pow_right (by decide) (by omega)
      have hle : 2 ^ (n - i) ≤ 2 ^ n := Nat.pow_le_pow_right (by decide) (Nat.sub_le n i)
      omega
    · have hodd : ∀ s ∈ kmemOdd, 8 ≤ s ∧ s ≤ 330 := by decide
      have := hodd s hs
      omega
    · have := kmemFib_bounds page (by decide) (by decide) s hs
      omega

namespace Kmem

/-- The tables answer like `ikmem_choose_size`. -/
structure Tabled (k : Kmem) : Prop where
  table1 : k.sizeLookup1 = none :: (List.range 256).map fun i => k.chooseSize (4 * (i + 1))
  table2 : k.sizeLookup2 = none :: (List.range 256).map fun i => k.chooseSize (1024 * (i + 1))

/-- What `ikmem_init` leaves behind. -/
structure Ready (pageShift : ℤ) (sizelist : List ℕ) (k : Kmem) : Prop where
  ordered : k.Ordered
  tabled : k.Tabled
  shift_eq : k.pageShift = imemPageShift pageShift
  page_eq : imemPageSize pageShift = some k.pageSize
  shift_ge : 8 ≤ k.pageShift
  builtin : ∀ s ∈ kmemSizes k.pageShift k.pageSize, ∃ c ∈ k.array, covers s true c = true
  listed : ∀ s ∈ sizelist.takeWhile (· ≠ 0), ∃ c ∈ k.array, covers s false c = true

theorem imemPageSize_eq {pageShift : ℤ} (hle : pageShift ≤ 57) :
    imemPageSize pageShift = some (2 ^ imemPageShift pageShift + 128) ∧ imemPageShift pageShift ≤ 57 := by
  have hshift : imemPageShift pageShift ≤ 57 := by
    unfold imemPageShift
    split <;> omega
  exact ⟨if_pos (by omega), hshift⟩

theorem init_spec {pageShift : ℤ} (hle : pageShift ≤ 57) (address : ℕ → ℕ) (sizelist : List ℕ) :
    ∃ page, imemPageSize pageShift = some page ∧
      ((init pageShift address sizelist = none ∧ ¬ (8 ≤ imemPageShift pageShift ∧
          ∀ s ∈ sizelist.takeWhile (· ≠ 0), 8 ≤ s ∧ s + 8 ≤ page)) ∨
        ((8 ≤ imemPageShift pageShift ∧
            ∀ s ∈ sizelist.takeWhile (· ≠ 0), 8 ≤ s ∧ s + 8 ≤ page) ∧
          ∃ k, init pageShift address sizelist = some k ∧ k.Ready pageShift sizelist)) := by
  obtain ⟨hsize, hshift⟩ := imemPageSize_eq hle
  obtain ⟨page, hpage⟩ : ∃ page, page = 2 ^ imemPageShift pageShift + 128 := ⟨_, rfl⟩
  rw [← hpage] at hsize
  refine ⟨page, hsize, ?_⟩
  have hbig : 128 ≤ page := hpage ▸ Nat.le_add_left _ _
  have hpow : 2 ^ imemPageShift pageShift ≤ 2 ^ 57 := Nat.pow_le_pow_right (by decide) hshift
  obtain ⟨k0, hk0⟩ : ∃ k : Kmem, k =
    { pageShift := imemPageShift pageShift, pageSize := page, address,
      array := [], lookup := [], sizeLookup1 := [], sizeLookup2 := [] } := ⟨_, rfl⟩
  have hround : roundUp 8 = 8 := rfl
  have hsome := (IMemCache.create_isSome (address 0) (page - 8) page).mpr (by omega)
  obtain ⟨cache, hcache⟩ := Option.isSome_iff_exists.mp hsome
  obtain ⟨c, hcdef⟩ : ∃ c : KmemCache, c = ⟨cache, .default⟩ := ⟨_, rfl⟩
  have hobj : c.objSize = page - 8 := by
    rw [hcdef]
    exact IMemCache.create_objSize hcache
  obtain ⟨k1, hk1⟩ : ∃ k : Kmem, k = { k0 with array := [c], lookup := [c] } := ⟨_, rfl⟩
  -- the first cache is made for the largest unit a page has room for, and cannot fail
  have hfirst : k0.append (k0.pageSize - roundUp 8) .default = some k1 := by
    rw [hk1, hk0, Kmem.append]
    change (IMemCache.create (address 0) (page - 8) page).map _ = _
    rw [hcache, hcdef, Option.map_some]
    rfl
  have h1 : k1.Ordered := by
    rw [hk1, hk0]
    refine ⟨⟨c, [], rfl, ?_, List.Pairwise.nil, List.Perm.refl _⟩, List.pairwise_singleton _ _, ?_,
      ?_, ?_, ?_⟩
    · simp only
      omega
    · intro d hd
      obtain rfl := List.mem_singleton.mp hd
      simp only
      omega
    · intro d hd
      obtain rfl := List.mem_singleton.mp hd
      refine ⟨address 0, ?_⟩
      rw [hobj, hcdef]
      exact hcache
    · intro i d hd
      simp only [List.getElem?_singleton] at hd
      split at hd
      · obtain rfl := Option.some.inj hd
        exact Or.inl (by rw [hcdef])
      · cases hd
    · simp only
      omega
  have hinit : init pageShift address sizelist = k1.setupCaches sizelist := by
    rw [init, hsize, Option.bind_some, ← hk0]
    simp only [hfirst, Option.bind_some]
  have hpage1 : k1.pageSize = page := by rw [hk1, hk0]
  have hshift1 : k1.pageShift = imemPageShift pageShift := by rw [hk1, hk0]
  -- sorting the built-in sizes does not change which there are
  have hsort : ∀ s, s ∈ kmemSort (kmemSizes k1.pageShift k1.pageSize).length
      (kmemSizes k1.pageShift k1.pageSize) ↔ s ∈ kmemSizes k1.pageShift k1.pageSize :=
    fun s => (kmemSort_perm _ _).mem_iff
  have hfit := kmemSizes_fit hpage
  rw [← hpage1, ← hshift1] at hfit ⊢
  rw [hinit, setupCaches]
  -- a run of insertions fails exactly if one of its sizes does not fit: first the built-in ones
  rcases h1.insertAll true (kmemSort (kmemSizes k1.pageShift k1.pageSize).length
      (kmemSizes k1.pageShift k1.pageSize)) with ⟨hnone, hbad⟩ | ⟨hgood, k2, h2, ho2, hp2, hs2, hm2, hc2⟩
  · left
    simp only [hnone, Option.bind_none, true_and]
    intro hall
    refine hbad fun s hs => ?_
    exact hfit.mpr hall.1 s ((hsort s).mp hs)
  · have h8 := hfit.mp fun s hs => hgood s ((hsort s).mpr hs)
    simp only [h2, Option.bind_some]
    -- then those of the caller
    rcases ho2.insertAll false (sizelist.takeWhile (· ≠ 0)) with ⟨hnone, hbad⟩ | ⟨hgood', k3, h3, ho3, hp3, hs3, hm3, hc3⟩
    · left
      simp only [hnone, Option.map_none, true_and]
      intro hall
      refine hbad fun s hs => ?_
      rw [hp2]
      exact hall.2 s hs
    · right
      rw [hp2] at hgood'
      refine ⟨⟨h8, hgood'⟩, _, by rw [h3, Option.map_some], ?_⟩
      refine ⟨⟨ho3.sorted, ho3.apart, ho3.size, ho3.created, ho3.founded, ho3.page_le⟩, ⟨rfl, rfl⟩, ?_,
        ?_, ?_, ?_, hc3⟩
      · exact hs3.trans (hs2.trans hshift1)
      · rw [hsize]
        exact congrArg some (hp3.trans (hp2.trans hpage1)).symm
      · simp only [hs3, hs2]
        exact h8
      · intro s hs
        simp only [hs3, hs2, hp3, hp2] at hs
        obtain ⟨d, hd, hcover⟩ := hc2 s ((hsort s).mpr hs)
        exact ⟨d, hm3 d hd, hcover⟩

end Kmem

end HttpsProxy
