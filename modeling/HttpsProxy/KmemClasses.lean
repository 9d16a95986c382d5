import HttpsProxy.KmemSizes
import Mathlib.Data.Nat.Log

/-! Which cache of `ikmem_init` serves a request, how much of it is lost, and how
the caches stand on top of each other. -/
namespace HttpsProxy

/-- What the tables make of a size. -/
def kmemRound (size : ℕ) : ℕ :=
  if (size + 3) / 4 * 4 ≤ 1024 then (size + 3) / 4 * 4
  else if (size + 1023) / 1024 * 1024 < 256 * 1024 then (size + 1023) / 1024 * 1024
  else size

theorem le_kmemRound (size : ℕ) : size ≤ kmemRound size := by
  unfold kmemRound
  split
  · omega
  · split <;> omega

/-- How deep a supply is below `imem_gfp_default`. -/
def KmemGfp.depth : KmemGfp → ℕ
  | .default => 0
  | .supply _ _ gfp => gfp.depth + 1

namespace Kmem

variable {k : Kmem} {size waterMark : ℕ} {c : KmemCache} {pageShift : ℤ} {sizelist : List ℕ}

theorem Tabled.mallocCache (h : k.Tabled) (hsize : 0 < size) (hmax : size ≤ 2 ^ 30) :
    k.mallocCache waterMark size = some (if 0 < waterMark ∧ waterMark < size then none
      else (k.chooseSize (kmemRound size)).or (k.chooseSize size)) := by
  have hentry : ∀ (f : ℕ → Option KmemCache) (n : ℕ), 0 < n → n ≤ 256 →
      ((none :: (List.range 256).map fun i => f (i + 1))[n]?).join = f n := by
    intro f n hpos hle
    obtain ⟨i, rfl⟩ : ∃ i, n = i + 1 := ⟨n - 1, by omega⟩
    rw [List.getElem?_cons_succ, List.getElem?_map, List.getElem?_range (by omega), Option.map_some,
      Option.join_some]
  rw [Kmem.mallocCache, if_neg (not_not.mpr ⟨hsize, hmax⟩)]
  simp only [kmemRound]
  by_cases h1 : (size + 3) / 4 * 4 ≤ 1024
  · have he := hentry (fun n => k.chooseSize (4 * n)) ((size + 3) / 4 * 4 / 4) (by omega) (by omega)
    rw [← h.table1] at he
    rw [if_pos h1, if_pos h1, he, show 4 * ((size + 3) / 4 * 4 / 4) = (size + 3) / 4 * 4 by omega]
  · rw [if_neg h1, if_neg h1]
    by_cases h2 : (size + 1023) / 1024 * 1024 < 256 * 1024
    · have he := hentry (fun n => k.chooseSize (1024 * n)) ((size + 1023) / 1024 * 1024 / 1024)
        (by omega) (by omega)
      rw [← h.table2] at he
      rw [if_pos h2, if_pos h2, he,
        show 1024 * ((size + 1023) / 1024 * 1024 / 1024) = (size + 1023) / 1024 * 1024 by omega]
    · rw [if_neg h2, if_neg h2, Option.none_or]
      cases k.chooseSize size <;> rfl

/-- The size that is looked for: the rounded one, unless no page is that large. -/
def needed (k : Kmem) (size : ℕ) : ℕ :=
  if kmemRound size + 8 ≤ k.pageSize then kmemRound size else size

theorem Ready.mallocCache (h : k.Ready pageShift sizelist) (waterMark : ℕ) (hsize : 0 < size)
    (hmax : size ≤ 2 ^ 30) : (k.mallocCache waterMark size = some none ∧
        (k.pageSize < size + 8 ∨ 0 < waterMark ∧ waterMark < size)) ∨
      (size + 8 ≤ k.pageSize ∧ ¬ (0 < waterMark ∧ waterMark < size) ∧
        ∃ c, k.mallocCache waterMark size = some (some c) ∧ k.Smallest (k.needed size) c) := by
  have hle := le_kmemRound size
  simp only [h.tabled.mallocCache hsize hmax, Option.some.injEq]
  by_cases hmark : 0 < waterMark ∧ waterMark < size
  · exact Or.inl ⟨if_pos hmark, Or.inr hmark⟩
  · rw [if_neg hmark]
    rcases h.ordered.chooseSize (kmemRound size) with ⟨hnone, hlarge⟩ | ⟨hfits, c, hsome, hc⟩
    · rw [hnone, Option.none_or, needed, if_neg (not_le.mpr hlarge)]
      rcases h.ordered.chooseSize size with ⟨hnone', hlarge'⟩ | ⟨hfits', c, hsome', hc'⟩
      · exact Or.inl ⟨hnone', Or.inl hlarge'⟩
      · exact Or.inr ⟨hfits', hmark, c, hsome', hc'⟩
    · right
      rw [hsome, Option.some_or, needed, if_pos hfits]
      exact ⟨by omega, hmark, c, rfl, hc⟩

/-- A cache for every size that is built in, and not much larger. -/
theorem Ready.power (h : k.Ready pageShift sizelist) {j : ℕ} (h3 : 3 ≤ j) (hj : j ≤ k.pageShift) :
    ∃ c ∈ k.array, 2 ^ j ≤ c.objSize ∧ 16 * c.objSize ≤ 17 * 2 ^ j := by
  have hin : 2 ^ j ∈ kmemSizes k.pageShift k.pageSize := by
    rw [kmemSizes, List.mem_append, List.mem_append]
    refine Or.inl (Or.inl (List.mem_map.mpr ⟨k.pageShift - j, ?_, ?_⟩))
    · rw [List.mem_range]
      omega
    · rw [Nat.sub_sub_self hj]
  obtain ⟨c, hc, hcover⟩ := h.builtin _ hin
  refine ⟨c, hc, ?_⟩
  rcases covers_iff.mp hcover with he | ⟨hlt, hnear, -⟩
  · omega
  · omega

theorem Ready.pageSize_eq (h : k.Ready pageShift sizelist) : k.pageSize = 2 ^ k.pageShift + 128 := by
  have hpage := h.page_eq
  rw [imemPageSize] at hpage
  split at hpage
  · rw [h.shift_eq]
    exact (Option.some.inj hpage).symm
  · cases hpage

/-- No more than nine parts of seventeen are lost. -/
theorem Ready.loss (h : k.Ready pageShift sizelist) (hc : k.Smallest (k.needed size) c) :
    8 * c.objSize ≤ 17 * max 8 (kmemRound size) := by
  have hpage := h.pageSize_eq
  have hle := (h.ordered.size c hc.1).2
  have hbig : 2 ^ 8 ≤ 2 ^ k.pageShift := Nat.pow_le_pow_right (by decide) h.shift_ge
  have hmax := le_max_right 8 (kmemRound size)
  by_cases hround : max 8 (kmemRound size) ≤ 2 ^ k.pageShift
  · -- the next power of two has a cache
    have h8 := le_max_left 8 (kmemRound size)
    obtain ⟨r, hr⟩ : ∃ r, r = max 8 (kmemRound size) := ⟨_, rfl⟩
    rw [← hr] at hround h8 hmax ⊢
    have hup : r ≤ 2 ^ Nat.clog 2 r := Nat.le_pow_clog (by decide) r
    have hdown : 2 ^ (Nat.clog 2 r).pred < r := Nat.pow_pred_clog_lt_self (by decide) (by omega)
    have h3 : 3 ≤ Nat.clog 2 r := by
      have hmono := Nat.clog_mono_right 2 h8
      have : Nat.clog 2 8 = 3 := Nat.clog_pow 2 3 (by decide)
      omega
    obtain ⟨d, hd, hd1, hd2⟩ := h.power h3 (Nat.clog_le_of_le_pow hround)
    have hpow : 2 ^ Nat.clog 2 r = 2 * 2 ^ (Nat.clog 2 r).pred := by
      rw [← pow_succ']
      exact congrArg (2 ^ ·) (Nat.succ_pred_eq_of_pos (by omega)).symm
    have hneed : k.needed size ≤ d.objSize := by
      rw [needed, if_pos (by omega)]
      omega
    have hcd := (hc.2 d hd).mp hneed
    omega
  · omega

theorem init_ready {address : ℕ → ℕ} (hshift : pageShift ≤ 57)
    (hinit : init pageShift address sizelist = some k) : k.Ready pageShift sizelist := by
  obtain ⟨page, -, ⟨hnone, -⟩ | ⟨-, k', hsome, hready⟩⟩ := init_spec hshift address sizelist
  · rw [hnone] at hinit
    cases hinit
  · obtain rfl := Option.some.inj (hinit.symm.trans hsome)
    exact hready

/-- A request of up to 2^30 bytes gets the smallest cache for its rounded size, or
for its own size if no page is large enough for the rounded one. It gets none only if
it is larger than all caches, or above the water mark. -/
theorem malloc_takes_smallest {address : ℕ → ℕ} (hshift : pageShift ≤ 57)
    (hinit : init pageShift address sizelist = some k) (hsize : 0 < size) (hmax : size ≤ 2 ^ 30) :
    ∃ found, k.mallocCache waterMark size = some found ∧
      (found = none ↔ (∀ c ∈ k.array, c.objSize < size) ∨ 0 < waterMark ∧ waterMark < size) ∧
      ∀ c, found = some c → c ∈ k.array ∧ size ≤ c.objSize ∧
        (∀ d ∈ k.array, k.needed size ≤ d.objSize ↔ c.objSize ≤ d.objSize) ∧
        8 * c.objSize ≤ 17 * max 8 (kmemRound size) := by
  have hready := init_ready hshift hinit
  -- the first cache is the largest: if it is too small, so are all
  obtain ⟨top, m, hlook, htop, -, hperm⟩ := hready.ordered.sorted
  have htop' : top ∈ k.array := hperm.mem_iff.mp List.mem_cons_self
  rcases hready.mallocCache waterMark hsize hmax with
    ⟨hno, hwhy⟩ | ⟨hfits, hmark, c, hc, hsmall⟩
  · refine ⟨none, hno, iff_of_true rfl ?_, fun c hc => absurd hc (by simp)⟩
    rcases hwhy with hlarge | hmark
    · left
      intro d hd
      have := (hready.ordered.size d hd).2
      omega
    · exact Or.inr hmark
  · refine ⟨some c, hc, iff_of_false (by simp) ?_, ?_⟩
    · rintro (hall | hmark')
      · have := hall top htop'
        omega
      · exact hmark hmark'
    · intro d hd
      obtain rfl := Option.some.inj hd
      refine ⟨hsmall.1, le_trans ?_ hsmall.le, hsmall.2, hready.loss hsmall⟩
      unfold needed
      split
      · exact le_kmemRound size
      · exact le_rfl

/-- A page of 384 bytes, and caches for objects of 100 bytes. -/
def kmemSmall : Kmem := (init 8 (fun i => 10000 * (i + 1)) [100]).get (by decide +kernel)

theorem kmemSmall_eq : init 8 (fun i => 10000 * (i + 1)) [100] = some kmemSmall :=
  (Option.some_get _).symm

theorem malloc_takes_smallest_hundred :
    (∃ c, kmemSmall.mallocCache 0 98 = some (some c) ∧ c.objSize = 100) ∧
      kmemSmall.mallocCache 200 201 = some none := by
  have hany : (kmemSmall.array.any fun d => d.objSize = 100) = true := by decide +kernel
  obtain ⟨d, hd, hsize⟩ := List.any_eq_true.mp hany
  rw [decide_eq_true_eq] at hsize
  constructor
  · obtain ⟨found, hfound, hnone, hspec⟩ :=
      malloc_takes_smallest (by decide) kmemSmall_eq (show 0 < 98 by decide) (by decide)
    cases found with
    | none =>
      rcases hnone.mp rfl with hall | hmark
      · have := hall d hd
        omega
      · exact absurd hmark.1 (lt_irrefl 0)
    | some c =>
      obtain ⟨hc, -, hleast, -⟩ := hspec c rfl
      have hneed : kmemSmall.needed 98 = 100 := by decide +kernel
      have hle := (hleast d hd).mp (by omega)
      have hge := (hleast c hc).mpr le_rfl
      exact ⟨c, hfound, by omega⟩
  · obtain ⟨found, hfound, hnone, -⟩ :=
      malloc_takes_smallest (by decide) kmemSmall_eq (show 0 < 201 by decide) (by decide)
    rw [hfound, hnone.mpr (Or.inr ⟨show 0 < 200 by decide, by decide⟩)]

/-- The calculation finds room for an object in a slab, and for four where eight
units go into a page. -/
theorem num_pos (pageSize : ℕ) {objSize : ℕ} (h8 : 8 ≤ objSize) (hunit : roundUp (objSize + 8) ≤ pageSize) :
    1 ≤ (imemcacheCalculate (roundUp (objSize + 8)) pageSize).num ∧
      (8 * roundUp (objSize + 8) ≤ pageSize →
        4 ≤ (imemcacheCalculate (roundUp (objSize + 8)) pageSize).num) := by
  have hdvd : 8 ∣ roundUp (objSize + 8) := roundUp_dvd _
  have hle := le_roundUp (objSize + 8)
  obtain ⟨u, hu⟩ : ∃ u, u = roundUp (objSize + 8) := ⟨_, rfl⟩
  rw [← hu] at hunit hdvd hle ⊢
  have hpos : 0 < u := by omega
  have hslab : roundUp slabSize = 64 := rfl
  have hslab' : roundUp (slabSize + 8) = 72 := rfl
  have hround : roundSize = 8 := rfl
  have hq : 1 ≤ pageSize / u := (Nat.one_le_div_iff hpos).mpr hunit
  have hq8 : 8 * u ≤ pageSize → 8 ≤ pageSize / u := (Nat.le_div_iff_mul_le hpos).mpr
  simp only [imemcacheCalculate, hslab, hslab', hround]
  split
  · exact ⟨hq, fun h => le_trans (by decide) (hq8 h)⟩
  · rename_i hoff
    have hnum : ∀ n, n * u ≤ pageSize - 64 - 8 → n ≤ (pageSize - 64 - 8) / u :=
      fun n hn => (Nat.le_div_iff_mul_le hpos).mpr hn
    rw [decide_eq_true_eq, not_and_or, not_le, not_not] at hoff
    rcases hoff with hsmall | ⟨-, hrest⟩
    · have h4 := hnum 4 (by omega)
      exact ⟨le_trans (by decide) h4, fun _ => h4⟩
    · have hall := hnum (pageSize / u) (by omega)
      refine ⟨le_trans hq hall, fun h => ?_⟩
      have := hq8 h
      omega

theorem create_num {self objSize pageSize : ℕ} {c : IMemCache}
    (h : IMemCache.create self objSize pageSize = some c) :
    c.num = (imemcacheCalculate (roundUp (objSize + 8)) pageSize).num := by
  rw [IMemCache.create] at h
  split at h
  · obtain rfl := Option.some.inj h
    rfl
  · cases h

/-- Each cache that stands on another one is an eighth of its size at most. -/
theorem Ordered.mayServe (h : k.Ordered) {c d : KmemCache} (hc : c ∈ k.array)
    (hserve : mayServe c.objSize d = true) : roundUp (c.objSize + 8) * 8 ≤ d.objSize :=
  ((mayServe_iff (le_trans (h.size c hc).2 h.page_le)).mp hserve).1

theorem Ordered.depth_le (h : k.Ordered) (i : ℕ) : ∀ c : KmemCache, k.array[i]? = some c →
    8 ^ c.gfp.depth * (c.objSize + 8) ≤ k.pageSize := by
  induction i using Nat.strong_induction_on with
  | _ i ih =>
    intro c hc
    rcases h.founded i c hc with hdef | ⟨j, hj, d, hd, hgfp, hserve⟩
    · rw [hdef, KmemGfp.depth, pow_zero, one_mul]
      exact (h.size c (List.mem_of_getElem? hc)).2
    · have hup := ih j hj d hd
      have hlow := h.mayServe (List.mem_of_getElem? hc) hserve
      have hle := le_roundUp (c.objSize + 8)
      have hdepth : c.gfp.depth = d.gfp.depth + 1 := by
        rw [hgfp]
        rfl
      calc 8 ^ c.gfp.depth * (c.objSize + 8)
          = 8 ^ d.gfp.depth * (8 * (c.objSize + 8)) := by rw [hdepth, pow_succ, mul_assoc]
        _ ≤ 8 ^ d.gfp.depth * (d.objSize + 8) := Nat.mul_le_mul_left _ (by omega)
        _ ≤ k.pageSize := hup

/-- The caches of `ikmem_init` have different sizes, the largest of which leaves
8 bytes of a page; each size that has been asked for is one of them. A cache gets its
pages from `imem_gfp_default` or from a cache that has been made before it, at least
eight times as large, so that no more than `log8` of the page size stand on top of each
other. Each slab has room for an object, and for four if it is in an object itself. -/
theorem caches_nest {address : ℕ → ℕ} (hshift : pageShift ≤ 57)
    (hinit : init pageShift address sizelist = some k) :
    (k.array.map KmemCache.objSize).Nodup ∧
      (∃ c ∈ k.array, c.objSize + 8 = k.pageSize) ∧
      (∀ s ∈ sizelist.takeWhile (· ≠ 0), ∃ c ∈ k.array, c.objSize = s) ∧
      ∀ (i : ℕ) (c : KmemCache), k.array[i]? = some c → c.objSize + 8 ≤ k.pageSize ∧ 1 ≤ c.cache.num ∧
        8 ^ c.gfp.depth * (c.objSize + 8) ≤ k.pageSize ∧
        (c.gfp = .default ∨ 4 ≤ c.cache.num ∧ ∃ j < i, ∃ d, k.array[j]? = some d ∧
          c.gfp = d.pageSupply ∧ 8 * (c.objSize + 8) ≤ d.objSize) := by
  have hready := init_ready hshift hinit
  have hord := hready.ordered
  have hord := hready.ordered
  obtain ⟨top, m, -, htop, -, hperm⟩ := hord.sorted
  refine ⟨List.pairwise_map.mpr hord.apart, ⟨top, hperm.mem_iff.mp List.mem_cons_self, htop⟩, ?_, ?_⟩
  · intro s hs
    obtain ⟨c, hc, hcover⟩ := hready.listed s hs
    -- for the caller's sizes nothing but an exact cache will do
    rcases covers_iff.mp hcover with he | ⟨-, -, hfalse⟩
    · exact ⟨c, hc, he.symm⟩
    · cases hfalse
  · intro i c hc
    have hin := List.mem_of_getElem? hc
    obtain ⟨h8, hpage⟩ := hord.size c hin
    obtain ⟨self, hcreate⟩ := hord.created c hin
    have hle := le_roundUp (c.objSize + 8)
    rw [create_num hcreate]
    -- a cache takes its pages from the system, or its slabs are objects of an earlier cache
    rcases hord.founded i c hc with hdef | ⟨j, hj, d, hd, hgfp, hserve⟩
    · have hdvd : 8 ∣ k.pageSize := by
        rw [hready.pageSize_eq]
        have hpow : 2 ^ 3 ∣ 2 ^ k.pageShift :=
          pow_dvd_pow 2 (le_trans (by decide) hready.shift_ge)
        exact Nat.dvd_add hpow (by decide)
      have hunit : roundUp (c.objSize + 8) ≤ k.pageSize := by
        simp only [roundUp, roundSize]
        omega
      rw [hdef]
      exact ⟨hpage, (num_pos k.pageSize h8 hunit).1, hdef ▸ hord.depth_le i c hc, Or.inl rfl⟩
    · have hlow := hord.mayServe hin hserve
      have hsize : c.gfp.pageSize k.pageSize = d.objSize := by
        rw [hgfp]
        rfl
      have hnum := num_pos d.objSize h8 (by omega)
      rw [hsize]
      exact ⟨hpage, hnum.1, hord.depth_le i c hc,
        Or.inr ⟨hnum.2 (by omega), j, hj, d, hd, hgfp, by omega⟩⟩

theorem caches_nest_small : (∃ c ∈ kmemSmall.array, c.objSize = 100) ∧
    ∃ c ∈ kmemSmall.array, c.objSize + 8 = kmemSmall.pageSize := by
  obtain ⟨-, htop, hlisted, -⟩ := caches_nest (by decide) kmemSmall_eq
  exact ⟨hlisted 100 (by decide), htop⟩

end Kmem

end HttpsProxy
