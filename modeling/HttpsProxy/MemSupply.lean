import HttpsProxy.MemCacheLedger
import HttpsProxy.MemNodeRuns

/-! Where the caches get their pages from: `imem_gfp_alloc` and `imem_gfp_free`
take them from a pool of nodes, and `imslab_set_new` and `imslab_set_delete` the
descriptors of slabs. Each node begins with its own number. -/
namespace HttpsProxy

/-- A pool, the numbers at the beginnings of its nodes, and the memory that it
will get from one call to the next. -/
structure NodeStore where
  pool : IMemNode
  index : ℕ → ℤ
  memory : ℕ → PoolMemory
  count : ℕ

namespace NodeStore

/-- What `imem_gfp_alloc` and `imslab_set_new` have in common. -/
def new (s : NodeStore) : Option (ℕ × NodeStore) :=
  (s.pool.new (s.memory s.count).1).bind fun r =>
    if r.2 < 0 then none
    else (r.1.data r.2).map fun lptr =>
      (lptr.toNat + 8,
        { s with pool := r.1, index := Function.update s.index lptr.toNat r.2,
                 count := s.count + 1 })

/-- What `imem_gfp_free` and `imslab_set_delete` have in common; a number from
`max` on is not accepted. -/
def delete (max : ℤ) (s : NodeStore) (ptr : ℕ) : Option NodeStore :=
  if ptr < 8 then none
  else
    let index := s.index (ptr - 8)
    if index < 0 ∨ max ≤ index then none
    else
      (s.pool.data index).bind fun lptr =>
        (s.pool.arrays.get .mode index).bind fun mode =>
          if lptr ≠ (ptr - 8 : ℕ) ∨ mode = 0 then none
          else (s.pool.del index).map fun pool => { s with pool }

end NodeStore

/-- `imem_gfp_default`, `imem_page_cache` and `imem_gfp_malloc`, with the answers
of `malloc` and how many of them have been used. -/
structure IMemGfp where
  pageSize : ℕ
  pageCache : NodeStore
  useMalloc : Bool
  malloc : ℕ → Option ℕ
  mallocs : ℕ
  pagesInuse : ℤ
  pagesNew : ℤ
  pagesDel : ℤ

/-- `imem_page_shift`, which `imem_gfp_init` computes. -/
def imemPageShift (pageShift : ℤ) : ℕ := if pageShift ≤ 0 then 16 else pageShift.toNat

/-- `imem_page_size`. There is none from page shift 63 on: the loop of `imnode_init`
does not end for nodes of 2^63 bytes, and a shift by 64 is not defined. -/
def imemPageSize (pageShift : ℤ) : Option ℕ :=
  if imemPageShift pageShift < 63 then some (2 ^ imemPageShift pageShift + roundUp 8 * 16) else none

/-- `imem_gfp_init`. -/
def imemGfpInit (pageShift : ℤ) (useMalloc : Bool) (memory : ℕ → PoolMemory) (malloc : ℕ → Option ℕ) :
    Option IMemGfp :=
  (imemPageSize pageShift).map fun pageSize =>
    { pageSize
      pageCache :=
        { pool := IMemNode.init ((pageSize + roundUp 8 : ℕ) : ℤ) 8,
          index := fun _ => 0, memory, count := 0 }
      useMalloc, malloc, mallocs := 0, pagesInuse := 0, pagesNew := 0, pagesDel := 0 }

/-- A page has been handed out. -/
def IMemGfp.given (g : IMemGfp) : IMemGfp :=
  { g with pagesNew := g.pagesNew + 1, pagesInuse := g.pagesInuse + 1 }

/-- `imem_gfp_alloc`. -/
def imemGfpAlloc (g : IMemGfp) : Option (Option ℕ × IMemGfp) :=
  if g.useMalloc then
    let g' := { g with mallocs := g.mallocs + 1 }
    match g.malloc g.mallocs with
    | none => some (none, g')
    | some lptr => some (some lptr, g'.given)
  else g.pageCache.new.map fun r => (some r.1, IMemGfp.given { g with pageCache := r.2 })

/-- `imem_gfp_free`. -/
def imemGfpFree (g : IMemGfp) (ptr : ℕ) : Option IMemGfp :=
  (if g.useMalloc then some g.pageCache else g.pageCache.delete g.pageCache.pool.nodeMax ptr).map
    fun pageCache => { g with pageCache, pagesDel := g.pagesDel + 1, pagesInuse := g.pagesInuse - 1 }

/-- `imslab_set_init`. -/
def imslabSetInit (memory : ℕ → PoolMemory) : NodeStore :=
  { pool := IMemNode.init ((slabSize + roundUp 8 : ℕ) : ℤ) 0, index := fun _ => 0, memory, count := 0 }

/-- `imslab_set_new`. -/
def imslabSetNew (s : NodeStore) : Option (ℕ × NodeStore) := s.new

/-- `imslab_set_delete`, which looks at `imem_page_cache.node_max`. -/
def imslabSetDelete (g : IMemGfp) (s : NodeStore) (slab : ℕ) : Option NodeStore :=
  s.delete g.pageCache.pool.nodeMax slab

/-- The pages of `imem_gfp_default` as a supply. -/
def imemGfp : PageSupply IMemGfp where
  alloc _ g := imemGfpAlloc g
  free _ g ptr := imemGfpFree g ptr

/-- The descriptors of `imslab_cache` as a supply, next to such pages. -/
def imslabSet : DescSupply IMemGfp NodeStore where
  alloc s := (imslabSetNew s).map fun r => (some r.1, r.2)
  free g s slab := imslabSetDelete g s slab

namespace NodeStore

open IMemNode

/-- What users of a node get: the address behind its number. -/
def place (s : NodeStore) (x : ℤ) : ℕ := (s.pool.arrays.entry .data x).toNat + 8

/-- The nodes in use are those of `p`, and each of them begins with its number. -/
structure Keeps (nodeSize limit : ℤ) (s : NodeStore) (past : List PoolCall) (p : IdPool)
    (chunks : List MemChunk) : Prop where
  models : Models nodeSize limit past s.pool p chunks
  memory : ∀ i j, i < j → PoolCall.Fresh (.new (s.memory i)) (.new (s.memory j))
  given : ∀ M, PoolCall.new M ∈ past → ∃ i < s.count, M = s.memory i
  fresh : past.Pairwise PoolCall.Fresh
  index : ∀ x ∈ p.used, s.index (s.pool.arrays.entry .data x).toNat = x

variable {nodeSize limit : ℤ} {s : NodeStore} {past : List PoolCall} {p : IdPool}
  {chunks : List MemChunk}

theorem Keeps.range (h : Keeps nodeSize limit s past p chunks) {x : ℤ} (hx : x ∈ p.used) :
    0 ≤ x ∧ x < s.pool.nodeMax := h.models.holds.range_closed hx

/-- The address of a node is a multiple of 8. -/
theorem Keeps.data_eq (h : Keeps nodeSize limit s past p chunks) (hsize : (8 : ℤ) ∣ nodeSize) {x : ℤ}
    (h0 : 0 ≤ x) (hx : x < s.pool.nodeMax) :
    ((s.pool.arrays.entry .data x).toNat : ℤ) = s.pool.arrays.entry .data x ∧
      8 ∣ (s.pool.arrays.entry .data x).toNat := by
  have hpos := h.models.stocked.size_pos
  obtain ⟨c, hc, h1, h2, hcx⟩ := h.models.stocked.data x h0 hx
  rw [hcx, MemChunk.place]
  have hround : (8 : ℤ) ∣ (roundUp c.addr : ℕ) := Int.natCast_dvd_natCast.mpr (roundUp_dvd c.addr)
  have hdvd : (8 : ℤ) ∣ (c.first + c.count - 1 - x) * s.pool.nodeSize := by
    rw [h.models.size_eq]
    exact hsize.mul_left _
  have hnonneg : 0 ≤ (c.first + c.count - 1 - x) * s.pool.nodeSize :=
    mul_nonneg (by omega) (le_trans (by decide) hpos)
  generalize (c.first + c.count - 1 - x) * s.pool.nodeSize = y at hdvd hnonneg
  omega

/-- The memory of two nodes does not overlap. -/
theorem Keeps.apart (h : Keeps nodeSize limit s past p chunks) {x y : ℤ} (hx : x ∈ p.used)
    (hy : y ∈ p.used) (hxy : x ≠ y) :
    Apart (s.pool.arrays.entry .data x) s.pool.nodeSize (s.pool.arrays.entry .data y)
      s.pool.nodeSize :=
  h.models.stocked.disjoint (h.models.apart h.fresh) (h.range hx).1 (h.range hx).2 (h.range hy).1
    (h.range hy).2 hxy

theorem used_of_call {M : PoolMemory} {o : ℤ} {p' : IdPool}
    (h : p.call nodeSize limit (.new M) = some (o, p')) (ho : 0 ≤ o) : p'.used = o :: p.used := by
  rw [IdPool.call] at h
  split at h
  · obtain ⟨rfl, rfl⟩ := Prod.mk.inj (Option.some.inj h)
    rfl
  · split at h
    · cases h
    · split at h
      · obtain ⟨rfl, -⟩ := Prod.mk.inj (Option.some.inj h)
        exact absurd ho (by decide)
      · obtain ⟨rfl, rfl⟩ := Prod.mk.inj (Option.some.inj h)
        rfl

/-- A node that was not in use is handed out, with its number in front. -/
theorem Keeps.new (h : Keeps nodeSize limit s past p chunks) :
    s.new = none ∨ ∃ x s' p' chunks', s.new = some (s'.place x, s') ∧
      Keeps nodeSize limit s' (past ++ [.new (s.memory s.count)]) p' chunks' ∧
      p.call nodeSize limit (.new (s.memory s.count)) = some (x, p') ∧ p'.used = x :: p.used ∧
      s.pool.nodeMax ≤ s'.pool.nodeMax ∧ ∀ y ∈ p.used, s'.place y = s.place y := by
  rcases h.models.call (.new (s.memory s.count)) with ⟨hc, -⟩ | ⟨o, mn', p', chunks', hc, hp, hm, hg⟩
  · left
    rw [IMemNode.call, Option.map_eq_none_iff] at hc
    rw [NodeStore.new, hc, Option.bind_none]
  · rw [IMemNode.call, Option.map_eq_some_iff] at hc
    obtain ⟨r, hnew, hr⟩ := hc
    obtain ⟨hr2, hr1⟩ := Prod.mk.inj hr
    by_cases hneg : o < 0
    · left
      rw [NodeStore.new, hnew, Option.bind_some, if_pos (by rw [hr2]; exact hneg)]
    · right
      have hused := used_of_call hp (by omega)
      have hin : o ∈ p'.used := hused ▸ List.mem_cons_self
      obtain ⟨ho0, hom⟩ := hm.holds.range_closed hin
      have hdata : r.1.data r.2 = some (mn'.arrays.entry .data o) := by
        rw [hr1, hr2]
        exact NodeArrays.get_eq hm.holds.synced ho0 hom .data
      obtain ⟨s', hs'⟩ : ∃ t : NodeStore, t = { s with
          pool := mn', index := Function.update s.index (mn'.arrays.entry .data o).toNat o,
          count := s.count + 1 } := ⟨_, rfl⟩
      -- this memory was never given before, as the supply counts what it has given
      have hfresh : (past ++ [PoolCall.new (s.memory s.count)]).Pairwise PoolCall.Fresh := by
        refine List.pairwise_append.mpr ⟨h.fresh, List.pairwise_singleton _ _, ?_⟩
        rintro c hc d hd
        obtain rfl := List.mem_singleton.mp hd
        cases c with
        | del x => exact trivial
        | new M =>
          obtain ⟨i, hi, rfl⟩ := h.given M hc
          exact h.memory i s.count hi
      -- a grown pool leaves the nodes in use where they were
      have hkeep : ∀ y ∈ p.used, mn'.arrays.entry .data y = s.pool.arrays.entry .data y :=
        fun y hy => hg.data y (h.range hy).1 (h.range hy).2
      have hnd := hm.holds.closes.chain.nodup
      rw [hused] at hnd
      refine ⟨o, s', p', chunks', ?_, ⟨?_, ?_, ?_, hfresh, ?_⟩, hp, hused, ?_, ?_⟩
      · rw [NodeStore.new, hnew, Option.bind_some, if_neg (by rw [hr2]; exact hneg), hdata,
          Option.map_some, hs', hr1, hr2]
        rfl
      · rw [hs']
        exact hm
      · rw [hs']
        exact h.memory
      · intro M hM
        rw [hs']
        rcases List.mem_append.mp hM with hM | hM
        · obtain ⟨i, hi, rfl⟩ := h.given M hM
          exact ⟨i, Nat.lt_succ_of_lt hi, rfl⟩
        · rw [List.mem_singleton, PoolCall.new.injEq] at hM
          exact ⟨s.count, Nat.lt_succ_self _, hM⟩
      · intro y hy
        simp only [hs']
        by_cases hyo : y = o
        · rw [hyo, Function.update_self]
        · have hyp : y ∈ p.used := (List.mem_cons.mp (hused ▸ hy)).resolve_left hyo
          -- two nodes lie apart, so their addresses are two keys of the index
          have hne : (mn'.arrays.entry .data y).toNat ≠ (mn'.arrays.entry .data o).toNat := by
            have hpos := hm.stocked.size_pos
            have hround : ((roundSize : ℕ) : ℤ) = 8 := rfl
            have hy' := hm.holds.range_closed hy
            have hap := hm.stocked.disjoint (hm.apart hfresh) hy'.1 hy'.2 ho0 hom hyo
            have h1 := Int.self_le_toNat (mn'.arrays.entry .data y)
            have h2 := Int.self_le_toNat (mn'.arrays.entry .data o)
            obtain ⟨c, -, hc1, hc2, hcy⟩ := hm.stocked.data y hy'.1 hy'.2
            obtain ⟨d, -, hd1, hd2, hdo⟩ := hm.stocked.data o ho0 hom
            have hcin := (MemChunk.place_inside (le_trans (by decide) hpos) hc1 hc2).1
            have hdin := (MemChunk.place_inside (le_trans (by decide) hpos) hd1 hd2).1
            rw [← hcy] at hcin
            rw [← hdo] at hdin
            rcases hap with hap | hap <;> omega
          rw [Function.update_of_ne hne, hkeep y hyp]
          exact h.index y hyp
      · rw [hs']
        exact hg.max_le
      · intro y hy
        simp only [hs', place, hkeep y hy]

/-- A node in use is taken back if its number is small enough. -/
theorem Keeps.delete (h : Keeps nodeSize limit s past p chunks) (hsize : (8 : ℤ) ∣ nodeSize) (max : ℤ)
    {x : ℤ} (hx : x ∈ p.used) :
    (max ≤ x ∧ s.delete max (s.place x) = none) ∨
      (x < max ∧ ∃ s' p' chunks', s.delete max (s.place x) = some s' ∧
        Keeps nodeSize limit s' (past ++ [.del x]) p' chunks' ∧
        p' = { p with free := x :: p.free, used := p.used.erase x } ∧
        s'.pool.nodeMax = s.pool.nodeMax ∧ s'.index = s.index ∧ ∀ y ∈ p.used, s'.place y = s.place y) := by
  obtain ⟨h0, hm⟩ := h.range hx
  have hindex := h.index x hx
  -- the place is 8 past the node, so the index is asked for the node itself
  have hge : ¬ s.place x < 8 := by
    unfold place
    omega
  have hsub : s.place x - 8 = (s.pool.arrays.entry .data x).toNat := by
    unfold place
    omega
  by_cases hmax : max ≤ x
  · left
    refine ⟨hmax, ?_⟩
    rw [NodeStore.delete, if_neg hge, hsub, hindex, if_pos (Or.inr hmax)]
  · right
    refine ⟨by omega, ?_⟩
    rcases h.models.call (.del x) with ⟨-, hnone⟩ | ⟨o, mn', p', chunks', hc, hp, hm', hg⟩
    · rw [IdPool.call, if_pos hx] at hnone
      cases hnone
    · rw [IMemNode.call, Option.map_eq_some_iff] at hc
      obtain ⟨mn1, hdel, hr⟩ := hc
      obtain ⟨-, rfl⟩ := Prod.mk.inj hr
      rw [IdPool.call, if_pos hx] at hp
      obtain ⟨-, hp'⟩ := Prod.mk.inj (Option.some.inj hp)
      have hkeep : ∀ y ∈ p.used, mn1.arrays.entry .data y = s.pool.arrays.entry .data y :=
        fun y hy => hg.data y (h.range hy).1 (h.range hy).2
      have hdata : s.pool.data x = some (s.pool.arrays.entry .data x) :=
        NodeArrays.get_eq h.models.holds.synced h0 hm .data
      -- the two tests the source makes before it deletes: both succeed for a node in use
      have hmode : s.pool.arrays.get .mode x = some 1 := by
        rw [NodeArrays.get_eq h.models.holds.synced h0 hm, h.models.holds.used x hx]
      obtain ⟨hcast, -⟩ := h.data_eq hsize h0 hm
      have hused : p'.used = p.used.erase x := by rw [← hp']
      refine ⟨{ s with pool := mn1 }, p', chunks', ?_, ⟨hm', h.memory, ?_, ?_, ?_⟩, hp'.symm, ?_, rfl, ?_⟩
      · have hindex' : ¬ (x < 0 ∨ max ≤ x) := by omega
        have hsame : ¬ (s.pool.arrays.entry .data x ≠
            ((s.pool.arrays.entry .data x).toNat : ℕ) ∨ (1 : ℤ) = 0) := by
          rw [hcast]
          simp
        simp only [NodeStore.delete, if_neg hge, hsub, hindex, if_neg hindex', hdata, hmode,
          Option.bind_some]
        rw [if_neg hsame, hdel, Option.map_some]
      · intro M hM
        rcases List.mem_append.mp hM with hM | hM
        · exact h.given M hM
        · rw [List.mem_singleton] at hM
          cases hM
      · refine List.pairwise_append.mpr ⟨h.fresh, List.pairwise_singleton _ _, ?_⟩
        rintro c - d hd
        obtain rfl := List.mem_singleton.mp hd
        cases c <;> exact trivial
      · intro y hy
        rw [hused] at hy
        have hyp := List.mem_of_mem_erase hy
        simp only [hkeep y hyp]
        exact h.index y hyp
      · obtain ⟨a, l, hd, -⟩ := del_spec h.models.holds hx
        obtain rfl := Option.some.inj (hdel.symm.trans hd)
        rfl
      · intro y hy
        rw [place, place, hkeep y hy]

/-- A pool that has just been made, for chunks that do not overlap. -/
theorem keeps_init (nodesize limit : ℤ) {memory : ℕ → PoolMemory}
    (hmem : ∀ i j, i < j → PoolCall.Fresh (.new (memory i)) (.new (memory j))) :
    Keeps (IMemNode.init nodesize limit).nodeSize limit
      { pool := IMemNode.init nodesize limit, index := fun _ => 0, memory, count := 0 } []
      IdPool.empty [] := by
  refine ⟨models_init nodesize limit, hmem, ?_, List.Pairwise.nil, ?_⟩
  · intro M hM
    exact absurd hM List.not_mem_nil
  · intro x hx
    exact absurd hx List.not_mem_nil

/-- Two nodes have different addresses. -/
theorem Keeps.place_ne (h : Keeps nodeSize limit s past p chunks) (hsize : (8 : ℤ) ∣ nodeSize) {x y : ℤ}
    (hx : x ∈ p.used) (hy : y ∈ p.used) (hxy : x ≠ y) :
    s.place x + s.pool.nodeSize ≤ s.place y ∨ s.place y + s.pool.nodeSize ≤ s.place x := by
  obtain ⟨hx0, hxm⟩ := h.range hx
  obtain ⟨hy0, hym⟩ := h.range hy
  have hxc := (h.data_eq hsize hx0 hxm).1
  have hyc := (h.data_eq hsize hy0 hym).1
  unfold place
  rcases h.apart hx hy hxy with hap | hap
  · left
    omega
  · right
    omega

theorem Keeps.index_place (h : Keeps nodeSize limit s past p chunks) {x : ℤ} (hx : x ∈ p.used) :
    s.index (s.place x - 8) = x := by
  rw [place, Nat.add_sub_cancel]
  exact h.index x hx

/-- `ps` are the nodes that users have. -/
structure Lends (nodeSize limit : ℤ) (s : NodeStore) (ps : List ℕ) : Prop where
  keeps : ∃ past p chunks, Keeps nodeSize limit s past p chunks ∧ (p.used.map s.place).Perm ps

variable {ps qs : List ℕ} {ptr : ℕ}

theorem Lends.perm (h : Lends nodeSize limit s ps) (hperm : ps.Perm qs) : Lends nodeSize limit s qs := by
  obtain ⟨past, p, chunks, hk, hp⟩ := h.keeps
  exact ⟨past, p, chunks, hk, hp.trans hperm⟩

theorem Lends.new (h : Lends nodeSize limit s ps) : s.new = none ∨
    ∃ ptr s', s.new = some (ptr, s') ∧ Lends nodeSize limit s' (ptr :: ps) ∧
      s.pool.nodeMax ≤ s'.pool.nodeMax := by
  obtain ⟨past, p, chunks, hk, hperm⟩ := h.keeps
  rcases hk.new with hnone | ⟨x, s', p', chunks', hnew, hk', -, hused, hmax, hplace⟩
  · exact Or.inl hnone
  · refine Or.inr ⟨s'.place x, s', hnew, ⟨_, p', chunks', hk', ?_⟩, hmax⟩
    rw [hused, List.map_cons, List.map_congr_left hplace]
    exact hperm.cons _

theorem Lends.delete (h : Lends nodeSize limit s ps) (hsize : (8 : ℤ) ∣ nodeSize) (max : ℤ)
    (hptr : ptr ∈ ps) :
    (max ≤ s.index (ptr - 8) ∧ s.delete max ptr = none) ∨
      (s.index (ptr - 8) < max ∧ ∃ s', s.delete max ptr = some s' ∧
        Lends nodeSize limit s' (ps.erase ptr) ∧ s'.pool.nodeMax = s.pool.nodeMax ∧
        s'.index = s.index) := by
  obtain ⟨past, p, chunks, hk, hperm⟩ := h.keeps
  obtain ⟨x, hx, rfl⟩ := List.mem_map.mp (hperm.mem_iff.mpr hptr)
  rw [hk.index_place hx]
  rcases hk.delete hsize max hx with
    hrefused | ⟨hmax, s', p', chunks', hdel, hk', hp', hnm, hidx, hplace⟩
  · exact Or.inl hrefused
  · refine Or.inr ⟨hmax, s', hdel, ⟨_, p', chunks', hk', ?_⟩, hnm, hidx⟩
    have hmap : p'.used.map s'.place = (p.used.erase x).map s.place := by
      rw [hp']
      apply List.map_congr_left
      intro y hy
      exact hplace y (List.mem_of_mem_erase hy)
    rw [hmap]
    refine List.Perm.cons_inv (a := s.place x) ?_
    rw [← List.map_cons]
    exact (((List.perm_cons_erase hx).map _).symm.trans hperm).trans (List.perm_cons_erase hptr)

/-- Whether a node is taken back depends on nothing but its number. -/
theorem Lends.accepted_iff (h : Lends nodeSize limit s ps) (hsize : (8 : ℤ) ∣ nodeSize) (max : ℤ)
    (hptr : ptr ∈ ps) : (s.delete max ptr).isSome ↔ s.index (ptr - 8) < max := by
  rcases h.delete hsize max hptr with ⟨hmax, hnone⟩ | ⟨hmax, s', hdel, -⟩
  · rw [hnone]
    exact iff_of_false (by simp) (not_lt.mpr hmax)
  · rw [hdel]
    exact iff_of_true rfl hmax

theorem Lends.index_lt (h : Lends nodeSize limit s ps) (hptr : ptr ∈ ps) :
    s.index (ptr - 8) < s.pool.nodeMax := by
  obtain ⟨past, p, chunks, hk, hperm⟩ := h.keeps
  obtain ⟨x, hx, rfl⟩ := List.mem_map.mp (hperm.mem_iff.mpr hptr)
  rw [hk.index_place hx]
  exact (hk.range hx).2

/-- Nodes do not overlap; their users have them from the ninth byte on. -/
theorem Lends.apart (h : Lends nodeSize limit s ps) (hsize : (8 : ℤ) ∣ nodeSize) :
    ps.Pairwise fun p q : ℕ => Apart ((p : ℤ) - 8) nodeSize ((q : ℤ) - 8) nodeSize := by
  obtain ⟨past, p, chunks, hk, hperm⟩ := h.keeps
  refine hperm.pairwise ?_ Apart.symm
  rw [List.pairwise_map]
  refine hk.models.holds.closes.chain.nodup.imp_of_mem ?_
  intro x y hx hy hxy
  have hnode := hk.models.size_eq
  rcases hk.place_ne hsize hx hy hxy with hap | hap
  · left
    omega
  · right
    omega

theorem Lends.good (h : Lends nodeSize limit s ps) (hsize : (8 : ℤ) ∣ nodeSize) (hptr : ptr ∈ ps) :
    0 < ptr ∧ 8 ∣ ptr := by
  obtain ⟨past, p, chunks, hk, hperm⟩ := h.keeps
  obtain ⟨x, hx, rfl⟩ := List.mem_map.mp (hperm.mem_iff.mpr hptr)
  obtain ⟨h0, hm⟩ := hk.range hx
  obtain ⟨-, hdvd⟩ := hk.data_eq hsize h0 hm
  unfold place
  omega

/-- There are as many nodes as users have, at least. -/
theorem Lends.length_le (h : Lends nodeSize limit s ps) : (ps.length : ℤ) ≤ s.pool.nodeMax := by
  obtain ⟨past, p, chunks, hk, hperm⟩ := h.keeps
  have hlen := hk.models.holds.length_eq
  have hps := hperm.length_eq
  rw [List.length_map] at hps
  omega

/-- A pool of nodes with room for their numbers. -/
theorem lends_init (n : ℕ) (limit : ℤ) {memory : ℕ → PoolMemory}
    (hmem : ∀ i j, i < j → PoolCall.Fresh (.new (memory i)) (.new (memory j))) :
    Lends (roundUp (n + 8) : ℕ) limit
      { pool := IMemNode.init ((n + 8 : ℕ) : ℤ) limit, index := fun _ => 0, memory, count := 0 } [] := by
  have hk := keeps_init ((n + 8 : ℕ) : ℤ) limit hmem
  have hsize : (IMemNode.init ((n + 8 : ℕ) : ℤ) limit).nodeSize = (roundUp (n + 8) : ℕ) := by
    have hge : ¬ ((n + 8 : ℕ) : ℤ) < (roundSize : ℤ) := by
      have hround : ((roundSize : ℕ) : ℤ) = 8 := rfl
      omega
    simp only [IMemNode.init, if_neg hge, Int.toNat_natCast]
  rw [hsize] at hk
  exact ⟨[], IdPool.empty, [], hk, List.Perm.refl _⟩

end NodeStore

/-- Deleting a node leaves a pool as large as it is. -/
theorem IMemNode.nodeMax_del {mn mn' : IMemNode} {x : ℤ} (h : mn.del x = some mn') :
    mn'.nodeMax = mn.nodeMax := by
  rw [IMemNode.del] at h
  split at h
  · cases h
  · obtain ⟨mode, -, h⟩ := Option.bind_eq_some_iff.mp h
    split at h
    · cases h
    · obtain ⟨next, -, h⟩ := Option.bind_eq_some_iff.mp h
      obtain ⟨prev, -, h⟩ := Option.bind_eq_some_iff.mp h
      obtain ⟨a1, -, h⟩ := Option.bind_eq_some_iff.mp h
      obtain ⟨a2, -, h⟩ := Option.bind_eq_some_iff.mp h
      obtain ⟨a3, -, h⟩ := Option.bind_eq_some_iff.mp h
      obtain ⟨a4, -, h⟩ := Option.bind_eq_some_iff.mp h
      obtain ⟨a5, -, h⟩ := Option.bind_eq_some_iff.mp h
      obtain ⟨a6, -, h⟩ := Option.bind_eq_some_iff.mp h
      obtain rfl := Option.some.inj h
      rfl

theorem NodeStore.nodeMax_delete {s s' : NodeStore} {max : ℤ} {ptr : ℕ}
    (h : s.delete max ptr = some s') : s'.pool.nodeMax = s.pool.nodeMax := by
  rw [NodeStore.delete] at h
  split at h
  · cases h
  · simp only at h
    split at h
    · cases h
    · obtain ⟨lptr, -, h⟩ := Option.bind_eq_some_iff.mp h
      obtain ⟨mode, -, h⟩ := Option.bind_eq_some_iff.mp h
      split at h
      · cases h
      · obtain ⟨pool, hdel, rfl⟩ := Option.map_eq_some_iff.mp h
        exact IMemNode.nodeMax_del hdel

theorem nodeMax_imemGfpFree {g g' : IMemGfp} {page : ℕ} (h : imemGfpFree g page = some g') :
    g'.pageCache.pool.nodeMax = g.pageCache.pool.nodeMax := by
  obtain ⟨pageCache, hcache, rfl⟩ := Option.map_eq_some_iff.mp h
  split at hcache
  · rw [← Option.some.inj hcache]
  · exact NodeStore.nodeMax_delete hcache

theorem size_dvd (n : ℕ) : (8 : ℤ) ∣ (roundUp n : ℕ) := Int.natCast_dvd_natCast.mpr (roundUp_dvd n)

/-- The descriptors of `imslab_cache` are what a cache expects of a supply. Which of
them is taken back does not change as others and pages are. -/
theorem imslabSet_lawful :
    imslabSet.Lawful imemGfp slabSize (NodeStore.Lends (roundUp (slabSize + 8) : ℕ) 0) := by
  refine ⟨fun h hperm => h.perm hperm, ?_, ?_, ?_, ?_, ?_, ?_, ?_⟩
  · intro t t' slab ps h ha
    obtain ⟨r, hr, he⟩ := Option.map_eq_some_iff.mp ha
    obtain ⟨hslab, rfl⟩ := Prod.mk.inj he
    obtain rfl := Option.some.inj hslab
    rcases h.new with hnone | ⟨ptr, t', hnew, h', -⟩
    · cases hnone.symm.trans hr
    · obtain rfl := Option.some.inj (hnew.symm.trans hr)
      exact h'
  · intro t t' ps h ha
    obtain ⟨r, -, he⟩ := Option.map_eq_some_iff.mp ha
    cases (Prod.mk.inj he).1
  · intro g t t' slab ps h hf
    rcases h.delete (size_dvd _) g.pageCache.pool.nodeMax List.mem_cons_self with
      ⟨-, hnone⟩ | ⟨-, t1, hdel, h', -⟩
    · cases hnone.symm.trans hf
    · rw [List.erase_cons_head] at h'
      obtain rfl := Option.some.inj (hdel.symm.trans hf)
      exact h'
  · intro g t t' slab q ps h hf hq hsome
    rcases h.delete (size_dvd _) g.pageCache.pool.nodeMax List.mem_cons_self with
      ⟨-, hnone⟩ | ⟨-, t1, hdel, h', -, hindex⟩
    · cases hnone.symm.trans hf
    · rw [List.erase_cons_head] at h'
      obtain rfl := Option.some.inj (hdel.symm.trans hf)
      have hlt := (h.accepted_iff (size_dvd _) _ (List.mem_cons_of_mem _ hq)).mp hsome
      refine (h'.accepted_iff (size_dvd _) _ hq).mpr ?_
      rw [hindex]
      exact hlt
  · rintro g g' t slab ⟨cpu, page, hf⟩ hsome
    have hmax : g'.pageCache.pool.nodeMax = g.pageCache.pool.nodeMax := nodeMax_imemGfpFree hf
    simp only [imslabSet, imslabSetDelete, hmax] at hsome ⊢
    exact hsome
  · intro t ps h
    have hle : slabSize + 8 ≤ roundUp (slabSize + 8) := le_roundUp _
    refine (h.apart (size_dvd _)).imp ?_
    intro p q hpq
    rcases hpq with hpq | hpq
    · left
      omega
    · right
      omega
  · intro t ps h slab hslab
    exact h.good (size_dvd _) hslab

namespace IMemGfp

/-- `ps` are the pages that have been given and not taken back. -/
structure Held (pageSize : ℕ) (g : IMemGfp) (ps : List ℕ) : Prop where
  pooled : g.useMalloc = false
  lends : g.pageCache.Lends (roundUp (pageSize + 8) : ℕ) 8 ps
  inuse_eq : g.pagesInuse = ps.length
  new_eq : g.pagesNew = g.pagesInuse + g.pagesDel

variable {pageSize : ℕ} {g : IMemGfp} {ps : List ℕ}

theorem Held.perm {qs : List ℕ} (h : Held pageSize g ps) (hperm : ps.Perm qs) : Held pageSize g qs :=
  ⟨h.pooled, h.lends.perm hperm, by rw [h.inuse_eq, hperm.length_eq], h.new_eq⟩

theorem Held.alloc (h : Held pageSize g ps) : imemGfpAlloc g = none ∨
    ∃ page g', imemGfpAlloc g = some (some page, g') ∧ Held pageSize g' (page :: ps) ∧
      g.pageCache.pool.nodeMax ≤ g'.pageCache.pool.nodeMax := by
  have hpool : ¬ g.useMalloc = true := by simp [h.pooled]
  rw [imemGfpAlloc, if_neg hpool]
  rcases h.lends.new with hnone | ⟨page, s', hnew, hs', hmax⟩
  · exact Or.inl (by rw [hnone, Option.map_none])
  · right
    rw [hnew, Option.map_some]
    refine ⟨page, _, rfl, ⟨h.pooled, hs', ?_, ?_⟩, hmax⟩
    · simp only [IMemGfp.given, List.length_cons, h.inuse_eq]
      push_cast
      rfl
    · have := h.new_eq
      simp only [IMemGfp.given]
      omega

theorem Held.free {page : ℕ} (h : Held pageSize g ps) (hpage : page ∈ ps) :
    ∃ g', imemGfpFree g page = some g' ∧ Held pageSize g' (ps.erase page) := by
  have hpool : ¬ g.useMalloc = true := by simp [h.pooled]
  rw [imemGfpFree, if_neg hpool]
  rcases h.lends.delete (size_dvd _) g.pageCache.pool.nodeMax hpage with
    ⟨hmax, -⟩ | ⟨-, s', hdel, hs', -⟩
  · exact absurd (h.lends.index_lt hpage) (not_lt.mpr hmax)
  · rw [hdel, Option.map_some]
    refine ⟨_, rfl, h.pooled, hs', ?_, ?_⟩
    · have := h.inuse_eq
      have hpos := List.length_pos_of_mem hpage
      rw [List.length_erase_of_mem hpage]
      simp only
      omega
    · have := h.new_eq
      simp only
      omega

/-- Pages, and the numbers in front of them, do not overlap. -/
theorem Held.apart (h : Held pageSize g ps) :
    ps.Pairwise fun p q : ℕ => Apart ((p : ℤ) - 8) (pageSize + 8) ((q : ℤ) - 8) (pageSize + 8) := by
  have hle : pageSize + 8 ≤ roundUp (pageSize + 8) := le_roundUp _
  refine (h.lends.apart (size_dvd _)).imp ?_
  intro p q hpq
  rcases hpq with hpq | hpq
  · left
    omega
  · right
    omega

theorem held_init {pageShift : ℤ} {memory : ℕ → PoolMemory} {malloc : ℕ → Option ℕ} {g0 : IMemGfp}
    (hinit : imemGfpInit pageShift false memory malloc = some g0)
    (hmem : ∀ i j, i < j → PoolCall.Fresh (.new (memory i)) (.new (memory j))) :
    Held g0.pageSize g0 [] := by
  obtain ⟨pageSize, -, rfl⟩ := Option.map_eq_some_iff.mp hinit
  exact ⟨rfl, NodeStore.lends_init pageSize 8 hmem, rfl, rfl⟩

theorem held_lawful (pageSize : ℕ) : imemGfp.Lawful pageSize (Held pageSize) fun _ => True := by
  refine ⟨fun h hperm => h.perm hperm, ?_, ?_, ?_, ?_, ?_, ?_⟩
  · intro cpu g g' page ps h ha
    rcases h.alloc with hnone | ⟨page', g1, hsome, h', -⟩
    · cases hnone.symm.trans ha
    · obtain ⟨hpage, rfl⟩ := Prod.mk.inj (Option.some.inj (hsome.symm.trans ha))
      obtain rfl := Option.some.inj hpage
      exact h'
  · intro cpu g g' ps h ha
    rcases h.alloc with hnone | ⟨page', g1, hsome, -⟩
    · cases hnone.symm.trans ha
    · cases (Prod.mk.inj (Option.some.inj (hsome.symm.trans ha))).1
  · intro cpu g g' page ps h hf
    obtain ⟨g1, hfree, h'⟩ := h.free List.mem_cons_self
    rw [List.erase_cons_head] at h'
    obtain rfl := Option.some.inj (hfree.symm.trans hf)
    exact h'
  · intro cpu g page ps h _
    obtain ⟨g', hfree, -⟩ := h.free List.mem_cons_self
    exact ⟨g', hfree, trivial⟩
  · intro g ps h
    refine h.apart.imp ?_
    intro p q hpq
    rcases hpq with hpq | hpq
    · left
      omega
    · right
      omega
  · intro g ps h page hpage
    exact h.lends.good (size_dvd _) hpage

/-- The two pools together, for pages that are not asked for one by one. -/
def supplier (pageSize : ℕ) : Supplier IMemGfp NodeStore where
  gfp := imemGfp
  set := imslabSet
  pageSize
  held := Held pageSize
  takes _ := True
  heldDesc := NodeStore.Lends (roundUp (slabSize + 8) : ℕ) 0
  pages := held_lawful pageSize
  descs := imslabSet_lawful

/-- What a cache on these pools has got would be taken back if and only if the pool
of pages is large enough for the numbers of its descriptors. -/
theorem takesBack_iff {others othersDesc out : List ℕ} {s : CacheState IMemGfp NodeStore} {f : Shelf}
    (h : Stored (supplier pageSize) others othersDesc none s f out) :
    (supplier pageSize).TakesBack s ↔ (s.cache.offslab = true → ∀ a, (s.slabs a).isSome →
      s.descs.index (a - 8) < s.pages.pageCache.pool.nodeMax) := by
  have hiff : s.cache.offslab = true → ∀ a, (s.slabs a).isSome →
      ((imslabSetDelete s.pages s.descs a).isSome ↔
        s.descs.index (a - 8) < s.pages.pageCache.pool.nodeMax) := by
    intro hoff a ha
    have hin : a ∈ f.live := by
      by_contra hnot
      rw [h.slabs_eq, if_neg hnot] at ha
      cases ha
    have hdesc := h.heldDesc
    rw [if_pos hoff] at hdesc
    exact hdesc.accepted_iff (size_dvd _) _ (List.mem_append_left _ hin)
  constructor
  · intro ht hoff a ha
    exact (hiff hoff a ha).mp (ht.descs hoff a ha)
  · intro hlt
    exact ⟨trivial, fun hoff a ha => (hiff hoff a ha).mpr (hlt hoff a ha)⟩

/-- The pages of `imem_gfp_default` are what a cache expects of a supply, if they
come from its pool and no two chunks of it overlap: each page that has been given
is taken back, no two pages overlap, and none reaches into the number in front of
another. The counters tell how many pages have been given, taken back and are in
use. -/
theorem default_is_supply {pageShift : ℤ} {memory : ℕ → PoolMemory} {malloc : ℕ → Option ℕ}
    {g0 : IMemGfp} (hinit : imemGfpInit pageShift false memory malloc = some g0)
    (hmem : ∀ i j, i < j → PoolCall.Fresh (.new (memory i)) (.new (memory j))) :
    ∃ held, imemGfp.Lawful g0.pageSize held (fun _ => True) ∧ held g0 [] ∧
      (∀ g ps, held g ps → g.pagesInuse = ps.length ∧ g.pagesNew = g.pagesInuse + g.pagesDel ∧
        ps.Pairwise fun p q : ℕ =>
          Apart ((p : ℤ) - 8) (g0.pageSize + 8) ((q : ℤ) - 8) (g0.pageSize + 8)) ∧
      (∀ g page g', imemGfpAlloc g = some (some page, g') →
        g'.pagesNew = g.pagesNew + 1 ∧ g'.pagesDel = g.pagesDel) ∧
      ∀ g page g', imemGfpFree g page = some g' →
        g'.pagesNew = g.pagesNew ∧ g'.pagesDel = g.pagesDel + 1 := by
  refine ⟨Held _, held_lawful _, held_init hinit hmem, ?_, ?_, ?_⟩
  · intro g ps h
    exact ⟨h.inuse_eq, h.new_eq, h.apart⟩
  · intro g page g' ha
    rw [imemGfpAlloc] at ha
    split at ha
    · split at ha
      · cases ha
      · obtain ⟨-, rfl⟩ := Prod.mk.inj (Option.some.inj ha)
        exact ⟨rfl, rfl⟩
    · obtain ⟨r, -, hr⟩ := Option.map_eq_some_iff.mp ha
      obtain ⟨-, rfl⟩ := Prod.mk.inj hr
      exact ⟨rfl, rfl⟩
  · intro g page g' hf
    obtain ⟨pageCache, -, rfl⟩ := Option.map_eq_some_iff.mp hf
    exact ⟨rfl, rfl⟩

end IMemGfp

/-- Chunks of up to 64 KB, each behind the others. -/
def largeMemory (i : ℕ) : PoolMemory :=
  ⟨{ arrays := fun _ => IMemNode.zeroCells 64, chunks := IMemNode.zeroCells 2048,
     chunk := fun n => if n ≤ 65536 then some (65536 * (i + 1)) else none,
     back := fun _ => IMemNode.zeroCells 1024 },
    ⟨fun _ _ => rfl, fun _ => rfl, fun _ _ => rfl⟩⟩

theorem largeMemory_fresh (i j : ℕ) (hij : i < j) :
    PoolCall.Fresh (.new (largeMemory i)) (.new (largeMemory j)) := by
  intro n m a b ha hb
  simp only [largeMemory, Option.ite_none_right_eq_some, Option.some.injEq] at ha hb
  left
  omega

namespace IMemGfp

/-- Pages of 4224 bytes, from such chunks. -/
def largePages : IMemGfp := (imemGfpInit 12 false largeMemory fun _ => none).get (by decide)

theorem largePages_eq : imemGfpInit 12 false largeMemory (fun _ => none) = some largePages :=
  (Option.some_get _).symm

theorem default_is_supply_page : ∃ held page g g',
    imemGfp.Lawful largePages.pageSize held (fun _ => True) ∧
      imemGfp.alloc 0 largePages = some (some page, g) ∧ held g [page] ∧
      imemGfp.free 3 g page = some g' ∧ held g' [] ∧ g'.pagesNew = 1 ∧ g'.pagesDel = 1 := by
  obtain ⟨held, hlaw, hinit, -, hnew, hdel⟩ := default_is_supply largePages_eq largeMemory_fresh
  have hsome : (imemGfpAlloc largePages).map (fun r => r.1.isSome) = some true := by decide +kernel
  obtain ⟨r, hr, hpage⟩ := Option.map_eq_some_iff.mp hsome
  obtain ⟨page, hpage⟩ := Option.isSome_iff_exists.mp hpage
  have halloc : imemGfp.alloc 0 largePages = some (some page, r.2) := by
    rw [← hpage]
    exact hr
  have hheld := hlaw.granted hinit halloc
  obtain ⟨g', hfree, -⟩ := hlaw.given 3 hheld trivial
  obtain ⟨hn, hd⟩ := hnew largePages page r.2 halloc
  obtain ⟨hn', hd'⟩ := hdel r.2 page g' hfree
  refine ⟨held, page, r.2, g', hlaw, halloc, hheld, hfree, hlaw.freed hheld hfree, ?_, ?_⟩
  · rw [hn', hn]
    rfl
  · rw [hd', hd]
    rfl

end IMemGfp

namespace CacheState

variable {σ τ : Type} (gfp : PageSupply σ) (set : DescSupply σ τ)

/-- `page_supply` of a cache: `imemcache_gfp_alloc` and `imemcache_gfp_free`. -/
def pageSupply : PageSupply (CacheState σ τ) where
  alloc cpu s := (alloc gfp set cpu s).bind fun r => r.1.map fun ptr => (some ptr, r.2)
  free cpu s ptr := free gfp set cpu (some s.cache.self) ptr s

/-- `ps` are the objects that have been given as pages and not taken back. -/
def Passes (E : Supplier σ τ) (others othersDesc : List ℕ) (objSize : ℕ) (s : CacheState σ τ)
    (ps : List ℕ) : Prop :=
  s.cache.objSize = objSize ∧ ∃ f kept units, Cached E others othersDesc s f kept [] units ∧
    (units.map (· + 8)).Perm ps

theorem passes_lawful (E : Supplier σ τ) (others othersDesc : List ℕ) (objSize : ℕ) :
    (pageSupply E.gfp E.set).Lawful objSize (Passes E others othersDesc objSize) E.TakesBack := by
  -- an object that is taken back is one unit less that is in use
  have hback : ∀ (cpu : Processor) {s : CacheState σ τ} {ptr : ℕ} {ps : List ℕ},
      Passes E others othersDesc objSize s (ptr :: ps) →
      (free E.gfp E.set cpu (some s.cache.self) ptr s = none ∧ ¬ E.TakesBack s) ∨
        ∃ s', free E.gfp E.set cpu (some s.cache.self) ptr s = some s' ∧
          Passes E others othersDesc objSize s' ps ∧ E.Returns s s' := by
    rintro cpu s ptr ps ⟨hsize, f, kept, units, hk, hperm⟩
    obtain ⟨u, hu, rfl⟩ := List.mem_map.mp (hperm.mem_iff.mpr List.mem_cons_self)
    rcases hk.free_spec cpu (some s.cache.self) (fun a ha => (Option.some.inj ha).symm) hu with
      hnone | ⟨s', f', kept', hfree, hk', hsp, hret⟩
    · exact Or.inl hnone
    · refine Or.inr ⟨s', hfree, ⟨hsp.steady.objSize.trans hsize, f', kept', units.erase u, hk', ?_⟩, hret⟩
      refine List.Perm.cons_inv (a := u + 8) (List.Perm.trans ?_ hperm)
      rw [← List.map_cons (f := (· + 8))]
      exact ((List.perm_cons_erase hu).map _).symm
  refine ⟨?_, ?_, ?_, ?_, ?_, ?_, ?_⟩
  · rintro s ps ps' ⟨hsize, f, kept, units, hk, hperm⟩ hps
    exact ⟨hsize, f, kept, units, hk, hperm.trans hps⟩
  · rintro cpu s s' ptr ps ⟨hsize, f, kept, units, hk, hperm⟩ ha
    rw [pageSupply, Option.bind_eq_some_iff] at ha
    obtain ⟨r, ha, hr⟩ := ha
    obtain ⟨ptr', hptr, hr⟩ := Option.map_eq_some_iff.mp hr
    obtain ⟨he, rfl⟩ := Prod.mk.inj hr
    obtain rfl := Option.some.inj he
    rcases hk.alloc_spec cpu with hnone | ⟨s', f', kept', hn, -⟩ | ⟨u, s', f', kept', hs, hk', hsp⟩
    · rw [hnone] at ha
      cases ha
    · obtain rfl := Option.some.inj (ha.symm.trans hn)
      cases hptr
    · obtain rfl := Option.some.inj (ha.symm.trans hs)
      obtain rfl := Option.some.inj hptr
      exact ⟨hsp.steady.objSize.trans hsize, f', kept', u :: units, hk', hperm.cons _⟩
  · rintro cpu s s' ps - ha
    rw [pageSupply, Option.bind_eq_some_iff] at ha
    obtain ⟨r, -, hr⟩ := ha
    obtain ⟨ptr, -, hr⟩ := Option.map_eq_some_iff.mp hr
    cases (Prod.mk.inj hr).1
  · intro cpu s s' ptr ps h hf
    rcases hback cpu h with ⟨hnone, -⟩ | ⟨s1, hfree, h', -⟩
    · cases hnone.symm.trans hf
    · obtain rfl := Option.some.inj (hfree.symm.trans hf)
      exact h'
  · intro cpu s ptr ps h ht
    obtain ⟨s', hfree, -, hret⟩ := (hback cpu h).resolve_left fun hnone => hnone.2 ht
    exact ⟨s', hfree, hret.takes ht⟩
  · rintro s ps ⟨rfl, f, kept, units, hk, hperm⟩
    exact hperm.pairwise hk.objects_apart Apart.symm
  · rintro s ps ⟨hsize, f, kept, units, hk, hperm⟩ p hp
    obtain ⟨u, hu, rfl⟩ := List.mem_map.mp (hperm.mem_iff.mpr hp)
    obtain ⟨a, ha, hua, -⟩ := hk.stored.out_unit (Cached.mem_out.mpr (Or.inr hu))
    have h8 := hk.stored.unit_dvd ha hua
    omega

/-- The objects of a cache are what another cache expects of a supply, so that
caches can be put on top of each other. They are taken back as long as the slabs of
the lower one would be. -/
theorem cache_is_supply (E : Supplier σ τ) {self objSize : ℕ} {c : IMemCache} {pages : σ} {descs : τ}
    {others othersDesc : List ℕ} (hc : IMemCache.create self objSize E.pageSize = some c)
    (hp : E.held pages others) (hd : E.heldDesc descs othersDesc) (mem : PageWords) :
    ∃ held, (pageSupply E.gfp E.set).Lawful objSize held E.TakesBack ∧
      held (start c mem pages descs) [] := by
  obtain ⟨hstart, -, hobj⟩ := Serves.start hc hp hd mem
  refine ⟨Passes E others othersDesc objSize, passes_lawful E others othersDesc objSize, hobj, ?_⟩
  exact ⟨Serves.noSlabs, fun _ => [], [], hstart.keeps, List.Perm.refl _⟩

/-- A cache of objects of 200 bytes, in the objects of the small cache. -/
def tinyCache : IMemCache := (IMemCache.create 2000 200 1016).get (by decide)

theorem cache_is_supply_tiny : ∃ held,
    (pageSupply freshSupplier.gfp freshSupplier.set).Lawful 1016 held freshSupplier.TakesBack ∧
      held (start smallCache (fun _ => 0) 0 0) [] ∧
      IMemCache.create 2000 200 1016 = some tinyCache ∧
      (alloc (pageSupply freshSupplier.gfp freshSupplier.set) (freshDescs _) 0
        (start tinyCache (fun _ => 0) (start smallCache (fun _ => 0) 0 0) 0)).map Prod.fst =
          some (some 69000) := by
  obtain ⟨held, hlaw, hinit⟩ := cache_is_supply freshSupplier smallCache_eq (freshHeld_nil 4224)
    (freshHeld_nil slabSize) fun _ => 0
  exact ⟨held, hlaw, hinit, (Option.some_get _).symm, by decide +kernel⟩

end CacheState

end HttpsProxy
