import HttpsProxy.MemNodeSpec
import Mathlib.Data.List.Pairwise

/-! How an `IMEMNODE` grows: where the memory of its nodes is, and that a pool
that gets no chunk is as it was. Here the arrays of the pool always get what they
ask for. -/
namespace HttpsProxy

/-- A chunk: where it is, its first node, and how many nodes it has. -/
structure MemChunk where
  addr : ℕ
  first : ℤ
  count : ℕ
  deriving DecidableEq, Repr

/-- The length that has been asked for. -/
def MemChunk.length (nodeSize : ℤ) (c : MemChunk) : ℤ := c.count * nodeSize + roundSize

/-- Where a node of the chunk has its memory: the loop of `imnode_grow` has gone
down the nodes and up the chunk. -/
def MemChunk.place (nodeSize : ℤ) (c : MemChunk) (y : ℤ) : ℤ :=
  roundUp c.addr + (c.first + c.count - 1 - y) * nodeSize

/-- Two stretches of memory without a byte in common. -/
def Apart (a n b m : ℤ) : Prop := a + n ≤ b ∨ b + m ≤ a

theorem Apart.symm {a n b m : ℤ} (h : Apart a n b m) : Apart b m a n := Or.symm h

/-- Stretches inside of two such are such, too. -/
theorem Apart.mono {a n b m a' n' b' m' : ℤ} (h : Apart a n b m) (ha : a ≤ a')
    (han : a' + n' ≤ a + n) (hb : b ≤ b') (hbm : b' + m' ≤ b + m) : Apart a' n' b' m' := by
  rcases h with h | h
  · left
    omega
  · right
    omega

/-- The memory of a node lies in its chunk. -/
theorem MemChunk.place_inside {c : MemChunk} {nodeSize y : ℤ} (hpos : 0 ≤ nodeSize)
    (hlo : c.first ≤ y) (hhi : y < c.first + c.count) :
    c.addr ≤ c.place nodeSize y ∧ c.place nodeSize y + nodeSize ≤ c.addr + c.length nodeSize := by
  have hup : (c.addr : ℤ) ≤ roundUp c.addr := by exact_mod_cast le_roundUp c.addr
  have hlt : (roundUp c.addr : ℤ) < c.addr + roundSize := by exact_mod_cast roundUp_lt c.addr
  have hk : 0 ≤ (c.first + c.count - 1 - y) * nodeSize := mul_nonneg (by omega) hpos
  have hk' : (c.first + c.count - 1 - y) * nodeSize + nodeSize ≤ c.count * nodeSize := by
    have hle : (c.first + c.count - 1 - y) + 1 ≤ (c.count : ℤ) := by omega
    calc (c.first + c.count - 1 - y) * nodeSize + nodeSize
        = ((c.first + c.count - 1 - y) + 1) * nodeSize := by ring
      _ ≤ c.count * nodeSize := mul_le_mul_of_nonneg_right hle hpos
  constructor
  · unfold place
    omega
  · unfold place length
    omega

theorem MemChunk.place_apart {c : MemChunk} {nodeSize x y : ℤ} (hpos : 0 ≤ nodeSize) (hxy : x < y) :
    Apart (c.place nodeSize x) nodeSize (c.place nodeSize y) nodeSize := by
  right
  unfold place
  have hle : nodeSize ≤ (y - x) * nodeSize := by
    calc nodeSize = 1 * nodeSize := (one_mul _).symm
      _ ≤ (y - x) * nodeSize := mul_le_mul_of_nonneg_right (by omega) hpos
  have he : (c.first + c.count - 1 - x) * nodeSize =
      (c.first + c.count - 1 - y) * nodeSize + (y - x) * nodeSize := by ring
  omega

namespace IMemNode

open Links CellVector

/-- The chunks of the pool, with the memory of its first `n` nodes in them. -/
structure Stocked (n : ℤ) (mn : IMemNode) (chunks : List MemChunk) : Prop where
  size_pos : (roundSize : ℤ) ≤ mn.nodeSize
  live : Live mn.vmem mn.mmem mn.memMax
  count_eq : mn.memCount = chunks.length
  count_le : mn.memCount ≤ mn.memMax
  cells : ∀ (i : ℕ) (c : MemChunk), chunks[i]? = some c → mn.vmem.cell i = c.addr
  data : ∀ y, 0 ≤ y → y < n → ∃ c ∈ chunks, c.first ≤ y ∧ y < c.first + c.count ∧
    mn.arrays.entry .data y = c.place mn.nodeSize y

theorem Stocked.congr {n : ℤ} {mn mn' : IMemNode} {chunks : List MemChunk} (h : Stocked n mn chunks)
    (hs : mn'.nodeSize = mn.nodeSize) (hv : mn'.vmem = mn.vmem) (hm : mn'.mmem = mn.mmem)
    (hmax : mn'.memMax = mn.memMax) (hc : mn'.memCount = mn.memCount)
    (hd : ∀ i, 0 ≤ i → i < n → mn'.arrays.entry .data i = mn.arrays.entry .data i) :
    Stocked n mn' chunks := by
  refine ⟨by rw [hs]; exact h.size_pos, by rw [hv, hm, hmax]; exact h.live,
    by rw [hc]; exact h.count_eq, by rw [hc, hmax]; exact h.count_le,
    by rw [hv]; exact h.cells, ?_⟩
  intro y h0 hy
  rw [hd y h0 hy, hs]
  exact h.data y h0 hy

/-- No two nodes share memory. -/
theorem Stocked.disjoint {n : ℤ} {mn : IMemNode} {chunks : List MemChunk} (h : Stocked n mn chunks)
    (hap : chunks.Pairwise fun c d =>
      Apart c.addr (c.length mn.nodeSize) d.addr (d.length mn.nodeSize))
    {x y : ℤ} (hx0 : 0 ≤ x) (hx : x < n) (hy0 : 0 ≤ y) (hy : y < n) (hxy : x ≠ y) :
    Apart (mn.arrays.entry .data x) mn.nodeSize (mn.arrays.entry .data y) mn.nodeSize := by
  have hpos : 0 ≤ mn.nodeSize := le_trans (by decide) h.size_pos
  obtain ⟨c, hc, hcx, hcx', hdx⟩ := h.data x hx0 hx
  obtain ⟨d, hd, hdy, hdy', hdy''⟩ := h.data y hy0 hy
  rw [hdx, hdy'']
  by_cases hcd : c = d
  · subst hcd
    rcases lt_or_gt_of_ne hxy with hlt | hlt
    · exact MemChunk.place_apart hpos hlt
    · exact (MemChunk.place_apart hpos hlt).symm
  · have hsymm : Std.Symm fun c d : MemChunk =>
        Apart c.addr (c.length mn.nodeSize) d.addr (d.length mn.nodeSize) :=
      ⟨fun _ _ => Apart.symm⟩
    obtain ⟨h1, h2⟩ := MemChunk.place_inside hpos hcx hcx'
    obtain ⟨h3, h4⟩ := MemChunk.place_inside hpos hdy hdy'
    exact (hap.forall hc hd hcd).mono h1 h2 h3 h4

/-- What `imnode_mem_add` leaves alone. -/
structure SameNodes (mn mn' : IMemNode) : Prop where
  arrays : mn'.arrays = mn.arrays
  nodeFree : mn'.nodeFree = mn.nodeFree
  nodeUsed : mn'.nodeUsed = mn.nodeUsed
  nodeMax : mn'.nodeMax = mn.nodeMax
  growLimit : mn'.growLimit = mn.growLimit
  nodeSize : mn'.nodeSize = mn.nodeSize
  listOpen : mn'.listOpen = mn.listOpen
  listClose : mn'.listClose = mn.listClose

/-- The list of chunks has room for one more. -/
theorem memAdd_room {A : Allocator 8 ℤ} (hA : A.Grants) {n : ℤ} {mn : IMemNode}
    {chunks : List MemChunk} (h : Stocked n mn chunks) :
    ∃ mn1, SameNodes mn mn1 ∧ Stocked n mn1 chunks ∧
      mn1.memCount < mn1.memMax ∧ mn1.memCount = mn.memCount ∧ ∀ chunk count,
        mn.memAdd A chunk count =
          if 2^63 ≤ count * mn.nodeSize then none
          else
            match chunk (count * mn.nodeSize + roundSize).toNat with
            | none => some (mn1, -2, 0)
            | some mptr => (mn1.vmem.store mn1.mmem mn1.memCount mptr).map fun v =>
                ({ mn1 with
                  vmem := v, memCount := mn1.memCount + 1,
                  totalMem := mn1.totalMem + (count * mn.nodeSize + roundSize) }, 0, roundUp mptr) := by
  have hround : ((roundSize : ℕ) : ℤ) = 8 := rfl
  have hle := h.count_le
  have hc := h.count_eq
  by_cases hfull : mn.memMax ≤ mn.memCount
  · obtain ⟨size, hsize⟩ : ∃ n, n = if mn.memMax ≤ 0 then (roundSize : ℤ) else mn.memMax * 2 :=
      ⟨_, rfl⟩
    have hgrow : mn.memMax < size := by
      rw [hsize]
      split <;> omega
    obtain ⟨h0, hl, hcell⟩ := h.live.resize hA (show 0 ≤ size by omega)
    refine ⟨{ mn with
      vmem := (IVector.resize A mn.vmem (size * 8).toNat).1, memMax := size,
      mmem := addr (IVector.resize A mn.vmem (size * 8).toNat).1 },
      ⟨rfl, rfl, rfl, rfl, rfl, rfl, rfl, rfl⟩, ?_, ?_, rfl, ?_⟩
    · refine ⟨h.size_pos, hl, h.count_eq, ?_, ?_, h.data⟩
      · change mn.memCount ≤ size
        omega
      · intro i c hi
        have hlen := (List.getElem?_eq_some_iff.mp hi).1
        rw [← h.cells i c hi]
        exact hcell i (by omega) (by omega) (by omega)
    · change mn.memCount < size
      omega
    · intro chunk count
      cases hptr : chunk (count * mn.nodeSize + roundSize).toNat <;>
        simp only [memAdd, ← hsize, h0, ne_eq, not_true_eq_false, and_false, if_false,
          if_pos hfull, hptr]
  · refine ⟨mn, ⟨rfl, rfl, rfl, rfl, rfl, rfl, rfl, rfl⟩, h, by omega, rfl, ?_⟩
    intro chunk count
    cases hptr : chunk (count * mn.nodeSize + roundSize).toNat <;>
      simp only [memAdd, hfull, false_and, if_false, hptr]

end IMemNode

/-- Only the chunk itself may be refused. -/
structure GrowMemory.Provided (M : GrowMemory) : Prop where
  arrays : ∀ k, (M.arrays k).Grants
  chunks : M.chunks.Grants
  back : ∀ k, (M.back k).Grants

namespace IMemNode

open Links CellVector

section

variable {mn : IMemNode} {closed : List ℤ} {chunks : List MemChunk} {M : GrowMemory}

theorem growCount_pos (mn : IMemNode) : 0 < mn.growCount := by
  have hround : ((roundSize : ℕ) : ℤ) = 8 := rfl
  simp only [growCount]
  split_ifs <;> omega

/-- The pool with more room, and its new nodes not yet in a list. -/
theorem Holds.resized (h : Holds mn [] closed) {a : NodeArrays} {m : ℤ} (hm : mn.nodeMax ≤ m)
    (hs : a.Synced m) (he : ∀ k i, 0 ≤ i → i < mn.nodeMax → a.entry k i = mn.arrays.entry k i) :
    HoldsOn (fun i => 0 ≤ i ∧ i < mn.nodeMax) { mn with arrays := a, nodeMax := m } [] closed := by
  refine ⟨hs, h.opens, ?_, ?_, h.mem_iff, h.apart, ?_, ?_, h.nodeFree_eq, h.nodeUsed_eq⟩
  · refine h.closes.congr ?_ ?_
    · intro y hy
      exact he _ y (h.range_closed hy).1 (h.range_closed hy).2
    · intro y hy
      exact he _ y (h.range_closed hy).1 (h.range_closed hy).2
  · rintro i ⟨h0, hi⟩
    exact ⟨h0, lt_of_lt_of_le hi hm⟩
  · intro i hi
    exact absurd hi List.not_mem_nil
  · intro i hi
    obtain ⟨h0, hlt⟩ := h.range_closed hi
    exact (he _ i h0 hlt).trans (h.used i hi)

theorem HoldsOn.sameNodes {s : ℤ → Prop} {mn' : IMemNode} {opened : List ℤ}
    (h : HoldsOn s mn opened closed) (hs : SameNodes mn mn') : HoldsOn s mn' opened closed := by
  refine ⟨?_, ?_, ?_, ?_, h.mem_iff, h.apart, ?_, ?_, ?_, ?_⟩
  · rw [hs.arrays, hs.nodeMax]
    exact h.synced
  · rw [hs.arrays, hs.listOpen]
    exact h.opens
  · rw [hs.arrays, hs.listClose]
    exact h.closes
  · rw [hs.nodeMax]
    exact h.range
  · rw [hs.arrays]
    exact h.free
  · rw [hs.arrays]
    exact h.used
  · rw [hs.nodeFree]
    exact h.nodeFree_eq
  · rw [hs.nodeUsed]
    exact h.nodeUsed_eq

/-- `imnode_grow` without memory for a chunk gives back what it has taken for
the arrays, and the pool is as it was. -/
theorem grow_refused (h : Holds mn [] closed) (hst : Stocked mn.nodeMax mn chunks) (hM : M.Provided)
    (hfit : ¬2^63 ≤ mn.growCount * mn.nodeSize)
    (hchunk : M.chunk (mn.growCount * mn.nodeSize + roundSize).toNat = none) :
    ∃ mn', mn.grow M = some (mn', -22) ∧ Holds mn' [] closed ∧ Stocked mn.nodeMax mn' chunks ∧
      mn'.nodeMax = mn.nodeMax ∧ mn'.growLimit = mn.growLimit ∧ mn'.nodeSize = mn.nodeSize ∧
      ∀ y, 0 ≤ y → y < mn.nodeMax → mn'.arrays.entry .data y = mn.arrays.entry .data y := by
  have hpos := growCount_pos mn
  have hmax := h.max_nonneg
  obtain ⟨hr, hsync, hentry⟩ := NodeArrays.nodeResize_granted hM.arrays h.synced
    (show 0 ≤ mn.nodeMax + mn.growCount by omega)
  obtain ⟨a, ha⟩ : ∃ a, a = (mn.arrays.nodeResize M.arrays (mn.nodeMax + mn.growCount)).1 := ⟨_, rfl⟩
  rw [← ha] at hsync hentry
  have hst0 : Stocked mn.nodeMax { mn with arrays := a, nodeMax := mn.nodeMax + mn.growCount }
      chunks := by
    refine hst.congr rfl rfl rfl rfl rfl ?_
    intro i h0 hi
    exact hentry .data i h0 hi (by omega)
  obtain ⟨mn1, hsame, hst1, -, -, hadd⟩ := memAdd_room hM.chunks hst0
  obtain ⟨hr', hsync', hentry'⟩ := NodeArrays.nodeResize_granted hM.back hsync hmax
  obtain ⟨b, hb⟩ : ∃ b, b = (a.nodeResize M.back mn.nodeMax).1 := ⟨_, rfl⟩
  rw [← hb] at hsync' hentry'
  have hkeep : ∀ k i, 0 ≤ i → i < mn.nodeMax → b.entry k i = mn.arrays.entry k i := by
    intro k i h0 hi
    rw [hentry' k i h0 (by omega) hi, hentry k i h0 hi (by omega)]
  have hback : (mn1.arrays.nodeResize M.back mn.nodeMax).1 = b := by
    rw [hsame.arrays, hb]
  have hh := h.resized le_rfl hsync' hkeep
  refine ⟨{ mn1 with arrays := b, nodeMax := mn.nodeMax }, ?_, ?_, ?_, rfl, hsame.growLimit,
    hsame.nodeSize, fun y h0 hy => hkeep .data y h0 hy⟩
  · simp only [grow, hr, ne_eq, not_true_eq_false, if_false, ← ha, hadd, if_neg hfit, hchunk,
      Option.bind_some, hback]
    rfl
  · exact HoldsOn.sameNodes hh
      ⟨rfl, hsame.nodeFree, hsame.nodeUsed, rfl, hsame.growLimit, hsame.nodeSize, hsame.listOpen,
        hsame.listClose⟩
  · refine hst1.congr rfl rfl rfl rfl rfl ?_
    intro i h0 hi
    rw [hsame.arrays]
    exact (hentry' .data i h0 (by omega) hi)

/-- `imnode_grow` has no result for nodes that are too long altogether. -/
theorem grow_overflow (h : Holds mn [] closed) (hst : Stocked mn.nodeMax mn chunks) (hM : M.Provided)
    (hfit : 2^63 ≤ mn.growCount * mn.nodeSize) : mn.grow M = none := by
  have hpos := growCount_pos mn
  have hmax := h.max_nonneg
  obtain ⟨hr, -, hentry⟩ := NodeArrays.nodeResize_granted hM.arrays h.synced
    (show 0 ≤ mn.nodeMax + mn.growCount by omega)
  obtain ⟨a, ha⟩ : ∃ a, a = (mn.arrays.nodeResize M.arrays (mn.nodeMax + mn.growCount)).1 := ⟨_, rfl⟩
  rw [← ha] at hentry
  have hst0 : Stocked mn.nodeMax { mn with arrays := a, nodeMax := mn.nodeMax + mn.growCount } chunks :=
    hst.congr rfl rfl rfl rfl rfl fun i h0 hi => hentry .data i h0 hi (by omega)
  obtain ⟨mn1, -, -, -, -, hadd⟩ := memAdd_room hM.chunks hst0
  simp only [grow, hr, ne_eq, not_true_eq_false, if_false, ← ha, hadd, if_pos hfit, Option.bind_none]

/-- `imnode_grow` with memory for a chunk opens its nodes. -/
theorem grow_granted (h : Holds mn [] closed) (hst : Stocked mn.nodeMax mn chunks) (hM : M.Provided)
    (hfit : ¬2^63 ≤ mn.growCount * mn.nodeSize) {mptr : ℕ} (hchunk : M.chunk (mn.growCount * mn.nodeSize + roundSize).toNat = some mptr) :
    ∃ mn', mn.grow M = some (mn', 0) ∧
      Holds mn' (nodes mn.nodeMax mn.growCount.toNat) closed ∧
      Stocked mn'.nodeMax mn' (chunks ++ [⟨mptr, mn.nodeMax, mn.growCount.toNat⟩]) ∧
      mn'.nodeMax = mn.nodeMax + mn.growCount ∧ mn'.growLimit = mn.growLimit ∧
      mn'.nodeSize = mn.nodeSize ∧
      ∀ y, 0 ≤ y → y < mn.nodeMax → mn'.arrays.entry .data y = mn.arrays.entry .data y := by
  have hpos := growCount_pos mn
  have hmax := h.max_nonneg
  have hround : ((roundSize : ℕ) : ℤ) = 8 := rfl
  obtain ⟨count, hcount⟩ : ∃ n, n = mn.growCount := ⟨_, rfl⟩
  rw [← hcount] at hchunk hpos hfit ⊢
  have hnat : (count.toNat : ℤ) = count := Int.toNat_of_nonneg hpos.le
  -- the arrays first: they grow by `count` and keep the old entries
  obtain ⟨hr, hsync, hentry⟩ := NodeArrays.nodeResize_granted hM.arrays h.synced
    (show 0 ≤ mn.nodeMax + count by omega)
  obtain ⟨a, ha⟩ : ∃ a, a = (mn.arrays.nodeResize M.arrays (mn.nodeMax + count)).1 := ⟨_, rfl⟩
  rw [← ha] at hsync hentry
  have hkeep : ∀ k i, 0 ≤ i → i < mn.nodeMax → a.entry k i = mn.arrays.entry k i := by
    intro k i h0 hi
    exact hentry k i h0 hi (by omega)
  have hst0 : Stocked mn.nodeMax { mn with arrays := a, nodeMax := mn.nodeMax + count } chunks :=
    hst.congr rfl rfl rfl rfl rfl fun i h0 hi => hkeep .data i h0 hi
  -- then room for one more chunk in `vmem`, which may double it
  obtain ⟨mn1, hsame, hst1, hroom, hcnt, hadd⟩ := memAdd_room hM.chunks hst0
  have hlen := hst1.count_eq
  have hstore := store_eq (hst1.live.acc (i := mn1.memCount) (by omega) hroom) (mptr : ℤ)
  -- the pool with the chunk, its nodes not yet in a list
  obtain ⟨mn2, hmn2⟩ : ∃ m : IMemNode, m = { mn1 with
      vmem := mn1.vmem.put mn1.memCount mptr, memCount := mn1.memCount + 1,
      totalMem := mn1.totalMem + (count * mn.nodeSize + roundSize) } := ⟨_, rfl⟩
  have hsame2 : SameNodes { mn with arrays := a, nodeMax := mn.nodeMax + count } mn2 := by
    rw [hmn2]
    exact ⟨hsame.arrays, hsame.nodeFree, hsame.nodeUsed, hsame.nodeMax, hsame.growLimit,
      hsame.nodeSize, hsame.listOpen, hsame.listClose⟩
  have hh := HoldsOn.sameNodes (h.resized (show mn.nodeMax ≤ mn.nodeMax + count by omega) hsync hkeep)
    hsame2
  -- the loop puts the new nodes in front of the open list, highest first, so they end up ascending
  obtain ⟨b, l, hloop, hhold, hdata⟩ := growLoop_spec (x := mn2.nodeMax - 1) count.toNat hh (by
    intro y hy hyx
    have hm2 : mn2.nodeMax = mn.nodeMax + count := hsame2.nodeMax
    omega) (roundUp mptr : ℤ)
  have hm2 : mn2.nodeMax = mn.nodeMax + count := hsame2.nodeMax
  have hs2 : mn2.nodeSize = mn.nodeSize := hsame2.nodeSize
  have hb : ∀ y, 0 ≤ y → y < mn.nodeMax → b.entry .data y = mn.arrays.entry .data y := by
    intro y h0 hy
    rw [hdata y h0, if_neg (by omega), hsame2.arrays]
    exact hkeep .data y h0 hy
  refine ⟨{ mn2 with arrays := b, listOpen := l, nodeFree := mn2.nodeFree + count.toNat }, ?_, ?_,
    ?_, hm2, hsame2.growLimit, hs2, hb⟩
  · have hgrow : mn.grow M = (growLoop count.toNat mn2 (mn2.nodeMax - 1) (roundUp mptr)).map
        fun mn => (mn, (0 : ℤ)) := by
      simp only [grow, ← hcount, hr, ne_eq, not_true_eq_false, if_false, ← ha, hadd, if_neg hfit, hchunk,
        hstore, Option.map_some, Option.bind_some, ← hmn2]
    rw [hgrow, hloop]
    rfl
  -- the set of the loop is the whole range, as it runs over all new nodes
  · have hset : (fun y => (0 ≤ y ∧ y < mn.nodeMax) ∨
        (mn2.nodeMax - 1 - (count.toNat : ℤ) < y ∧ y ≤ mn2.nodeMax - 1)) =
        fun y => 0 ≤ y ∧ y < mn2.nodeMax := by
      funext y
      simp only [eq_iff_iff]
      omega
    have hlo : mn2.nodeMax - 1 - (count.toNat : ℤ) + 1 = mn.nodeMax := by omega
    rw [hset, hlo, List.append_nil] at hhold
    exact hhold
  · refine ⟨by rw [hs2]; exact hst.size_pos, ?_, ?_, ?_, ?_, ?_⟩
    · rw [hmn2]
      exact hst1.live.put _ _
    · rw [hmn2]
      change mn1.memCount + 1 = _
      rw [List.length_append]
      simp only [List.length_cons, List.length_nil]
      omega
    · rw [hmn2]
      change mn1.memCount + 1 ≤ mn1.memMax
      omega
    -- the old cells as they were, the last one with the new chunk
    · intro i c hi
      have hput := cell_put (hst1.live.acc (i := mn1.memCount) (by omega) hroom)
        (Int.natCast_nonneg i) (mptr : ℤ)
      have hcell : mn2.vmem.cell i = if (i : ℤ) = mn1.memCount then (mptr : ℤ)
          else mn1.vmem.cell i := by
        rw [hmn2]
        exact hput
      change mn2.vmem.cell i = c.addr
      rw [hcell]
      by_cases hilt : i < chunks.length
      · rw [if_neg (by omega)]
        rw [List.getElem?_append_left hilt] at hi
        exact hst1.cells i c hi
      · have hieq : i = chunks.length := by
          have hil := (List.getElem?_eq_some_iff.mp hi).1
          rw [List.length_append] at hil
          simp only [List.length_cons, List.length_nil] at hil
          omega
        subst hieq
        rw [if_pos (by omega)]
        simp only [List.getElem?_concat_length, Option.some.injEq] at hi
        rw [← hi]
    · intro y h0 hy
      change y < mn2.nodeMax at hy
      change ∃ c ∈ chunks ++ [(⟨mptr, mn.nodeMax, count.toNat⟩ : MemChunk)],
        c.first ≤ y ∧ y < c.first + c.count ∧ b.entry .data y = c.place mn2.nodeSize y
      rw [hs2]
      -- a node lies in the chunk it was created with
      by_cases hold : y < mn.nodeMax
      · obtain ⟨c, hc, hcy⟩ := hst.data y h0 hold
        exact ⟨c, List.mem_append_left _ hc, by rw [hb y h0 hold]; exact hcy⟩
      · refine ⟨⟨mptr, mn.nodeMax, count.toNat⟩, by simp, by simp only; omega, by simp only; omega, ?_⟩
        rw [hdata y h0, if_pos (by omega), hs2, MemChunk.place, hnat, hm2]

end

end IMemNode

end HttpsProxy
