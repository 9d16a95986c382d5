import HttpsProxy.MemNodePool
import HttpsProxy.Refinement

/-! An `IMEMNODE` over any sequence of calls is a pool of numbers, of which the
one given back last is handed out first, and the memory of a number is its own. -/
namespace HttpsProxy

/-- What a pool asks for while it grows; only chunks are ever refused. -/
abbrev PoolMemory := { M : GrowMemory // M.Provided }

inductive PoolCall where
  | new (M : PoolMemory)
  | del (index : ℤ)

/-- The specification: the numbers that are free and those in use, each in the
order in which they would be met, and how many there are. -/
structure IdPool where
  free : List ℤ
  used : List ℤ
  max : ℤ

namespace IdPool

def empty : IdPool := { free := [], used := [], max := 0 }

/-- As many numbers as there are are added, at first 8, and never more than the limit. -/
def more (limit : ℤ) (p : IdPool) : ℤ :=
  let count := if p.max = 0 then 8 else p.max
  if 0 < limit ∧ limit < count then limit else count

/-- A pool without free numbers grows if there is a chunk for the new ones, whose
nodes must be shorter than 2^63 bytes altogether. Only a number in use may be
given back. -/
def call (nodeSize limit : ℤ) (p : IdPool) : PoolCall → Option (ℤ × IdPool)
  | .new M =>
    match p.free with
    | x :: free => some (x, { p with free, used := x :: p.used })
    | [] =>
      if 2^63 ≤ p.more limit * nodeSize then none
      else
        match M.1.chunk (p.more limit * nodeSize + 8).toNat with
        | none => some (-2, p)
        | some _ => some (p.max,
            { free := IMemNode.nodes (p.max + 1) (p.more limit - 1).toNat, used := p.max :: p.used,
              max := p.max + p.more limit })
  | .del x =>
    if x ∈ p.used then some (0, { p with free := x :: p.free, used := p.used.erase x }) else none

end IdPool

namespace IMemNode

open Links CellVector Refinement

/-- A call as its caller sees it; `imnode_del` returns nothing. -/
def call (mn : IMemNode) : PoolCall → Option (ℤ × IMemNode)
  | .new M => (mn.new M.1).map fun r => (r.2, r.1)
  | .del x => (mn.del x).map fun mn => (0, mn)

/-- `for (i = imnode_head(mn); i >= 0; i = imnode_next(mn, i))`: the nodes met, if
that is over after `fuel` nodes. -/
def walk (mn : IMemNode) : ℕ → ℤ → Option (List ℤ)
  | 0, _ => none
  | fuel+1, i => if 0 ≤ i then (mn.next i).bind fun j => (walk mn fuel j).map (i :: ·) else some []

/-- The pool that `mn` stands for, and what it has got from the calls so far. -/
structure Models (nodeSize limit : ℤ) (past : List PoolCall) (mn : IMemNode) (p : IdPool)
    (chunks : List MemChunk) : Prop where
  holds : Holds mn p.free p.used
  stocked : Stocked mn.nodeMax mn chunks
  max_eq : mn.nodeMax = p.max
  limit_eq : mn.growLimit = limit
  size_eq : mn.nodeSize = nodeSize
  given : ∃ calls : List PoolCall, calls.Sublist past ∧ List.Forall₂ (fun c d => ∃ M : PoolMemory,
    d = PoolCall.new M ∧ M.1.chunk (c.length nodeSize).toNat = some c.addr) chunks calls

variable {nodeSize limit : ℤ} {past : List PoolCall} {mn : IMemNode} {p : IdPool}
  {chunks : List MemChunk}

theorem Models.more_eq (h : Models nodeSize limit past mn p chunks) :
    mn.growCount = p.more limit := by
  have hmax := h.holds.max_nonneg
  have hround : ((roundSize : ℕ) : ℤ) = 8 := rfl
  have hz : p.max ≤ 0 ↔ p.max = 0 := by
    rw [← h.max_eq]
    omega
  simp only [growCount, IdPool.more, h.limit_eq, h.max_eq, hround, hz]

theorem Models.later (h : Models nodeSize limit past mn p chunks) (c : PoolCall) :
    Models nodeSize limit (past ++ [c]) mn p chunks := by
  obtain ⟨calls, hsub, hall⟩ := h.given
  exact { h with given := ⟨calls, hsub.trans (List.sublist_append_left _ _), hall⟩ }

/-- A call that only moves nodes between the lists. -/
theorem Models.moved (h : Models nodeSize limit past mn p chunks) (c : PoolCall) {mn' : IMemNode}
    {p' : IdPool} (hh : Holds mn' p'.free p'.used) (hst : Stocked mn'.nodeMax mn' chunks)
    (hmax : mn'.nodeMax = p'.max) (hl : mn'.growLimit = mn.growLimit)
    (hs : mn'.nodeSize = mn.nodeSize) : Models nodeSize limit (past ++ [c]) mn' p' chunks :=
  ⟨hh, hst, hmax, hl.trans h.limit_eq, hs.trans h.size_eq, (h.later c).given⟩

/-- The data of the nodes there are stays where it is. -/
structure Grows (mn mn' : IMemNode) : Prop where
  max_le : mn.nodeMax ≤ mn'.nodeMax
  data : ∀ y, 0 ≤ y → y < mn.nodeMax → mn'.arrays.entry .data y = mn.arrays.entry .data y

theorem Grows.trans {mn mn' mn'' : IMemNode} (h : Grows mn mn') (h' : Grows mn' mn'') :
    Grows mn mn'' :=
  ⟨h.max_le.trans h'.max_le, fun y h0 hy =>
    (h'.data y h0 (lt_of_lt_of_le hy h.max_le)).trans (h.data y h0 hy)⟩

/-- A pool that is asked for a node hands out the first free one. -/
theorem Models.reuse (h : Models nodeSize limit past mn p chunks) (M : PoolMemory) {x : ℤ}
    {free : List ℤ} (hfree : p.free = x :: free) :
    ∃ mn', mn.call (.new M) = some (x, mn') ∧
      Models nodeSize limit (past ++ [.new M]) mn' { p with free, used := x :: p.used } chunks ∧
      Grows mn mn' := by
  have hh := h.holds
  rw [hfree] at hh
  have hx : mn.listOpen = x := hh.opens.1
  obtain ⟨a, htake, hhold, hdata⟩ := take_spec hh
  have hx0 := (hh.range_open List.mem_cons_self).1
  obtain ⟨mn', hmn'⟩ : ∃ m : IMemNode, m = { mn with
      arrays := a, listOpen := mn.arrays.entry .next x, listClose := x,
      nodeFree := mn.nodeFree - 1, nodeUsed := mn.nodeUsed + 1 } := ⟨_, rfl⟩
  have hst : Stocked mn.nodeMax mn' chunks := by
    rw [hmn']
    exact h.stocked.congr rfl rfl rfl rfl rfl fun i h0 _ => hdata i h0
  have hgrows : Grows mn mn' := by
    rw [hmn']
    exact ⟨le_rfl, fun y h0 _ => hdata y h0⟩
  rw [← hmn'] at htake
  refine ⟨mn', ?_, ?_, hgrows⟩
  · simp only [call, new, if_neg (show ¬ mn.listOpen < 0 by omega), htake, Option.map_some]
  · subst hmn'
    exact h.moved _ hhold hst h.max_eq rfl rfl

/-- Without a free node it grows. -/
theorem Models.grown (h : Models nodeSize limit past mn p chunks) (M : PoolMemory)
    (hfree : p.free = []) (hfit : ¬2^63 ≤ p.more limit * nodeSize) :
    ∃ o mn' p' chunks', mn.call (.new M) = some (o, mn') ∧
      p.call nodeSize limit (.new M) = some (o, p') ∧
      Models nodeSize limit (past ++ [.new M]) mn' p' chunks' ∧ Grows mn mn' := by
  have hh := h.holds
  rw [hfree] at hh
  have hopen : mn.listOpen = -1 := hh.opens
  have hlt : mn.listOpen < 0 := by omega
  have hmore := h.more_eq
  have hlen : (mn.growCount * mn.nodeSize + roundSize).toNat =
      (p.more limit * nodeSize + 8).toNat := by
    rw [hmore, h.size_eq]
    rfl
  have hfit' : ¬2^63 ≤ mn.growCount * mn.nodeSize := by rwa [hmore, h.size_eq]
  cases hchunk : M.1.chunk (p.more limit * nodeSize + 8).toNat with
  | none =>
    obtain ⟨mn', hg, hh', hst', hmax', hl', hs', hd'⟩ :=
      grow_refused hh h.stocked M.2 hfit' (hlen ▸ hchunk)
    refine ⟨-2, mn', p, chunks, ?_, ?_, ?_, ⟨hmax'.ge, hd'⟩⟩
    · simp only [call, new, if_pos hlt, hg, Option.bind_some]
      rfl
    · simp only [IdPool.call, hfree, if_neg hfit, hchunk]
    · exact h.moved _ (by rw [hfree]; exact hh') (hmax' ▸ hst') (hmax'.trans h.max_eq) hl' hs'
  | some mptr =>
    obtain ⟨mn1, hg, hh1, hst1, hmax1, hl1, hs1, hd1⟩ :=
      grow_granted hh h.stocked M.2 hfit' (hlen ▸ hchunk)
    have hpos := growCount_pos mn
    obtain ⟨k, hk⟩ : ∃ k : ℕ, mn.growCount.toNat = k + 1 :=
      ⟨mn.growCount.toNat - 1, by omega⟩
    have hnodes : nodes mn.nodeMax mn.growCount.toNat = mn.nodeMax :: nodes (mn.nodeMax + 1) k := by
      rw [hk]
      simp only [nodes, List.range_succ_eq_map, List.map_cons, List.map_map]
      congr 1
      · simp
      · apply List.map_congr_left
        intro i _
        simp only [Function.comp_apply]
        push_cast
        ring
    rw [hnodes] at hh1
    obtain ⟨a, htake, hhold, hdata⟩ := take_spec hh1
    obtain ⟨mn', hmn'⟩ : ∃ m : IMemNode, m = { mn1 with
        arrays := a, listOpen := mn1.arrays.entry .next mn.nodeMax, listClose := mn.nodeMax,
        nodeFree := mn1.nodeFree - 1, nodeUsed := mn1.nodeUsed + 1 } := ⟨_, rfl⟩
    rw [← hmn'] at htake
    have hnew : mn.call (.new M) = some (mn.nodeMax, mn') := by
      simp only [call, new, if_pos hlt, hg, Option.bind_some, ne_eq, not_true_eq_false, if_false,
        htake, Option.map_some]
    have hpool : p.call nodeSize limit (.new M) = some (mn.nodeMax,
        { free := nodes (mn.nodeMax + 1) k, used := mn.nodeMax :: p.used,
          max := mn.nodeMax + mn.growCount }) := by
      have hchunk' : M.1.chunk (mn.growCount * nodeSize + 8).toNat = some mptr := by
        rw [hmore]
        exact hchunk
      have hfit'' : ¬2^63 ≤ mn.growCount * nodeSize := by rwa [hmore]
      simp only [IdPool.call, hfree, ← hmore, if_neg hfit'', hchunk', h.max_eq]
      rw [show (mn.growCount - 1).toNat = k by omega]
    obtain ⟨calls, hsub, hall⟩ := h.given
    subst hmn'
    refine ⟨mn.nodeMax, _, _, chunks ++ [⟨mptr, mn.nodeMax, mn.growCount.toNat⟩], hnew, hpool,
      ⟨hhold, ?_, hmax1, hl1.trans h.limit_eq, hs1.trans h.size_eq, calls ++ [.new M],
        hsub.append_right _, ?_⟩, ?_⟩
    · exact hst1.congr rfl rfl rfl rfl rfl fun i h0 _ => hdata i h0
    · refine List.rel_append hall ?_
      refine List.Forall₂.cons ⟨M, rfl, ?_⟩ List.Forall₂.nil
      rw [← hchunk, ← hlen, MemChunk.length, Int.toNat_of_nonneg hpos.le, h.size_eq]
    · refine ⟨?_, ?_⟩
      · change mn.nodeMax ≤ mn1.nodeMax
        omega
      · intro y h0 hy
        exact (hdata y h0).trans (hd1 y h0 hy)

theorem Models.overflow (h : Models nodeSize limit past mn p chunks) (M : PoolMemory)
    (hfree : p.free = []) (hfit : 2^63 ≤ p.more limit * nodeSize) : mn.call (.new M) = none := by
  have hh := h.holds
  rw [hfree] at hh
  have hopen : mn.listOpen = -1 := hh.opens
  rw [← h.more_eq, ← h.size_eq] at hfit
  simp only [IMemNode.call, new, if_pos (show mn.listOpen < 0 by omega), grow_overflow hh h.stocked M.2 hfit,
    Option.bind_none, Option.map_none]

theorem Models.freed (h : Models nodeSize limit past mn p chunks) {x : ℤ} (hx : x ∈ p.used) :
    ∃ mn', mn.call (.del x) = some (0, mn') ∧
      Models nodeSize limit (past ++ [.del x]) mn'
        { p with free := x :: p.free, used := p.used.erase x } chunks ∧ Grows mn mn' := by
  obtain ⟨a, l, hdel, hhold, hdata⟩ := del_spec h.holds hx
  obtain ⟨mn', hmn'⟩ : ∃ m : IMemNode, m = { mn with
      arrays := a, listOpen := x, listClose := l,
      nodeFree := mn.nodeFree + 1, nodeUsed := mn.nodeUsed - 1 } := ⟨_, rfl⟩
  have hst : Stocked mn.nodeMax mn' chunks := by
    rw [hmn']
    exact h.stocked.congr rfl rfl rfl rfl rfl fun i h0 _ => hdata i h0
  have hgrows : Grows mn mn' := by
    rw [hmn']
    exact ⟨le_rfl, fun y h0 _ => hdata y h0⟩
  rw [← hmn'] at hdel
  refine ⟨mn', by simp only [call, hdel, Option.map_some], ?_, hgrows⟩
  subst hmn'
  exact h.moved _ hhold hst h.max_eq rfl rfl

/-- What a call does to the pool, and to the numbers it stands for. -/
theorem Models.call (h : Models nodeSize limit past mn p chunks) (c : PoolCall) :
    (mn.call c = none ∧ p.call nodeSize limit c = none) ∨
      ∃ o mn' p' chunks', mn.call c = some (o, mn') ∧ p.call nodeSize limit c = some (o, p') ∧
        Models nodeSize limit (past ++ [c]) mn' p' chunks' ∧ Grows mn mn' := by
  cases c with
  | new M =>
    cases hfree : p.free with
    | nil =>
      by_cases hfit : 2^63 ≤ p.more limit * nodeSize
      · exact Or.inl ⟨h.overflow M hfree hfit, by simp only [IdPool.call, hfree, if_pos hfit]⟩
      · exact Or.inr (h.grown M hfree hfit)
    | cons x free =>
      obtain ⟨mn', hc, hm, hg⟩ := h.reuse M hfree
      exact Or.inr ⟨x, mn', _, chunks, hc, by simp only [IdPool.call, hfree], hm, hg⟩
  | del x =>
    by_cases hx : x ∈ p.used
    · obtain ⟨mn', hc, hm, hg⟩ := h.freed hx
      exact Or.inr ⟨0, mn', _, chunks, hc, by simp only [IdPool.call, if_pos hx], hm, hg⟩
    · left
      exact ⟨by simp only [IMemNode.call, del_refused h.holds hx, Option.map_none],
        by simp only [IdPool.call, if_neg hx]⟩

/-- Asking for a node ends in an answer if the new nodes are not too long. -/
theorem Models.new (h : Models nodeSize limit past mn p chunks) (M : PoolMemory)
    (hfit : p.more limit * nodeSize < 2^63) :
    ∃ o mn' p' chunks', asked IMemNode.call mn [.new M] = some ([o], mn') ∧
      p.call nodeSize limit (.new M) = some (o, p') ∧
      Models nodeSize limit (past ++ [.new M]) mn' p' chunks' := by
  rcases h.call (.new M) with ⟨-, hnone⟩ | ⟨o, mn', p', chunks', hc, hp, hm, -⟩
  · rw [IdPool.call] at hnone
    split at hnone
    · cases hnone
    · rw [if_neg (not_le.mpr hfit)] at hnone
      split at hnone <;> cases hnone
  · exact ⟨o, mn', p', chunks', by simp only [asked, hc, Option.map_some], hp, hm⟩

theorem models_init (nodesize limit : ℤ) :
    Models (init nodesize limit).nodeSize limit [] (init nodesize limit) IdPool.empty [] := by
  have hlive : Live (IVector.init : CellVector) none 0 := ⟨IVector.sound_init, rfl, rfl⟩
  refine ⟨⟨⟨fun _ => hlive, fun _ => rfl⟩, rfl, rfl, fun _ hi => hi, ?_, ?_, ?_, ?_, rfl, rfl⟩,
    ⟨?_, hlive, rfl, le_rfl, ?_, ?_, ⟩, rfl, rfl, rfl, [], List.Sublist.refl _, List.Forall₂.nil⟩
  · intro i
    simp only [IdPool.empty, List.not_mem_nil, or_self, iff_false]
    rintro ⟨h0, h1⟩
    exact absurd h1 (not_lt.mpr h0)
  · intro i hi
    exact absurd hi List.not_mem_nil
  · intro i hi
    exact absurd hi List.not_mem_nil
  · intro i hi
    exact absurd hi List.not_mem_nil
  · change (roundSize : ℤ) ≤ (roundUp _ : ℕ)
    have hle := le_roundUp (if nodesize < (roundSize : ℤ) then (roundSize : ℤ) else nodesize).toNat
    have hround : ((roundSize : ℕ) : ℤ) = 8 := rfl
    split at hle <;> split <;> omega
  · intro i c hc
    simp at hc
  · intro y h0 hy
    exact absurd hy (not_lt.mpr h0)

/-- The nodes of both lists are all the nodes. -/
theorem Holds.length_eq {opened closed : List ℤ} (h : Holds mn opened closed) :
    ((opened.length + closed.length : ℕ) : ℤ) = mn.nodeMax := by
  have hmax := h.max_nonneg
  have hnd : (opened ++ closed).Nodup := by
    rw [List.nodup_append]
    refine ⟨h.opens.chain.nodup, h.closes.chain.nodup, ?_⟩
    rintro a ha b hb rfl
    exact h.apart a ha hb
  have hnodes : (nodes 0 mn.nodeMax.toNat).Nodup := by
    refine List.Nodup.map ?_ List.nodup_range
    intro i j hij
    simpa using hij
  have hperm : (opened ++ closed).Perm (nodes 0 mn.nodeMax.toNat) := by
    rw [List.perm_ext_iff_of_nodup hnd hnodes]
    intro i
    rw [List.mem_append, ← h.mem_iff, mem_nodes]
    omega
  have hlen := hperm.length_eq
  simp only [nodes, List.length_append, List.length_map, List.length_range] at hlen
  omega

theorem walk_spec {b p : ℤ} {xs : List ℤ} (hs : mn.arrays.Synced mn.nodeMax)
    (h : Doubly (mn.arrays.entry .next) (mn.arrays.entry .prev) (-1) b p xs)
    (hr : ∀ x ∈ xs, 0 ≤ x ∧ x < mn.nodeMax) {fuel : ℕ} (hf : xs.length < fuel) :
    mn.walk fuel p = some xs := by
  induction xs generalizing b p fuel with
  | nil =>
    have hp : p = -1 := h
    obtain ⟨k, rfl⟩ : ∃ k, fuel = k + 1 := ⟨fuel - 1, by rw [List.length_nil] at hf; omega⟩
    rw [walk, if_neg (by omega)]
  | cons x xs ih =>
    obtain ⟨hp, -, -, ht⟩ := h
    subst hp
    obtain ⟨h0, hm⟩ := hr p List.mem_cons_self
    rw [List.length_cons] at hf
    obtain ⟨k, rfl⟩ : ∃ k, fuel = k + 1 := ⟨fuel - 1, by omega⟩
    rw [walk, if_pos h0, next, NodeArrays.get_eq hs h0 hm, Option.bind_some,
      ih ht (fun y hy => hr y (List.mem_cons_of_mem _ hy)) (by omega), Option.map_some]

theorem matches_pool (nodeSize limit : ℤ) : Matches call (IdPool.call nodeSize limit) fun mn p =>
    ∃ past chunks, Models nodeSize limit past mn p chunks := by
  rintro mn p c ⟨past, chunks, h⟩
  rcases h.call c with ⟨hc, hp⟩ | ⟨o, mn', p', chunks', hc, hp, hm, -⟩
  · rw [hc, hp]
    exact Option.Rel.none
  · rw [hc, hp]
    exact Option.Rel.some ⟨rfl, _, _, hm⟩

/-- For every sequence of calls the pool returns the numbers that the abstract
pool returns, and fails exactly at an `imnode_del` of a node that is not in use.
The loop over the nodes meets those in use, the last one handed out first, and
the three counters tell how many nodes there are. -/
theorem pool_refines (nodesize limit : ℤ) (calls : List PoolCall) :
    Option.Rel (fun r q => r.1 = q.1 ∧
        r.2.walk (r.2.nodeUsed.toNat + 1) r.2.head = some q.2.used ∧ q.2.used.Nodup ∧
        r.2.nodeUsed = q.2.used.length ∧ r.2.nodeFree = q.2.free.length ∧
        r.2.nodeFree + r.2.nodeUsed = r.2.nodeMax)
      (asked call (init nodesize limit) calls)
      (asked (IdPool.call (init nodesize limit).nodeSize limit) IdPool.empty calls) := by
  -- both runs fail or both succeed with the same answers; the rest reads the final states
  have hrun := (matches_pool (init nodesize limit).nodeSize limit).asked
    ⟨[], [], models_init nodesize limit⟩ calls
  cases hs : asked call (init nodesize limit) calls with
  | none =>
    cases ht : asked (IdPool.call (init nodesize limit).nodeSize limit) IdPool.empty calls with
    | none => exact Option.Rel.none
    | some q => simp [hs, ht] at hrun
  | some r =>
    cases ht : asked (IdPool.call (init nodesize limit).nodeSize limit) IdPool.empty calls with
    | none => simp [hs, ht] at hrun
    | some q =>
      simp only [hs, ht, Option.rel_some_some] at hrun
      obtain ⟨ho, past, chunks, h⟩ := hrun
      have hu := h.holds.nodeUsed_eq
      have hf := h.holds.nodeFree_eq
      have hlen := h.holds.length_eq
      refine Option.Rel.some ⟨ho, ?_, h.holds.closes.chain.nodup, hu, hf, by omega⟩
      exact walk_spec h.holds.synced h.holds.closes (fun x hx => h.holds.range_closed hx)
        (by omega)

theorem Models.run (h : Models nodeSize limit past mn p chunks) {calls : List PoolCall} {os : List ℤ}
    {mn' : IMemNode} (hr : asked IMemNode.call mn calls = some (os, mn')) :
    ∃ p' chunks', Models nodeSize limit (past ++ calls) mn' p' chunks' ∧ Grows mn mn' := by
  induction calls generalizing past mn p chunks os with
  | nil =>
    obtain ⟨-, rfl⟩ := Prod.mk.inj (Option.some.inj hr)
    exact ⟨p, chunks, by simpa using h, ⟨le_rfl, fun _ _ _ => rfl⟩⟩
  | cons c calls ih =>
    obtain ⟨o, u, os', hc, hrest, -⟩ := asked_cons.mp hr
    rcases h.call c with ⟨hnone, -⟩ | ⟨o', u', p', chunks', hc', -, hm, hg⟩
    · rw [hnone] at hc
      exact absurd hc (by simp)
    · obtain rfl := (Prod.mk.inj (Option.some.inj (hc'.symm.trans hc))).2
      obtain ⟨p'', chunks'', hm', hg'⟩ := ih hm hrest
      exact ⟨p'', chunks'', by simpa using hm', hg.trans hg'⟩

/-- The calls that the abstract pool answers are answered. -/
theorem Models.follow (h : Models nodeSize limit past mn p chunks) {calls : List PoolCall}
    {os : List ℤ} {p' : IdPool} (hp : asked (IdPool.call nodeSize limit) p calls = some (os, p')) :
    ∃ mn' chunks', asked IMemNode.call mn calls = some (os, mn') ∧
      Models nodeSize limit (past ++ calls) mn' p' chunks' := by
  induction calls generalizing past mn p chunks os with
  | nil =>
    obtain ⟨rfl, rfl⟩ := Prod.mk.inj (Option.some.inj hp)
    exact ⟨mn, chunks, rfl, by simpa using h⟩
  | cons c calls ih =>
    obtain ⟨o, q, os', hc, hrest, rfl⟩ := asked_cons.mp hp
    rcases h.call c with ⟨-, hnone⟩ | ⟨o', mn1, p1, chunks1, hc', hp', hm, -⟩
    · rw [hnone] at hc
      exact absurd hc (by simp)
    · obtain ⟨rfl, rfl⟩ := Prod.mk.inj (Option.some.inj (hp'.symm.trans hc))
      obtain ⟨mn2, chunks2, hrun, hm2⟩ := ih hm hrest
      exact ⟨mn2, chunks2, asked_cons.mpr ⟨o', mn1, os', hc', hrun, rfl⟩, by simpa using hm2⟩

end IMemNode

/-- The chunks that two calls are given have no byte in common. -/
def PoolCall.Fresh : PoolCall → PoolCall → Prop
  | .new M, .new N => ∀ (n m a b : ℕ), M.1.chunk n = some a → N.1.chunk m = some b → Apart a n b m
  | _, _ => True

namespace IMemNode

open Refinement

theorem Models.apart {nodeSize limit : ℤ} {past : List PoolCall} {mn : IMemNode} {p : IdPool}
    {chunks : List MemChunk} (h : Models nodeSize limit past mn p chunks)
    (hfresh : past.Pairwise PoolCall.Fresh) : chunks.Pairwise fun c d =>
      Apart c.addr (c.length mn.nodeSize) d.addr (d.length mn.nodeSize) := by
  obtain ⟨calls, hsub, hall⟩ := h.given
  have hpos := h.stocked.size_pos
  have hround : ((roundSize : ℕ) : ℤ) = 8 := rfl
  have hlen : ∀ c : MemChunk, ((c.length nodeSize).toNat : ℤ) = c.length mn.nodeSize := by
    intro c
    rw [h.size_eq]
    rw [h.size_eq] at hpos
    have hmul : 0 ≤ (c.count : ℤ) * nodeSize := mul_nonneg (by omega) (by omega)
    exact Int.toNat_of_nonneg (by unfold MemChunk.length; omega)
  have hpair := hfresh.sublist hsub
  clear hsub h
  induction hall with
  | nil => exact List.Pairwise.nil
  | @cons c d cs ds hcd hrest ih =>
    obtain ⟨hd, hpair⟩ := List.pairwise_cons.mp hpair
    refine List.pairwise_cons.mpr ⟨?_, ih hpair⟩
    intro c' hc'
    obtain ⟨M, rfl, hM⟩ := hcd
    obtain ⟨i, hi, rfl⟩ := List.getElem_of_mem hc'
    have hlen' := hrest.length_eq
    obtain ⟨N, hN, hN'⟩ := hrest.get hi (by omega)
    have hap := hd _ (List.getElem_mem (by omega : i < ds.length))
    simp only [List.get_eq_getElem] at hN
    rw [hN] at hap
    have := hap _ _ _ _ hM hN'
    rw [hlen, hlen] at this
    exact this

/-- The memory of a node lies in a chunk that one of the calls has been given. -/
theorem Models.inside {nodeSize limit : ℤ} {past : List PoolCall} {mn : IMemNode} {p : IdPool}
    {chunks : List MemChunk} (h : Models nodeSize limit past mn p chunks) {x : ℤ} (h0 : 0 ≤ x)
    (hx : x < mn.nodeMax) : ∃ c ∈ chunks, ∃ M, PoolCall.new M ∈ past ∧
      M.1.chunk (c.length mn.nodeSize).toNat = some c.addr ∧
      c.addr ≤ mn.arrays.entry .data x ∧
      mn.arrays.entry .data x + mn.nodeSize ≤ c.addr + ((c.length mn.nodeSize).toNat : ℕ) := by
  have hpos : 0 ≤ mn.nodeSize := le_trans (by decide) h.stocked.size_pos
  obtain ⟨c, hc, hlo, hhi, hcx⟩ := h.stocked.data x h0 hx
  obtain ⟨calls, hsub, hall⟩ := h.given
  obtain ⟨i, hi, rfl⟩ := List.getElem_of_mem hc
  obtain ⟨M, hM, hM'⟩ := hall.get hi (by rw [← hall.length_eq]; exact hi)
  simp only [List.get_eq_getElem] at hM hM'
  obtain ⟨h1, h2⟩ := MemChunk.place_inside hpos hlo hhi
  have hlen := Int.self_le_toNat (chunks[i].length mn.nodeSize)
  rw [← h.size_eq] at hM'
  refine ⟨chunks[i], hc, M, hsub.subset (hM ▸ List.getElem_mem _), hM', ?_, ?_⟩
  · rw [hcx]
    exact h1
  · rw [hcx]
    omega

/-- If no two chunks overlap, neither does the memory of any two nodes. It lies
in a chunk, on an address that is a multiple of 8, and it is the node's for good. -/
theorem nodes_own_memory (nodesize limit : ℤ) {before after : List PoolCall} {os os' : List ℤ}
    {mn mn' : IMemNode} (hfresh : (before ++ after).Pairwise PoolCall.Fresh)
    (hbefore : asked call (init nodesize limit) before = some (os, mn))
    (hafter : asked call mn after = some (os', mn')) :
    ∀ x, 0 ≤ x → x < mn'.nodeMax → ∃ a, mn'.data x = some a ∧ 8 ∣ a ∧
      (x < mn.nodeMax → mn.data x = some a) ∧
      (∃ M n base, PoolCall.new M ∈ before ++ after ∧ M.1.chunk n = some base ∧
        (base : ℤ) ≤ a ∧ a + mn'.nodeSize ≤ base + n) ∧
      ∀ y b, 0 ≤ y → y < mn'.nodeMax → y ≠ x → mn'.data y = some b →
        Apart a mn'.nodeSize b mn'.nodeSize := by
  obtain ⟨p, chunks, h, -⟩ := (models_init nodesize limit).run hbefore
  -- the later calls only add chunks, so nodes stay where they were
  obtain ⟨p', chunks', h', hgrows⟩ := h.run hafter
  rw [List.nil_append] at h'
  have hdata : ∀ y, 0 ≤ y → y < mn'.nodeMax → mn'.data y = some (mn'.arrays.entry .data y) :=
    fun y h0 hy => NodeArrays.get_eq h'.holds.synced h0 hy .data
  have hpos : 0 ≤ mn'.nodeSize := le_trans (by decide) h'.stocked.size_pos
  intro x h0 hx
  refine ⟨mn'.arrays.entry .data x, hdata x h0 hx, ?_, ?_, ?_, ?_⟩
  · obtain ⟨c, hc, -, -, hcx⟩ := h'.stocked.data x h0 hx
    have hsize : (8 : ℤ) ∣ mn'.nodeSize := by
      rw [h'.size_eq]
      exact Int.natCast_dvd_natCast.mpr (roundUp_dvd _)
    rw [hcx, MemChunk.place]
    exact Int.dvd_add (Int.natCast_dvd_natCast.mpr (roundUp_dvd c.addr)) (hsize.mul_left _)
  · intro hxm
    rw [hgrows.data x h0 hxm]
    exact NodeArrays.get_eq h.holds.synced h0 hxm .data
  · obtain ⟨c, -, M, hM, hM', h1, h2⟩ := h'.inside h0 hx
    exact ⟨M, _, _, hM, hM', h1, h2⟩
  · intro y b hy0 hy hyx hb
    obtain rfl := Option.some.inj ((hdata y hy0 hy).symm.trans hb)
    exact h'.stocked.disjoint (h'.apart hfresh) h0 hx hy0 hy (Ne.symm hyx)

/-- An allocator with zeros in its memory, one with chunks of up to a page. -/
def zeroCells (addr : ℕ) : Allocator 8 ℤ where
  malloc n := some ⟨addr, List.replicate (n / 8) 0⟩
  length_cells n b h := by
    obtain rfl := Option.some.inj h
    simp

def pageMemory (addr : ℕ) : PoolMemory :=
  ⟨{ arrays := fun _ => zeroCells 64, chunks := zeroCells 2048,
     chunk := fun n => if n ≤ 4096 then some addr else none, back := fun _ => zeroCells 1024 },
    ⟨fun _ _ => rfl, fun _ => rfl, fun _ _ => rfl⟩⟩

theorem nodes_own_memory_two : ∃ os mn os' mn',
    asked call (init 20 0) [.new (pageMemory 4096)] = some (os, mn) ∧
    asked call mn [.new (pageMemory 8192)] = some (os', mn') ∧
    ∀ x, 0 ≤ x → x < mn'.nodeMax → ∃ a, mn'.data x = some a ∧ 8 ∣ a ∧
      (x < mn.nodeMax → mn.data x = some a) ∧
      (∃ M n base, PoolCall.new M ∈ [.new (pageMemory 4096)] ++ [.new (pageMemory 8192)] ∧
        M.1.chunk n = some base ∧ (base : ℤ) ≤ a ∧ a + mn'.nodeSize ≤ base + n) ∧
      ∀ y b, 0 ≤ y → y < mn'.nodeMax → y ≠ x → mn'.data y = some b →
        Apart a mn'.nodeSize b mn'.nodeSize := by
  have hfresh : ([PoolCall.new (pageMemory 4096)] ++ [PoolCall.new (pageMemory 8192)]).Pairwise
      PoolCall.Fresh := by
    refine List.Pairwise.cons ?_ (List.pairwise_singleton _ _)
    intro d hd
    obtain rfl := List.mem_singleton.mp hd
    intro n m a b ha hb
    simp only [pageMemory, Option.ite_none_right_eq_some, Option.some.injEq] at ha hb
    left
    omega
  obtain ⟨o, mn, p, chunks, h1, hp, hm⟩ := (models_init 20 0).new (pageMemory 4096) (by decide)
  have hq : IdPool.call (init 20 0).nodeSize 0 IdPool.empty (.new (pageMemory 4096)) =
      some (0, ⟨nodes 1 7, [0], 8⟩) := rfl
  obtain ⟨-, rfl⟩ := Prod.mk.inj (Option.some.inj (hq.symm.trans hp))
  obtain ⟨o', mn', -, -, h2, -, -⟩ := hm.new (pageMemory 8192) (by decide)
  exact ⟨_, mn, _, mn', h1, h2, nodes_own_memory 20 0 hfresh h1 h2⟩

end IMemNode

end HttpsProxy
