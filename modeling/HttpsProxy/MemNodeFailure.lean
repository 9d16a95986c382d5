import HttpsProxy.MemNodeRuns

/-! An `IMEMNODE` whose arrays are refused memory. `imnode_node_resize` renews
the pointers to the arrays only at its end, and `iv_resize` has freed the array
it has moved: unless the first request is the one refused, the pool goes on with
a pointer to freed memory. -/
namespace HttpsProxy

namespace NodeArrays

theorem resizeAll_ptr (A : ArrayMemory) (size : ℕ) (ks : List (NodeField × ℤ)) (a : NodeArrays) :
    (resizeAll A size ks a).1.ptr = a.ptr := by
  induction ks generalizing a with
  | nil => rfl
  | cons e ks ih =>
    simp only [resizeAll]
    split
    · rfl
    · rw [ih]

theorem resizeAll_other (A : ArrayMemory) (size : ℕ) (ks : List (NodeField × ℤ)) (a : NodeArrays)
    {k : NodeField} (hk : k ∉ ks.map Prod.fst) : (resizeAll A size ks a).1.vec k = a.vec k := by
  induction ks generalizing a with
  | nil => rfl
  | cons e ks ih =>
    rw [List.map_cons, List.mem_cons, not_or] at hk
    simp only [resizeAll]
    split
    · simp only [if_neg hk.1]
    · rw [ih _ hk.2]
      simp only [if_neg hk.1]

/-- If the calls do not all succeed, one of the vectors has been refused a block. -/
theorem resizeAll_refused (A : ArrayMemory) (size : ℕ) (ks : List (NodeField × ℤ)) (a : NodeArrays)
    (hnd : (ks.map Prod.fst).Nodup) (h : (resizeAll A size ks a).2 ≠ 0) :
    ∃ k ∈ ks.map Prod.fst, ((a.vec k).resize (A k) size).2 ≠ 0 := by
  induction ks generalizing a with
  | nil => exact absurd rfl h
  | cons e ks ih =>
    by_cases he : ((a.vec e.1).resize (A e.1) size).2 = 0
    · obtain ⟨hek, hnd⟩ := List.nodup_cons.mp hnd
      simp only [resizeAll, he, ne_eq, not_true_eq_false, if_false] at h
      obtain ⟨k, hk, hr⟩ := ih _ hnd h
      have hke : k ≠ e.1 := fun hke => hek (hke ▸ hk)
      simp only [if_neg hke] at hr
      exact ⟨k, List.mem_cons_of_mem _ hk, hr⟩
    · exact ⟨e.1, List.mem_cons_self, he⟩

theorem resizeAll_code (A : ArrayMemory) (size : ℕ) (ks : List (NodeField × ℤ)) (a : NodeArrays) :
    (resizeAll A size ks a).2 = 0 ∨ (resizeAll A size ks a).2 ∈ ks.map Prod.snd := by
  induction ks generalizing a with
  | nil => exact Or.inl rfl
  | cons e ks ih =>
    simp only [resizeAll]
    split
    · right
      simp
    · rcases ih { a with vec := fun k' => if k' = e.1 then ((a.vec e.1).resize (A e.1) size).1
                                          else a.vec k' } with h | h
      · exact Or.inl h
      · exact Or.inr (List.mem_cons_of_mem _ h)

theorem nodeResize_neg {A : ArrayMemory} {a : NodeArrays} {size : ℤ}
    (h : (a.nodeResize A size).2 ≠ 0) : (a.nodeResize A size).2 < 0 := by
  have hcode := resizeAll_code A (size * 8).toNat resizeOrder a
  have hneg : ∀ c ∈ resizeOrder.map Prod.snd, c < 0 := by decide
  by_cases hne : (resizeAll A (size * 8).toNat resizeOrder a).2 = 0
  · simp [nodeResize, hne] at h
  · simp only [nodeResize, ne_eq, hne, not_false_eq_true, if_true]
    exact hneg _ (hcode.resolve_left hne)

/-- What `imnode_node_resize` leaves when it fails: the arrays as they were, if
the first request has been refused, and else links that are somewhere else than
the pool takes them to be. -/
theorem nodeResize_refused {A : ArrayMemory} {a : NodeArrays} {n size : ℤ} (h : a.Synced n)
    (hr : (a.nodeResize A size).2 ≠ 0) :
    ((A .prev).malloc (nblock (size * 8).toNat) = none ∧ (a.nodeResize A size).1 = a) ∨
      ∃ b, (A .prev).malloc (nblock (size * 8).toNat) = some b ∧
        (a.nodeResize A size).1.ptr .prev = a.ptr .prev ∧
        ((a.nodeResize A size).1.vec .prev).addr = some b.addr := by
  have hall : (resizeAll A (size * 8).toNat resizeOrder a).2 ≠ 0 := by
    intro h0
    simp [nodeResize, h0] at hr
  have hres : (a.nodeResize A size).1 = (resizeAll A (size * 8).toNat resizeOrder a).1 := by
    simp only [nodeResize, if_pos hall]
  obtain ⟨k, -, hk⟩ := resizeAll_refused A _ _ a (by decide) hall
  -- all vectors have the same size and block, so the first one needs a block, too
  have hneeds : (a.vec .prev).NeedsBlock (size * 8).toNat := by
    have hk' := ((IVector.resize_refused_iff _ _ _).mp hk).1
    have hsizes : (a.vec k).size = (a.vec .prev).size := by
      have h1 := (h.live k).size_eq
      have h2 := (h.live .prev).size_eq
      omega
    simpa only [IVector.NeedsBlock, hsizes, h.block_eq k] using hk'
  rw [hres]
  cases hm : (A .prev).malloc (nblock (size * 8).toNat) with
  | none =>
    left
    have hfirst := (IVector.resize_refused_iff _ _ _).mpr ⟨hneeds, hm⟩
    have hsame : ((a.vec .prev).resize (A .prev) (size * 8).toNat).1 = a.vec .prev := by
      rcases IVector.resize_spec (A .prev) (h.live .prev).sound (size * 8).toNat with
        ⟨-, he, -⟩ | ⟨h0, -⟩
      · exact he
      · exact absurd h0 hfirst
    refine ⟨rfl, ?_⟩
    simp only [resizeOrder, resizeAll, if_pos hfirst, hsame]
    have hvec : (fun k' => if k' = NodeField.prev then a.vec .prev else a.vec k') = a.vec := by
      funext k'
      split
      · rename_i hk'
        rw [hk']
      · rfl
    rw [hvec]
  | some b =>
    right
    have hfirst : ((a.vec .prev).resize (A .prev) (size * 8).toNat).2 = 0 := by
      by_contra hne
      have hnone := ((IVector.resize_refused_iff _ _ _).mp hne).2
      rw [hm] at hnone
      cases hnone
    refine ⟨b, rfl, by rw [resizeAll_ptr], ?_⟩
    rw [resizeOrder, resizeAll]
    simp only [hfirst, ne_eq, not_true_eq_false, if_false]
    rw [resizeAll_other _ _ _ _ (by decide)]
    exact IVector.resize_moved hneeds hm

end NodeArrays

namespace IMemNode

open Refinement CellVector

/-- `imnode_del` reads the link back of its node. -/
theorem del_stale {mn : IMemNode} {x : ℤ} (h : mn.arrays.get .prev x = none) : mn.del x = none := by
  unfold del
  split
  · rfl
  · cases hm : mn.arrays.get .mode x with
    | none => rfl
    | some m =>
      simp only [Option.bind_eq_bind, Option.bind_some]
      split
      · rfl
      · cases hn : mn.arrays.get .next x with
        | none => rfl
        | some n => simp only [Option.bind_some, h, Option.bind_none]

/-- Where the arrays of a pool are refused memory, its nodes can be given back
afterwards if and only if the first of the five requests was the one refused.
Otherwise the links have moved and the pointer beside them has not. -/
theorem refused_arrays_harmless_iff (nodesize limit : ℤ) {calls : List PoolCall} {os : List ℤ}
    {mn mn' : IMemNode} (hrun : asked call (init nodesize limit) calls = some (os, mn))
    (hused : 0 < mn.nodeUsed) (hopen : mn.listOpen < 0) (M : GrowMemory)
    (hrefused : (mn.arrays.nodeResize M.arrays (mn.nodeMax + mn.growCount)).2 ≠ 0)
    (hnew : mn.new M = some (mn', -2))
    (hfresh : ∀ n b, (M.arrays .prev).malloc n = some b → mn.arrays.ptr .prev ≠ some b.addr) :
    ((∀ x, x < mn.nodeMax → mn.arrays.get .mode x = some 1 → (mn'.del x).isSome) ↔
        (M.arrays .prev).malloc (nblock ((mn.nodeMax + mn.growCount) * 8).toNat) = none) ∧
      ((M.arrays .prev).malloc (nblock ((mn.nodeMax + mn.growCount) * 8).toNat) ≠ none →
        mn'.arrays.ptr .prev ≠ addr (mn'.arrays.vec .prev)) := by
  obtain ⟨p, chunks, h, -⟩ := (models_init nodesize limit).run hrun
  have hsync := h.holds.synced
  have hneg := NodeArrays.nodeResize_neg hrefused
  -- the node gets nothing but the arrays that the refused resize has left
  have hgrow : mn' = { mn with
      arrays := (mn.arrays.nodeResize M.arrays (mn.nodeMax + mn.growCount)).1 } := by
    have hg : mn.grow M = some ({ mn with
        arrays := (mn.arrays.nodeResize M.arrays (mn.nodeMax + mn.growCount)).1 },
        -10 + (mn.arrays.nodeResize M.arrays (mn.nodeMax + mn.growCount)).2) := by
      simp only [grow, if_pos hrefused]
    have hne : -10 + (mn.arrays.nodeResize M.arrays (mn.nodeMax + mn.growCount)).2 ≠ 0 := by omega
    simp only [new, if_pos hopen, hg, Option.bind_some, if_pos hne] at hnew
    exact ((Prod.mk.inj (Option.some.inj hnew)).1).symm
  -- either the first array is refused and all stay, or `prev` has moved and its pointer is stale
  rcases NodeArrays.nodeResize_refused hsync hrefused with ⟨hnone, hsame⟩ | ⟨b, hb, hptr, haddr⟩
  · refine ⟨iff_of_true ?_ hnone, fun hne => absurd hnone hne⟩
    intro x hx hmode
    -- nothing has changed, so a node in use can be deleted as before
    have hmn : mn' = mn := by
      rw [hgrow, hsame]
    have hx0 : 0 ≤ x := by
      by_contra hlt
      have hload : mn.arrays.get .mode x = none := by
        unfold NodeArrays.get load
        split
        · rfl
        · exact if_neg fun hc => hlt hc.2.1
      rw [hload] at hmode
      cases hmode
    rw [NodeArrays.get_eq hsync hx0 hx] at hmode
    have hxu : x ∈ p.used := by
      refine ((h.holds.mem_iff x).mp ⟨hx0, hx⟩).resolve_left ?_
      intro hxf
      rw [h.holds.free x hxf] at hmode
      cases hmode
    obtain ⟨a, l, hdel, -⟩ := del_spec h.holds hxu
    rw [hmn, hdel]
    rfl
  · have hmoved : mn'.arrays.ptr .prev ≠ addr (mn'.arrays.vec .prev) := by
      rw [hgrow, hptr, haddr]
      exact hfresh _ b hb
    refine ⟨iff_of_false ?_ (by rw [hb]; exact Option.some_ne_none b), fun _ => hmoved⟩
    intro hall
    have hcount := h.holds.nodeUsed_eq
    -- some node is in use, and deleting it reads through the stale pointer
    obtain ⟨x, hx⟩ := List.exists_mem_of_length_pos (l := p.used) (by omega)
    obtain ⟨hx0, hxm⟩ := h.holds.range_closed hx
    have hmode : mn.arrays.get .mode x = some 1 := by
      rw [NodeArrays.get_eq hsync hx0 hxm, h.holds.used x hx]
    have hstale : mn'.arrays.get .prev x = none := by
      unfold NodeArrays.get load
      split
      · rfl
      · rename_i c hc
        refine if_neg fun hh => hmoved (hh.1.trans ?_)
        rw [addr, hc, Option.map_some]
    have hsome := hall x hxm hmode
    rw [del_stale hstale] at hsome
    cases hsome

/-- Memory for all but the second of the five arrays. -/
def noNext : GrowMemory where
  arrays k := if k = .next then { malloc := fun _ => none, length_cells := by simp } else zeroCells 512
  chunks := zeroCells 2048
  chunk _ := none
  back _ := zeroCells 1024

/-- A pool that may grow by one node at a time, and has one. -/
def oneNode : IMemNode :=
  ((asked call (init 20 1) [.new (pageMemory 4096)]).map Prod.snd).getD (init 20 1)

/-- The same pool after the next `imnode_new` has not got memory for its links. -/
def tornNode : IMemNode := ((oneNode.new noNext).map Prod.fst).getD oneNode

theorem refused_arrays_harmless_iff_next :
    (¬∀ x, x < oneNode.nodeMax → oneNode.arrays.get .mode x = some 1 → (tornNode.del x).isSome) ∧
      tornNode.arrays.ptr .prev ≠ addr (tornNode.arrays.vec .prev) := by
  have hfst : (asked call (init 20 1) [.new (pageMemory 4096)]).map Prod.fst = some [0] := by
    decide +kernel
  have hsnd : (oneNode.new noNext).map Prod.snd = some (-2) := by decide +kernel
  have hrun : asked call (init 20 1) [.new (pageMemory 4096)] = some ([0], oneNode) := by
    obtain ⟨r, hr, h0⟩ := Option.map_eq_some_iff.mp hfst
    rw [hr, ← h0, oneNode, hr]
    rfl
  have hnew : oneNode.new noNext = some (tornNode, -2) := by
    obtain ⟨r, hr, h0⟩ := Option.map_eq_some_iff.mp hsnd
    rw [hr, ← h0, tornNode, hr]
    rfl
  have hptr : oneNode.arrays.ptr .prev = some 64 := by decide +kernel
  have hfresh : ∀ n b, (noNext.arrays .prev).malloc n = some b → oneNode.arrays.ptr .prev ≠ some b.addr := by
    intro n b hb
    have hb' : b = ⟨512, List.replicate (n / 8) 0⟩ := (Option.some.inj hb).symm
    rw [hptr, hb']
    simp
  obtain ⟨hdel, hstale⟩ := refused_arrays_harmless_iff 20 1 hrun (by decide +kernel) (by decide +kernel)
    noNext (by decide +kernel) hnew hfresh
  -- the second request is refused, the first is not
  have hfirst : (noNext.arrays .prev).malloc (nblock ((oneNode.nodeMax + oneNode.growCount) * 8).toNat) ≠
      none := Option.some_ne_none _
  exact ⟨fun hall => hfirst (hdel.mp hall), hstale hfirst⟩

theorem mapM_some {α β : Type} {f : α → Option β} {g : α → β} {l : List α}
    (h : ∀ a ∈ l, f a = some (g a)) : l.mapM f = some (l.map g) := by
  induction l with
  | nil => rfl
  | cons a l ih =>
    rw [List.mapM_cons, h a List.mem_cons_self, ih fun b hb => h b (List.mem_cons_of_mem _ hb)]
    rfl

/-- `imnode_destroy` finds its chunks in `mmem`. -/
theorem Stocked.loads {n : ℤ} {mn : IMemNode} {chunks : List MemChunk} (h : Stocked n mn chunks) :
    (List.range mn.memCount.toNat).mapM (fun (i : ℕ) => mn.vmem.load mn.mmem i) =
      some (chunks.map fun c => (c.addr : ℤ)) := by
  have hcount := h.count_eq
  have hle := h.count_le
  have hmap := mapM_some (f := fun i : ℕ => mn.vmem.load mn.mmem i) (g := fun i : ℕ => mn.vmem.cell i)
    (l := List.range mn.memCount.toNat) (by
      intro i hi
      have hlt := List.mem_range.mp hi
      exact load_eq (h.live.acc (Int.natCast_nonneg i) (by omega)))
  rw [hmap]
  congr 1
  apply List.ext_getElem
  · simp only [List.length_map, List.length_range]
    omega
  · intro i h1 h2
    simp only [List.length_map] at h2
    simp only [List.getElem_map, List.getElem_range]
    exact h.cells i _ (List.getElem?_eq_getElem h2)

/-- A pool without nodes, which may still have the list for its chunks. -/
theorem models_empty {nodesize limit : ℤ} {mn : IMemNode} (h : SameNodes (init nodesize limit) mn)
    (hcount : mn.memCount = 0) (hlive : Live mn.vmem mn.mmem mn.memMax) (hmax : 0 ≤ mn.memMax) :
    Models (init nodesize limit).nodeSize limit [] mn IdPool.empty [] := by
  have hi := models_init nodesize limit
  have hzero : mn.nodeMax = 0 := h.nodeMax
  have hholds := HoldsOn.sameNodes hi.holds h
  refine ⟨?_, ⟨?_, hlive, hcount, by omega, ?_, ?_⟩, hzero, h.growLimit.trans hi.limit_eq,
    h.nodeSize.trans hi.size_eq, hi.given⟩
  · unfold Holds
    rw [h.nodeMax]
    exact hholds
  · rw [h.nodeSize]
    exact hi.stocked.size_pos
  · intro i c hc
    simp at hc
  · intro y h0 hy
    omega

/-- `imnode_destroy` gives back the chunks, and other memory, and leaves no node. -/
theorem Models.destroy {nodesize limit : ℤ} {past : List PoolCall} {mn : IMemNode} {p : IdPool}
    {chunks : List MemChunk} (h : Models (init nodesize limit).nodeSize limit past mn p chunks) :
    ∃ mn' rest, mn.destroy = some (mn', chunks.map MemChunk.addr ++ rest) ∧
      Models (init nodesize limit).nodeSize limit [] mn' IdPool.empty [] := by
  have hcount := h.stocked.count_eq
  have hle := h.stocked.count_le
  have haddrs : (chunks.map fun c => (c.addr : ℤ)).map Int.toNat = chunks.map MemChunk.addr := by
    simp [List.map_map, Function.comp_def]
  simp only [IMemNode.destroy, h.stocked.loads, Option.bind_eq_bind, Option.bind_some, haddrs,
    List.append_assoc]
  by_cases hpos : 0 < mn.memCount
  · simp only [if_pos hpos]
    exact ⟨_, _, rfl, models_empty ⟨rfl, rfl, rfl, rfl, h.limit_eq, h.size_eq, rfl, rfl⟩ rfl
      ⟨IVector.sound_init, rfl, rfl⟩ le_rfl⟩
  · simp only [if_neg hpos]
    refine ⟨_, _, rfl, models_empty ⟨rfl, rfl, rfl, rfl, h.limit_eq, h.size_eq, rfl, rfl⟩ ?_
      h.stocked.live ?_⟩
    · change mn.memCount = 0
      omega
    · change 0 ≤ mn.memMax
      omega

/-- A destroyed pool answers like a new one, and the memory of all its nodes is
given back. -/
theorem destroy_renews (nodesize limit : ℤ) {calls : List PoolCall} {os : List ℤ} {mn : IMemNode}
    (hrun : asked call (init nodesize limit) calls = some (os, mn)) :
    ∃ mn' freed, mn.destroy = some (mn', freed) ∧
      (∀ x a, 0 ≤ x → x < mn.nodeMax → mn.data x = some a → ∃ M n, ∃ base ∈ freed,
        PoolCall.new M ∈ calls ∧ M.1.chunk n = some base ∧ (base : ℤ) ≤ a ∧
          a + mn.nodeSize ≤ base + (n : ℕ)) ∧
      ∀ later, (asked call mn' later).map Prod.fst =
        (asked call (init nodesize limit) later).map Prod.fst := by
  obtain ⟨p, chunks, h, -⟩ := (models_init nodesize limit).run hrun
  rw [List.nil_append] at h
  -- what is left models the empty pool again, as `init` does
  obtain ⟨mn', rest, hd, hm⟩ := h.destroy
  refine ⟨mn', _, hd, ?_, ?_⟩
  · intro x a h0 hx ha
    obtain rfl := Option.some.inj ((NodeArrays.get_eq h.holds.synced h0 hx .data).symm.trans ha)
    obtain ⟨c, hc, M, hM, hM', h1, h2⟩ := h.inside h0 hx
    exact ⟨M, _, c.addr, List.mem_append_left _ (List.mem_map_of_mem hc), hM, hM', h1, h2⟩
  · intro later
    exact (matches_pool _ limit).agree ⟨[], [], hm⟩ ⟨[], [], models_init nodesize limit⟩ later

theorem destroy_renews_one : ∃ os mn mn' freed,
    asked call (init 20 0) [.new (pageMemory 4096)] = some (os, mn) ∧
    mn.destroy = some (mn', freed) ∧
      (∀ x a, 0 ≤ x → x < mn.nodeMax → mn.data x = some a → ∃ M n, ∃ base ∈ freed,
        PoolCall.new M ∈ [.new (pageMemory 4096)] ∧ M.1.chunk n = some base ∧ (base : ℤ) ≤ a ∧
          a + mn.nodeSize ≤ base + (n : ℕ)) ∧
      ∀ later, (asked call mn' later).map Prod.fst =
        (asked call (init 20 0) later).map Prod.fst := by
  obtain ⟨o, mn, p, chunks, hrun, -⟩ := (models_init 20 0).new (pageMemory 4096) (by decide)
  obtain ⟨mn', freed, hd⟩ := destroy_renews 20 0 hrun
  exact ⟨_, mn, mn', freed, hrun, hd⟩

end IMemNode

end HttpsProxy
