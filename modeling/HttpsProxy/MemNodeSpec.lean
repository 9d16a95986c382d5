import HttpsProxy.Links
import HttpsProxy.MemNode

/-! What the operations of an `IMEMNODE` do to its two lists of nodes, as long as
its arrays are where it takes them to be. -/
namespace HttpsProxy

namespace CellVector

/-- `array[i]` is a cell of the vector. -/
def Acc (v : CellVector) (array : Option ℕ) (i : ℤ) : Prop :=
  ∃ b, v.data = some b ∧ array = some b.addr ∧ 0 ≤ i ∧ i < b.cells.length

theorem load_eq {v : CellVector} {m : Option ℕ} {i : ℤ} (h : v.Acc m i) :
    v.load m i = some (v.cell i) := by
  obtain ⟨b, hb, hm⟩ := h
  simp only [load, hb, if_pos hm]

theorem store_eq {v : CellVector} {m : Option ℕ} {i : ℤ} (h : v.Acc m i) (x : ℤ) :
    v.store m i x = some (v.put i x) := by
  obtain ⟨b, hb, hm⟩ := h
  simp only [store, hb, if_pos hm]

theorem cell_put {v : CellVector} {m : Option ℕ} {i j : ℤ} (h : v.Acc m i) (hj : 0 ≤ j) (x : ℤ) :
    (v.put i x).cell j = if j = i then x else v.cell j := by
  obtain ⟨b, hb, -, hi, hl⟩ := h
  have hij : j.toNat = i.toNat ↔ j = i := by omega
  have hlt : i.toNat < b.cells.length := by omega
  simp only [cell, put, hb, List.getD_eq_getElem?_getD, List.getElem?_set]
  grind

theorem block_put (v : CellVector) (i x : ℤ) : (v.put i x).block = v.block := by
  cases hb : v.data with
  | none => simp only [put, hb]
  | some b => simp only [put, hb]

/-- The vector has room for `n` cells, and `m` is where they are. -/
structure Live (v : CellVector) (m : Option ℕ) (n : ℤ) : Prop where
  sound : v.Sound
  size_eq : (v.size : ℤ) = 8 * n
  addr_eq : m = v.addr

theorem Live.acc {v : CellVector} {m : Option ℕ} {n i : ℤ} (h : Live v m n) (hi : 0 ≤ i)
    (hin : i < n) : v.Acc m i := by
  have hs := h.size_eq
  have hle := h.sound.size_le
  cases hb : v.data with
  | none =>
    have h0 := h.sound.data_none.mp hb
    omega
  | some b =>
    have hl := h.sound.length_cells b hb
    refine ⟨b, hb, ?_, hi, by omega⟩
    rw [h.addr_eq, addr, hb]
    rfl

theorem Live.put {v : CellVector} {m : Option ℕ} {n : ℤ} (h : Live v m n) (i x : ℤ) :
    Live (v.put i x) m n := by
  have hs := h.sound
  cases hb : v.data with
  | none => simpa only [CellVector.put, hb] using h
  | some b =>
    refine ⟨⟨?_, ?_, ?_, ?_⟩, ?_, ?_⟩
    · simpa [CellVector.put, hb] using hs.data_none
    · simpa [CellVector.put, hb] using hs.block_power
    · intro b' hb'
      simp only [CellVector.put, hb, Option.some.injEq] at hb'
      subst hb'
      simpa [CellVector.put, hb] using hs.length_cells b hb
    · simpa [CellVector.put, hb] using hs.size_le
    · simpa [CellVector.put, hb] using h.size_eq
    · simpa [CellVector.put, hb, addr] using h.addr_eq

/-- A vector that gets what it asks for keeps the cells that still have room. -/
theorem Live.resize {A : Allocator 8 ℤ} (hA : A.Grants) {v : CellVector} {m : Option ℕ} {n k : ℤ}
    (h : Live v m n) (hk : 0 ≤ k) :
    (IVector.resize A v (k * 8).toNat).2 = 0 ∧
      Live (IVector.resize A v (k * 8).toNat).1 (addr (IVector.resize A v (k * 8).toNat).1) k ∧
      ∀ i, 0 ≤ i → i < n → i < k →
        cell (IVector.resize A v (k * 8).toNat).1 i = v.cell i := by
  rcases IVector.resize_spec A h.sound (k * 8).toNat with ⟨-, -, hm, -⟩ | ⟨h0, hs, hsize, ht⟩
  · have hg := hA (nblock (k * 8).toNat)
    simp [hm] at hg
  · refine ⟨h0, ⟨hs, by omega, rfl⟩, ?_⟩
    intro i hi hin hik
    have hcell : ∀ u : CellVector, i.toNat < u.size / 8 → u.cell i = u.contents.getD i.toNat 0 := by
      intro u hu
      cases hd : u.data with
      | none => simp [cell, IVector.contents, hd]
      | some b =>
        simp only [cell, IVector.contents, hd, List.getD_eq_getElem?_getD]
        rw [List.getElem?_take_of_lt hu]
    have hsz := h.size_eq
    have hlt : i.toNat < v.size / 8 := by omega
    have hlt' : i.toNat < (k * 8).toNat / 8 := by omega
    have he := congrArg (fun l : List ℤ => l.getD i.toNat 0) ht
    simp only [List.getD_eq_getElem?_getD, List.getElem?_take_of_lt hlt,
      List.getElem?_take_of_lt hlt'] at he
    rw [hcell _ (by omega), hcell v hlt]
    simpa only [List.getD_eq_getElem?_getD] using he

end CellVector

namespace NodeArrays

open CellVector

/-- The arrays are where the pool takes them to be, with room for `n` nodes, and
their blocks are of one length. -/
structure Synced (a : NodeArrays) (n : ℤ) : Prop where
  live : ∀ k, Live (a.vec k) (a.ptr k) n
  block_eq : ∀ k, (a.vec k).block = (a.vec .prev).block

theorem get_eq {a : NodeArrays} {n i : ℤ} (h : a.Synced n) (hi : 0 ≤ i) (hn : i < n) (k : NodeField) :
    a.get k i = some (a.entry k i) :=
  load_eq ((h.live k).acc hi hn)

theorem set_spec {a : NodeArrays} {n i : ℤ} (h : a.Synced n) (hi : 0 ≤ i) (hn : i < n)
    (k : NodeField) (x : ℤ) :
    ∃ a', a.set k i x = some a' ∧ a'.Synced n ∧
      ∀ k' j, 0 ≤ j → a'.entry k' j = if k' = k ∧ j = i then x else a.entry k' j := by
  have hacc := (h.live k).acc hi hn
  have hblock : ∀ k', (if k' = k then (a.vec k).put i x else a.vec k').block = (a.vec k').block := by
    intro k'
    split
    · rename_i hk
      rw [hk]
      exact block_put _ _ _
    · rfl
  refine ⟨{ a with vec := fun k' => if k' = k then (a.vec k).put i x else a.vec k' },
    by simp only [set, store_eq hacc, Option.map_some], ⟨?_, ?_⟩, ?_⟩
  · intro k'
    by_cases hk : k' = k
    · subst hk
      simpa using (h.live k').put i x
    · simpa [hk] using h.live k'
  · intro k'
    rw [hblock, hblock]
    exact h.block_eq k'
  · intro k' j hj
    by_cases hk : k' = k
    · subst hk
      simpa [entry] using cell_put hacc hj x
    · simp [entry, hk]

theorem setPrevIf_spec {a : NodeArrays} {n i : ℤ} (h : a.Synced n) (hn : i < n) (x : ℤ) :
    ∃ a', a.setPrevIf i x = some a' ∧ a'.Synced n ∧
      ∀ k' j, 0 ≤ j → a'.entry k' j = if k' = .prev ∧ j = i then x else a.entry k' j := by
  by_cases hi : 0 ≤ i
  · obtain ⟨a', ha, hs, he⟩ := set_spec h hi hn .prev x
    exact ⟨a', by rw [setPrevIf, if_pos hi, ha], hs, he⟩
  · refine ⟨a, by rw [setPrevIf, if_neg hi], h, ?_⟩
    intro k' j hj
    rw [if_neg (by omega)]

theorem resizeAll_granted {A : ArrayMemory} (hA : ∀ k, (A k).Grants) (size : ℕ)
    (ks : List (NodeField × ℤ)) (hnd : (ks.map Prod.fst).Nodup) (a : NodeArrays)
    (hs : ∀ k, (a.vec k).Sound) :
    (resizeAll A size ks a).2 = 0 ∧ (resizeAll A size ks a).1.ptr = a.ptr ∧
      ∀ k, (resizeAll A size ks a).1.vec k =
        if k ∈ ks.map Prod.fst then ((a.vec k).resize (A k) size).1 else a.vec k := by
  induction ks generalizing a with
  | nil => exact ⟨rfl, rfl, fun k => by simp [resizeAll]⟩
  | cons e ks ih =>
    obtain ⟨hk, hnd⟩ := List.nodup_cons.mp hnd
    have h0 := IVector.resize_granted (hA e.1) (hs e.1) size
    have hsound : ((a.vec e.1).resize (A e.1) size).1.Sound := by
      rcases IVector.resize_spec (A e.1) (hs e.1) size with ⟨hne, -⟩ | ⟨-, hs', -⟩
      · exact absurd h0 hne
      · exact hs'
    have hstep : resizeAll A size (e :: ks) a = resizeAll A size ks
        { a with vec := fun k' => if k' = e.1 then ((a.vec e.1).resize (A e.1) size).1
                                  else a.vec k' } := by
      simp only [resizeAll, h0, ne_eq, not_true_eq_false, if_false]
    rw [hstep]
    obtain ⟨hr, hp, hv⟩ := ih hnd { a with
      vec := fun k' => if k' = e.1 then ((a.vec e.1).resize (A e.1) size).1 else a.vec k' } (by
        intro k
        by_cases hke : k = e.1
        · simpa [hke] using hsound
        · simpa [hke] using hs k)
    refine ⟨hr, hp, ?_⟩
    intro k
    rw [hv k]
    by_cases hke : k = e.1
    · subst hke
      simp [hk]
    · simp only [List.map_cons, List.mem_cons, hke, false_or, if_false]

/-- With memory for all five arrays they are renewed, and their entries kept. -/
theorem nodeResize_granted {A : ArrayMemory} (hA : ∀ k, (A k).Grants) {a : NodeArrays} {n size : ℤ}
    (h : a.Synced n) (hsize : 0 ≤ size) :
    (a.nodeResize A size).2 = 0 ∧ (a.nodeResize A size).1.Synced size ∧
      ∀ k i, 0 ≤ i → i < n → i < size →
        (a.nodeResize A size).1.entry k i = a.entry k i := by
  obtain ⟨h0, -, hv⟩ := resizeAll_granted hA (size * 8).toNat resizeOrder (by decide) a
    fun k => (h.live k).sound
  have hvec : ∀ k, (resizeAll A (size * 8).toNat resizeOrder a).1.vec k =
      ((a.vec k).resize (A k) (size * 8).toNat).1 := by
    intro k
    rw [hv k, if_pos (by cases k <;> decide)]
  simp only [nodeResize, h0, ne_eq, not_true_eq_false, if_false]
  refine ⟨trivial, ⟨?_, ?_⟩, ?_⟩
  · intro k
    have hl := ((h.live k).resize (hA k) hsize).2.1
    rw [← hvec] at hl
    exact hl
  · intro k
    have hsizes : (a.vec k).size = (a.vec .prev).size := by
      have h1 := (h.live k).size_eq
      have h2 := (h.live .prev).size_eq
      omega
    have hb : ∀ k, ((a.vec k).resize (A k) (size * 8).toNat).2 = 0 := fun k =>
      ((h.live k).resize (hA k) hsize).1
    change ((resizeAll A (size * 8).toNat resizeOrder a).1.vec k).block =
      ((resizeAll A (size * 8).toNat resizeOrder a).1.vec .prev).block
    rw [hvec, hvec, IVector.resize_block _ _ _ (hb k), IVector.resize_block _ _ _ (hb .prev), hsizes,
      h.block_eq k]
  · intro k i hi hin hik
    simp only [entry, hvec]
    exact ((h.live k).resize (hA k) hsize).2.2 i hi hin hik

end NodeArrays

namespace IMemNode

open Links

/-- `opened` and `closed` are the two lists of the pool, both doubly linked. They
share no node and together have the nodes of which `s` says that they are in. -/
structure HoldsOn (s : ℤ → Prop) (mn : IMemNode) (opened closed : List ℤ) : Prop where
  synced : mn.arrays.Synced mn.nodeMax
  opens : Doubly (mn.arrays.entry .next) (mn.arrays.entry .prev) (-1) (-1) mn.listOpen opened
  closes : Doubly (mn.arrays.entry .next) (mn.arrays.entry .prev) (-1) (-1) mn.listClose closed
  range : ∀ i, s i → 0 ≤ i ∧ i < mn.nodeMax
  mem_iff : ∀ i, s i ↔ i ∈ opened ∨ i ∈ closed
  apart : ∀ i ∈ opened, i ∉ closed
  free : ∀ i ∈ opened, mn.arrays.entry .mode i = 0
  used : ∀ i ∈ closed, mn.arrays.entry .mode i = 1
  nodeFree_eq : mn.nodeFree = opened.length
  nodeUsed_eq : mn.nodeUsed = closed.length

/-- All nodes are in. -/
def Holds (mn : IMemNode) (opened closed : List ℤ) : Prop :=
  HoldsOn (fun i => 0 ≤ i ∧ i < mn.nodeMax) mn opened closed

section

variable {s : ℤ → Prop} {mn : IMemNode} {opened closed : List ℤ} {x : ℤ}

theorem HoldsOn.range_open (h : HoldsOn s mn opened closed) (hx : x ∈ opened) :
    0 ≤ x ∧ x < mn.nodeMax :=
  h.range x ((h.mem_iff x).mpr (Or.inl hx))

theorem HoldsOn.range_closed (h : HoldsOn s mn opened closed) (hx : x ∈ closed) :
    0 ≤ x ∧ x < mn.nodeMax :=
  h.range x ((h.mem_iff x).mpr (Or.inr hx))

theorem HoldsOn.max_nonneg (h : HoldsOn s mn opened closed) : 0 ≤ mn.nodeMax := by
  have hs := (h.synced.live .prev).size_eq
  omega

/-- The first node of a list, or -1. -/
theorem first_lt {b p n : ℤ} {xs : List ℤ} {next prev : ℤ → ℤ} (h : Doubly next prev (-1) b p xs)
    (hn : 0 ≤ n) (hr : ∀ x ∈ xs, 0 ≤ x ∧ x < n) : p < n ∧ (p ≠ -1 → p ∈ xs) := by
  cases xs with
  | nil =>
    have hp : p = -1 := h
    exact ⟨by omega, fun hne => absurd hp hne⟩
  | cons x xs =>
    have hp : p = x := h.1
    subst hp
    exact ⟨(hr p List.mem_cons_self).2, fun _ => List.mem_cons_self⟩

/-- `imnode_new` hands out the first node of the open list. -/
theorem take_spec (h : HoldsOn s mn (x :: opened) closed) :
    ∃ a, mn.take = some ({ mn with
        arrays := a, listOpen := mn.arrays.entry .next x, listClose := x,
        nodeFree := mn.nodeFree - 1, nodeUsed := mn.nodeUsed + 1 }, x) ∧
      HoldsOn s { mn with
        arrays := a, listOpen := mn.arrays.entry .next x, listClose := x,
        nodeFree := mn.nodeFree - 1, nodeUsed := mn.nodeUsed + 1 } opened (x :: closed) ∧
      ∀ i, 0 ≤ i → a.entry .data i = mn.arrays.entry .data i := by
  have hx : mn.listOpen = x := h.opens.1
  obtain ⟨hx0, hxm⟩ := h.range_open List.mem_cons_self
  have hxo : x ∉ opened := (List.nodup_cons.mp h.opens.chain.nodup).1
  have hxc : x ∉ closed := h.apart x List.mem_cons_self
  have hro : ∀ y ∈ opened, 0 ≤ y ∧ y < mn.nodeMax := fun y hy =>
    h.range_open (List.mem_cons_of_mem _ hy)
  have hap : ∀ y ∈ opened, y ∉ closed := fun y hy => h.apart y (List.mem_cons_of_mem _ hy)
  have hfree := h.nodeFree_eq
  have hused := h.nodeUsed_eq
  rw [List.length_cons] at hfree
  obtain ⟨hnext_lt, hnext⟩ := first_lt h.opens.2.2.2 h.max_nonneg hro
  obtain ⟨hclose_lt, hclose⟩ := first_lt h.closes h.max_nonneg fun y hy => h.range_closed hy
  -- the five assignments, one after the other
  obtain ⟨a1, e1, s1, t1⟩ := NodeArrays.setPrevIf_spec h.synced hnext_lt (-1)
  obtain ⟨a2, e2, s2, t2⟩ := NodeArrays.set_spec s1 hx0 hxm .prev (-1)
  obtain ⟨a3, e3, s3, t3⟩ := NodeArrays.set_spec s2 hx0 hxm .next mn.listClose
  obtain ⟨a4, e4, s4, t4⟩ := NodeArrays.setPrevIf_spec s3 hclose_lt x
  obtain ⟨a5, e5, s5, t5⟩ := NodeArrays.set_spec s4 hx0 hxm .mode 1
  -- neither guard of the source stops: the open list is not empty, and `nodeFree` counts it
  have hgo : ¬ (x < 0 ∨ mn.nodeFree ≤ 0) := by omega
  -- where two of the assignments write the same entry, the later one wins
  have hnext' : ∀ y, 0 ≤ y → a5.entry .next y =
      if y = x then mn.listClose else mn.arrays.entry .next y := by
    intro y hy
    simp [t5 _ _ hy, t4 _ _ hy, t3 _ _ hy, t2 _ _ hy, t1 _ _ hy]
  have hprev' : ∀ y, 0 ≤ y → a5.entry .prev y = if y = mn.listClose then x else
      if y = x then -1 else if y = mn.arrays.entry .next x then -1 else mn.arrays.entry .prev y := by
    intro y hy
    simp [t5 _ _ hy, t4 _ _ hy, t3 _ _ hy, t2 _ _ hy, t1 _ _ hy]
  have hmode' : ∀ y, 0 ≤ y → a5.entry .mode y = if y = x then 1 else mn.arrays.entry .mode y := by
    intro y hy
    simp [t5 _ _ hy, t4 _ _ hy, t3 _ _ hy, t2 _ _ hy, t1 _ _ hy]
  refine ⟨a5, ?_, ⟨s5, ?_, ?_, h.range, ?_, ?_, ?_, ?_, ?_, ?_⟩, ?_⟩
  · simp only [take, hx, if_neg hgo, NodeArrays.get_eq h.synced hx0 hxm, Option.bind_eq_bind,
      Option.bind_some, e1, e2, e3, e4, e5]
  -- the open list without its head, then the closed one with `x` in front
  · refine h.opens.pop ?_ ?_ ?_
    · intro y hy
      rw [hnext' y (hro y hy).1, if_neg (by rintro rfl; exact hxo hy)]
    · intro hne
      have hin := hnext hne
      have h0 := (hro _ hin).1
      rw [hprev' _ h0, if_neg (by intro he; exact hap _ hin (he ▸ hclose (by omega)))]
      simp
    · intro y hy hyn
      have h0 := (hro y hy).1
      rw [hprev' y h0, if_neg (by rintro rfl; exact hap _ hy (hclose (by omega))),
        if_neg (by rintro rfl; exact hxo hy), if_neg hyn]
  · refine h.closes.push (show x ≠ -1 by omega) ?_ ?_ ?_ ?_ ?_
    · rw [hnext' x hx0, if_pos rfl]
    · rw [hprev' x hx0, if_neg (by intro he; exact hxc (he ▸ hclose (by omega))), if_pos rfl]
    · intro hne
      rw [hprev' _ (h.range_closed (hclose hne)).1, if_pos rfl]
    · intro y hy
      rw [hnext' y (h.range_closed hy).1, if_neg (by rintro rfl; exact hxc hy)]
    · intro y hy hyc
      have h0 := (h.range_closed hy).1
      rw [hprev' y h0, if_neg hyc, if_neg (by rintro rfl; exact hxc hy),
        if_neg (by rintro rfl; exact hap _ (hnext (by omega)) hy)]
  · intro i
    rw [h.mem_iff]
    simp only [List.mem_cons]
    tauto
  · intro i hi
    rw [List.mem_cons, not_or]
    exact ⟨by rintro rfl; exact hxo hi, hap i hi⟩
  · intro i hi
    rw [hmode' i (hro i hi).1, if_neg (by rintro rfl; exact hxo hi)]
    exact h.free i (List.mem_cons_of_mem _ hi)
  · intro i hi
    rcases List.mem_cons.mp hi with rfl | hi
    · rw [hmode' i hx0, if_pos rfl]
    · rw [hmode' i (h.range_closed hi).1, if_neg (by intro he; exact hxc (he ▸ hi))]
      exact h.used i hi
  · change mn.nodeFree - 1 = _
    omega
  · change mn.nodeUsed + 1 = _
    rw [List.length_cons]
    omega
  · intro i hi
    simp [t5 _ _ hi, t4 _ _ hi, t3 _ _ hi, t2 _ _ hi, t1 _ _ hi]

/-- `imnode_del` takes a node in use out of the closed list, wherever it stands
there, and puts it in front of the open one. -/
theorem del_spec (h : HoldsOn s mn opened closed) (hx : x ∈ closed) :
    ∃ a l, mn.del x = some { mn with
        arrays := a, listOpen := x, listClose := l,
        nodeFree := mn.nodeFree + 1, nodeUsed := mn.nodeUsed - 1 } ∧
      HoldsOn s { mn with
        arrays := a, listOpen := x, listClose := l,
        nodeFree := mn.nodeFree + 1, nodeUsed := mn.nodeUsed - 1 } (x :: opened) (closed.erase x) ∧
      ∀ i, 0 ≤ i → a.entry .data i = mn.arrays.entry .data i := by
  obtain ⟨hx0, hxm⟩ := h.range_closed hx
  have hxo : x ∉ opened := fun hin => h.apart x hin hx
  have hnd := h.closes.chain.nodup
  have hmem : ∀ y, y ∈ closed.erase x ↔ y ≠ x ∧ y ∈ closed := fun y => hnd.mem_erase_iff
  have hlen := List.length_erase_of_mem hx
  have hpos := List.length_pos_of_mem hx
  have hfree := h.nodeFree_eq
  have hused := h.nodeUsed_eq
  -- the neighbours are read before anything is written, as the source does
  obtain ⟨next, hnext⟩ : ∃ n, n = mn.arrays.entry .next x := ⟨_, rfl⟩
  obtain ⟨prev, hprev⟩ : ∃ n, n = mn.arrays.entry .prev x := ⟨_, rfl⟩
  obtain ⟨hn, hp⟩ := h.closes.neighbours hx
  rw [← hnext] at hn
  rw [← hprev] at hp
  have hnl : next < mn.nodeMax := by
    rcases hn with hn | hn
    · have := h.max_nonneg
      omega
    · exact (h.range_closed hn).2
  have hpl : prev < mn.nodeMax := by
    rcases hp with ⟨-, hp⟩ | ⟨-, hp⟩
    · have := h.max_nonneg
      omega
    · exact (h.range_closed hp).2
  -- only the head of the closed list has no predecessor, so the source's
  -- test for one is a test for the head
  have hp0 : 0 ≤ prev ↔ x ≠ mn.listClose := by
    rcases hp with ⟨hc, hp⟩ | ⟨hc, hp⟩
    · simp [hc, hp]
    · simp [hc, (h.range_closed hp).1]
  obtain ⟨hopen_lt, hopen⟩ := first_lt h.opens h.max_nonneg fun y hy => h.range_open hy
  -- the six assignments, one after the other
  obtain ⟨a1, e1, s1, t1⟩ := NodeArrays.setPrevIf_spec h.synced hnl prev
  obtain ⟨a2, e2, s2, t2⟩ : ∃ a2, (if 0 ≤ prev then a1.set .next prev next else some a1) = some a2 ∧
      a2.Synced mn.nodeMax ∧ ∀ k j, 0 ≤ j →
        a2.entry k j = if k = .next ∧ j = prev then next else a1.entry k j := by
    by_cases h0 : 0 ≤ prev
    · rw [if_pos h0]
      exact NodeArrays.set_spec s1 h0 hpl .next next
    · refine ⟨a1, if_neg h0, s1, ?_⟩
      intro k j hj
      rw [if_neg (by omega)]
  obtain ⟨a3, e3, s3, t3⟩ := NodeArrays.set_spec s2 hx0 hxm .prev (-1)
  obtain ⟨a4, e4, s4, t4⟩ := NodeArrays.set_spec s3 hx0 hxm .next mn.listOpen
  obtain ⟨a5, e5, s5, t5⟩ := NodeArrays.setPrevIf_spec s4 hopen_lt x
  obtain ⟨a6, e6, s6, t6⟩ := NodeArrays.set_spec s5 hx0 hxm .mode 0
  -- where two of the assignments write the same entry, the later one wins
  have hnext' : ∀ y, 0 ≤ y → a6.entry .next y =
      if y = x then mn.listOpen else if y = prev then next else mn.arrays.entry .next y := by
    intro y hy
    simp [t6 _ _ hy, t5 _ _ hy, t4 _ _ hy, t3 _ _ hy, t2 _ _ hy, t1 _ _ hy]
  have hprev' : ∀ y, 0 ≤ y → a6.entry .prev y = if y = mn.listOpen then x else
      if y = x then -1 else if y = next then prev else mn.arrays.entry .prev y := by
    intro y hy
    simp [t6 _ _ hy, t5 _ _ hy, t4 _ _ hy, t3 _ _ hy, t2 _ _ hy, t1 _ _ hy]
  have hmode' : ∀ y, 0 ≤ y → a6.entry .mode y = if y = x then 0 else mn.arrays.entry .mode y := by
    intro y hy
    simp [t6 _ _ hy, t5 _ _ hy, t4 _ _ hy, t3 _ _ hy, t2 _ _ hy, t1 _ _ hy]
  -- the head of the open list is none of the closed nodes, so its new
  -- `prev` does not disturb them
  have hno : ∀ y ∈ closed, y ≠ mn.listOpen := by
    intro y hy he
    exact h.apart _ (hopen (by have := (h.range_closed hy).1; omega)) (he ▸ hy)
  -- first the closed list without `x`, then `x` in front of the open one
  have hclosed : Doubly (a6.entry .next) (a6.entry .prev) (-1) (-1)
      (if x = mn.listClose then next else mn.listClose) (closed.erase x) := by
    have hmid : Doubly (fun y => if y = prev then next else mn.arrays.entry .next y)
        (fun y => if y = next then prev else mn.arrays.entry .prev y) (-1) (-1)
        (if x = mn.listClose then next else mn.listClose) (closed.erase x) := by
      rw [hnext]
      refine h.closes.unlink hx (fun hin => by have := (h.range_closed hin).1; omega) ?_ ?_ ?_ ?_
      · intro y _ hy
        rw [if_neg (by rwa [hprev])]
      · intro y _ hy
        rw [if_neg hy]
      · intro _
        rw [if_pos hprev.symm]
      · intro _
        rw [if_pos rfl, hprev]
    refine hmid.congr ?_ ?_
    · intro y hy
      obtain ⟨hyx, hyc⟩ := (hmem y).mp hy
      rw [hnext' y (h.range_closed hyc).1, if_neg hyx]
    · intro y hy
      obtain ⟨hyx, hyc⟩ := (hmem y).mp hy
      rw [hprev' y (h.range_closed hyc).1, if_neg (hno y hyc), if_neg hyx]
  have hopened : Doubly (a6.entry .next) (a6.entry .prev) (-1) (-1) x (x :: opened) := by
    refine h.opens.push (show x ≠ -1 by omega) ?_ ?_ ?_ ?_ ?_
    · rw [hnext' x hx0, if_pos rfl]
    · rw [hprev' x hx0, if_neg (hno x hx), if_pos rfl]
    · intro hne
      rw [hprev' _ (h.range_open (hopen hne)).1, if_pos rfl]
    · intro y hy
      have hyc : y ∉ closed := h.apart y hy
      rw [hnext' y (h.range_open hy).1, if_neg (by rintro rfl; exact hxo hy), if_neg]
      rintro rfl
      rcases hp with ⟨-, hp⟩ | ⟨-, hp⟩
      · have := (h.range_open hy).1
        omega
      · exact hyc hp
    · intro y hy hyo
      have hyc : y ∉ closed := h.apart y hy
      rw [hprev' y (h.range_open hy).1, if_neg hyo, if_neg (by rintro rfl; exact hxo hy), if_neg]
      rintro rfl
      rcases hn with hn | hn
      · have := (h.range_open hy).1
        omega
      · exact hyc hn
  refine ⟨a6, if x = mn.listClose then next else mn.listClose, ?_,
    ⟨s6, hopened, hclosed, h.range, ?_, ?_, ?_, ?_, ?_, ?_⟩, ?_⟩
  · have hlist : (if 0 ≤ prev then mn.listClose else next) =
        if x = mn.listClose then next else mn.listClose := by
      by_cases hc : x = mn.listClose
      · rw [if_neg (fun h0 => hp0.mp h0 hc), if_pos hc]
      · rw [if_pos (hp0.mpr hc), if_neg hc]
    simp only [del, if_neg (not_not.mpr (And.intro hx0 hxm)), NodeArrays.get_eq h.synced hx0 hxm,
      Option.bind_eq_bind, Option.bind_some, h.used x hx, if_neg (show ¬ (1 : ℤ) = 0 by decide),
      ← hnext, ← hprev, e1, e2, e3, e4, e5, e6, hlist]
  · intro i
    rw [h.mem_iff, List.mem_cons, hmem]
    by_cases hix : i = x
    · simp [hix, hx]
    · simp [hix]
  · intro i hi
    rw [hmem]
    rcases List.mem_cons.mp hi with rfl | hi
    · simp
    · exact fun hc => h.apart i hi hc.2
  · intro i hi
    rcases List.mem_cons.mp hi with rfl | hi
    · rw [hmode' i hx0, if_pos rfl]
    · rw [hmode' i (h.range_open hi).1, if_neg (by intro he; exact hxo (he ▸ hi))]
      exact h.free i hi
  · intro i hi
    obtain ⟨hix, hic⟩ := (hmem i).mp hi
    rw [hmode' i (h.range_closed hic).1, if_neg hix]
    exact h.used i hic
  · change mn.nodeFree + 1 = _
    rw [List.length_cons]
    omega
  · change mn.nodeUsed - 1 = _
    omega
  · intro i hi
    simp [t6 _ _ hi, t5 _ _ hi, t4 _ _ hi, t3 _ _ hi, t2 _ _ hi, t1 _ _ hi]

/-- A node that is not in use does not get past the assertions. -/
theorem del_refused (h : Holds mn opened closed) (hx : x ∉ closed) : mn.del x = none := by
  by_cases hr : 0 ≤ x ∧ x < mn.nodeMax
  · have hxo : x ∈ opened := ((h.mem_iff x).mp hr).resolve_right hx
    simp only [del, if_neg (not_not.mpr hr), NodeArrays.get_eq h.synced hr.1 hr.2,
      Option.bind_eq_bind, Option.bind_some, h.free x hxo, if_true]
  · simp only [del, if_pos hr]

/-- The nodes from `lo` on. -/
def nodes (lo : ℤ) (j : ℕ) : List ℤ := (List.range j).map fun i : ℕ => lo + i

theorem mem_nodes {lo y : ℤ} {j : ℕ} : y ∈ nodes lo j ↔ lo ≤ y ∧ y < lo + j := by
  simp only [nodes, List.mem_map, List.mem_range]
  constructor
  · rintro ⟨i, hi, rfl⟩
    omega
  · intro hy
    exact ⟨(y - lo).toNat, by omega, by omega⟩

theorem nodes_succ (lo : ℤ) (j : ℕ) : nodes lo (j + 1) = nodes lo j ++ [lo + j] := by
  simp [nodes, List.range_succ]

/-- A turn of the loop of `imnode_grow` puts a new node in front of the open list. -/
theorem growLoop_succ (h : HoldsOn s mn opened closed) (hx0 : 0 ≤ x) (hxm : x < mn.nodeMax)
    (hxs : ¬ s x) (p : ℤ) :
    ∃ a, (∀ j, growLoop (j + 1) mn x p = growLoop j { mn with
          arrays := a, listOpen := x, nodeFree := mn.nodeFree + 1 } (x - 1) (p + mn.nodeSize)) ∧
      HoldsOn (fun y => s y ∨ y = x) { mn with
          arrays := a, listOpen := x, nodeFree := mn.nodeFree + 1 } (x :: opened) closed ∧
      ∀ i, 0 ≤ i → a.entry .data i = if i = x then p else mn.arrays.entry .data i := by
  have hxo : x ∉ opened := fun hin => hxs ((h.mem_iff x).mpr (Or.inl hin))
  have hxc : x ∉ closed := fun hin => hxs ((h.mem_iff x).mpr (Or.inr hin))
  have hfree := h.nodeFree_eq
  obtain ⟨hopen_lt, hopen⟩ := first_lt h.opens h.max_nonneg fun y hy => h.range_open hy
  obtain ⟨a1, e1, s1, t1⟩ := NodeArrays.set_spec h.synced hx0 hxm .node 0
  obtain ⟨a2, e2, s2, t2⟩ := NodeArrays.set_spec s1 hx0 hxm .mode 0
  obtain ⟨a3, e3, s3, t3⟩ := NodeArrays.set_spec s2 hx0 hxm .data p
  obtain ⟨a4, e4, s4, t4⟩ := NodeArrays.set_spec s3 hx0 hxm .prev (-1)
  obtain ⟨a5, e5, s5, t5⟩ := NodeArrays.set_spec s4 hx0 hxm .next mn.listOpen
  obtain ⟨a6, e6, s6, t6⟩ := NodeArrays.setPrevIf_spec s5 hopen_lt x
  have hnext' : ∀ y, 0 ≤ y → a6.entry .next y =
      if y = x then mn.listOpen else mn.arrays.entry .next y := by
    intro y hy
    simp [t6 _ _ hy, t5 _ _ hy, t4 _ _ hy, t3 _ _ hy, t2 _ _ hy, t1 _ _ hy]
  have hprev' : ∀ y, 0 ≤ y → a6.entry .prev y = if y = mn.listOpen then x else
      if y = x then -1 else mn.arrays.entry .prev y := by
    intro y hy
    simp [t6 _ _ hy, t5 _ _ hy, t4 _ _ hy, t3 _ _ hy, t2 _ _ hy, t1 _ _ hy]
  have hmode' : ∀ y, 0 ≤ y → a6.entry .mode y = if y = x then 0 else mn.arrays.entry .mode y := by
    intro y hy
    simp [t6 _ _ hy, t5 _ _ hy, t4 _ _ hy, t3 _ _ hy, t2 _ _ hy, t1 _ _ hy]
  have hopened : Doubly (a6.entry .next) (a6.entry .prev) (-1) (-1) x (x :: opened) := by
    refine h.opens.push (show x ≠ -1 by omega) ?_ ?_ ?_ ?_ ?_
    · rw [hnext' x hx0, if_pos rfl]
    · rw [hprev' x hx0, if_neg (by intro he; exact hxo (he ▸ hopen (by omega))), if_pos rfl]
    · intro hne
      rw [hprev' _ (h.range_open (hopen hne)).1, if_pos rfl]
    · intro y hy
      rw [hnext' y (h.range_open hy).1, if_neg (by rintro rfl; exact hxo hy)]
    · intro y hy hyo
      rw [hprev' y (h.range_open hy).1, if_neg hyo, if_neg (by rintro rfl; exact hxo hy)]
  have hclosed : Doubly (a6.entry .next) (a6.entry .prev) (-1) (-1) mn.listClose closed := by
    refine h.closes.congr ?_ ?_
    · intro y hy
      rw [hnext' y (h.range_closed hy).1, if_neg (by rintro rfl; exact hxc hy)]
    · intro y hy
      have h0 := (h.range_closed hy).1
      rw [hprev' y h0, if_neg (by intro he; exact h.apart _ (hopen (by omega)) (he ▸ hy)),
        if_neg (by rintro rfl; exact hxc hy)]
  refine ⟨a6, ?_, ⟨s6, hopened, hclosed, ?_, ?_, ?_, ?_, ?_, ?_, h.nodeUsed_eq⟩, ?_⟩
  · intro j
    simp only [growLoop, Option.bind_eq_bind, Option.bind_some, e1, e2, e3, e4, e5, e6]
  · rintro i (hi | rfl)
    · exact h.range i hi
    · exact ⟨hx0, hxm⟩
  · intro i
    simp only [h.mem_iff, List.mem_cons]
    tauto
  · intro i hi
    rcases List.mem_cons.mp hi with rfl | hi
    · exact hxc
    · exact h.apart i hi
  · intro i hi
    rcases List.mem_cons.mp hi with rfl | hi
    · rw [hmode' i hx0, if_pos rfl]
    · rw [hmode' i (h.range_open hi).1, if_neg (by intro he; exact hxo (he ▸ hi))]
      exact h.free i hi
  · intro i hi
    rw [hmode' i (h.range_closed hi).1, if_neg (by intro he; exact hxc (he ▸ hi))]
    exact h.used i hi
  · change mn.nodeFree + 1 = _
    rw [List.length_cons]
    omega
  · intro i hi
    simp [t6 _ _ hi, t5 _ _ hi, t4 _ _ hi, t3 _ _ hi, t2 _ _ hi, t1 _ _ hi]

/-- The loop goes down, so that the new nodes stand in the list in ascending order. -/
theorem growLoop_spec (j : ℕ) : ∀ {s : ℤ → Prop} {mn : IMemNode} {opened : List ℤ} {x : ℤ},
    HoldsOn s mn opened closed → (∀ y, x - j < y → y ≤ x → 0 ≤ y ∧ y < mn.nodeMax ∧ ¬ s y) →
    ∀ p, ∃ a l, growLoop j mn x p = some { mn with
          arrays := a, listOpen := l, nodeFree := mn.nodeFree + j } ∧
      HoldsOn (fun y => s y ∨ (x - j < y ∧ y ≤ x)) { mn with
          arrays := a, listOpen := l, nodeFree := mn.nodeFree + j }
        (nodes (x - j + 1) j ++ opened) closed ∧
      ∀ y, 0 ≤ y → a.entry .data y =
        if x - j < y ∧ y ≤ x then p + (x - y) * mn.nodeSize else mn.arrays.entry .data y := by
  induction j with
  | zero =>
    intro s mn opened x h _ p
    refine ⟨mn.arrays, mn.listOpen, by simp [growLoop], ?_, ?_⟩
    · have hset : (fun y => s y ∨ (x - ((0 : ℕ) : ℤ) < y ∧ y ≤ x)) = s := by
        funext y
        simp only [eq_iff_iff, or_iff_left_iff_imp]
        intro hy
        omega
      rw [hset]
      simpa [nodes] using h
    · intro y _
      rw [if_neg (by omega)]
  | succ j ih =>
    intro s mn opened x h hr p
    obtain ⟨hx0, hxm, hxs⟩ := hr x (by omega) le_rfl
    obtain ⟨a, hstep, ha, hd⟩ := growLoop_succ h hx0 hxm hxs p
    obtain ⟨a', l, hrun, hh, hd'⟩ := ih (x := x - 1) ha (by
      intro y hy hyx
      obtain ⟨h0, hm, hns⟩ := hr y (by omega) (by omega)
      refine ⟨h0, hm, ?_⟩
      rintro (hs | rfl)
      · exact hns hs
      · omega) (p + mn.nodeSize)
    refine ⟨a', l, ?_, ?_, ?_⟩
    · rw [hstep, hrun]
      simp only [Option.some.injEq, IMemNode.mk.injEq, true_and, and_true]
      omega
    · have hset : (fun y => (s y ∨ y = x) ∨ (x - 1 - (j : ℤ) < y ∧ y ≤ x - 1)) =
          fun y => s y ∨ (x - ((j + 1 : ℕ) : ℤ) < y ∧ y ≤ x) := by
        funext y
        simp only [eq_iff_iff]
        constructor
        · rintro ((hs | rfl) | hy)
          · exact Or.inl hs
          · exact Or.inr ⟨by omega, by omega⟩
          · exact Or.inr ⟨by omega, by omega⟩
        · rintro (hs | hy)
          · exact Or.inl (Or.inl hs)
          · by_cases hyx : y = x
            · exact Or.inl (Or.inr hyx)
            · exact Or.inr ⟨by omega, by omega⟩
      have hlist : nodes (x - 1 - (j : ℤ) + 1) j ++ x :: opened =
          nodes (x - ((j + 1 : ℕ) : ℤ) + 1) (j + 1) ++ opened := by
        have hlo : x - 1 - (j : ℤ) + 1 = x - ((j + 1 : ℕ) : ℤ) + 1 := by omega
        have hhi : x - ((j + 1 : ℕ) : ℤ) + 1 + (j : ℤ) = x := by omega
        rw [nodes_succ, hlo, hhi, List.append_assoc]
        rfl
      rw [hset, hlist] at hh
      have hfree : mn.nodeFree + 1 + (j : ℤ) = mn.nodeFree + ((j + 1 : ℕ) : ℤ) := by omega
      simpa only [hfree] using hh
    · intro y hy
      rw [hd' y hy, hd y hy]
      by_cases hyx : y = x
      · subst hyx
        rw [if_neg (by omega), if_pos rfl, if_pos (by omega)]
        simp
      · by_cases hin : x - 1 - (j : ℤ) < y ∧ y ≤ x - 1
        · rw [if_pos hin, if_pos (by omega)]
          ring
        · rw [if_neg hin, if_neg hyx, if_neg (by omega)]

end

end IMemNode

end HttpsProxy
