import HttpsProxy.Bytes

/-! `IVECTOR` of `imembase.c`. A block is as long as the power of two that
`iv_resize` finds; what lies behind the size is whatever was there before. Sizes
count bytes, the contents are cells of `w` bytes each. -/
namespace HttpsProxy

/-- A block of memory, with whatever its cells hold when it is handed out. -/
structure MemBlock (α : Type) where
  addr : ℕ
  cells : List α
  deriving DecidableEq, Repr

/-- The answers of `internal_malloc` to the one request a call can make. -/
structure Allocator (w : ℕ) (α : Type) where
  malloc : ℕ → Option (MemBlock α)
  length_cells : ∀ n b, malloc n = some b → b.cells.length = n / w

/-- The allocator has memory for every request. -/
def Allocator.Grants {w : ℕ} {α : Type} (A : Allocator w α) : Prop := ∀ n, (A.malloc n).isSome

structure IVector (w : ℕ) (α : Type) where
  data : Option (MemBlock α)
  size : ℕ
  block : ℕ
  deriving DecidableEq, Repr

/-- `memcpy` into a block of cells. -/
def overwrite {α : Type} (cells : List α) (off : ℕ) (d : List α) : List α :=
  cells.take off ++ d ++ cells.drop (off + d.length)

/-- `for (nblock = sizeof(char*); nblock < newsize; ) nblock <<= 1;` -/
def doubleUntil (newsize : ℕ) : ℕ → ℕ → ℕ
  | 0, nblock => nblock
  | fuel+1, nblock => if nblock < newsize then doubleUntil newsize fuel (nblock * 2) else nblock

/-- The block for `newsize` bytes. Each turn adds at least one byte. -/
def nblock (newsize : ℕ) : ℕ := doubleUntil newsize newsize 8

theorem doubleUntil_power (newsize fuel k : ℕ) : ∃ m, k ≤ m ∧ doubleUntil newsize fuel (2^k) = 2^m := by
  induction fuel generalizing k with
  | zero => exact ⟨k, le_rfl, rfl⟩
  | succ fuel ih =>
    rw [doubleUntil]
    split
    · obtain ⟨m, hm, he⟩ := ih (k + 1)
      exact ⟨m, by omega, by rw [← pow_succ]; exact he⟩
    · exact ⟨k, le_rfl, rfl⟩

theorem le_doubleUntil (newsize fuel b : ℕ) (hb : 0 < b) (h : newsize ≤ b + fuel) :
    newsize ≤ doubleUntil newsize fuel b := by
  induction fuel generalizing b with
  | zero => simpa [doubleUntil] using h
  | succ fuel ih =>
    rw [doubleUntil]
    split
    · exact ih (b * 2) (by omega) (by omega)
    · omega

theorem doubleUntil_lt (newsize fuel b : ℕ) :
    doubleUntil newsize fuel b ≤ b ∨ doubleUntil newsize fuel b < newsize * 2 := by
  induction fuel generalizing b with
  | zero => exact Or.inl le_rfl
  | succ fuel ih =>
    rw [doubleUntil]
    split
    · rename_i hlt
      rcases ih (b * 2) with h | h
      · right
        omega
      · exact Or.inr h
    · exact Or.inl le_rfl

theorem nblock_power (newsize : ℕ) : ∃ m, 3 ≤ m ∧ nblock newsize = 2^m :=
  doubleUntil_power newsize newsize 3

theorem le_nblock (newsize : ℕ) : newsize ≤ nblock newsize :=
  le_doubleUntil newsize newsize 8 (by norm_num) (by omega)

/-- No more than twice what is asked for, once that is more than the least block. -/
theorem nblock_lt (newsize : ℕ) : nblock newsize ≤ 8 ∨ nblock newsize < newsize * 2 :=
  doubleUntil_lt newsize newsize 8

theorem nblock_pos (newsize : ℕ) : 0 < nblock newsize := by
  obtain ⟨m, -, he⟩ := nblock_power newsize
  rw [he]
  positivity

/-- The block is the least power of two, from 8 on, that is large enough. -/
theorem nblock_le {newsize m : ℕ} (hm : 3 ≤ m) (h : newsize ≤ 2^m) : nblock newsize ≤ 2^m := by
  obtain ⟨k, hk, he⟩ := nblock_power newsize
  rcases nblock_lt newsize with h8 | h2
  · calc nblock newsize ≤ 2^3 := h8
      _ ≤ 2^m := Nat.pow_le_pow_right (by norm_num) hm
  · rw [he] at h2 ⊢
    apply Nat.pow_le_pow_right (by norm_num)
    have hlt : 2^k < 2^(m + 1) := by
      rw [pow_succ]
      omega
    have hkm := (Nat.pow_lt_pow_iff_right (by norm_num)).mp hlt
    omega

theorem length_overwrite {α : Type} (cells : List α) (off : ℕ) (d : List α)
    (h : off + d.length ≤ cells.length) : (overwrite cells off d).length = cells.length := by
  simp only [overwrite, List.length_append, List.length_take, List.length_drop]
  omega

namespace IVector

variable {w : ℕ} {α : Type}

/-- `iv_init`. -/
def init : IVector w α := { data := none, size := 0, block := 0 }

/-- `iv_destroy`, with the address it frees. -/
def destroy (v : IVector w α) : IVector w α × Option ℕ := (init, v.data.map MemBlock.addr)

/-- `iv_resize`. -/
def resize (A : Allocator w α) (v : IVector w α) (newsize : ℕ) : IVector w α × ℤ :=
  if v.size ≤ newsize ∧ newsize ≤ v.block then ({ v with size := newsize }, 0)
  else if newsize = 0 then
    if 0 < v.block then ({ data := none, size := 0, block := 0 }, 0) else (v, 0)
  else if nblock newsize = v.block then ({ v with size := newsize }, 0)
  else
    match A.malloc (nblock newsize), v.data with
    | none, none => (v, -1)
    | none, some _ => if v.block = 0 then ({ v with data := none }, -1) else (v, -1)
    | some b, none => ({ data := some b, size := newsize, block := nblock newsize }, 0)
    | some b, some old =>
      if v.block = 0 then ({ data := some b, size := newsize, block := nblock newsize }, 0)
      else
        let min := if v.size ≤ newsize then v.size else newsize
        ({ data := some { b with cells := overwrite b.cells 0 (old.cells.take (min / w)) },
           size := newsize, block := nblock newsize }, 0)

/-- The cells that are in use. -/
def contents (v : IVector w α) : List α :=
  match v.data with
  | none => []
  | some b => b.cells.take (v.size / w)

/-- There is a block exactly if its length is not 0; it is a power of two, as
long as it says, and holds the size. -/
structure Sound (v : IVector w α) : Prop where
  data_none : v.data = none ↔ v.block = 0
  block_power : v.block = 0 ∨ ∃ m, 3 ≤ m ∧ v.block = 2^m
  length_cells : ∀ b, v.data = some b → b.cells.length = v.block / w
  size_le : v.size ≤ v.block

theorem sound_init : (init : IVector w α).Sound :=
  ⟨by simp [init], Or.inl rfl, by simp [init], le_rfl⟩

theorem Sound.length_contents {v : IVector w α} (h : v.Sound) : v.contents.length = v.size / w := by
  cases hd : v.data with
  | none =>
    have hb := h.data_none.mp hd
    have hs := h.size_le
    have h0 : v.size = 0 := by omega
    simp [contents, hd, h0]
  | some b =>
    have hl := h.length_cells b hd
    have hs := Nat.div_le_div_right (c := w) h.size_le
    simp only [contents, hd, List.length_take]
    omega

/-- What `iv_resize` does: either the allocator has refused and nothing has
changed, or the size is the one asked for and the cells below it are kept. -/
theorem resize_spec (A : Allocator w α) {v : IVector w α} (h : v.Sound) (newsize : ℕ) :
    ((v.resize A newsize).2 ≠ 0 ∧ (v.resize A newsize).1 = v ∧ A.malloc (nblock newsize) = none ∧
        nblock newsize ≠ v.block) ∨
      ((v.resize A newsize).2 = 0 ∧ (v.resize A newsize).1.Sound ∧
        (v.resize A newsize).1.size = newsize ∧
        (v.resize A newsize).1.contents.take (v.size / w) = v.contents.take (newsize / w)) := by
  -- where the block stays, only the size changes
  have hkeep : ∀ n, n ≤ v.block → ({ v with size := n } : IVector w α).Sound ∧
      ({ v with size := n } : IVector w α).contents.take (v.size / w) = v.contents.take (n / w) := by
    intro n hn
    refine ⟨⟨h.data_none, h.block_power, h.length_cells, hn⟩, ?_⟩
    cases hd : v.data with
    | none => simp [contents, hd]
    | some b => simp only [contents, hd, List.take_take, min_comm]
  have hfresh : ∀ b, A.malloc (nblock newsize) = some b → ∀ cells : List α,
      cells.length = b.cells.length →
      ({ data := some { b with cells := cells }, size := newsize, block := nblock newsize } :
        IVector w α).Sound := by
    intro b hb cells hc
    refine ⟨?_, Or.inr (nblock_power newsize), ?_, le_nblock newsize⟩
    · simp [(nblock_pos newsize).ne']
    · rintro b' hb'
      obtain rfl := Option.some.inj hb'
      exact hc.trans (A.length_cells _ _ hb)
  -- the branches of `iv_resize` in its order: the block holds it, nothing is left, the block stays, a new one
  unfold resize
  split
  · rename_i hin
    exact Or.inr ⟨rfl, (hkeep newsize hin.2).1, rfl, (hkeep newsize hin.2).2⟩
  · split
    · rename_i hzero
      subst hzero
      split
      · exact Or.inr ⟨rfl, sound_init, rfl, by simp [contents]⟩
      · have hs := h.size_le
        exact Or.inr ⟨rfl, h, by omega, by simp [show v.size = 0 by omega]⟩
    · split
      · rename_i hb
        have hle : newsize ≤ v.block := hb ▸ le_nblock newsize
        exact Or.inr ⟨rfl, (hkeep newsize hle).1, rfl, (hkeep newsize hle).2⟩
      · rename_i hb
        split
        -- `malloc` fails: nothing has been written yet
        · rename_i hm hd
          exact Or.inl ⟨by simp, rfl, hm, hb⟩
        · rename_i old hm hd
          have hne : v.block ≠ 0 := fun h0 => by simp [h.data_none.mpr h0] at hd
          rw [if_neg hne]
          exact Or.inl ⟨by simp, rfl, hm, hb⟩
        · rename_i b hm hd
          have hs := h.size_le
          have h0 := h.data_none.mp hd
          refine Or.inr ⟨rfl, hfresh b hm b.cells rfl, rfl, ?_⟩
          simp [contents, hd, show v.size = 0 by omega]
        · rename_i b old hm hd
          have hne : v.block ≠ 0 := fun h0 => by simp [h.data_none.mpr h0] at hd
          rw [if_neg hne]
          have hlen := A.length_cells _ _ hm
          have hle := Nat.div_le_div_right (c := w) (le_nblock newsize)
          have hold := h.length_cells old hd
          have hsz := Nat.div_le_div_right (c := w) h.size_le
          -- the cells that `memcpy` moves are those below both sizes
          have hmin : (if v.size ≤ newsize then v.size else newsize) / w =
              min (v.size / w) (newsize / w) := by
            split
            · rename_i hs
              have := Nat.div_le_div_right (c := w) hs
              omega
            · rename_i hs
              have := Nat.div_le_div_right (c := w) (show newsize ≤ v.size by omega)
              omega
          have htake : (old.cells.take (min (v.size / w) (newsize / w))).length =
              min (v.size / w) (newsize / w) := by
            rw [List.length_take]
            omega
          refine Or.inr ⟨rfl, hfresh b hm _ ?_, rfl, ?_⟩
          · rw [length_overwrite]
            simp only [hmin, htake]
            omega
          · simp only [contents, hd, hmin, overwrite, List.take_zero, List.nil_append,
              List.take_take]
            rw [List.take_append_of_le_length (by rw [htake])]
            rw [List.take_take]
            congr 1
            omega

/-- When `iv_resize` asks for another block. -/
def NeedsBlock (v : IVector w α) (newsize : ℕ) : Prop :=
  ¬ (v.size ≤ newsize ∧ newsize ≤ v.block) ∧ newsize ≠ 0 ∧ nblock newsize ≠ v.block

theorem resize_refused_iff (A : Allocator w α) (v : IVector w α) (newsize : ℕ) :
    (v.resize A newsize).2 ≠ 0 ↔ v.NeedsBlock newsize ∧ A.malloc (nblock newsize) = none := by
  unfold resize NeedsBlock
  cases A.malloc (nblock newsize) <;> cases v.data <;> grind

/-- The block that is handed out becomes that of the vector. -/
theorem resize_moved {A : Allocator w α} {v : IVector w α} {newsize : ℕ} {b : MemBlock α}
    (h : v.NeedsBlock newsize) (hb : A.malloc (nblock newsize) = some b) :
    (v.resize A newsize).1.data.map MemBlock.addr = some b.addr := by
  obtain ⟨h1, h2, h3⟩ := h
  unfold resize
  rw [if_neg h1, if_neg h2, if_neg h3, hb]
  cases v.data with
  | none => rfl
  | some old =>
    by_cases hz : v.block = 0
    · simp [hz]
    · simp [hz]

/-- The block depends on the sizes alone. -/
theorem resize_block (A : Allocator w α) (v : IVector w α) (newsize : ℕ)
    (h : (v.resize A newsize).2 = 0) : (v.resize A newsize).1.block =
      if v.size ≤ newsize ∧ newsize ≤ v.block then v.block else if newsize = 0 then 0
      else nblock newsize := by
  revert h
  unfold resize
  cases A.malloc (nblock newsize) <;> cases v.data <;> grind

/-- Room is made behind the contents. -/
theorem contents_of_le {v v' : IVector w α} (h : v.Sound) (hle : v.size ≤ v'.size)
    (ht : v'.contents.take (v.size / w) = v.contents.take (v'.size / w)) :
    v'.contents = v.contents ++ v'.contents.drop (v.size / w) := by
  have hl := Nat.div_le_div_right (c := w) hle
  have hc := h.length_contents
  rw [List.take_of_length_le (l := v.contents) (by omega)] at ht
  conv_lhs => rw [← List.take_append_drop (v.size / w) v'.contents]
  rw [ht]

/-- Giving up room cuts the contents off. -/
theorem contents_of_ge {v v' : IVector w α} (h' : v'.Sound) (hle : v'.size ≤ v.size)
    (ht : v'.contents.take (v.size / w) = v.contents.take (v'.size / w)) :
    v'.contents = v.contents.take (v'.size / w) := by
  have hl := Nat.div_le_div_right (c := w) hle
  have hc := h'.length_contents
  rwa [List.take_of_length_le (by omega)] at ht

theorem resize_granted {A : Allocator w α} (hA : A.Grants) {v : IVector w α} (h : v.Sound)
    (newsize : ℕ) : (v.resize A newsize).2 = 0 := by
  rcases resize_spec A h newsize with ⟨-, -, hm, -⟩ | ⟨h0, -⟩
  · have := hA (nblock newsize)
    simp [hm] at this
  · exact h0

end IVector

/-- `a - b` of `size_t`. -/
def sizeSub (a b : ℕ) : ℕ := if b ≤ a then a - b else 2^64 - (b - a)

theorem sizeSub_of_le {a b : ℕ} (h : b ≤ a) : sizeSub a b = a - b := if_pos h

/-- `IVECTOR` as a buffer of bytes. A call that would touch memory outside the
block has no result. -/
abbrev ByteVector := IVector 1 UInt8

namespace ByteVector

/-- `memcpy(v->data + off, d, ..)`. -/
def write (v : ByteVector) (off : ℕ) (d : Bytes) : Option ByteVector :=
  match v.data with
  | none => if d = [] then some v else none
  | some b =>
    if off + d.length ≤ b.cells.length then
      some { v with data := some { b with cells := overwrite b.cells off d } }
    else none

/-- The `n` bytes from `off` on. -/
def read (v : ByteVector) (off n : ℕ) : Option Bytes :=
  match v.data with
  | none => if n = 0 then some [] else none
  | some b => if off + n ≤ b.cells.length then some ((b.cells.drop off).take n) else none

/-- `memmove(v->data + dst, v->data + src, n)`. -/
def memmove (v : ByteVector) (dst src n : ℕ) : Option ByteVector := do
  let d ← v.read src n
  v.write dst d

/-- `iv_push` of `size` bytes. Without data it only makes room. -/
def push (A : Allocator 1 UInt8) (v : ByteVector) (data : Option Bytes) (size : ℕ) :
    Option (ByteVector × ℤ) :=
  let current := v.size
  let r := IVector.resize A v (current + size)
  if r.2 ≠ 0 then some (r.1, -1)
  else
    match data with
    | none => some (r.1, 0)
    | some d => (write r.1 current (d.take size)).map fun v => (v, 0)

/-- `iv_pop`, with the bytes it hands out. It returns their number, whatever
becomes of the block. -/
def pop (A : Allocator 1 UInt8) (v : ByteVector) (size : ℕ) : Option (ByteVector × Bytes) :=
  let current := v.size
  let size := if current ≤ size then current else size
  (v.read (current - size) size).map fun d => ((IVector.resize A v (current - size)).1, d)

/-- `iv_insert` of `size` bytes. `memmove` moves as many bytes as are inserted. -/
def insert (A : Allocator 1 UInt8) (v : ByteVector) (pos : ℕ) (data : Option Bytes) (size : ℕ) :
    Option (ByteVector × ℤ) :=
  let current := v.size
  let r := IVector.resize A v (current + size)
  if r.2 ≠ 0 then some (r.1, -1)
  else
    (memmove r.1 (pos + size) pos size).bind fun v =>
      match data with
      | none => some (v, 0)
      | some d => (write v pos (d.take size)).map fun v => (v, 0)

/-- `iv_erase`. A sum past `size_t` starts again from 0, and what looks like a
shorter vector is then made longer. -/
def erase (A : Allocator 1 UInt8) (v : ByteVector) (pos size : ℕ) : Option (ByteVector × ℤ) :=
  let current := v.size
  if current ≤ pos then some (v, 0)
  else
    let size := if current ≤ (pos + size) % 2^64 then current - pos else size
    if size = 0 then some (v, 0)
    else
      (memmove v pos ((pos + size) % 2^64) (sizeSub (current - pos) size)).map fun v =>
        let r := IVector.resize A v (sizeSub current size)
        if r.2 ≠ 0 then (r.1, -1) else (r.1, 0)

end ByteVector

end HttpsProxy
