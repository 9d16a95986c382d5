import HttpsProxy.MemVector

/-! `IVECTOR` as a list of bytes. Pushing, popping and erasing do to the contents
what they should where there is memory for the block; inserting does not. -/
namespace HttpsProxy

namespace ByteVector

theorem length_contents {v : ByteVector} (h : v.Sound) : v.contents.length = v.size := by
  have hl := h.length_contents
  omega

/-- Writing below the size stays in the block and changes the contents there. -/
theorem write_spec {v : ByteVector} (h : v.Sound) (off : ℕ) {d : Bytes}
    (hd : off + d.length ≤ v.size) :
    ∃ v', write v off d = some v' ∧ v'.Sound ∧ v'.size = v.size ∧ v'.block = v.block ∧
      v'.contents = overwrite v.contents off d := by
  cases hv : v.data with
  | none =>
    have hb := h.data_none.mp hv
    have hs := h.size_le
    have hnil : d = [] := List.length_eq_zero_iff.mp (by omega)
    have hoff : off = 0 := by omega
    subst hnil hoff
    refine ⟨v, by simp [write, hv], h, rfl, rfl, ?_⟩
    simp [overwrite]
  | some b =>
    have hl := h.length_cells b hv
    have hs := h.size_le
    have hin : off + d.length ≤ b.cells.length := by omega
    refine ⟨{ v with data := some { b with cells := overwrite b.cells off d } },
      by simp only [write, hv, if_pos hin], ⟨?_, h.block_power, ?_, h.size_le⟩, rfl, rfl, ?_⟩
    · simpa [hv] using h.data_none
    · rintro b' hb'
      obtain rfl := Option.some.inj hb'
      exact (length_overwrite _ _ _ hin).trans hl
    · apply List.ext_getElem?
      intro i
      simp only [IVector.contents, hv, overwrite, Nat.div_one]
      grind

/-- What the size covers can be read. -/
theorem read_spec {v : ByteVector} (h : v.Sound) (off : ℕ) {n : ℕ} (hn : off + n ≤ v.size) :
    v.read off n = some ((v.contents.drop off).take n) := by
  cases hv : v.data with
  | none =>
    have hb := h.data_none.mp hv
    have hs := h.size_le
    have h0 : n = 0 := by omega
    simp [read, hv, h0]
  | some b =>
    have hl := h.length_cells b hv
    have hs := h.size_le
    have hin : off + n ≤ b.cells.length := by omega
    simp only [read, hv, if_pos hin, IVector.contents, Nat.div_one]
    congr 1
    rw [List.drop_take, List.take_take]
    congr 1
    omega

theorem push_spec (A : Allocator 1 UInt8) {v : ByteVector} (h : v.Sound) (d : Bytes) :
    ∃ r, push A v (some d) d.length = some r ∧ r.1.Sound ∧
      ((r.2 = 0 ∧ r.1.contents = v.contents ++ d) ∨ (r.2 = -1 ∧ r.1 = v ∧ ¬ A.Grants)) := by
  rcases IVector.resize_spec A h (v.size + d.length) with ⟨hr, he, hm, -⟩ | ⟨hr, hs, hsize, ht⟩
  · refine ⟨((IVector.resize A v (v.size + d.length)).1, -1), by simp [push, hr],
      by rwa [he], Or.inr ⟨rfl, he, ?_⟩⟩
    intro hA
    have := hA (nblock (v.size + d.length))
    simp [hm] at this
  · have hgrow := @IVector.contents_of_le _ _ _ (IVector.resize A v (v.size + d.length)).1 h (by omega)
      (by rwa [hsize])
    obtain ⟨v', hw, hs', -, -, hc⟩ := write_spec hs v.size (show v.size + d.length ≤ _ by omega)
    refine ⟨(v', 0), by simp [push, hr, hw], hs', Or.inl ⟨rfl, ?_⟩⟩
    have hlen := length_contents h
    have hlen' := length_contents hs
    rw [hc, hgrow, overwrite, List.take_append_of_le_length (by omega),
      List.take_of_length_le (by omega), List.drop_of_length_le]
    · simp
    · rw [← hgrow]
      omega

/-- A pop whose block cannot be exchanged for a smaller one hands the bytes out
and keeps them. -/
theorem pop_spec (A : Allocator 1 UInt8) {v : ByteVector} (h : v.Sound) (n : ℕ) :
    ∃ r, pop A v n = some r ∧ r.1.Sound ∧ r.2 = v.contents.drop (v.contents.length - n) ∧
      (r.1.contents = v.contents.take (v.contents.length - n) ∨ (r.1 = v ∧ ¬ A.Grants)) := by
  have hlen := length_contents h
  have hsize : v.size - (if v.size ≤ n then v.size else n) = v.contents.length - n := by
    split <;> omega
  have hread := read_spec h (v.contents.length - n)
    (n := if v.size ≤ n then v.size else n) (by split <;> omega)
  rw [List.take_of_length_le (by rw [List.length_drop]; split <;> omega)] at hread
  refine ⟨((IVector.resize A v (v.contents.length - n)).1, v.contents.drop (v.contents.length - n)),
    by simp only [pop, hsize, hread, Option.map_some], ?_⟩
  rcases IVector.resize_spec A h (v.contents.length - n) with ⟨-, he, hm, -⟩ | ⟨-, hs, hsz, ht⟩
  · refine ⟨by rwa [he], rfl, Or.inr ⟨he, ?_⟩⟩
    intro hA
    have := hA (nblock (v.contents.length - n))
    simp [hm] at this
  · refine ⟨hs, rfl, Or.inl ?_⟩
    have hcut := IVector.contents_of_ge (v := v) hs (by omega) (by rwa [hsz])
    rwa [hsz, Nat.div_one] at hcut

/-- Erasing without another block for the rest leaves the last bytes where they
were, behind those that have moved. -/
theorem erase_spec (A : Allocator 1 UInt8) {v : ByteVector} (h : v.Sound) (pos n : ℕ)
    (hwrap : pos + n < 2^64) :
    ∃ r, erase A v pos n = some r ∧ r.1.Sound ∧
      ((r.2 = 0 ∧ r.1.contents = v.contents.take pos ++ v.contents.drop (pos + n)) ∨
        (r.2 = -1 ∧ r.1.contents = v.contents.take pos ++ v.contents.drop (pos + n) ++
            v.contents.drop (v.contents.length - min n (v.contents.length - pos)) ∧ ¬ A.Grants)) := by
  have hlen := length_contents h
  by_cases hpos : v.size ≤ pos
  · refine ⟨(v, 0), by simp [erase, hpos], h, Or.inl ⟨rfl, ?_⟩⟩
    rw [List.take_of_length_le (by omega), List.drop_of_length_le (by omega), List.append_nil]
  · obtain ⟨k, hk⟩ : ∃ k, k = if v.size ≤ (pos + n) % 2^64 then v.size - pos else n := ⟨_, rfl⟩
    rw [Nat.mod_eq_of_lt hwrap] at hk
    have hmin : k = min n (v.contents.length - pos) := by split at hk <;> omega
    have hdrop : v.contents.drop (pos + k) = v.contents.drop (pos + n) := by
      split at hk
      · rw [List.drop_of_length_le (by omega), List.drop_of_length_le (by omega)]
      · rw [hk]
    have hks : pos + k ≤ v.size := by split at hk <;> omega
    by_cases hk0 : k = 0
    · refine ⟨(v, 0), by simp only [erase, if_neg hpos, Nat.mod_eq_of_lt hwrap, ← hk, if_pos hk0], h,
        Or.inl ⟨rfl, ?_⟩⟩
      rw [← hdrop, hk0, Nat.add_zero, List.take_append_drop]
    · have hread := read_spec h (pos + k) (show pos + k + (v.size - pos - k) ≤ v.size by omega)
      rw [List.take_of_length_le (by rw [List.length_drop]; omega)] at hread
      obtain ⟨u, hw, hu, hus, -, huc⟩ := write_spec h pos (d := v.contents.drop (pos + k))
        (by rw [List.length_drop]; omega)
      have hmove : memmove v pos (pos + k) (v.size - pos - k) = some u := by
        simp only [memmove, hread, Option.bind_eq_bind, Option.bind_some, hw]
      have hkwrap : pos + k < 2^64 := by omega
      have herase : erase A v pos n =
          some ((IVector.resize A u (v.size - k)).1,
            if (IVector.resize A u (v.size - k)).2 ≠ 0 then -1 else 0) := by
        simp only [erase, if_neg hpos, Nat.mod_eq_of_lt hwrap, ← hk, if_neg hk0, Nat.mod_eq_of_lt hkwrap,
          sizeSub_of_le (show k ≤ v.size - pos by omega), sizeSub_of_le (show k ≤ v.size by omega), hmove,
          Option.map_some]
        split <;> rfl
      refine ⟨_, herase, ?_⟩
      rcases IVector.resize_spec A hu (v.size - k) with ⟨hr, he, hm, -⟩ | ⟨hr, hs, hsz, ht⟩
      · refine ⟨by simpa only [he] using hu, Or.inr ⟨if_pos hr, ?_, ?_⟩⟩
        · rw [he, huc, overwrite, ← hdrop, ← hmin, List.length_drop]
          congr 2
          omega
        · intro hA
          have := hA (nblock (v.size - k))
          simp [hm] at this
      · refine ⟨hs, Or.inl ⟨by simp [hr], ?_⟩⟩
        have hcut := IVector.contents_of_ge (v := u) hs (by omega) (by rwa [hsz])
        rw [hcut, hsz, Nat.div_one, huc, overwrite, ← hdrop]
        have hl : (v.contents.take pos ++ v.contents.drop (pos + k)).length = v.size - k := by
          rw [List.length_append, List.length_take, List.length_drop]
          omega
        rw [List.take_append_of_le_length (by rw [hl]), List.take_of_length_le (by rw [hl])]

/-- The cells after `iv_insert` has moved `n` bytes and written as many. -/
theorem overwrite_shifted (cells d : Bytes) {pos : ℕ} (h : pos + 2 * d.length ≤ cells.length) :
    overwrite (overwrite cells (pos + d.length) ((cells.drop pos).take d.length)) pos d =
      cells.take pos ++ d ++ (cells.drop pos).take d.length ++ cells.drop (pos + 2 * d.length) := by
  apply List.ext_getElem?
  intro i
  simp only [overwrite]
  grind

theorem take_shifted_iff (r : Bytes) (n k : ℕ) (hr : k + n ≤ r.length) :
    (r.take n ++ r.drop (2 * n)).take k = r.take k ↔
      (r.take (k + n)).drop (2 * n) = (r.take k).drop n := by
  rw [List.drop_take, List.drop_take, show k + n - 2 * n = k - n by omega]
  have hn : (r.take n).length = n := by
    rw [List.length_take]
    omega
  rcases Nat.le_total k n with hk | hk
  · rw [show k - n = 0 by omega, List.take_append_of_le_length (by omega), List.take_take,
      Nat.min_eq_left hk]
    simp
  · have hsplit : r.take k = r.take n ++ (r.drop n).take (k - n) := by
      rw [← List.take_add, Nat.add_sub_cancel' hk]
    rw [List.take_append, hn, List.take_take, Nat.min_eq_right hk, hsplit, List.append_cancel_left_eq]

/-- These cells are the ones to be had if the bytes left where they were are the
bytes that should have come there. -/
theorem shifted_eq_iff (cells d : Bytes) {pos size : ℕ} (hpos : pos ≤ size)
    (hsize : size + d.length ≤ cells.length) :
    (cells.take pos ++ d ++ (cells.drop pos).take d.length ++ cells.drop (pos + 2 * d.length)).take
        (size + d.length) = (cells.take size).take pos ++ d ++ (cells.take size).drop pos ↔
      (cells.take (size + d.length)).drop (pos + 2 * d.length) =
        (cells.take size).drop (pos + d.length) := by
  have hiff := take_shifted_iff (cells.drop pos) d.length (size - pos) (by
    rw [List.length_drop]
    omega)
  have hl : (cells.take pos ++ d).length = pos + d.length := by
    rw [List.length_append, List.length_take]
    omega
  have hfront : (cells.take pos ++ d ++ (cells.drop pos).take d.length ++
      cells.drop (pos + 2 * d.length)).take (size + d.length) = (cells.take pos ++ d) ++
        ((cells.drop pos).take d.length ++ (cells.drop pos).drop (2 * d.length)).take (size - pos) := by
    rw [List.append_assoc _ _ (cells.drop _), List.take_append, hl, List.drop_drop,
      List.take_of_length_le (by omega)]
    congr 2
    omega
  have hback : (cells.take size).take pos ++ d ++ (cells.take size).drop pos =
      (cells.take pos ++ d) ++ (cells.drop pos).take (size - pos) := by
    rw [List.take_take, Nat.min_eq_left hpos, List.drop_take]
  rw [hfront, hback, List.append_cancel_left_eq, hiff, List.drop_take, List.drop_take,
    List.drop_take, List.drop_take, List.drop_drop, List.drop_drop]
  congr! 2
  all_goals omega

/-- Inserting shifts only the bytes that stand where the new ones go, so it is
right if no byte stands behind those, or if these bytes come again anyway. It
stays in the block only if the block has room for the new bytes twice. -/
theorem insert_right_iff (A : Allocator 1 UInt8) {v : ByteVector} (h : v.Sound) {pos : ℕ} {d : Bytes}
    (hpos : pos ≤ v.size) (hd : d ≠ []) (hr : (v.resize A (v.size + d.length)).2 = 0) :
    (∃ v', insert A v pos (some d) d.length = some (v', 0) ∧
        v'.contents = v.contents.take pos ++ d ++ v.contents.drop pos) ↔
      pos + 2 * d.length ≤ (v.resize A (v.size + d.length)).1.block ∧
        (v.resize A (v.size + d.length)).1.contents.drop (pos + 2 * d.length) =
          v.contents.drop (pos + d.length) := by
  rcases IVector.resize_spec A h (v.size + d.length) with ⟨hne, -⟩ | ⟨-, hs, hsize, ht⟩
  · exact absurd hr hne
  obtain ⟨u, hu⟩ : ∃ u, u = (v.resize A (v.size + d.length)).1 := ⟨_, rfl⟩
  -- `iv_insert` moves the tail by the length of the insertion, and moves only so many bytes of it
  have hins : insert A v pos (some d) d.length =
      (memmove u (pos + d.length) pos d.length).bind fun v =>
        (write v pos d).map fun v => (v, (0 : ℤ)) := by
    simp only [insert, hr, hu, List.take_length, ne_eq, not_true_eq_false, if_false]
  rw [← hu] at hs hsize ht ⊢
  rw [hins]
  have hdpos : 0 < d.length := List.length_pos_iff.mpr hd
  have hlen := length_contents h
  cases hb : u.data with
  | none =>
    have hb0 := hs.data_none.mp hb
    have hle := hs.size_le
    omega
  | some b =>
    have hl := hs.length_cells b hb
    have hle := hs.size_le
    rw [Nat.div_one] at hl
    have huc : u.contents = b.cells.take (v.size + d.length) := by
      simp only [IVector.contents, hb, hsize, Nat.div_one]
    have hold : v.contents = b.cells.take v.size := by
      rw [huc, Nat.div_one, Nat.div_one, List.take_take, List.take_of_length_le
        (l := v.contents) (by omega), Nat.min_eq_left (by omega)] at ht
      exact ht.symm
    have hread : read u pos d.length = some ((b.cells.drop pos).take d.length) := by
      simp only [read, hb, if_pos (show pos + d.length ≤ b.cells.length by omega)]
    have hrl : ((b.cells.drop pos).take d.length).length = d.length := by
      rw [List.length_take, List.length_drop]
      omega
    -- the move itself reaches `pos + 2 * length`, which may be past the block
    by_cases hroom : pos + 2 * d.length ≤ u.block
    · have hin : pos + d.length + ((b.cells.drop pos).take d.length).length ≤ b.cells.length := by
        omega
      have hin' : pos + d.length ≤ (overwrite b.cells (pos + d.length)
          ((b.cells.drop pos).take d.length)).length := by
        rw [length_overwrite _ _ _ hin]
        omega
      let cells := b.cells.take pos ++ d ++ (b.cells.drop pos).take d.length ++
        b.cells.drop (pos + 2 * d.length)
      let moved : ByteVector := { u with data := some { b with cells := cells } }
      have hfinal : ((memmove u (pos + d.length) pos d.length).bind fun v =>
          (write v pos d).map fun v => (v, (0 : ℤ))) = some (moved, 0) := by
        simp only [memmove, hread, Option.bind_eq_bind, Option.bind_some, write, hb, if_pos hin,
          if_pos hin', Option.map_some]
        rw [overwrite_shifted b.cells d (by omega)]
      have hmoved : moved.contents = cells.take (v.size + d.length) := by
        simp only [moved, IVector.contents, hsize, Nat.div_one]
      -- what has been moved is right iff the rest of the tail happens to stand where it should
      have hiff := shifted_eq_iff b.cells d hpos (by omega)
      rw [hfinal, huc, hold, ← hiff, ← hmoved]
      constructor
      · rintro ⟨v', hv', hc⟩
        obtain rfl := (Prod.mk.inj (Option.some.inj hv')).1
        exact ⟨hroom, hc⟩
      · rintro ⟨-, hc⟩
        exact ⟨moved, rfl, hc⟩
    · have hout : ¬ pos + d.length + ((b.cells.drop pos).take d.length).length ≤ b.cells.length := by
        omega
      have hnone : memmove u (pos + d.length) pos d.length = none := by
        simp only [memmove, hread, Option.bind_eq_bind, Option.bind_some, write, hb, if_neg hout]
      rw [hnone]
      simp [hroom]

/-- An allocator with zeros in its memory. -/
def zeros : Allocator 1 UInt8 where
  malloc n := some ⟨4096, List.replicate n 0⟩
  length_cells n b h := by
    obtain rfl := Option.some.inj h
    simp

/-- A vector of two bytes. -/
def sevenNine : ByteVector :=
  { data := some ⟨64, [7, 9, 0, 0, 0, 0, 0, 0]⟩, size := 2, block := 8 }

theorem sound_sevenNine : sevenNine.Sound := by
  refine ⟨by simp [sevenNine], Or.inr ⟨3, le_rfl, rfl⟩, ?_, by decide⟩
  rintro b hb
  obtain rfl := Option.some.inj hb
  rfl

/-- In front of two bytes one is too few: only the first of them moves. -/
theorem insert_right_iff_front :
    ¬∃ v', insert zeros sevenNine 0 (some [5]) [(5 : UInt8)].length = some (v', 0) ∧
      v'.contents = sevenNine.contents.take 0 ++ [5] ++ sevenNine.contents.drop 0 := by
  rw [insert_right_iff zeros sound_sevenNine (by decide) (by decide) (by decide)]
  decide

end ByteVector

inductive VectorOp where
  | push (d : Bytes)
  | pop (size : ℕ)
  | erase (pos size : ℕ)
  deriving DecidableEq, Repr

/-- The value returned, or the bytes handed out. -/
inductive VectorAnswer where
  | code (value : ℤ)
  | popped (d : Bytes)
  deriving DecidableEq, Repr

/-- A call, with what the allocator answers to it. -/
structure VectorCall where
  op : VectorOp
  memory : Allocator 1 UInt8

/-- An erasure whose end is a `size_t`. -/
def VectorCall.InRange (c : VectorCall) : Prop :=
  match c.op with
  | .erase pos size => pos + size < 2^64
  | _ => True

instance (c : VectorCall) : Decidable c.InRange := by
  unfold VectorCall.InRange
  split <;> infer_instance

namespace ByteVector

def call (v : ByteVector) (c : VectorCall) : Option (ByteVector × VectorAnswer) :=
  match c.op with
  | .push d => (push c.memory v (some d) d.length).map fun r => (r.1, .code r.2)
  | .pop n => (pop c.memory v n).map fun r => (r.1, .popped r.2)
  | .erase pos n => (erase c.memory v pos n).map fun r => (r.1, .code r.2)

def run : ByteVector → List VectorCall → Option (ByteVector × List VectorAnswer)
  | v, [] => some (v, [])
  | v, c :: cs => do
    let r ← v.call c
    let rest ← run r.1 cs
    return (rest.1, r.2 :: rest.2)

/-- What a call may do to a list of bytes. Where no block is to be had, a push
changes nothing, a pop leaves what it hands out in the list, and an erasure
leaves the list as long as it was. -/
inductive ListStep : Bytes → VectorCall → VectorAnswer → Bytes → Prop
  | pushed (xs d : Bytes) (A : Allocator 1 UInt8) :
      ListStep xs ⟨.push d, A⟩ (.code 0) (xs ++ d)
  | refused (xs d : Bytes) (A : Allocator 1 UInt8) (h : ¬ A.Grants) :
      ListStep xs ⟨.push d, A⟩ (.code (-1)) xs
  | popped (xs : Bytes) (n : ℕ) (A : Allocator 1 UInt8) :
      ListStep xs ⟨.pop n, A⟩ (.popped (xs.drop (xs.length - n))) (xs.take (xs.length - n))
  | copied (xs : Bytes) (n : ℕ) (A : Allocator 1 UInt8) (h : ¬ A.Grants) :
      ListStep xs ⟨.pop n, A⟩ (.popped (xs.drop (xs.length - n))) xs
  | erased (xs : Bytes) (pos n : ℕ) (A : Allocator 1 UInt8) :
      ListStep xs ⟨.erase pos n, A⟩ (.code 0) (xs.take pos ++ xs.drop (pos + n))
  | moved (xs : Bytes) (pos n : ℕ) (A : Allocator 1 UInt8) (h : ¬ A.Grants) :
      ListStep xs ⟨.erase pos n, A⟩ (.code (-1))
        (xs.take pos ++ xs.drop (pos + n) ++ xs.drop (xs.length - min n (xs.length - pos)))

inductive ListRun : Bytes → List VectorCall → List VectorAnswer → Bytes → Prop
  | nil (xs : Bytes) : ListRun xs [] [] xs
  | cons {xs ys zs : Bytes} {c : VectorCall} {cs : List VectorCall} {a : VectorAnswer}
      {as : List VectorAnswer} (h : ListStep xs c a ys) (t : ListRun ys cs as zs) :
      ListRun xs (c :: cs) (a :: as) zs

theorem call_spec {v : ByteVector} (h : v.Sound) (c : VectorCall) (hc : c.InRange) :
    ∃ r, v.call c = some r ∧ r.1.Sound ∧ ListStep v.contents c r.2 r.1.contents := by
  rcases c with ⟨op, A⟩
  cases op with
  | push d =>
    obtain ⟨r, hr, hs, ⟨hz, hp⟩ | ⟨hz, hp, hA⟩⟩ := push_spec A h d
    · refine ⟨(r.1, .code r.2), by simp [call, hr], hs, ?_⟩
      rw [hp, hz]
      exact ListStep.pushed _ d A
    · refine ⟨(r.1, .code r.2), by simp [call, hr], hs, ?_⟩
      rw [hp, hz]
      exact ListStep.refused _ d A hA
  | pop n =>
    obtain ⟨r, hr, hs, hd, hp | ⟨hp, hA⟩⟩ := pop_spec A h n
    · refine ⟨(r.1, .popped r.2), by simp [call, hr], hs, ?_⟩
      rw [hp, hd]
      exact ListStep.popped _ n A
    · refine ⟨(r.1, .popped r.2), by simp [call, hr], hs, ?_⟩
      rw [hp, hd]
      exact ListStep.copied _ n A hA
  | erase pos n =>
    obtain ⟨r, hr, hs, ⟨hz, hp⟩ | ⟨hz, hp, hA⟩⟩ := erase_spec A h pos n hc
    · refine ⟨(r.1, .code r.2), by simp [call, hr], hs, ?_⟩
      rw [hp, hz]
      exact ListStep.erased _ pos n A
    · refine ⟨(r.1, .code r.2), by simp [call, hr], hs, ?_⟩
      rw [hp, hz]
      exact ListStep.moved _ pos n A hA

theorem run_spec {v : ByteVector} (h : v.Sound) {cs : List VectorCall}
    (hcs : ∀ c ∈ cs, c.InRange) :
    ∃ r, v.run cs = some r ∧ r.1.Sound ∧ ListRun v.contents cs r.2 r.1.contents := by
  induction cs generalizing v with
  | nil => exact ⟨(v, []), rfl, h, ListRun.nil _⟩
  | cons c cs ih =>
    obtain ⟨r, hr, hs, hstep⟩ := call_spec h c (hcs c List.mem_cons_self)
    obtain ⟨rest, hrest, hs', hrun⟩ := ih hs fun c hc => hcs c (List.mem_cons_of_mem _ hc)
    exact ⟨(rest.1, r.2 :: rest.2), by simp [run, hr, hrest], hs', ListRun.cons hstep hrun⟩

/-- An allocator that has no memory left. -/
def exhausted : Allocator 1 UInt8 where
  malloc _ := none
  length_cells n b h := by simp at h

end ByteVector

end HttpsProxy
