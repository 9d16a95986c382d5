import HttpsProxy.ProxyCommon

/-! The numbers that `printf` writes: `%d`, and `%d` filled up with zeros. -/
namespace HttpsProxy

/-- `%0<w>d` of a number that is not negative. -/
def zeroPadded (w n : ℕ) : Bytes := List.replicate (w - (decimal n).length) 48 ++ decimal n

/-- The characters of a number: a sign or a digit. -/
theorem decimal_eq (n : ℤ) : decimal n = (if n < 0 then [45] else []) ++
    (Nat.toDigits 10 n.natAbs).map fun c => c.toNat.toUInt8 := by
  rw [decimal, ascii, Int.toString_eq_repr, Int.repr_eq_if]
  by_cases hn : 0 ≤ n
  · have habs : n.toNat = n.natAbs := by omega
    rw [if_pos hn, if_neg (not_lt.mpr hn), Nat.toList_repr, habs]
    rfl
  · have habs : (-n).toNat = n.natAbs := by omega
    rw [if_neg hn, if_pos (not_le.mp hn), String.toList_append, List.map_append, Nat.toList_repr, habs]
    rfl

theorem digit_range {n : ℕ} {c : Char} (hc : c ∈ Nat.toDigits 10 n) : 48 ≤ c.toNat ∧ c.toNat ≤ 57 := by
  have hdigit := Nat.isDigit_of_mem_toDigits (by decide) (by decide) hc
  simpa [Char.isDigit, UInt32.le_iff_toNat_le] using hdigit

theorem digit_byte {n : ℕ} {c : Char} (hc : c ∈ Nat.toDigits 10 n) : c.toNat.toUInt8.toNat = c.toNat := by
  have hrange := digit_range hc
  exact Nat.mod_eq_of_lt (show c.toNat < 256 by omega)

theorem decimal_chars {n : ℤ} {b : UInt8} (hb : b ∈ decimal n) : b = 45 ∨ 48 ≤ b.toNat ∧ b.toNat ≤ 57 := by
  rw [decimal_eq] at hb
  rcases List.mem_append.mp hb with hb | hb
  · split at hb
    · exact Or.inl (List.mem_singleton.mp hb)
    · cases hb
  · obtain ⟨c, hc, rfl⟩ := List.mem_map.mp hb
    rw [digit_byte hc]
    exact Or.inr (digit_range hc)

/-- An `int` has at most eleven characters. -/
theorem decimal_length {n : ℤ} (h : n.natAbs ≤ 2^31) : (decimal n).length ≤ 11 := by
  have hdigits : (Nat.toDigits 10 n.natAbs).length ≤ 10 :=
    (Nat.length_toDigits_le_iff (by decide) (by decide)).mpr (by omega)
  have hsign : (if n < 0 then [45] else [] : Bytes).length ≤ 1 := by
    split <;> decide
  rw [decimal_eq, List.length_append, List.length_map]
  omega

section Padded

theorem decimal_natCast (n : ℕ) : decimal n = (Nat.toDigits 10 n).map fun c => c.toNat.toUInt8 := by
  rw [decimal_eq, if_neg (by omega), List.nil_append, Int.natAbs_natCast]

theorem zeroPadded_length {w n : ℕ} (hw : 0 < w) (hn : n < 10^w) : (zeroPadded w n).length = w := by
  have hlen : (decimal n).length ≤ w := by
    rw [decimal_natCast, List.length_map]
    exact (Nat.length_toDigits_le_iff (by decide) hw).mpr hn
  rw [zeroPadded, List.length_append, List.length_replicate]
  omega

/-- The number that a row of digits stands for. -/
def digitsValue (s : Bytes) : ℕ := s.foldl (fun a c => 10*a + (c.toNat - 48)) 0

theorem digitsValue_from (s : Bytes) (a : ℕ) :
    s.foldl (fun a c => 10*a + (c.toNat - 48)) a = a * 10^s.length + digitsValue s := by
  induction s generalizing a with
  | nil => simp [digitsValue]
  | cons c s ih =>
    simp only [digitsValue, List.foldl_cons, List.length_cons]
    rw [ih, ih (10 * 0 + (c.toNat - 48))]
    ring

theorem digitsValue_cons (c : UInt8) (s : Bytes) :
    digitsValue (c :: s) = (c.toNat - 48) * 10^s.length + digitsValue s := by
  rw [digitsValue, List.foldl_cons, digitsValue_from, Nat.mul_zero, Nat.zero_add]

theorem zeroPadded_chars {w n : ℕ} {b : UInt8} (hb : b ∈ zeroPadded w n) : 48 ≤ b.toNat ∧ b.toNat ≤ 57 := by
  rcases List.mem_append.mp hb with hb | hb
  · rw [List.eq_of_mem_replicate hb]
    decide
  · rw [decimal_natCast] at hb
    obtain ⟨c, hc, rfl⟩ := List.mem_map.mp hb
    rw [digit_byte hc]
    exact digit_range hc

/-- Reading the digits gives the number back. -/
theorem digitsValue_zeroPadded (w n : ℕ) : digitsValue (zeroPadded w n) = n := by
  have hzeros (k : ℕ) : digitsValue (List.replicate k 48) = 0 := by
    induction k with
    | zero => rfl
    | succ k ih =>
      rw [List.replicate_succ, digitsValue_cons, ih]
      simp
  have hchars (cs : List Char) (hcs : ∀ c ∈ cs, c.toNat.toUInt8.toNat = c.toNat) (a : ℕ) :
      (cs.map fun c => c.toNat.toUInt8).foldl (fun a c => 10*a + (c.toNat - 48)) a =
        Nat.ofDigitChars 10 cs a := by
    induction cs generalizing a with
    | nil => rfl
    | cons c cs ih =>
      rw [List.map_cons, List.foldl_cons, hcs c List.mem_cons_self, Nat.ofDigitChars_cons]
      exact ih (fun d hd => hcs d (List.mem_cons_of_mem _ hd)) _
  rw [zeroPadded, digitsValue, List.foldl_append, ← digitsValue, hzeros, decimal_natCast,
    hchars _ fun c hc => digit_byte hc]
  exact Nat.ofDigitChars_ten_toDigits

end Padded

end HttpsProxy
