import HttpsProxy.ProxyCommon
import HttpsProxy.Sextets
import Mathlib.Data.Nat.Bitwise

/-! `Base64Encode` and `Base64Decode` against the encoding of RFC 4648. The
encoder patches its last character through the decode table, and pads by the
phase it ends in; the decoder skips the padding. -/
namespace HttpsProxy

set_option maxRecDepth 4000 in
/-- The three tables agree on the six-bit values. -/
theorem tables_agree : ∀ v < 64, b64Char v = base64Char v ∧ b64Value (base64Char v) = v ∧
    b64Index (base64Char v) = some (v : ℤ) := by decide

/-- Bits set below a multiple of a power of two are added to it. -/
theorem mul_or {b n : ℕ} (a : ℕ) (h : b < 2^n) : a * 2^n ||| b = a * 2^n + b := by
  rw [← Nat.shiftLeft_eq, ← Nat.shiftLeft_add_eq_or_of_lt h]

theorem b64Put_of_lt {size : ℕ} {space : Bytes} (c : UInt8) (h : space.length < size) :
    b64Put size c space = some (space ++ [c]) := if_pos h

/-- The last character is patched by decoding it, setting bits and encoding it. -/
theorem b64Or_concat {v bits n : ℕ} (space : Bytes) (hb : bits < 2^n) (h : v * 2^n + bits < 64) :
    b64Or bits (space ++ [base64Char (v * 2^n)]) = space ++ [base64Char (v * 2^n + bits)] := by
  have hval : b64Value (base64Char (v * 2^n)) = v * 2^n := (tables_agree _ (by omega)).2.1
  have hchar : b64Char (v * 2^n + bits) = base64Char (v * 2^n + bits) := (tables_agree _ h).1
  simp only [b64Or, List.dropLast_concat, List.getLastD_concat, hval, mul_or v hb, hchar]

theorem b64Pad_of_le {size k : ℕ} {space : Bytes} (h : space.length + k ≤ size) :
    b64Pad size k space =
      (((space.length + k : ℕ) : ℤ), space ++ List.replicate k 61) := by
  induction k generalizing space with
  | zero => simp [b64Pad]
  | succ k ih =>
    have hput := b64Put_of_lt 61 (show space.length < size by omega)
    have hlen : (space ++ [61]).length + k ≤ size := by
      rw [List.length_append, List.length_singleton]
      omega
    simp only [b64Pad, hput, ih hlen, List.replicate_succ, List.append_assoc, List.singleton_append,
      List.length_append, List.length_singleton, Nat.add_assoc, Nat.add_comm 1 k]

/-- A text too long for the buffer is refused while it is padded. -/
theorem b64Pad_of_gt {size k : ℕ} {space : Bytes} (hs : space.length ≤ size)
    (h : size < space.length + k) : (b64Pad size k space).1 = -1 := by
  induction k generalizing space with
  | zero => omega
  | succ k ih =>
    by_cases hlt : space.length < size
    · have hlen : (space ++ [61]).length = space.length + 1 := by
        rw [List.length_append, List.length_singleton]
      simp only [b64Pad, b64Put_of_lt 61 hlt]
      exact ih (by omega) (by omega)
    · simp only [b64Pad, b64Put, if_neg hlt]

section Phases

/-! One round of the encoding loop in each of its phases. -/

variable {size : ℕ} {s space : Bytes}

theorem b64Loop_zero (a : UInt8) (h : space.length + 2 ≤ size) :
    b64Loop size (a :: s) 0 space =
      b64Loop size s 1 (space ++ [base64Char (a.toNat / 4)] ++ [base64Char (a.toNat % 4 * 16)]) := by
  have ha := a.toNat_lt
  have hhi : a.toNat >>> 2 = a.toNat / 4 := Nat.shiftRight_eq_div_pow _ 2
  have hlo : (a.toNat &&& 0x3) <<< 4 = a.toNat % 4 * 16 := by
    rw [Nat.shiftLeft_eq]
    exact congrArg (· * 2^4) (Nat.and_two_pow_sub_one_eq_mod _ 2)
  have hput := b64Put_of_lt (base64Char (a.toNat / 4)) (show space.length < size by omega)
  have hput' := b64Put_of_lt (base64Char (a.toNat % 4 * 16))
    (show (space ++ [base64Char (a.toNat / 4)]).length < size by simp; omega)
  simp only [b64Loop, hhi, hlo, (tables_agree (a.toNat / 4) (by omega)).1,
    (tables_agree (a.toNat % 4 * 16) (by omega)).1, hput, hput']

theorem b64Loop_one (b : UInt8) {v : ℕ} (hv : v < 4) (h : space.length + 2 ≤ size) :
    b64Loop size (b :: s) 1 (space ++ [base64Char (v * 16)]) =
      b64Loop size s 2 (space ++ [base64Char (v * 16 + b.toNat / 16)] ++
        [base64Char (b.toNat % 16 * 4)]) := by
  have hb := b.toNat_lt
  have hhi : b.toNat >>> 4 = b.toNat / 16 := Nat.shiftRight_eq_div_pow _ 4
  have hlo : (b.toNat &&& 0xf) <<< 2 = b.toNat % 16 * 4 := by
    rw [Nat.shiftLeft_eq]
    exact congrArg (· * 2^2) (Nat.and_two_pow_sub_one_eq_mod _ 4)
  have hor : b64Or (b.toNat / 16) (space ++ [base64Char (v * 16)]) =
      space ++ [base64Char (v * 16 + b.toNat / 16)] :=
    b64Or_concat (n := 4) space (by omega) (by omega)
  have hput := b64Put_of_lt (base64Char (b.toNat % 16 * 4))
    (show (space ++ [base64Char (v * 16 + b.toNat / 16)]).length < size by simp; omega)
  simp only [b64Loop, hhi, hlo, (tables_agree (b.toNat % 16 * 4) (by omega)).1, hor, hput]

theorem b64Loop_two (c : UInt8) {v : ℕ} (hv : v < 16) (h : space.length + 2 ≤ size) :
    b64Loop size (c :: s) 2 (space ++ [base64Char (v * 4)]) =
      b64Loop size s 0 (space ++ [base64Char (v * 4 + c.toNat / 64)] ++
        [base64Char (c.toNat % 64)]) := by
  have hc := c.toNat_lt
  have hhi : c.toNat >>> 6 = c.toNat / 64 := Nat.shiftRight_eq_div_pow _ 6
  have hlo : c.toNat &&& 0x3f = c.toNat % 64 := Nat.and_two_pow_sub_one_eq_mod _ 6
  have hor : b64Or (c.toNat / 64) (space ++ [base64Char (v * 4)]) =
      space ++ [base64Char (v * 4 + c.toNat / 64)] :=
    b64Or_concat (n := 2) space (by omega) (by omega)
  have hput := b64Put_of_lt (base64Char (c.toNat % 64))
    (show (space ++ [base64Char (v * 4 + c.toNat / 64)]).length < size by simp; omega)
  simp only [b64Loop, hhi, hlo, (tables_agree (c.toNat % 64) (by omega)).1, hor, hput]

end Phases

/-- The loop writes the six-bit values and pads by the phase it ends in, which
is three characters after a whole group. -/
theorem b64Loop_eq {size : ℕ} (x space : Bytes) (h : space.length + (sextets x).length ≤ size) :
    b64Loop size x 0 space =
      b64Pad size (3 - x.length % 3) (space ++ (sextets x).map base64Char) := by
  induction x using sextets.induct generalizing space with
  | case1 => simp [b64Loop, sextets]
  | case2 a =>
    simp only [sextets, List.length_cons, List.length_nil] at h
    rw [b64Loop_zero a (by omega)]
    simp [b64Loop, sextets, sextet_zero, sextet_one]
  | case3 a b =>
    simp only [sextets, List.length_cons, List.length_nil] at h
    rw [b64Loop_zero a (by omega), b64Loop_one b (Nat.mod_lt _ (by decide)) (by simp; omega)]
    simp [b64Loop, sextets, sextet_zero, sextet_one, sextet_two]
  | case4 a b c s ih =>
    simp only [sextets, List.length_cons] at h
    rw [b64Loop_zero a (by omega), b64Loop_one b (Nat.mod_lt _ (by decide)) (by simp; omega),
      b64Loop_two c (Nat.mod_lt _ (by decide)) (by simp; omega), ih _ (by simp; omega)]
    have hphase : (s.length + 1 + 1 + 1) % 3 = s.length % 3 := by omega
    simp [hphase, sextets, sextet_zero, sextet_one, sextet_two, sextet_three]

/-- With room for the padding the whole text is returned. -/
theorem Base64Encode_of_le {x : Bytes} {size : ℕ} (hx : x ≠ [])
    (h : (sextets x).length + (3 - x.length % 3) ≤ size) :
    Base64Encode x size = ((((sextets x).length + (3 - x.length % 3) : ℕ) : ℤ),
      (sextets x).map base64Char ++ List.replicate (3 - x.length % 3) 61) := by
  rw [Base64Encode, if_neg hx, b64Loop_eq x [] (by simp; omega), List.nil_append, b64Pad_of_le]
  · rw [List.length_map]
  · rwa [List.length_map]

/-- The text returned has the length of the six-bit values and the padding, or none at all. -/
theorem Base64Encode_fst {x : Bytes} {size : ℕ} (hx : x ≠ []) (h : (sextets x).length ≤ size) :
    (Base64Encode x size).1 = -1 ∨
      (Base64Encode x size).1 = ((sextets x).length + (3 - x.length % 3) : ℕ) := by
  by_cases hpad : (sextets x).length + (3 - x.length % 3) ≤ size
  · exact Or.inr (congrArg Prod.fst (Base64Encode_of_le hx hpad))
  · left
    rw [Base64Encode, if_neg hx, b64Loop_eq x [] (by simpa using h), List.nil_append]
    exact b64Pad_of_gt (by rwa [List.length_map]) (by rw [List.length_map]; omega)

/-- `Base64Encode` meets the encoding of RFC 4648, when there is room for that,
exactly on the byte strings that do not end with a whole group: the loop
`while (phase++ < 3)` writes `"==="` in phase 0. -/
theorem Base64Encode_conforms_iff (x : Bytes) (size : ℕ) (hx : x ≠ [])
    (hsize : 4 * ((x.length + 2) / 3) ≤ size) :
    Base64Encode x size = (((4 * ((x.length + 2) / 3) : ℕ) : ℤ), base64 x) ↔ x.length % 3 ≠ 0 := by
  have hlen := sextets_length x
  have hmod : x.length % 3 < 3 := Nat.mod_lt _ (by decide)
  constructor
  -- the code pads by `3 - length % 3`, also when nothing is missing: three characters too many
  · intro h h0
    have hpad : padding x.length = 0 := by simp [padding, h0]
    have hfst : (Base64Encode x size).1 = ((4 * ((x.length + 2) / 3) : ℕ) : ℤ) := by rw [h]
    rcases Base64Encode_fst hx (show (sextets x).length ≤ size by omega) with h1 | h1 <;> omega
  · intro h0
    have hpad : padding x.length = 3 - x.length % 3 := Nat.mod_eq_of_lt (by omega)
    rw [hpad] at hlen
    rw [Base64Encode_of_le hx (hlen ▸ hsize), hlen, base64, hpad]

theorem Base64Encode_conforms_ab : Base64Encode [97, 98] 4 = (4, base64 [97, 98]) :=
  (Base64Encode_conforms_iff [97, 98] 4 (by decide) (by decide)).mpr (by decide)

/-- Three bytes are encoded in seven characters. -/
theorem Base64Encode_abc :
    ([97, 98, 99] : Bytes) ≠ [] ∧ 4 * ((([97, 98, 99] : Bytes).length + 2) / 3) ≤ 8 ∧
    base64 [97, 98, 99] = ascii "YWJj" ∧ Base64Encode [97, 98, 99] 8 = (7, ascii "YWJj===") := by
  decide

/-- The decoder skips the padding. -/
theorem b64DecodeLoop_padding (size k phase prev_d : ℕ) (space : Bytes) :
    b64DecodeLoop size (List.replicate k 61) phase prev_d space =
      some ((space.length : ℤ), space) := by
  have hskip : b64Index 61 = some (-1) := by decide
  induction k with
  | zero => rw [List.replicate_zero, b64DecodeLoop]
  | succ k ih => simpa only [List.replicate_succ, b64DecodeLoop, hskip, if_pos] using ih

section DecodePhases

/-! One round of the decoding loop in each of its phases; the value of the last
character stays in `prev_d`. -/

variable {size : ℕ} {cs space : Bytes}

theorem b64DecodeLoop_zero {i : ℕ} (hi : i < 64) (prev_d : ℕ) :
    b64DecodeLoop size (base64Char i :: cs) 0 prev_d space = b64DecodeLoop size cs 1 i space := by
  have hne : (i : ℤ) ≠ -1 := by omega
  simp only [b64DecodeLoop, (tables_agree i hi).2.2, if_neg hne, Int.toNat_natCast]

theorem b64DecodeLoop_one {i j : ℕ} (hj : j < 64) (h : space.length < size) :
    b64DecodeLoop size (base64Char j :: cs) 1 i space =
      b64DecodeLoop size cs 2 j (space ++ [(i * 4 + j / 16).toUInt8]) := by
  have hne : (j : ℤ) ≠ -1 := by omega
  have hhi : (j &&& 0x30) >>> 4 = j / 16 := by
    rw [Nat.shiftRight_and_distrib, Nat.shiftRight_eq_div_pow]
    exact (Nat.and_two_pow_sub_one_eq_mod (j / 2^4) 2).trans (Nat.mod_eq_of_lt (by omega))
  have hor : i <<< 2 ||| j / 16 = i * 4 + j / 16 := by
    rw [Nat.shiftLeft_eq]
    exact mul_or (n := 2) i (by omega)
  simp only [b64DecodeLoop, (tables_agree j hj).2.2, if_neg hne, Int.toNat_natCast, hhi, hor,
    b64Put_of_lt _ h]

theorem b64DecodeLoop_two {j k : ℕ} (hk : k < 64) (h : space.length < size) :
    b64DecodeLoop size (base64Char k :: cs) 2 j space =
      b64DecodeLoop size cs 3 k (space ++ [(j % 16 * 16 + k / 4).toUInt8]) := by
  have hne : (k : ℤ) ≠ -1 := by omega
  have hlo : j &&& 0xf = j % 16 := Nat.and_two_pow_sub_one_eq_mod j 4
  have hhi : (k &&& 0x3c) >>> 2 = k / 4 := by
    rw [Nat.shiftRight_and_distrib, Nat.shiftRight_eq_div_pow]
    exact (Nat.and_two_pow_sub_one_eq_mod (k / 2^2) 4).trans (Nat.mod_eq_of_lt (by omega))
  have hor : (j % 16) <<< 4 ||| k / 4 = j % 16 * 16 + k / 4 := by
    rw [Nat.shiftLeft_eq]
    exact mul_or (n := 4) _ (by omega)
  simp only [b64DecodeLoop, (tables_agree k hk).2.2, if_neg hne, Int.toNat_natCast, hlo, hhi, hor,
    b64Put_of_lt _ h]

theorem b64DecodeLoop_three {k l : ℕ} (hl : l < 64) (h : space.length < size) :
    b64DecodeLoop size (base64Char l :: cs) 3 k space =
      b64DecodeLoop size cs 0 l (space ++ [(k % 4 * 64 + l).toUInt8]) := by
  have hne : (l : ℤ) ≠ -1 := by omega
  have hlo : k &&& 0x03 = k % 4 := Nat.and_two_pow_sub_one_eq_mod k 2
  have hor : (k % 4) <<< 6 ||| l = k % 4 * 64 + l := by
    rw [Nat.shiftLeft_eq]
    exact mul_or (n := 6) _ hl
  simp only [b64DecodeLoop, (tables_agree l hl).2.2, if_neg hne, Int.toNat_natCast, hlo, hor,
    b64Put_of_lt _ h]

end DecodePhases

/-- The decoder reads six-bit values back in bytes, whatever padding follows. -/
theorem b64DecodeLoop_eq {size : ℕ} (vs : List ℕ) (prev_d n : ℕ) (space : Bytes)
    (hvs : ∀ v ∈ vs, v < 64) (h : space.length + (octets vs).length ≤ size) :
    b64DecodeLoop size (vs.map base64Char ++ List.replicate n 61) 0 prev_d space =
      some (((space ++ octets vs).length : ℤ), space ++ octets vs) := by
  induction vs using octets.induct generalizing prev_d space with
  | case1 => simpa [octets] using b64DecodeLoop_padding size n 0 prev_d space
  | case2 i =>
    have hi : i < 64 := hvs i (by simp)
    simp only [List.map_cons, List.cons_append, List.map_nil, List.nil_append]
    rw [b64DecodeLoop_zero hi, b64DecodeLoop_padding]
    simp [octets]
  | case3 i j =>
    have hi : i < 64 := hvs i (by simp)
    have hj : j < 64 := hvs j (by simp)
    simp only [octets, List.length_cons] at h
    simp only [List.map_cons, List.cons_append, List.map_nil, List.nil_append]
    rw [b64DecodeLoop_zero hi, b64DecodeLoop_one hj (by omega), b64DecodeLoop_padding]
    simp [octets]
  | case4 i j k =>
    have hi : i < 64 := hvs i (by simp)
    have hj : j < 64 := hvs j (by simp)
    have hk : k < 64 := hvs k (by simp)
    simp only [octets, List.length_cons] at h
    simp only [List.map_cons, List.cons_append, List.map_nil, List.nil_append]
    rw [b64DecodeLoop_zero hi, b64DecodeLoop_one hj (by omega),
      b64DecodeLoop_two hk (by simp; omega), b64DecodeLoop_padding]
    simp [octets]
  | case5 i j k l t ih =>
    have hi : i < 64 := hvs i (by simp)
    have hj : j < 64 := hvs j (by simp)
    have hk : k < 64 := hvs k (by simp)
    have hl : l < 64 := hvs l (by simp)
    have ht : ∀ v ∈ t, v < 64 := fun v hv => hvs v (by simp [hv])
    simp only [octets, List.length_cons] at h
    simp only [List.map_cons, List.cons_append]
    rw [b64DecodeLoop_zero hi, b64DecodeLoop_one hj (by omega),
      b64DecodeLoop_two hk (by simp; omega), b64DecodeLoop_three hl (by simp; omega),
      ih _ _ ht (by simp; omega)]
    simp [octets]

/-- With the safe margin for the encoder and room for the original, decoding
gives the original back, for every residue of its length. -/
theorem Base64_roundTrip (x : Bytes) (size dsize : ℕ) (hx : x ≠ [])
    (hsize : 3 * x.length / 2 + 5 ≤ size) (hdsize : x.length ≤ dsize) :
    ∃ out : Bytes, Base64Encode x size = ((out.length : ℤ), out) ∧
      Base64Decode out dsize = some ((x.length : ℤ), x) := by
  have hlen := sextets_length x
  have hpos : 0 < x.length := List.length_pos_iff.mpr hx
  -- the bound leaves room for the superfluous padding as well
  have hmargin : 4 * ((x.length + 2) / 3) + (3 - x.length % 3) ≤ 3 * x.length / 2 + 5 := by
    rcases (show x.length % 3 = 0 ∨ x.length % 3 = 1 ∨ x.length % 3 = 2 by omega) with h | h | h
    all_goals
      rw [h]
      omega
  refine ⟨(sextets x).map base64Char ++ List.replicate (3 - x.length % 3) 61, ?_, ?_⟩
  · rw [Base64Encode_of_le hx (by omega), List.length_append, List.length_map,
      List.length_replicate]
  -- the decoder skips every `=`, so it does not notice how many there are
  · have hne : (sextets x).map base64Char ++ List.replicate (3 - x.length % 3) 61 ≠ [] := by
      apply List.append_ne_nil_of_right_ne_nil
      rw [Ne, List.replicate_eq_nil_iff]
      omega
    have hroom : ([] : Bytes).length + (octets (sextets x)).length ≤ dsize := by
      rw [octets_sextets, List.length_nil, Nat.zero_add]
      exact hdsize
    rw [Base64Decode, if_neg hne, b64DecodeLoop_eq _ _ _ _ (fun v hv => sextets_lt hv) hroom,
      List.nil_append, octets_sextets]

theorem Base64_roundTrip_abcd :
    ∃ out : Bytes, Base64Encode [97, 98, 99, 100] 11 = ((out.length : ℤ), out) ∧
      Base64Decode out 4 = some (4, [97, 98, 99, 100]) :=
  Base64_roundTrip [97, 98, 99, 100] 11 4 (by decide) (by decide) (by decide)

end HttpsProxy
