import HttpsProxy.Bytes

/-! The base 64 encoding of RFC 4648: three bytes make a group of 24 bits, and
a group is written as four characters of six bits each. -/
namespace HttpsProxy

/-- The base 64 alphabet. -/
def base64Char (v : ℕ) : UInt8 :=
  if v < 26 then (65 + v).toUInt8
  else if v < 52 then (97 + (v - 26)).toUInt8
  else if v < 62 then (48 + (v - 52)).toUInt8
  else if v = 62 then 43 else 47

/-- The 24 bits of three bytes, the first byte the most significant. -/
def group24 (a b c : UInt8) : ℕ := a.toNat * 2^16 + b.toNat * 2^8 + c.toNat

/-- The six-bit digits of a group, digit 0 the most significant. -/
def sextet (g i : ℕ) : ℕ := g / 2^(6 * (3 - i)) % 64

/-- The six-bit values of a byte string; a last group of one or two bytes is
filled up with zero bits and keeps only the digits it reaches. -/
def sextets : Bytes → List ℕ
  | [] => []
  | [a] => [sextet (group24 a 0 0) 0, sextet (group24 a 0 0) 1]
  | [a, b] =>
    [sextet (group24 a b 0) 0, sextet (group24 a b 0) 1, sextet (group24 a b 0) 2]
  | a :: b :: c :: s =>
    sextet (group24 a b c) 0 :: sextet (group24 a b c) 1 ::
      sextet (group24 a b c) 2 :: sextet (group24 a b c) 3 :: sextets s

/-- How many characters the last group of `n` bytes lacks. -/
def padding (n : ℕ) : ℕ := (3 - n % 3) % 3

/-- The encoding of RFC 4648, padded with `'='`. -/
def base64 (x : Bytes) : Bytes :=
  (sextets x).map base64Char ++ List.replicate (padding x.length) 61

/-- The bytes of a row of six-bit values; bits that fill no byte are dropped. -/
def octets : List ℕ → Bytes
  | [] => []
  | [_] => []
  | [i, j] => [(i * 4 + j / 16).toUInt8]
  | [i, j, k] => [(i * 4 + j / 16).toUInt8, (j % 16 * 16 + k / 4).toUInt8]
  | i :: j :: k :: l :: t =>
    (i * 4 + j / 16).toUInt8 :: (j % 16 * 16 + k / 4).toUInt8 ::
      (k % 4 * 64 + l).toUInt8 :: octets t

theorem sextet_lt (g i : ℕ) : sextet g i < 64 := Nat.mod_lt _ (by decide)

section Digits

variable (a b c : UInt8)

/-! The four digits of a group, by the bytes they take their bits from. -/

theorem sextet_zero : sextet (group24 a b c) 0 = a.toNat / 4 := by
  have ha := a.toNat_lt
  have hb := b.toNat_lt
  have hc := c.toNat_lt
  unfold sextet group24
  omega

theorem sextet_one : sextet (group24 a b c) 1 = a.toNat % 4 * 16 + b.toNat / 16 := by
  have hb := b.toNat_lt
  have hc := c.toNat_lt
  unfold sextet group24
  omega

theorem sextet_two : sextet (group24 a b c) 2 = b.toNat % 16 * 4 + c.toNat / 64 := by
  have hc := c.toNat_lt
  unfold sextet group24
  omega

theorem sextet_three : sextet (group24 a b c) 3 = c.toNat % 64 := by
  unfold sextet group24
  omega

end Digits

theorem sextets_lt {x : Bytes} {v : ℕ} (hv : v ∈ sextets x) : v < 64 := by
  induction x using sextets.induct with
  | case1 => cases hv
  | case2 a =>
    simp only [sextets, List.mem_cons, List.not_mem_nil, or_false] at hv
    rcases hv with rfl | rfl <;> exact sextet_lt _ _
  | case3 a b =>
    simp only [sextets, List.mem_cons, List.not_mem_nil, or_false] at hv
    rcases hv with rfl | rfl | rfl <;> exact sextet_lt _ _
  | case4 a b c s ih =>
    simp only [sextets, List.mem_cons] at hv
    rcases hv with rfl | rfl | rfl | rfl | hv
    · exact sextet_lt _ _
    · exact sextet_lt _ _
    · exact sextet_lt _ _
    · exact sextet_lt _ _
    · exact ih hv

/-- A byte string has four characters for three bytes, the padding counted. -/
theorem sextets_length (x : Bytes) :
    (sextets x).length + padding x.length = 4 * ((x.length + 2) / 3) := by
  induction x using sextets.induct with
  | case1 => rfl
  | case2 a => simp [sextets, padding]
  | case3 a b => simp [sextets, padding]
  | case4 a b c s ih =>
    simp only [sextets, padding, List.length_cons] at ih ⊢
    omega

/-- The six-bit values determine the bytes. -/
theorem octets_sextets (x : Bytes) : octets (sextets x) = x := by
  have hbyte (a : UInt8) (n : ℕ) (h : n = a.toNat) : n.toUInt8 = a := by
    rw [h]
    exact UInt8.ofNat_toNat
  induction x using sextets.induct with
  | case1 => rfl
  | case2 a =>
    have ha : a.toNat / 4 * 4 + (a.toNat % 4 * 16 + (0 : UInt8).toNat / 16) / 16 = a.toNat := by
      have h0 : (0 : UInt8).toNat = 0 := rfl
      omega
    simp only [sextets, octets, sextet_zero, sextet_one, hbyte a _ ha]
  | case3 a b =>
    have hb := b.toNat_lt
    have h0 : (0 : UInt8).toNat = 0 := rfl
    have ha : a.toNat / 4 * 4 + (a.toNat % 4 * 16 + b.toNat / 16) / 16 = a.toNat := by omega
    have hb : (a.toNat % 4 * 16 + b.toNat / 16) % 16 * 16 +
        (b.toNat % 16 * 4 + (0 : UInt8).toNat / 64) / 4 = b.toNat := by omega
    simp only [sextets, octets, sextet_zero, sextet_one, sextet_two, hbyte a _ ha, hbyte b _ hb]
  | case4 a b c s ih =>
    have hb := b.toNat_lt
    have hc := c.toNat_lt
    have ha : a.toNat / 4 * 4 + (a.toNat % 4 * 16 + b.toNat / 16) / 16 = a.toNat := by omega
    have hb : (a.toNat % 4 * 16 + b.toNat / 16) % 16 * 16 +
        (b.toNat % 16 * 4 + c.toNat / 64) / 4 = b.toNat := by omega
    have hc : (b.toNat % 16 * 4 + c.toNat / 64) % 4 * 64 + c.toNat % 64 = c.toNat := by omega
    simp only [sextets, octets, sextet_zero, sextet_one, sextet_two, sextet_three, hbyte a _ ha,
      hbyte b _ hb, hbyte c _ hc, ih]

end HttpsProxy
