import Mathlib.Data.List.Basic
import Mathlib.Data.List.TakeWhile
import Mathlib.Tactic.Ring
import Mathlib.Tactic.Linarith

/-! Byte strings as the C code sees them: NUL-terminated text inside a buffer,
`memcpy` into a buffer, and the in-memory image of a `size_t`. -/
namespace HttpsProxy

abbrev Bytes := List UInt8

/-- The bytes of an ASCII literal. -/
def ascii (s : String) : Bytes := s.toList.map fun c => c.toNat.toUInt8

def CR : UInt8 := 13
def LF : UInt8 := 10

def CRLF : Bytes := [CR, LF]

/-- The C string at the start of a buffer: everything before the first NUL. -/
def cstr (buf : Bytes) : Bytes := buf.takeWhile (· ≠ 0)

def strlen (buf : Bytes) : ℕ := (cstr buf).length

/-- `memcpy(buf + off, data, n)`. -/
def memcpy (buf : Bytes) (off : ℕ) (data : Bytes) : Bytes :=
  buf.take off ++ data ++ buf.drop (off + data.length)

/-- The `k` bytes of an unsigned integer in memory, least significant first. -/
def leBytes : ℕ → ℕ → Bytes
  | 0, _ => []
  | k+1, n => (n % 256).toUInt8 :: leBytes k (n / 256)

def ofLe : Bytes → ℕ
  | [] => 0
  | b :: bs => b.toNat + 256 * ofLe bs

@[simp] theorem leBytes_length (k n : ℕ) : (leBytes k n).length = k := by
  induction k generalizing n with
  | zero => rfl
  | succ k ih => simp only [leBytes, List.length_cons, ih]

theorem ofLe_leBytes (k n : ℕ) (h : n < 256^k) : ofLe (leBytes k n) = n := by
  induction k generalizing n with
  | zero =>
    have hn : n = 0 := by simpa using h
    simp [leBytes, ofLe, hn]
  | succ k ih =>
    have hd : n / 256 < 256^k := by
      apply Nat.div_lt_of_lt_mul
      rwa [pow_succ, mul_comm] at h
    have hb : (n % 256).toUInt8.toNat = n % 256 := by
      simp [Nat.toUInt8]
    simp only [leBytes, ofLe, hb, ih _ hd]
    omega

theorem cstr_eq_self {s : Bytes} (h : 0 ∉ s) : cstr s = s := by
  apply List.takeWhile_eq_self_iff.mpr
  intro b hb
  exact decide_eq_true fun h0 => h (h0 ▸ hb)

theorem zero_notMem_cstr (s : Bytes) : 0 ∉ cstr s := by
  intro h
  simpa using List.mem_takeWhile_imp h

/-- A NUL ends the text, wherever it comes. -/
theorem cstr_before_zero (s t : Bytes) : cstr (s ++ 0 :: t) = cstr s := by
  induction s with
  | nil => rfl
  | cons b s ih =>
    by_cases hb : b = 0
    · simp [cstr, hb]
    · simpa [cstr, hb] using ih

theorem cstr_append (s t : Bytes) (h : 0 ∉ s) : cstr (s ++ t) = s ++ cstr t := by
  induction s with
  | nil => rfl
  | cons b s ih =>
    have hb : b ≠ 0 := fun h0 => h (h0 ▸ List.mem_cons_self)
    have hs : 0 ∉ s := fun h0 => h (List.mem_cons_of_mem _ h0)
    simpa [cstr, hb] using ih hs

theorem cstr_initial (s : Bytes) : cstr s <+: s := List.takeWhile_prefix _

theorem cstr_length_le (s : Bytes) : (cstr s).length ≤ s.length := (cstr_initial s).length_le

end HttpsProxy
