import HttpsProxy.ResponseText
import Mathlib.Order.Bounds.Basic

/-! `strstrICase` with its pointers, on the memory they range over. It finds
the first occurrence that lies inside the range, and it agrees with the search
in a list of bytes that the tunnel's model uses. -/
namespace HttpsProxy

/-- The bytes at the addresses that a function reads. -/
abbrev Memory := ℕ → UInt8

namespace Memory

/-- The inner loop, with `p1`, `q` and `tmpDiff`: where `q` stops. The byte at
`strEnd` is read, but no match goes over it. -/
def strstrICaseInner (m : Memory) (strEnd p1 q : ℕ) (diff : ℤ) : ℕ :=
  if (m p1 = m q ∨ ((m p1).toNat : ℤ) + diff = (m q).toNat) ∧ m q ≠ 0 ∧ p1 < strEnd then
    strstrICaseInner m strEnd (p1 + 1) (q + 1) (tmpDiff (m (p1 + 1)))
  else q
termination_by strEnd - p1

/-- The outer loop; at its head `p1 = p2`. -/
def strstrICaseLoop (m : Memory) (strEnd substr p2 : ℕ) : Option ℕ :=
  if p2 < strEnd then
    if m (m.strstrICaseInner strEnd p2 substr (tmpDiff (m p2))) = 0 then some p2
    else strstrICaseLoop m strEnd substr (p2 + 1)
  else none
termination_by strEnd - p2

/-- `strstrICase(strStart, strEnd, substr)`; `none` is `NULL`. -/
def strstrICase (m : Memory) (strStart strEnd substr : ℕ) : Option ℕ :=
  m.strstrICaseLoop strEnd substr strStart

/-- The bytes of the range `[p, strEnd)`. -/
def range (m : Memory) (p strEnd : ℕ) : Bytes := (List.range' p (strEnd - p)).map m

/-- The text `s` and a NUL stand at `q`. -/
def HoldsText (m : Memory) : ℕ → Bytes → Prop
  | q, [] => m q = 0
  | q, b :: s => m q = b ∧ b ≠ 0 ∧ m.HoldsText (q + 1) s

/-- Up to the case of letters the needle stands at `p`, all of it before `strEnd`. -/
def OccursAt (m : Memory) (strEnd : ℕ) (needle : Bytes) (p : ℕ) : Prop :=
  p + needle.length ≤ strEnd ∧
    ∀ i, (h : i < needle.length) → foldCase (m (p + i)) = foldCase needle[i]

variable {m : Memory} {strEnd p q : ℕ} {s : Bytes}

theorem range_of_lt (h : p < strEnd) : m.range p strEnd = m p :: m.range (p + 1) strEnd := by
  have hn : strEnd - p = strEnd - (p + 1) + 1 := by omega
  rw [range, hn, List.range'_succ, List.map_cons, range]

theorem range_of_le (h : strEnd ≤ p) : m.range p strEnd = [] := by
  rw [range, Nat.sub_eq_zero_of_le h, List.range'_zero, List.map_nil]

/-- One more byte of the needle at the head of it. -/
theorem occursAt_cons (b : UInt8) :
    m.OccursAt strEnd (b :: s) p ↔ foldCase (m p) = foldCase b ∧ m.OccursAt strEnd s (p + 1) := by
  constructor
  · rintro ⟨hlen, hall⟩
    refine ⟨hall 0 (by simp), by simpa [Nat.add_assoc, Nat.add_comm 1] using hlen, ?_⟩
    intro i hi
    have h := hall (i + 1) (by simpa using hi)
    rwa [Nat.add_assoc, Nat.add_comm 1 i]
  · rintro ⟨hb, hlen, hall⟩
    refine ⟨by simpa [Nat.add_assoc, Nat.add_comm 1] using hlen, ?_⟩
    intro i hi
    cases i with
    | zero => exact hb
    | succ i =>
      have h := hall i (by simpa using hi)
      rwa [Nat.add_assoc, Nat.add_comm 1 i] at h

/-- The comparison of lists of bytes is the occurrence in memory. -/
theorem matchICase_range (hp : p ≤ strEnd) :
    matchICase (m.range p strEnd) s = true ↔ m.OccursAt strEnd s p := by
  induction s generalizing p with
  | nil =>
    refine iff_of_true ?_ ⟨hp, by simp⟩
    cases m.range p strEnd <;> rfl
  | cons b s ih =>
    rcases Nat.lt_or_ge p strEnd with hlt | hge
    · rw [range_of_lt hlt, matchICase, Bool.and_eq_true, eqICase_iff, ih hlt, occursAt_cons]
    · rw [range_of_le hge]
      refine iff_of_false (by simp [matchICase]) ?_
      rintro ⟨hlen, -⟩
      rw [List.length_cons] at hlen
      omega

/-- The inner loop reaches the end of the needle exactly on an occurrence; the
needle's NUL stops it no later than the range does. -/
theorem strstrICaseInner_iff (hs : m.HoldsText q s) (hp : p ≤ strEnd) :
    m (m.strstrICaseInner strEnd p q (tmpDiff (m p))) = 0 ↔ m.OccursAt strEnd s p := by
  induction s generalizing p q with
  | nil =>
    have hq : m q = 0 := hs
    rw [strstrICaseInner, if_neg (by simp [hq])]
    exact iff_of_true hq ⟨hp, by simp⟩
  | cons b s ih =>
    obtain ⟨rfl, hb, hs⟩ := hs
    have hcase : (m p = m q ∨ ((m p).toNat : ℤ) + tmpDiff (m p) = (m q).toNat) ↔
        foldCase (m p) = foldCase (m q) := by
      rw [← eqICase_iff, eqICase, Bool.or_eq_true, decide_eq_true_iff, decide_eq_true_iff]
    rw [strstrICaseInner, occursAt_cons]
    split
    · rename_i h
      rw [ih hs (by omega), and_iff_right (hcase.mp h.1)]
    · rename_i h
      refine iff_of_false hb ?_
      rintro ⟨hfold, hlen, -⟩
      exact h ⟨hcase.mpr hfold, hb, by omega⟩

/-- The outer loop stops at the first occurrence from `p2` on, or finds none. -/
theorem strstrICaseLoop_spec (hs : m.HoldsText q s) (hne : s ≠ []) (p : ℕ) :
    (∀ i, m.strstrICaseLoop strEnd q p = some i ↔
      IsLeast {j | p ≤ j ∧ m.OccursAt strEnd s j} i) ∧
    (m.strstrICaseLoop strEnd q p = none ↔ ¬∃ j, p ≤ j ∧ m.OccursAt strEnd s j) := by
  induction p using strstrICaseLoop.induct m strEnd q with
  | case1 p hlt hfound =>
    rw [strstrICaseLoop, if_pos hlt, if_pos hfound]
    have hleast : IsLeast {j | p ≤ j ∧ m.OccursAt strEnd s j} p :=
      ⟨⟨le_rfl, (strstrICaseInner_iff hs hlt.le).mp hfound⟩, fun j hj => hj.1⟩
    refine ⟨fun i => ⟨?_, fun hi => congrArg some (hleast.unique hi)⟩, ?_⟩
    · rintro ⟨⟩
      exact hleast
    · exact iff_of_false (Option.some_ne_none p) (not_not_intro ⟨p, hleast.1⟩)
  | case2 p hlt hfound ih =>
    rw [strstrICaseLoop, if_pos hlt, if_neg hfound]
    have hno : ¬m.OccursAt strEnd s p := fun h => hfound ((strstrICaseInner_iff hs hlt.le).mpr h)
    -- no occurrence at `p`, so the search goes on behind it
    have hset : ∀ j, (p + 1 ≤ j ∧ m.OccursAt strEnd s j) ↔ (p ≤ j ∧ m.OccursAt strEnd s j) := by
      intro j
      refine ⟨fun h => ⟨by omega, h.2⟩, fun h => ⟨?_, h.2⟩⟩
      rcases Nat.lt_or_eq_of_le h.1 with hj | rfl
      · exact hj
      · exact absurd h.2 hno
    simpa only [hset] using ih
  | case3 p hlt =>
    rw [strstrICaseLoop, if_neg hlt]
    have hno : ∀ j, ¬(p ≤ j ∧ m.OccursAt strEnd s j) := by
      rintro j ⟨hj, hlen, -⟩
      have hpos := List.length_pos_iff.mpr hne
      omega
    refine ⟨fun i => iff_of_false (Option.some_ne_none i).symm fun h => hno i h.1, ?_⟩
    exact iff_of_true rfl fun ⟨j, hj⟩ => hno j hj

/-- The tunnel's search in the bytes of a range is the one in memory. -/
theorem strstrICase_range (hs : m.HoldsText q s) (p : ℕ) :
    m.strstrICase p strEnd q = (HttpsProxy.strstrICase s (m.range p strEnd)).map (p + ·) := by
  unfold strstrICase
  induction p using strstrICaseLoop.induct m strEnd q with
  | case1 p hlt hfound =>
    have hm := (matchICase_range hlt.le).mpr ((strstrICaseInner_iff hs hlt.le).mp hfound)
    rw [range_of_lt hlt] at hm ⊢
    rw [strstrICaseLoop, if_pos hlt, if_pos hfound, HttpsProxy.strstrICase, if_pos hm]
    rfl
  | case2 p hlt hfound ih =>
    have hm := mt (matchICase_range hlt.le).mp (mt (strstrICaseInner_iff hs hlt.le).mpr hfound)
    rw [range_of_lt hlt] at hm ⊢
    rw [strstrICaseLoop, if_pos hlt, if_neg hfound, HttpsProxy.strstrICase, if_neg hm, ih,
      Option.map_map]
    congr 1
    funext i
    simp only [Function.comp_apply]
    omega
  | case3 p hlt =>
    rw [strstrICaseLoop, if_neg hlt, range_of_le (Nat.le_of_not_lt hlt)]
    rfl

/-- `strstrICase` on any range and any non-empty needle in memory returns the
first address at which the needle stands up to the case of letters, wholly
before `strEnd`, and `NULL` exactly where there is no such address. -/
theorem strstrICase_smallest (m : Memory) (strStart strEnd substr : ℕ) (needle : Bytes)
    (hne : needle ≠ []) (hneedle : m.HoldsText substr needle) :
    (∀ p, m.strstrICase strStart strEnd substr = some p ↔
      IsLeast {i | strStart ≤ i ∧ m.OccursAt strEnd needle i} p) ∧
    (m.strstrICase strStart strEnd substr = none ↔
      ¬∃ i, strStart ≤ i ∧ m.OccursAt strEnd needle i) :=
  strstrICaseLoop_spec hneedle hne strStart

/-- A memory with `"aBAb"` at 0 and the needle `"ab"` at 8. -/
def sample : Memory := fun i => ([97, 66, 65, 98, 0, 0, 0, 0, 97, 98, 0] : Bytes).getD i 0

theorem sample_smallest : sample.strstrICase 1 4 8 = some 2 ∧ sample.strstrICase 3 4 8 = none := by
  have hneedle : sample.HoldsText 8 [97, 98] := ⟨rfl, by decide, rfl, by decide, rfl⟩
  constructor
  · refine ((strstrICase_smallest sample 1 4 8 [97, 98] (by decide) hneedle).1 2).mpr ⟨⟨by decide, ?_⟩, ?_⟩
    · exact ⟨by decide, by decide⟩
    · rintro i ⟨hi, -, hmatch⟩
      by_contra hlt
      obtain rfl : i = 1 := by omega
      exact absurd (hmatch 0 (by decide)) (by decide)
  · refine (strstrICase_smallest sample 3 4 8 [97, 98] (by decide) hneedle).2.mpr ?_
    rintro ⟨i, hi, hle, -⟩
    change i + 2 ≤ 4 at hle
    omega

end Memory

end HttpsProxy
