import HttpsProxy.ProxyTunnel

/-! The two searches in the answer of the proxy server. The line loop finds an
empty line wherever one is; the search for the acceptance phrase runs over the
whole text, whatever line it is in. -/
namespace HttpsProxy

open TunCtx

/-- `strstr` finds the first occurrence. -/
theorem strstr_some {n s : Bytes} {k : ℕ} (h : strstr n s = some k) :
    n <+: s.drop k ∧ ∀ j < k, ¬n <+: s.drop j := by
  induction s generalizing k with
  | nil =>
    simp only [strstr] at h
    split at h
    · rename_i hn
      cases h
      exact ⟨by simp [hn], by simp⟩
    · cases h
  | cons b s ih =>
    simp only [strstr] at h
    split at h
    · rename_i hp
      cases h
      exact ⟨List.isPrefixOf_iff_prefix.mp hp, by simp⟩
    · rename_i hp
      obtain ⟨j, hj, rfl⟩ := Option.map_eq_some_iff.mp h
      obtain ⟨h1, h2⟩ := ih hj
      refine ⟨h1, fun i hi => ?_⟩
      cases i with
      | zero => exact fun hc => hp (List.isPrefixOf_iff_prefix.mpr hc)
      | succ i => exact h2 i (by omega)

theorem strstr_none {n s : Bytes} (hn : n ≠ []) (h : strstr n s = none) (j : ℕ) :
    ¬n <+: s.drop j := by
  induction s generalizing j with
  | nil => simpa using hn
  | cons b s ih =>
    simp only [strstr] at h
    split at h
    · cases h
    · rename_i hp
      cases j with
      | zero => exact fun hc => hp (List.isPrefixOf_iff_prefix.mpr hc)
      | succ j => exact ih (Option.map_eq_none_iff.mp h) j

/-- An empty line: at the start, or behind the end of another line. -/
def Blank (s : Bytes) : Prop := CRLF <+: s ∨ ∃ j, CRLF ++ CRLF <+: s.drop j

theorem Blank.append {s : Bytes} (h : Blank s) (t : Bytes) : Blank (s ++ t) := by
  rcases h with h | ⟨j, h⟩
  · exact Or.inl (h.trans (List.prefix_append s t))
  · have hj : j ≤ s.length := by
      by_contra hlt
      rw [List.drop_eq_nil_of_le (by omega)] at h
      simp [CRLF] at h
    refine Or.inr ⟨j, ?_⟩
    rw [List.drop_append_of_le_length hj]
    exact h.trans (List.prefix_append _ t)

/-- Two line ends do not overlap. -/
theorem crlf_step {s : Bytes} (h : CRLF <+: s) : ¬CRLF <+: s.drop 1 := by
  obtain ⟨t, rfl⟩ := h
  rintro ⟨r, hr⟩
  simp [CRLF, CR, LF] at hr

/-- Behind the first line end the search for an empty line starts again. -/
theorem blank_behind {s : Bytes} {k : ℕ} (hk : CRLF <+: s.drop (k + 1))
    (hfirst : ∀ j < k + 1, ¬CRLF <+: s.drop j) : Blank s ↔ Blank (s.drop (k + 1 + 2)) := by
  obtain ⟨r, hr⟩ := hk
  have hdrop : s.drop (k + 1 + 2) = r := by
    rw [← List.drop_drop, ← hr]
    rfl
  rw [hdrop]
  constructor
  · rintro (h | ⟨j, h⟩)
    · exact absurd h (hfirst 0 (by omega))
    · have hj : k + 1 ≤ j := by
        by_contra hlt
        exact hfirst j (by omega) ((List.prefix_append CRLF CRLF).trans h)
      obtain ⟨i, rfl⟩ := Nat.exists_eq_add_of_le hj
      have hi : s.drop (k + 1 + i) = (CRLF ++ r).drop i := by rw [← List.drop_drop, hr]
      rw [hi] at h
      rcases i with _ | _ | i
      · exact Or.inl ((List.prefix_append_right_inj CRLF).mp h)
      · exact absurd ((List.prefix_append CRLF CRLF).trans h) (crlf_step (List.prefix_append CRLF r))
      · exact Or.inr ⟨i, h⟩
  · rintro (h | ⟨j, h⟩)
    · refine Or.inr ⟨k + 1, ?_⟩
      rw [← hr]
      exact (List.prefix_append_right_inj CRLF).mpr h
    · exact Or.inr ⟨k + 1 + 2 + j, by rw [← List.drop_drop, hdrop]; exact h⟩

theorem lineLoop_iff (fuel : ℕ) (s : Bytes) (h : s.length < fuel) :
    lineLoop fuel s = true ↔ Blank s := by
  induction fuel generalizing s with
  | zero => omega
  | succ fuel ih =>
    simp only [lineLoop]
    split
    · rename_i hn
      have hno := strstr_none (by simp [CRLF]) hn
      refine iff_of_false (by simp) ?_
      rintro (hb | ⟨j, hb⟩)
      · exact hno 0 hb
      · exact hno j ((List.prefix_append CRLF CRLF).trans hb)
    · rename_i hz
      exact iff_of_true rfl (Or.inl (strstr_some hz).1)
    · rename_i k hne hk
      obtain ⟨k, rfl⟩ := Nat.exists_eq_succ_of_ne_zero hne
      obtain ⟨hp, hfirst⟩ := strstr_some hk
      have hlen : 0 < s.length := by
        by_contra hl
        rw [List.length_eq_zero_iff.mp (by omega : s.length = 0)] at hp
        simp [CRLF] at hp
      rw [ih _ (by simp only [List.length_drop]; omega)]
      exact (blank_behind hp hfirst).symm

/-- The line loop of `parseHttpHeader` looks for an empty line. -/
theorem fullHeader_iff (s : Bytes) : fullHeader s = true ↔ Blank s := lineLoop_iff _ s (by omega)

theorem fullHeader_append {s : Bytes} (h : fullHeader s = true) (t : Bytes) :
    fullHeader (s ++ t) = true :=
  (fullHeader_iff _).mpr (((fullHeader_iff s).mp h).append t)

/-- A longer piece of a text has an empty line if a shorter one has. -/
theorem fullHeader_take {s : Bytes} {i j : ℕ} (hij : i ≤ j) (h : fullHeader (s.take i) = true) :
    fullHeader (s.take j) = true := by
  obtain ⟨t, ht⟩ := List.take_prefix_take_left (l := s) hij
  rw [← ht]
  exact fullHeader_append h t

/-- The small letter of a capital one. -/
def foldCase (c : UInt8) : UInt8 := if 65 ≤ c ∧ c ≤ 90 then c + 32 else c

/-- The comparison of `strstrICase` is equality up to case. -/
theorem eqICase_iff (c q : UInt8) : eqICase c q = true ↔ foldCase c = foldCase q := by
  unfold eqICase tmpDiff foldCase
  simp only [Bool.or_eq_true, decide_eq_true_eq, UInt8.le_iff_toNat_le, ← UInt8.toNat_inj,
    apply_ite UInt8.toNat, UInt8.toNat_add, UInt8.reduceToNat]
  split_ifs <;> omega

/-- The needle up to the case of letters. -/
def MatchesICase (needle w : Bytes) : Prop := w.map foldCase = needle.map foldCase

theorem matchICase_iff (needle s : Bytes) :
    matchICase s needle = true ↔ ∃ w r, s = w ++ r ∧ MatchesICase needle w := by
  induction needle generalizing s with
  | nil => exact iff_of_true (by cases s <;> rfl) ⟨[], s, rfl, rfl⟩
  | cons q qs ih =>
    cases s with
    | nil =>
      refine iff_of_false (by simp [matchICase]) ?_
      rintro ⟨w, r, hs, hw⟩
      obtain ⟨rfl, rfl⟩ := List.append_eq_nil_iff.mp hs.symm
      cases hw
    | cons c cs =>
      rw [matchICase, Bool.and_eq_true, ih, eqICase_iff]
      constructor
      · rintro ⟨hc, w, r, rfl, hw⟩
        exact ⟨c :: w, r, rfl, congrArg₂ List.cons hc hw⟩
      · rintro ⟨w, r, hs, hw⟩
        cases w with
        | nil => cases hw
        | cons b w =>
          obtain ⟨rfl, rfl⟩ := List.cons.inj hs
          obtain ⟨hc, hw⟩ := List.cons.inj hw
          exact ⟨hc, w, r, rfl, hw⟩

/-- Somewhere in `s` is the needle up to the case of letters. -/
def ContainsICase (needle s : Bytes) : Prop := ∃ a w r, s = a ++ w ++ r ∧ MatchesICase needle w

/-- `strstrICase` finds an occurrence wherever there is one. -/
theorem strstrICase_iff {needle : Bytes} (hn : needle ≠ []) (s : Bytes) :
    (strstrICase needle s).isSome = true ↔ ContainsICase needle s := by
  induction s with
  | nil =>
    refine iff_of_false (by simp [strstrICase]) ?_
    rintro ⟨a, w, r, hs, hw⟩
    have hw' : w = [] := by simp_all
    subst hw'
    exact hn (List.map_eq_nil_iff.mp hw.symm)
  | cons c cs ih =>
    simp only [strstrICase]
    split
    · rename_i hm
      obtain ⟨w, r, hs, hw⟩ := (matchICase_iff _ _).mp hm
      exact iff_of_true rfl ⟨[], w, r, hs, hw⟩
    · rename_i hm
      rw [Option.isSome_map, ih]
      constructor
      · rintro ⟨a, w, r, rfl, hw⟩
        exact ⟨c :: a, w, r, rfl, hw⟩
      · rintro ⟨a, w, r, hs, hw⟩
        cases a with
        | nil => exact absurd ((matchICase_iff _ _).mpr ⟨w, r, hs, hw⟩) hm
        | cons b a =>
          obtain ⟨rfl, rfl⟩ := List.cons.inj hs
          exact ⟨a, w, r, rfl, hw⟩

theorem phrase_ne_nil : SSL_CONNECTION_RESPONSE_OK ≠ [] := by decide +kernel

theorem acceptsHeader_iff (s : Bytes) :
    acceptsHeader s = true ↔ ContainsICase SSL_CONNECTION_RESPONSE_OK s :=
  strstrICase_iff phrase_ne_nil s

theorem acceptsHeader_append {s : Bytes} (h : acceptsHeader s = true) (t : Bytes) :
    acceptsHeader (s ++ t) = true := by
  obtain ⟨a, w, r, rfl, hw⟩ := (acceptsHeader_iff s).mp h
  exact (acceptsHeader_iff _).mpr ⟨a, w, r ++ t, by simp, hw⟩

theorem acceptsHeader_take {s : Bytes} {i j : ℕ} (hij : i ≤ j)
    (h : acceptsHeader (s.take i) = true) : acceptsHeader (s.take j) = true := by
  obtain ⟨t, ht⟩ := List.take_prefix_take_left (l := s) hij
  rw [← ht]
  exact acceptsHeader_append h t

/-- No letter of the phrase, in whatever case, ends a line. -/
theorem phrase_no_eol {w : Bytes} (h : MatchesICase SSL_CONNECTION_RESPONSE_OK w) :
    CR ∉ w ∧ LF ∉ w := by
  have hq : foldCase CR ∉ SSL_CONNECTION_RESPONSE_OK.map foldCase ∧
      foldCase LF ∉ SSL_CONNECTION_RESPONSE_OK.map foldCase := by decide +kernel
  rw [← show w.map foldCase = _ from h] at hq
  exact ⟨fun hm => hq.1 (List.mem_map_of_mem hm), fun hm => hq.2 (List.mem_map_of_mem hm)⟩

/-- The phrase lies before a line end or behind it. -/
theorem acceptsHeader_split (s t : Bytes) :
    acceptsHeader (s ++ CRLF ++ t) = true ↔ acceptsHeader s = true ∨ acceptsHeader t = true := by
  constructor
  swap
  · rintro (h | h)
    · rw [List.append_assoc]
      exact acceptsHeader_append h _
    · obtain ⟨a, w, r, rfl, hw⟩ := (acceptsHeader_iff t).mp h
      exact (acceptsHeader_iff _).mpr ⟨s ++ CRLF ++ a, w, r, by simp, hw⟩
  intro h
  obtain ⟨a, w, r, hs, hw⟩ := (acceptsHeader_iff _).mp h
  obtain ⟨hcr, hlf⟩ := phrase_no_eol hw
  rw [List.append_assoc] at hs
  rcases List.append_eq_append_iff.mp hs with ⟨l, hl, hb⟩ | ⟨l, hl, -⟩
  swap
  · exact Or.inl ((acceptsHeader_iff s).mpr ⟨a, w, l, hl, hw⟩)
  rcases List.append_eq_append_iff.mp hl with ⟨b, rfl, hc⟩ | ⟨b, rfl, hc⟩
  · -- the phrase starts within `s` and has no way over the line end
    rcases l with _ | ⟨x, l⟩
    · exact Or.inl ((acceptsHeader_iff _).mpr ⟨a, w, [], by simp [hc], hw⟩)
    · simp only [CRLF, List.cons_append, List.cons.injEq] at hb
      have hx : CR ∈ w := by
        rw [hc, hb.1]
        exact List.mem_append_right _ List.mem_cons_self
      exact absurd hx hcr
  · -- it starts behind `s`, and so behind the line end
    rw [hc, List.append_assoc] at hb
    have hw' : w ≠ [] := fun h => phrase_ne_nil (List.map_eq_nil_iff.mp (h ▸ hw).symm)
    obtain ⟨x, w', rfl⟩ := List.exists_cons_of_ne_nil hw'
    rcases b with _ | ⟨_, _ | ⟨_, b⟩⟩
    · simp_all [CRLF]
    · simp_all [CRLF]
    · simp only [CRLF, List.cons_append, List.nil_append, List.cons.injEq] at hb
      exact Or.inr ((acceptsHeader_iff t).mpr ⟨b, x :: w', r, by simp [hb.2.2], hw⟩)

end HttpsProxy
