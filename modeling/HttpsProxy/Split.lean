import Mathlib.Data.List.Basic
import Mathlib.Tactic.Linarith

/-! `split` of `proxy_common.h`: the pieces it appends are the maximal stretches
of the string without the separator. -/
namespace HttpsProxy

variable {α : Type}

/-- `s.substr(pos, n)`; `none` if it throws `out_of_range`. -/
def substr (s : List α) (pos n : ℕ) : Option (List α) :=
  if pos ≤ s.length then some ((s.drop pos).take n) else none

/-- The places `i` to `j` of `s` are a maximal stretch without `c`. -/
structure Segment (s : List α) (c : α) (i j : ℕ) : Prop where
  nonempty : i < j
  bound : j ≤ s.length
  free : ∀ k, i ≤ k → k < j → s[k]? ≠ some c
  left : i = 0 ∨ s[i - 1]? = some c
  right : j = s.length ∨ s[j]? = some c

/-- The text of the places `p.1` to `p.2`. -/
def piece (s : List α) (p : ℕ × ℕ) : List α := (s.drop p.1).take (p.2 - p.1)

/-- From `i` on, behind a separator, the next separator or the end is at `e`. -/
structure Gap (s : List α) (c : α) (i e : ℕ) : Prop where
  le : i ≤ e
  bound : e ≤ s.length
  left : i = 0 ∨ s[i - 1]? = some c
  free : ∀ k, i ≤ k → k < e → s[k]? ≠ some c
  right : e = s.length ∨ s[e]? = some c

/-- The only stretch that can end in a gap fills it. -/
theorem Gap.segment_iff {s : List α} {c : α} {i e : ℕ} (h : Gap s c i e) {a b : ℕ} (hb : b ≤ e) :
    Segment s c a b ∧ i ≤ b ↔ i < e ∧ a = i ∧ b = e := by
  constructor
  · rintro ⟨hs, hib⟩
    have hab := hs.nonempty
    have hai : i ≤ a := by
      by_contra hlt
      rcases h.left with h0 | hc
      · omega
      · exact hs.free (i - 1) (by omega) (by omega) hc
    have ha : a = i := by
      rcases hs.left with h0 | hc
      · omega
      · by_contra hne
        exact h.free (a - 1) (by omega) (by omega) hc
    have hbe : b = e := by
      have he := h.bound
      rcases hs.right with hl | hc
      · omega
      · by_contra hne
        exact h.free b hib (by omega) hc
    exact ⟨by omega, ha, hbe⟩
  · rintro ⟨hie, rfl, rfl⟩
    exact ⟨⟨hie, h.bound, h.free, h.left, h.right⟩, h.le⟩

theorem Gap.piece_length {s : List α} {c : α} {i e : ℕ} (h : Gap s c i e) :
    (piece s (i, e)).length = e - i := by
  have he := h.bound
  rw [piece, List.length_take, List.length_drop]
  exact Nat.min_eq_left (by omega)

theorem Gap.piece_free {s : List α} {c : α} {i e : ℕ} (h : Gap s c i e) : c ∉ piece s (i, e) := by
  intro hc
  obtain ⟨k, hk⟩ := List.getElem?_of_mem hc
  have hlt : k < e - i := by
    have := (List.getElem?_eq_some_iff.mp hk).1
    rwa [h.piece_length] at this
  rw [piece, List.getElem?_take_of_lt hlt, List.getElem?_drop] at hk
  exact h.free (i + k) (by omega) (by omega) hk

/-- A gap adds its text, if there is any. -/
def addGap (ps : List (ℕ × ℕ)) (i e : ℕ) : List (ℕ × ℕ) := if i < e then ps ++ [(i, e)] else ps

/-- The piece between two separators is appended unless it is empty. -/
theorem Gap.push {s : List α} {c : α} {i e : ℕ} (h : Gap s c i e) (v : List (List α))
    (ps : List (ℕ × ℕ)) : substr s i (e - i) = some (piece s (i, e)) ∧
    (if 0 < (piece s (i, e)).length then (v ++ ps.map (piece s)) ++ [piece s (i, e)]
      else v ++ ps.map (piece s)) = v ++ (addGap ps i e).map (piece s) := by
  refine ⟨if_pos (h.le.trans h.bound), ?_⟩
  rw [h.piece_length, addGap]
  by_cases hie : i < e
  · rw [if_pos (by omega), if_pos hie, List.map_append, List.append_assoc]
    rfl
  · rw [if_neg (by omega), if_neg hie]

section Split

variable [DecidableEq α]

/-- `s.find(c, pos)` of `std::basic_string`; `none` is `npos`. -/
def find (s : List α) (c : α) (pos : ℕ) : Option ℕ :=
  ((s.drop pos).findIdx? (· = c)).map (pos + ·)

/-- `find` returns the first place of `c` from `pos` on. -/
theorem find_some {s : List α} {c : α} {pos j : ℕ} (h : find s c pos = some j) :
    pos ≤ j ∧ j < s.length ∧ s[j]? = some c ∧ ∀ k, pos ≤ k → k < j → s[k]? ≠ some c := by
  obtain ⟨n, hn, rfl⟩ := Option.map_eq_some_iff.mp h
  obtain ⟨hlt, hc, hbefore⟩ := List.findIdx?_eq_some_iff_getElem.mp hn
  rw [List.length_drop] at hlt
  refine ⟨Nat.le_add_right pos n, by omega, ?_, fun k hpos hk hc' => ?_⟩
  · rw [List.getElem_drop] at hc
    rw [List.getElem?_eq_getElem (by omega)]
    exact congrArg some (of_decide_eq_true hc)
  · have hno := hbefore (k - pos) (by omega)
    rw [List.getElem?_eq_getElem (by omega)] at hc'
    apply hno
    rw [List.getElem_drop]
    simpa only [Nat.add_sub_cancel' hpos] using decide_eq_true (Option.some.inj hc')

theorem find_none {s : List α} {c : α} {pos : ℕ} (h : find s c pos = none) :
    ∀ k, pos ≤ k → s[k]? ≠ some c := by
  intro k hpos hk
  have hno := List.findIdx?_eq_none_iff.mp (Option.map_eq_none_iff.mp h) c ?_
  · simp at hno
  · rw [← Nat.add_sub_cancel' hpos, ← List.getElem?_drop] at hk
    exact List.mem_of_getElem? hk

/-- The loop of `split` with what follows it. -/
def splitLoop (s : List α) (c : α) (i : ℕ) (j : Option ℕ) (v : List (List α)) :
    Option (List (List α)) :=
  match j with
  | some j =>
    match substr s i (j - i) with
    | none => none
    | some buf => splitLoop s c (j + 1) (find s c (j + 1)) (if 0 < buf.length then v ++ [buf] else v)
  | none =>
    match substr s i (s.length - i) with
    | none => none
    | some buf => some (if 0 < buf.length then v ++ [buf] else v)
termination_by match j with
  | none => 0
  | some j => s.length - j + 1
decreasing_by
  -- the next separator lies behind the last one
  cases hj : find s c (j + 1) with
  | none => exact Nat.succ_pos _
  | some k =>
    obtain ⟨hle, hlt, -⟩ := find_some hj
    simp only
    omega

/-- `split(s, c, v)`: the vector afterwards, `none` if a `substr` throws. -/
def split (s : List α) (c : α) (v : List (List α)) : Option (List (List α)) :=
  if s.length = 0 then some v else splitLoop s c 0 (find s c 0) v

/-- What has been collected when the loop stands at `i`: the stretches that end
before it, in order. -/
structure Collected (s : List α) (c : α) (i : ℕ) (ps : List (ℕ × ℕ)) : Prop where
  ordered : ps.Pairwise fun p q => p.2 < q.1
  mem : ∀ a b, (a, b) ∈ ps ↔ Segment s c a b ∧ b < i
  text : (ps.map (piece s)).flatten = (s.take i).filter (· ≠ c)

theorem Collected.add {s : List α} {c : α} {i e : ℕ} {ps : List (ℕ × ℕ)} (h : Collected s c i ps)
    (hg : Gap s c i e) : Collected s c (e + 1) (addGap ps i e) := by
  have hle := hg.le
  refine ⟨?_, fun a b => ?_, ?_⟩
  · unfold addGap
    split
    · refine List.pairwise_append.mpr ⟨h.ordered, List.pairwise_singleton _ _, fun p hp q hq => ?_⟩
      rw [List.mem_singleton.mp hq]
      exact ((h.mem p.1 p.2).mp hp).2
    · exact h.ordered
  · have hmem : (a, b) ∈ addGap ps i e ↔ (a, b) ∈ ps ∨ i < e ∧ a = i ∧ b = e := by
      unfold addGap
      split
      · rename_i hie
        simp [hie]
      · rename_i hie
        simp [hie]
    rw [hmem, h.mem]
    constructor
    · rintro (⟨hs, hb⟩ | hnew)
      · exact ⟨hs, by omega⟩
      · have hbe : b = e := hnew.2.2
        exact ⟨((hg.segment_iff hbe.le).mpr hnew).1, by omega⟩
    · rintro ⟨hs, hb⟩
      by_cases hbi : b < i
      · exact Or.inl ⟨hs, hbi⟩
      · exact Or.inr ((hg.segment_iff (by omega)).mp ⟨hs, by omega⟩)
  · have htake : s.take (e + 1) = s.take i ++ piece s (i, e) ++ (s.drop e).take 1 := by
      have hsum : i + (e - i) = e := by omega
      rw [piece, ← List.take_add, hsum, ← List.take_add]
    have hnew : (piece s (i, e)).filter (· ≠ c) = piece s (i, e) := by
      apply List.filter_eq_self.mpr
      intro x hx
      exact decide_eq_true fun hxc => hg.piece_free (hxc ▸ hx)
    have hsep : ((s.drop e).take 1).filter (· ≠ c) = [] := by
      apply List.filter_eq_nil_iff.mpr
      intro x hx
      rcases hg.right with he | hc
      · rw [he, List.drop_length] at hx
        simp at hx
      · have hdrop : s.drop e = c :: s.drop (e + 1) := by
          obtain ⟨hlt, hget⟩ := List.getElem?_eq_some_iff.mp hc
          rw [List.drop_eq_getElem_cons hlt, hget]
        rw [hdrop, List.take_succ_cons, List.take_zero, List.mem_singleton] at hx
        simp [hx]
    rw [htake, List.filter_append, List.filter_append, hnew, hsep, List.append_nil, ← h.text, addGap]
    split
    · simp
    · have hnil : piece s (i, e) = [] := by
        apply List.eq_nil_of_length_eq_zero
        rw [hg.piece_length]
        omega
      rw [hnil, List.append_nil]

/-- The gap before the next separator, or before the end. -/
theorem gap_of_find {s : List α} {c : α} {i : ℕ} (hi : i ≤ s.length)
    (hleft : i = 0 ∨ s[i - 1]? = some c) : Gap s c i ((find s c i).getD s.length) := by
  cases hj : find s c i with
  | none => exact ⟨hi, le_rfl, hleft, fun k hk _ => find_none hj k hk, Or.inl rfl⟩
  | some j =>
    obtain ⟨hle, hlt, hc, hfree⟩ := find_some hj
    exact ⟨hle, hlt.le, hleft, hfree, Or.inr hc⟩

/-- The loop from any separator on: nothing throws, and it collects all the
stretches there are. -/
theorem splitLoop_spec {s : List α} {c : α} {v : List (List α)} {i : ℕ} {j : Option ℕ}
    {w : List (List α)} {ps : List (ℕ × ℕ)} (hw : w = v ++ ps.map (piece s))
    (h : Collected s c i ps) (hi : i ≤ s.length) (hleft : i = 0 ∨ s[i - 1]? = some c)
    (hj : find s c i = j) :
    ∃ qs, splitLoop s c i j w = some (v ++ qs.map (piece s)) ∧ Collected s c (s.length + 1) qs := by
  induction i, j, w using splitLoop.induct s c generalizing ps with
  | case1 i w j hthrow =>
    obtain ⟨hsub, -⟩ := (gap_of_find hi hleft).push v ps
    rw [hj, Option.getD_some, hthrow] at hsub
    cases hsub
  | case2 i w j buf hbuf ih =>
    have hg := gap_of_find hi hleft
    obtain ⟨hle, hlt, hc, -⟩ := find_some hj
    rw [hj, Option.getD_some] at hg
    obtain ⟨hsub, hpush⟩ := hg.push v ps
    have hpiece : buf = piece s (i, j) := Option.some.inj (hbuf.symm.trans hsub)
    rw [splitLoop, hbuf]
    simp only
    refine ih ?_ (h.add hg) (by omega) (Or.inr ?_) rfl
    · rw [hw, hpiece]
      exact hpush
    · simpa using hc
  | case3 i w hthrow =>
    obtain ⟨hsub, -⟩ := (gap_of_find hi hleft).push v ps
    rw [hj, Option.getD_none, hthrow] at hsub
    cases hsub
  | case4 i w buf hbuf =>
    have hg := gap_of_find hi hleft
    rw [hj, Option.getD_none] at hg
    obtain ⟨hsub, hpush⟩ := hg.push v ps
    have hpiece : buf = piece s (i, s.length) := Option.some.inj (hbuf.symm.trans hsub)
    refine ⟨addGap ps i s.length, ?_, h.add hg⟩
    rw [splitLoop, hbuf, hw, hpiece]
    exact congrArg some hpush

/-- `split` ends without an exception and appends the maximal non-empty stretches
without the separator, all of them and in order; no piece is empty or has a
separator, and together they are the string without its separators. -/
theorem split_segments (s : List α) (c : α) (v : List (List α)) :
    ∃ ps : List (ℕ × ℕ), split s c v = some (v ++ ps.map (piece s)) ∧
      (∀ a b, (a, b) ∈ ps ↔ Segment s c a b) ∧ ps.Pairwise (fun p q => p.2 < q.1) ∧
      (∀ w ∈ ps.map (piece s), w ≠ [] ∧ c ∉ w) ∧
      (ps.map (piece s)).flatten = s.filter (· ≠ c) := by
  have hstart : Collected s c 0 [] := ⟨List.Pairwise.nil, fun a b => by simp, by simp⟩
  -- the empty text is a case of its own in the source
  have hrun : ∃ ps, split s c v = some (v ++ ps.map (piece s)) ∧ Collected s c (s.length + 1) ps := by
    by_cases h0 : s.length = 0
    · have hg : Gap s c 0 s.length :=
        ⟨by omega, le_rfl, Or.inl rfl, fun k _ hk => by omega, Or.inl rfl⟩
      refine ⟨addGap [] 0 s.length, ?_, hstart.add hg⟩
      rw [split, if_pos h0, addGap, if_neg (by omega), List.map_nil, List.append_nil]
    · obtain ⟨ps, hps, hcol⟩ := splitLoop_spec (w := v) (v := v) (by simp) hstart (Nat.zero_le _)
        (Or.inl rfl) rfl
      exact ⟨ps, by rw [split, if_neg h0, hps], hcol⟩
  obtain ⟨ps, hps, hcol⟩ := hrun
  have hmem (a b : ℕ) : (a, b) ∈ ps ↔ Segment s c a b := by
    rw [hcol.mem]
    exact ⟨And.left, fun hs => ⟨hs, Nat.lt_succ_of_le hs.bound⟩⟩
  refine ⟨ps, hps, hmem, hcol.ordered, fun w hw => ?_, ?_⟩
  · obtain ⟨⟨a, b⟩, hp, rfl⟩ := List.mem_map.mp hw
    have hs := (hmem a b).mp hp
    have hg : Gap s c a b := ⟨hs.nonempty.le, hs.bound, hs.left, hs.free, hs.right⟩
    refine ⟨List.ne_nil_of_length_pos ?_, hg.piece_free⟩
    rw [hg.piece_length]
    exact Nat.sub_pos_of_lt hs.nonempty
  -- what is collected up to the end is the text without the separators
  · rw [hcol.text, List.take_of_length_le (Nat.le_succ _)]

/-- Separators in front, behind and next to each other leave no trace. -/
example : split ":ab::c:".toList ':' [['x']] = some [['x'], ['a', 'b'], ['c']] := by
  decide +kernel

end Split

end HttpsProxy
