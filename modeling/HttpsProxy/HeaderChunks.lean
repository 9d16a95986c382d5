import HttpsProxy.ResponseText

/-! The answer of the proxy server as it comes in, chunk by chunk: a header that
is collected, judged after each chunk, and then bytes that are relayed. -/
namespace HttpsProxy

open TunCtx

/-- How far the tunnel has got with the answer. -/
inductive Answer where
  | reading (text : Bytes)
  | relaying (sent : Bytes)
  | refused
  deriving DecidableEq, Repr

/-- How an answer ends. -/
inductive Outcome where
  | established
  | failed
  | incomplete
  deriving DecidableEq, Repr

/-- The most bytes a header can have. -/
def HEADER_MAX : ℕ := HTTP_HEADER_SIZE - 1

namespace Answer

/-- The verdict of `parseHttpHeader` on a text. -/
def judge (text : Bytes) : Answer :=
  if fullHeader text then if acceptsHeader text then .relaying [] else .refused
  else .reading text

/-- One more chunk. -/
def hear : Answer → Bytes → Answer
  | .reading text, data =>
    if HEADER_MAX - text.length < data.length then .refused else judge (text ++ cstr data)
  | .relaying sent, data => .relaying (sent ++ data)
  | .refused, _ => .refused

def relayed : Answer → Bytes
  | .relaying sent => sent
  | _ => []

def outcome : Answer → Outcome
  | .reading _ => .incomplete
  | .relaying _ => .established
  | .refused => .failed

theorem hear_relaying (sent : Bytes) (cs : List Bytes) :
    cs.foldl hear (.relaying sent) = .relaying (sent ++ cs.flatten) := by
  induction cs generalizing sent with
  | nil => simp
  | cons c cs ih => simp [hear, ih]

theorem hear_refused (cs : List Bytes) : cs.foldl hear .refused = .refused := by
  induction cs with
  | nil => rfl
  | cons c cs ih => exact ih

/-- Chunks that make no complete header and fit are collected. -/
theorem hear_collects {x : Bytes} {cs : List Bytes} (hz : 0 ∉ cs.flatten)
    (hlen : x.length + cs.flatten.length ≤ HEADER_MAX)
    (hno : ¬fullHeader (x ++ cs.flatten) = true) :
    cs.foldl hear (.reading x) = .reading (x ++ cs.flatten) := by
  induction cs generalizing x with
  | nil => simp
  | cons c cs ih =>
    simp only [List.flatten_cons, List.length_append, List.mem_append, not_or] at hz hlen hno ⊢
    rw [← List.append_assoc] at hno ⊢
    have hc : ¬fullHeader (x ++ c) = true := fun h => hno (fullHeader_append h _)
    have hroom : ¬HEADER_MAX - x.length < c.length := by omega
    rw [List.foldl_cons, hear, if_neg hroom, cstr_eq_self hz.1, judge, if_neg hc]
    exact ih hz.2 (by simp only [List.length_append]; omega) hno

end Answer

/-- The ways of cutting `s` into chunks that are not empty. -/
def Chunking (s : Bytes) (cs : List Bytes) : Prop := cs.flatten = s ∧ ∀ d ∈ cs, d ≠ []

/-- One more chunk, if there is anything in it. -/
theorem Chunking.append {s : Bytes} {cs : List Bytes} (h : Chunking s cs) (d : Bytes) :
    Chunking (s ++ d) (cs ++ if d = [] then [] else [d]) := by
  by_cases hd : d = []
  · simpa [hd] using h
  · refine ⟨by simp [hd, h.1], fun c hc => ?_⟩
    simp only [if_neg hd, List.mem_append, List.mem_singleton] at hc
    rcases hc with hc | rfl
    exacts [h.2 c hc, hd]

/-- Some chunk holds the byte at `k`. -/
theorem Chunking.crossing {s : Bytes} {cs : List Bytes} (h : Chunking s cs) {k : ℕ}
    (hk : k < s.length) : ∃ pre d post, cs = pre ++ d :: post ∧ pre.flatten.length ≤ k ∧
      k < pre.flatten.length + d.length := by
  obtain ⟨rfl, -⟩ := h
  induction cs generalizing k with
  | nil => simp at hk
  | cons c cs ih =>
    by_cases hc : k < c.length
    · exact ⟨[], c, cs, rfl, by simp, by simpa using hc⟩
    · simp only [List.flatten_cons, List.length_append] at hk
      obtain ⟨pre, d, post, rfl, h1, h2⟩ := ih (k := k - c.length) (by omega)
      refine ⟨c :: pre, d, post, rfl, ?_, ?_⟩ <;>
        simp only [List.flatten_cons, List.length_append] <;> omega

namespace Answer

/-- Of how the bytes up to and with the chunk `d` were cut, only its end matters,
if the header was not complete before it. -/
theorem hear_crossing {x s d : Bytes} {pre post : List Bytes} (h : Chunking s (pre ++ d :: post))
    {k : ℕ} (hpre : pre.flatten.length ≤ k) (hz : 0 ∉ s.take k) (hlen : x.length + k ≤ HEADER_MAX)
    (hno : ¬fullHeader (x ++ s.take k) = true) :
    pre.flatten.length + d.length ≤ s.length ∧
      Chunking (s.drop (pre.flatten.length + d.length)) post ∧
      (pre ++ d :: post).foldl hear (.reading x) =
        post.foldl hear (hear (.reading x) (s.take (pre.flatten.length + d.length))) := by
  obtain ⟨hs, hne⟩ := h
  simp only [List.flatten_append, List.flatten_cons] at hs
  let j := pre.flatten.length
  have hj : s.take j = pre.flatten := by rw [← hs]; exact List.take_left
  have hf : s.take (j + d.length) = pre.flatten ++ d := by
    rw [← hs, ← List.append_assoc, ← List.length_append]
    exact List.take_left
  have hpost : s.drop (j + d.length) = post.flatten := by
    rw [← hs, ← List.append_assoc, ← List.length_append]
    exact List.drop_left
  have hjk : s.take j <+: s.take k := List.take_prefix_take_left hpre
  have hzj : 0 ∉ pre.flatten := fun hm => hz (hjk.subset (hj ▸ hm))
  have hnoj : ¬fullHeader (x ++ pre.flatten) = true := by
    intro hfull
    obtain ⟨t, ht⟩ := hj ▸ hjk
    refine hno ?_
    rw [← ht, ← List.append_assoc]
    exact fullHeader_append hfull t
  refine ⟨?_, ⟨hpost.symm, fun c hc => hne c (by simp [hc])⟩, ?_⟩
  · rw [← hs]
    simp only [List.length_append]
    omega
  · rw [List.foldl_append, hear_collects hzj (by omega) hnoj, List.foldl_cons, hf]
    congr 1
    simp only [hear, List.length_append, cstr_append _ _ hzj, List.append_assoc]
    congr 1
    apply propext
    constructor <;> intro hlt <;> omega

/-- However the bytes `s` are cut, the answer ends with `o`. -/
def Always (o : Outcome) (x s : Bytes) : Prop :=
  ∀ cs, Chunking s cs → (cs.foldl hear (.reading x)).outcome = o

end Answer

theorem chunking_nil : Chunking [] [] := ⟨rfl, by simp⟩

theorem Chunking.eq_nil {cs : List Bytes} (h : Chunking [] cs) : cs = [] := by
  cases cs with
  | nil => rfl
  | cons c cs =>
    have hc := h.1
    rw [List.flatten_cons] at hc
    exact absurd (List.append_eq_nil_iff.mp hc).1 (h.2 c List.mem_cons_self)

theorem exists_chunking (s : Bytes) : ∃ cs, Chunking s cs := by
  by_cases h : s = []
  · exact ⟨[], h ▸ chunking_nil⟩
  · exact ⟨[s], by simp, by simpa using h⟩

theorem cstr_take (s : Bytes) (f : ℕ) : cstr (s.take f) = (cstr s).take f := by
  induction s generalizing f with
  | nil => simp [cstr]
  | cons b s ih =>
    cases f with
    | zero => rfl
    | succ f =>
      by_cases hb : b = 0
      · simp [cstr, hb]
      · simpa [cstr, hb] using ih f

/-- Before the first NUL a byte string is its text. -/
theorem take_of_le_cstr {s : Bytes} {k : ℕ} (h : k ≤ (cstr s).length) : s.take k = (cstr s).take k := by
  obtain ⟨t, ht⟩ := cstr_initial s
  conv_lhs => rw [← ht]
  exact List.take_append_of_le_length h

/-- The first empty line of the text ends at `e`. -/
def EndsAt (text : Bytes) (e : ℕ) : Prop :=
  fullHeader (text.take e) = true ∧ ∀ k < e, ¬fullHeader (text.take k) = true

theorem EndsAt.unique {text : Bytes} {d e : ℕ} (h : EndsAt text d) (k : EndsAt text e) : d = e := by
  rcases lt_trichotomy d e with hlt | heq | hlt
  · exact absurd h.1 (k.2 d hlt)
  · exact heq
  · exact absurd k.1 (h.2 e hlt)

theorem EndsAt.le_length {text : Bytes} {e : ℕ} (h : EndsAt text e) : e ≤ text.length := by
  by_contra hlt
  have hfull := h.1
  rw [List.take_of_length_le (by omega)] at hfull
  refine h.2 text.length (by omega) ?_
  rwa [List.take_of_length_le le_rfl]

/-- The header does not end within a text that is not complete. -/
theorem EndsAt.beyond {x t : Bytes} {e : ℕ} (h : EndsAt (x ++ t) e) (hx : ¬fullHeader x = true) :
    x.length < e := by
  by_contra hlt
  have hp : (x ++ t).take e <+: x := by
    rw [List.take_append_of_le_length (not_lt.mp hlt)]
    exact List.take_prefix _ _
  obtain ⟨u, hu⟩ := hp
  exact hx (hu ▸ fullHeader_append h.1 u)

theorem exists_endsAt {text : Bytes} {n : ℕ} (h : fullHeader (text.take n) = true) :
    ∃ e ≤ n, EndsAt text e := by
  have hex : ∃ k, fullHeader (text.take k) = true := ⟨n, h⟩
  exact ⟨Nat.find hex, Nat.find_min' hex h, Nat.find_spec hex, fun k hk => Nat.find_min hex hk⟩

/-- The condition under which the way of cutting `s` does not matter for a
header of which `x` has come in, and how the answer then ends. Only the text
`x ++ cstr s` up to the first NUL is sure to be read. -/
inductive Settles (o : Outcome) : Bytes → Bytes → Prop where
  /-- The phrase is there once the header is complete, and nothing overflows. -/
  | accepted {x s : Bytes} (e : ℕ) (ends : EndsAt (x ++ cstr s) e) (fits : e ≤ HEADER_MAX)
      (phrase : acceptsHeader ((x ++ cstr s).take e) = true)
      (short : x.length + s.length ≤ HEADER_MAX) (out : o = .established) : Settles o x s
  /-- The header is complete, and the phrase is nowhere in what may be read with it. -/
  | rejected {x s : Bytes} (full : fullHeader ((x ++ cstr s).take HEADER_MAX) = true)
      (phrase : ¬acceptsHeader ((x ++ cstr s).take HEADER_MAX) = true) (out : o = .failed) :
      Settles o x s
  /-- The header is not complete yet. -/
  | unfinished {x s : Bytes} (open_ : ¬fullHeader ((x ++ cstr s).take HEADER_MAX) = true)
      (text : 0 ∉ s) (short : x.length + s.length ≤ HEADER_MAX) (out : o = .incomplete) :
      Settles o x s
  /-- The header does not fit. -/
  | overflowing {x s : Bytes} (open_ : ¬fullHeader ((x ++ cstr s).take HEADER_MAX) = true)
      (text : 0 ∉ s ∨ HEADER_MAX ≤ (x ++ cstr s).length)
      (long : HEADER_MAX < x.length + s.length) (out : o = .failed) : Settles o x s
  /-- A NUL takes with it whatever follows it in its chunk, so the same must hold
  for every rest that may be left. -/
  | cut {x s : Bytes} (open_ : ¬fullHeader ((x ++ cstr s).take HEADER_MAX) = true) (nul : 0 ∈ s)
      (room : (x ++ cstr s).length < HEADER_MAX)
      (out : o = if x.length + s.length ≤ HEADER_MAX then .incomplete else .failed)
      (rest : ∀ f, (cstr s).length < f → f < s.length → x.length + f ≤ HEADER_MAX →
        Settles o (x ++ cstr s) (s.drop f)) : Settles o x s

namespace Answer

theorem outcome_judge_full {text : Bytes} (h : fullHeader text = true) (post : List Bytes) :
    (post.foldl hear (judge text)).outcome =
      if acceptsHeader text = true then .established else .failed := by
  rw [judge, if_pos h]
  split
  · rw [hear_relaying]
    rfl
  · rw [hear_refused]
    rfl

/-- The chunks up to `f` are read as one. -/
theorem hear_take {x s : Bytes} {f : ℕ} (hf : f ≤ s.length) (hx : x.length ≤ HEADER_MAX) :
    hear (.reading x) (s.take f) =
      if HEADER_MAX < x.length + f then .refused else judge (x ++ (cstr s).take f) := by
  rw [hear, cstr_take, List.length_take, Nat.min_eq_left hf]
  congr 1
  apply propext
  constructor <;> intro h <;> omega

/-- Only the end of the chunk that holds the byte at `k` matters. -/
theorem always_iff_crossing {o : Outcome} {x s : Bytes} {k : ℕ} (hk : k < s.length)
    (hz : 0 ∉ s.take k) (hlen : x.length + k ≤ HEADER_MAX)
    (hno : ¬fullHeader (x ++ s.take k) = true) : Always o x s ↔
      ∀ f, k < f → f ≤ s.length → ∀ post, Chunking (s.drop f) post →
        (post.foldl hear (if HEADER_MAX < x.length + f then .refused
          else judge (x ++ (cstr s).take f))).outcome = o := by
  constructor
  · intro h f hkf hf post hpost
    rw [← hear_take hf (by omega)]
    refine h (s.take f :: post) ⟨by simp [hpost.1], fun d hd => ?_⟩
    rcases List.mem_cons.mp hd with rfl | hd
    · exact List.ne_nil_of_length_pos (by simp only [List.length_take]; omega)
    · exact hpost.2 d hd
  · intro h cs hcs
    obtain ⟨pre, d, post, rfl, hpre, hd⟩ := hcs.crossing hk
    obtain ⟨hf, hpost, heq⟩ := hear_crossing hcs hpre hz hlen hno
    rw [heq, hear_take hf (by omega)]
    exact h _ hd hf post hpost

/-- With an empty line in reach, the end of the chunk that completes it decides. -/
theorem always_iff_of_ends {o : Outcome} {x s : Bytes} {e : ℕ} (hx : ¬fullHeader x = true)
    (he : EndsAt (x ++ cstr s) e) (hfit : e ≤ HEADER_MAX) : Always o x s ↔
      ∀ n, e ≤ n → n ≤ x.length + s.length → o = if HEADER_MAX < n then .failed
        else if acceptsHeader ((x ++ cstr s).take n) = true then .established else .failed := by
  have hxe := he.beyond hx
  have heT := he.le_length
  rw [List.length_append] at heT
  have hcs := cstr_length_le s
  have hk : s.take (e - 1 - x.length) = (cstr s).take (e - 1 - x.length) := take_of_le_cstr (by omega)
  have hz : 0 ∉ s.take (e - 1 - x.length) := by
    rw [hk]
    exact fun hm => zero_notMem_cstr s ((List.take_prefix _ _).subset hm)
  have htake : ∀ f, (x ++ cstr s).take (x.length + f) = x ++ (cstr s).take f := fun f => by
    rw [List.take_length_add_append]
  have hno : ¬fullHeader (x ++ s.take (e - 1 - x.length)) = true := by
    rw [hk, ← htake]
    exact he.2 _ (by omega)
  rw [always_iff_crossing (by omega) hz (by omega) hno]
  have hvalue : ∀ (f : ℕ) (post : List Bytes), e - 1 - x.length < f →
      (post.foldl hear (if HEADER_MAX < x.length + f then .refused
        else judge (x ++ (cstr s).take f))).outcome = if HEADER_MAX < x.length + f then .failed
        else if acceptsHeader ((x ++ cstr s).take (x.length + f)) = true then .established
          else .failed := by
    intro f post hf
    split
    · rw [hear_refused]
      rfl
    · rw [htake, outcome_judge_full]
      rw [← htake]
      exact fullHeader_take (by omega) he.1
  constructor
  · intro h n hen hn
    obtain ⟨post, hpost⟩ := exists_chunking (s.drop (n - x.length))
    have hf := h (n - x.length) (by omega) (by omega) post hpost
    rw [hvalue _ _ (by omega), Nat.add_sub_cancel' (by omega)] at hf
    exact hf.symm
  · intro h f hf hfs post _
    rw [hvalue _ _ hf]
    exact (h _ (by omega) (by omega)).symm

/-- Text that fits and has no empty line is collected. -/
theorem always_of_text {x s : Bytes} (hz : 0 ∉ s) (hlen : x.length + s.length ≤ HEADER_MAX)
    (hno : ¬fullHeader (x ++ s) = true) : Always .incomplete x s := by
  rintro cs ⟨rfl, -⟩
  rw [hear_collects hz hlen hno]
  rfl

/-- Text that does not fit is refused. -/
theorem always_of_long {x s : Bytes} (hx : x.length ≤ HEADER_MAX)
    (hno : ¬fullHeader ((x ++ cstr s).take HEADER_MAX) = true)
    (ht : 0 ∉ s ∨ HEADER_MAX ≤ (x ++ cstr s).length) (hlong : HEADER_MAX < x.length + s.length) :
    Always .failed x s := by
  have hle : HEADER_MAX - x.length ≤ (cstr s).length := by
    rcases ht with hz | hl
    · rw [cstr_eq_self hz]
      omega
    · rw [List.length_append] at hl
      omega
  have hk := take_of_le_cstr hle
  have hz : 0 ∉ s.take (HEADER_MAX - x.length) := by
    rw [hk]
    exact fun hm => zero_notMem_cstr s ((List.take_prefix _ _).subset hm)
  have hmax : (x ++ cstr s).take HEADER_MAX = x ++ s.take (HEADER_MAX - x.length) := by
    rw [hk, ← List.take_length_add_append, Nat.add_sub_cancel' hx]
  rw [always_iff_crossing (by omega) hz (by omega) (hmax ▸ hno)]
  intro f hf _ post _
  rw [if_pos (by omega), hear_refused]
  rfl

/-- At a NUL that fits, the header goes on with any rest of the bytes behind it. -/
theorem always_iff_of_nul {o : Outcome} {x s : Bytes} (hnul : 0 ∈ s)
    (hroom : (x ++ cstr s).length < HEADER_MAX) (hno : ¬fullHeader (x ++ cstr s) = true) :
    Always o x s ↔ (o = if x.length + s.length ≤ HEADER_MAX then .incomplete else .failed) ∧
      ∀ f, (cstr s).length < f → f < s.length → x.length + f ≤ HEADER_MAX →
        Always o (x ++ cstr s) (s.drop f) := by
  have hcut : (cstr s).length < s.length := by
    refine lt_of_le_of_ne (cstr_length_le s) fun he => ?_
    rw [← (cstr_initial s).eq_of_length he] at hnul
    exact zero_notMem_cstr s hnul
  have hk : s.take (cstr s).length = cstr s := by
    rw [take_of_le_cstr (Nat.le_refl _), List.take_length]
  rw [List.length_append] at hroom
  rw [always_iff_crossing hcut (by rw [hk]; exact zero_notMem_cstr s) (by omega)
    (by rw [hk]; exact hno)]
  have hread : ∀ f, (cstr s).length < f → x.length + f ≤ HEADER_MAX →
      (if HEADER_MAX < x.length + f then .refused else judge (x ++ (cstr s).take f)) =
        .reading (x ++ cstr s) := by
    intro f hf hfit
    rw [if_neg (by omega), List.take_of_length_le (by omega), judge, if_neg hno]
  constructor
  · intro h
    constructor
    · have hall := h s.length hcut (Nat.le_refl _) [] (by rw [List.drop_length]; exact chunking_nil)
      rw [List.foldl_nil] at hall
      by_cases hfit : x.length + s.length ≤ HEADER_MAX
      · rw [hread _ hcut hfit] at hall
        rw [if_pos hfit]
        exact hall.symm
      · rw [if_pos (by omega)] at hall
        rw [if_neg hfit]
        exact hall.symm
    · intro f hf hfs hfit cs hcs
      rw [← hread f hf hfit]
      exact h f hf hfs.le cs hcs
  · rintro ⟨hout, hrest⟩ f hf hfs post hpost
    by_cases hfit : x.length + f ≤ HEADER_MAX
    · rw [hread f hf hfit]
      rcases hfs.lt_or_eq with hlt | rfl
      · exact hrest f hf hlt hfit post hpost
      · rw [List.drop_length] at hpost
        rw [hpost.eq_nil, hout, if_pos hfit]
        rfl
    · rw [if_pos (by omega), hear_refused, hout, if_neg (by omega)]
      rfl

/-- With an empty line within the room of the header, the phrase and the number
of bytes decide whether the way of cutting matters. -/
theorem always_iff_settles_of_full {o : Outcome} {x s : Bytes} (hx : ¬fullHeader x = true)
    (hfull : fullHeader ((x ++ cstr s).take HEADER_MAX) = true) : Always o x s ↔ Settles o x s := by
  obtain ⟨e, hfit, he⟩ := exists_endsAt hfull
  rw [always_iff_of_ends hx he hfit]
  have hcs := cstr_length_le s
  have hl : (x ++ cstr s).length = x.length + (cstr s).length := List.length_append
  have heT := he.le_length
  constructor
  · intro h
    have hfirst := h e (Nat.le_refl e) (by omega)
    rw [if_neg (by omega)] at hfirst
    by_cases hp : acceptsHeader ((x ++ cstr s).take e) = true
    · rw [if_pos hp] at hfirst
      refine .accepted e he hfit hp ?_ hfirst
      by_contra hlong
      have hlast := h (x.length + s.length) (by omega) (Nat.le_refl _)
      rw [if_pos (by omega), hfirst] at hlast
      cases hlast
    · rw [if_neg hp] at hfirst
      refine .rejected hfull (fun hacc => ?_) hfirst
      have hlast := h (min HEADER_MAX (x.length + s.length)) (by omega) (by omega)
      have htake : (x ++ cstr s).take (min HEADER_MAX (x.length + s.length)) =
          (x ++ cstr s).take HEADER_MAX := by
        rw [← List.take_take, List.take_of_length_le (i := x.length + s.length) (by omega)]
      rw [if_neg (by omega), htake, if_pos hacc, hfirst] at hlast
      cases hlast
  · intro h n hen hn
    cases h with
    | accepted e' ends fits phrase short out =>
      rw [ends.unique he] at phrase
      rw [if_neg (by omega), if_pos (acceptsHeader_take hen phrase)]
      exact out
    | rejected _ phrase out =>
      split
      · exact out
      · rw [if_neg fun hacc => phrase (acceptsHeader_take (by omega) hacc)]
        exact out
    | unfinished open_ => exact absurd hfull open_
    | overflowing open_ => exact absurd hfull open_
    | cut open_ => exact absurd hfull open_

/-- The way of cutting does not matter exactly if the bytes settle the answer. -/
theorem always_iff_settles (o : Outcome) {x s : Bytes} (hlen : x.length ≤ HEADER_MAX)
    (hx : ¬fullHeader x = true) : Always o x s ↔ Settles o x s := by
  induction hn : s.length using Nat.strong_induction_on generalizing x s with
  | _ n ih =>
    by_cases hfull : fullHeader ((x ++ cstr s).take HEADER_MAX) = true
    · exact always_iff_settles_of_full hx hfull
    have hl : (x ++ cstr s).length = x.length + (cstr s).length := List.length_append
    by_cases hcut : 0 ∈ s ∧ (x ++ cstr s).length < HEADER_MAX
    · have hno : ¬fullHeader (x ++ cstr s) = true := by
        rwa [List.take_of_length_le hcut.2.le] at hfull
      have hrest : ∀ f, (cstr s).length < f → f < s.length →
          (Always o (x ++ cstr s) (s.drop f) ↔ Settles o (x ++ cstr s) (s.drop f)) :=
        fun f hf hfs => ih (s.drop f).length (by rw [List.length_drop]; omega) hcut.2.le hno rfl
      rw [always_iff_of_nul hcut.1 hcut.2 hno]
      constructor
      · rintro ⟨hout, h⟩
        exact .cut hfull hcut.1 hcut.2 hout fun f hf hfs hfit =>
          (hrest f hf hfs).mp (h f hf hfs hfit)
      · intro h
        cases h with
        | cut _ _ _ out rest =>
          exact ⟨out, fun f hf hfs hfit => (hrest f hf hfs).mpr (rest f hf hfs hfit)⟩
        | accepted e ends fits => exact absurd (fullHeader_take fits ends.1) hfull
        | rejected full => exact absurd full hfull
        | unfinished _ text => exact absurd hcut.1 text
        | overflowing _ text =>
          exact absurd hcut fun hc => text.elim (fun h => h hc.1) (not_le.mpr hc.2)
    obtain ⟨cs, hcs⟩ := exists_chunking s
    have htext : 0 ∉ s ∨ HEADER_MAX ≤ (x ++ cstr s).length := by
      by_cases hz : 0 ∈ s
      · exact Or.inr (not_lt.mp fun h => hcut ⟨hz, h⟩)
      · exact Or.inl hz
    by_cases hlong : HEADER_MAX < x.length + s.length
    · have hall := always_of_long hlen hfull htext hlong
      constructor
      · intro h
        exact .overflowing hfull htext hlong ((h cs hcs).symm.trans (hall cs hcs))
      · intro h
        cases h with
        | overflowing _ _ _ out => exact out ▸ hall
        | accepted e ends fits => exact absurd (fullHeader_take fits ends.1) hfull
        | rejected full => exact absurd full hfull
        | unfinished _ _ short => omega
        | cut _ nul room => exact absurd ⟨nul, room⟩ hcut
    · have hz : 0 ∉ s := by
        intro hz
        have h := htext.resolve_left fun h => h hz
        have hlt : (cstr s).length < s.length := by
          refine lt_of_le_of_ne (cstr_length_le s) fun he => ?_
          rw [← (cstr_initial s).eq_of_length he] at hz
          exact zero_notMem_cstr s hz
        omega
      have hno : ¬fullHeader (x ++ s) = true := by
        rw [cstr_eq_self hz, List.take_of_length_le (by rw [List.length_append]; omega)] at hfull
        exact hfull
      have hall := always_of_text hz (not_lt.mp hlong) hno
      constructor
      · intro h
        exact .unfinished hfull hz (not_lt.mp hlong) ((h cs hcs).symm.trans (hall cs hcs))
      · intro h
        cases h with
        | unfinished _ _ _ out => exact out ▸ hall
        | accepted e ends fits => exact absurd (fullHeader_take fits ends.1) hfull
        | rejected full => exact absurd full hfull
        | overflowing _ _ long => exact absurd long hlong
        | cut _ nul => exact absurd nul hz

end Answer

/-- The answer of the proxy server after these chunks. -/
def feed (cs : List Bytes) : Answer := cs.foldl Answer.hear (.reading [])

theorem feed_append (cs : List Bytes) (c : Bytes) : feed (cs ++ [c]) = (feed cs).hear c := by
  rw [feed, List.foldl_append]
  rfl

/-- A response header that fits and is accepted: a status line and fields, with
the first empty line at the end. -/
structure AcceptedHeader (H : Bytes) : Prop where
  text : 0 ∉ H
  short : H.length < HTTP_HEADER_SIZE
  line : ¬CRLF <+: H
  ends : CRLF ++ CRLF <:+ H
  first : ∀ j, CRLF ++ CRLF <+: H.drop j → j + 4 = H.length
  phrase : acceptsHeader H = true

theorem flatten_take_length_le (cs : List Bytes) {i j : ℕ} (hij : i ≤ j) :
    (cs.take i).flatten.length ≤ (cs.take j).flatten.length := by
  obtain ⟨t, ht⟩ := List.take_prefix_take_left (l := cs) hij
  rw [← ht, List.flatten_append, List.length_append]
  exact Nat.le_add_right _ _

namespace AcceptedHeader

theorem full {H : Bytes} (h : AcceptedHeader H) : fullHeader H = true := by
  obtain ⟨a, ha⟩ := h.ends
  refine (fullHeader_iff H).mpr (Or.inr ⟨a.length, ?_⟩)
  rw [← ha, List.drop_left]

theorem open_before {H : Bytes} (h : AcceptedHeader H) {k : ℕ} (hk : k < H.length) :
    ¬fullHeader (H.take k) = true := by
  rw [fullHeader_iff]
  rintro (hp | ⟨j, hp⟩)
  · exact h.line (hp.trans (List.take_prefix k H))
  · have hlen := hp.length_le
    rw [List.drop_take] at hp hlen
    have hj := h.first j (hp.trans (List.take_prefix _ _))
    simp only [List.length_append, List.length_take, List.length_drop, CRLF, List.length_cons,
      List.length_nil] at hlen
    omega

theorem pos {H : Bytes} (h : AcceptedHeader H) : 0 < H.length := by
  obtain ⟨a, rfl⟩ := h.ends
  simp [CRLF]

/-- Only the chunk with the last byte of `H` can end where `H` ends. -/
theorem cut_at_iff {H P d : Bytes} {pre post : List Bytes}
    (hcs : Chunking (H ++ P) (pre ++ d :: post)) (hpre : pre.flatten.length < H.length)
    (hd : H.length ≤ pre.flatten.length + d.length) :
    (∃ i, ((pre ++ d :: post).take i).flatten = H) ↔
      pre.flatten.length + d.length = H.length := by
  have hbefore : ((pre ++ d :: post).take pre.length).flatten.length < H.length := by
    rw [List.take_left]
    exact hpre
  have hthere : ((pre ++ d :: post).take (pre.length + 1)).flatten =
      (H ++ P).take (pre.flatten.length + d.length) := by
    have hsplit : (pre ++ d :: post).take (pre.length + 1) = pre ++ [d] := by
      rw [List.take_length_add_append]
      rfl
    have hflat : H ++ P = (pre ++ [d]).flatten ++ post.flatten := by rw [← hcs.1]; simp
    rw [hsplit, hflat]
    exact (List.take_left' (by simp)).symm
  have hwhole : pre.flatten.length + d.length ≤ H.length + P.length := by
    have hlen := congrArg List.length hcs.1
    simp only [List.flatten_append, List.flatten_cons, List.length_append] at hlen
    omega
  constructor
  · rintro ⟨i, hi⟩
    have hlen := congrArg List.length hi
    rcases Nat.lt_or_ge pre.length i with hlt | hge
    · have hle := flatten_take_length_le (pre ++ d :: post) hlt
      rw [hthere, List.length_take, List.length_append] at hle
      omega
    · have hle := flatten_take_length_le (pre ++ d :: post) hge
      omega
  · intro hfl
    exact ⟨pre.length + 1, by rw [hthere, hfl, List.take_left]⟩

/-- What follows an accepted header is relayed from the next chunk on. -/
theorem relayed_iff {H P : Bytes} (h : AcceptedHeader H) {cs : List Bytes}
    (hcs : Chunking (H ++ P) cs) :
    (feed cs).relayed = P ↔ P = [] ∨ ∃ i, (cs.take i).flatten = H := by
  have hpos := h.pos
  have hshort : H.length ≤ HEADER_MAX := Nat.le_sub_one_of_lt h.short
  obtain ⟨pre, d, post, rfl, hpre, hd⟩ := hcs.crossing (k := H.length - 1)
    (by rw [List.length_append]; omega)
  have htake : (H ++ P).take (H.length - 1) = H.take (H.length - 1) :=
    List.take_append_of_le_length (by omega)
  obtain ⟨hf, hpost, heq⟩ := Answer.hear_crossing (x := []) hcs hpre
    (by rw [htake]; exact fun hm => h.text ((List.take_prefix _ _).subset hm))
    (by rw [List.length_nil]; omega) (by rw [htake]; exact h.open_before (by omega))
  have hboundary := cut_at_iff hcs (by omega) (by omega)
  generalize pre.flatten.length + d.length = f at hf hpost heq hd hboundary
  rw [List.length_append] at hf
  rw [hboundary]
  change (List.foldl Answer.hear (Answer.reading []) (pre ++ d :: post)).relayed = P ↔ _
  rw [heq, Answer.hear_take (by rw [List.length_append]; exact hf) (Nat.zero_le _), List.length_nil,
    Nat.zero_add, List.nil_append, cstr_append _ _ h.text]
  -- the chunk that completes the header overflows it, or loses what it has beyond it
  by_cases hmax : HEADER_MAX < f
  · rw [if_pos hmax, Answer.hear_refused]
    refine iff_of_false (fun hP => ?_) (by rintro (rfl | hfl) <;> simp_all <;> omega)
    rw [← show [] = P from hP, List.length_nil] at hf
    omega
  · have hprefix : (H ++ cstr P).take f = H ++ (cstr P).take (f - H.length) := by
      rw [List.take_append, List.take_of_length_le (by omega)]
    rw [if_neg hmax, hprefix, Answer.judge, if_pos (fullHeader_append h.full _),
      if_pos (acceptsHeader_append h.phrase _), Answer.hear_relaying, List.nil_append, hpost.1]
    have hdrop : (H ++ P).drop f = P.drop (f - H.length) := by
      rw [List.drop_append, List.drop_eq_nil_of_le (by omega), List.nil_append]
    rw [hdrop]
    change P.drop (f - H.length) = P ↔ _
    constructor
    · intro hP
      have hlen := congrArg List.length hP
      rw [List.length_drop] at hlen
      by_cases hnil : P = []
      · exact Or.inl hnil
      · have := List.length_pos_iff.mpr hnil
        exact Or.inr (by omega)
    · rintro (rfl | hfl)
      · simp
      · rw [hfl, Nat.sub_self, List.drop_zero]

end AcceptedHeader

end HttpsProxy
