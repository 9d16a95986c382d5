import HttpsProxy.FileLog

/-! `_dump` reports success when the reading ends and no `write` has failed: an
error in reading ends the loop as the end of the file does, and of a short `write`
the rest is lost. -/
namespace HttpsProxy

/-- The blocks that are read up to the first empty one. -/
def blocks (rest : Bytes) : List ℕ → Option (List Bytes)
  | [] => none
  | k :: reads =>
    let n := min k (min BLK_SIZE rest.length)
    if n = 0 then some [] else (blocks (rest.drop n) reads).map (rest.take n :: ·)

/-- The first writes that are not interrupted take so many bytes each. -/
def Takes (ks : List ℕ) (writes : List WriteAnswer) : Prop :=
  ks.map WriteAnswer.wrote <+: writes.filter (· ≠ .interrupted)

/-- All of the content is read, and each block is written at once. -/
def DumpAnswers.Whole (content : Bytes) (a : DumpAnswers) : Prop :=
  ∀ bs ks, blocks content a.reads = some bs → Takes ks a.writes → ks.length = bs.length →
    bs.flatten = content ∧ List.Forall₂ (fun b k => b.length ≤ k) bs ks

/-- What is taken of the blocks. -/
def taken (bs : List Bytes) (ks : List ℕ) : Bytes := (List.zipWith (fun b k => b.take k) bs ks).flatten

theorem writeBlock_success {block out : Bytes} {writes left : List WriteAnswer}
    (h : writeBlock block writes = some (.Success, out, left)) :
    ∃ k, out = block.take k ∧
      writes.filter (· ≠ .interrupted) = .wrote k :: left.filter (· ≠ .interrupted) := by
  induction writes with
  | nil => cases h
  | cons w writes ih =>
    cases w with
    | wrote k =>
      cases h
      exact ⟨k, rfl, rfl⟩
    | interrupted => exact ih h
    | noSpace => cases h
    | failed => cases h

theorem writeBlock_wrote {block : Bytes} {writes rest : List WriteAnswer} {k : ℕ}
    (h : writes.filter (· ≠ .interrupted) = .wrote k :: rest) :
    ∃ left, writeBlock block writes = some (.Success, block.take k, left) ∧
      left.filter (· ≠ .interrupted) = rest := by
  induction writes with
  | nil => cases h
  | cons w writes ih =>
    cases w with
    | wrote j =>
      cases h
      exact ⟨writes, rfl, rfl⟩
    | interrupted => exact ih h
    | noSpace => cases h
    | failed => cases h

/-- Success means that the reading has come to an end and no write has failed. -/
theorem dumpLoop_success {rest out : Bytes} {reads : List ℕ} {writes : List WriteAnswer} :
    dumpLoop rest reads writes = some (.Success, out) ↔
      ∃ bs ks, blocks rest reads = some bs ∧ Takes ks writes ∧ ks.length = bs.length ∧
        out = taken bs ks := by
  induction reads generalizing rest writes out with
  | nil => simp [dumpLoop, blocks]
  | cons k reads ih =>
    simp only [dumpLoop, blocks]
    split
    · constructor
      · intro h
        cases h
        exact ⟨[], [], rfl, List.nil_prefix, rfl, rfl⟩
      · rintro ⟨bs, ks, hbs, hks, hlen, rfl⟩
        cases hbs
        rfl
    · constructor
      · intro h
        split at h
        · cases h
        · rename_i rv block left hblock
          split at h
          · rename_i hrv
            obtain ⟨⟨rv', tail⟩, htail, hout⟩ := Option.map_eq_some_iff.mp h
            cases hout
            obtain ⟨bs, ks, hbs, hks, hlen, rfl⟩ := ih.mp htail
            obtain ⟨j, rfl, hw⟩ := writeBlock_success (hrv ▸ hblock)
            refine ⟨_ :: bs, j :: ks, by rw [hbs]; rfl, ?_, congrArg (· + 1) hlen, rfl⟩
            rw [Takes, hw, List.map_cons, List.prefix_cons_inj]
            exact hks
          · rename_i hrv
            cases h
            exact absurd rfl hrv
      · rintro ⟨bs, ks, hbs, hks, hlen, rfl⟩
        obtain ⟨tail, hmore, rfl⟩ := Option.map_eq_some_iff.mp hbs
        obtain ⟨j, ks, rfl⟩ := List.exists_of_length_succ ks hlen
        obtain ⟨ws, hw⟩ := hks
        obtain ⟨left, hblock, hleft⟩ := writeBlock_wrote hw.symm
        have htakes : Takes ks left := ⟨ws, hleft.symm⟩
        have htail := ih.mpr ⟨tail, ks, hmore, htakes, Nat.succ.inj hlen, rfl⟩
        rw [hblock]
        simp only [if_true]
        rw [htail]
        rfl

/-- What is read is the beginning of the content. -/
theorem blocks_prefix {rest : Bytes} {reads : List ℕ} {bs : List Bytes}
    (h : blocks rest reads = some bs) : bs.flatten <+: rest := by
  induction reads generalizing rest bs with
  | nil => cases h
  | cons k reads ih =>
    simp only [blocks] at h
    split at h
    · cases h
      exact List.nil_prefix
    · obtain ⟨bs, hbs, rfl⟩ := Option.map_eq_some_iff.mp h
      rw [List.flatten_cons]
      conv_rhs => rw [← List.take_append_drop (min k (min BLK_SIZE rest.length)) rest]
      exact (List.prefix_append_right_inj _).mpr (ih hbs)

theorem taken_length_le (bs : List Bytes) (ks : List ℕ) : (taken bs ks).length ≤ bs.flatten.length := by
  induction bs generalizing ks with
  | nil => simp [taken]
  | cons b bs ih =>
    cases ks with
    | nil => simp [taken]
    | cons k ks =>
      have hrest := ih ks
      have hone : (b.take k).length = min k b.length := List.length_take
      simp only [taken, List.zipWith_cons_cons, List.flatten_cons, List.length_append] at hrest ⊢
      omega

theorem taken_eq_flatten {bs : List Bytes} {ks : List ℕ}
    (h : List.Forall₂ (fun b k => b.length ≤ k) bs ks) : taken bs ks = bs.flatten := by
  induction h with
  | nil => rfl
  | cons hbk h ih =>
    rw [taken, List.zipWith_cons_cons, List.flatten_cons, List.flatten_cons,
      List.take_of_length_le hbk, ← ih, taken]

/-- When no byte is missing each block has been taken whole. -/
theorem whole_of_taken_length {bs : List Bytes} {ks : List ℕ} (hlen : ks.length = bs.length)
    (h : (taken bs ks).length = bs.flatten.length) :
    List.Forall₂ (fun b k => b.length ≤ k) bs ks := by
  induction bs generalizing ks with
  | nil =>
    rw [List.length_eq_zero_iff.mp hlen]
    exact List.Forall₂.nil
  | cons b bs ih =>
    obtain ⟨k, ks, rfl⟩ := List.exists_of_length_succ ks hlen
    have hrest := taken_length_le bs ks
    have hone : (b.take k).length = min k b.length := List.length_take
    simp only [taken, List.zipWith_cons_cons, List.flatten_cons, List.length_append] at h hrest
    refine List.Forall₂.cons (by omega) (ih (Nat.succ.inj hlen) ?_)
    simp only [taken]
    omega

/-- A dump that reports success has copied the whole content as long as the
reading does not end early and no write is short. -/
theorem FileLog._dump_complete_iff (content : Bytes) (a : DumpAnswers) :
    (∀ out, FileLog._dump content a = some (.Success, out) → out = content) ↔
      (a.opens = true → a.seeks = true → a.Whole content) := by
  -- without the file there is no dump, and nothing to be complete
  by_cases hready : a.opens = true ∧ a.seeks = true
  · have hdump : FileLog._dump content a = dumpLoop content a.reads a.writes := by
      rw [FileLog._dump, hready.1, hready.2]
      rfl
    rw [hdump]
    constructor
    · intro h _ _ bs ks hbs hks hlen
      -- a dump that succeeds has written what the answers say was taken
      have hout := h _ (dumpLoop_success.mpr ⟨bs, ks, hbs, hks, hlen, rfl⟩)
      have hle := taken_length_le bs ks
      have hpre := blocks_prefix hbs
      -- it is a prefix of the content, and as long
      have hflat : bs.flatten = content := hpre.eq_of_length_le (hout ▸ hle)
      exact ⟨hflat, whole_of_taken_length hlen (by rw [hout, hflat])⟩
    · intro h out hout
      obtain ⟨bs, ks, hbs, hks, hlen, rfl⟩ := dumpLoop_success.mp hout
      obtain ⟨hflat, htaken⟩ := h hready.1 hready.2 bs ks hbs hks hlen
      rw [taken_eq_flatten htaken, hflat]
  · have hdump : FileLog._dump content a = some (.Unknown, []) := by
      rw [FileLog._dump]
      cases ho : a.opens with
      | false => rfl
      | true =>
        cases hs : a.seeks with
        | false => rfl
        | true => exact absurd ⟨ho, hs⟩ hready
    rw [hdump]
    exact ⟨fun _ ho hs => absurd ⟨ho, hs⟩ hready, fun _ out h => by cases h⟩

/-- A write that takes one byte of two. -/
theorem FileLog._dump_complete_fails :
    ¬∀ out, FileLog._dump (ascii "ab") ⟨true, true, [4096, 4096], [.wrote 1]⟩ = some (.Success, out) →
      out = ascii "ab" := by
  intro h
  have hout := h (ascii "a") (by decide)
  revert hout
  decide

end HttpsProxy
