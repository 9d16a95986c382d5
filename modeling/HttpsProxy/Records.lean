import HttpsProxy.Bytes

/-! Streams of length-prefixed records: each record is its length in `k` bytes
followed by its bytes. Reading such a stream back gives the records written. -/
namespace HttpsProxy

/-- One record as it stands in the stream. -/
def frame (k : ℕ) (d : Bytes) : Bytes := leBytes k d.length ++ d

/-- A stream of records. -/
def frames (k : ℕ) (q : List Bytes) : Bytes := q.flatMap (frame k)

/-- The records at the front of a stream, at most `fuel` of them. A length of
zero or an incomplete header ends the stream. -/
def unframe (k : ℕ) : ℕ → Bytes → List Bytes
  | 0, _ => []
  | fuel+1, s =>
    if s.length < k then []
    else if ofLe (s.take k) = 0 then []
    else (s.drop k).take (ofLe (s.take k)) ::
      unframe k fuel ((s.drop k).drop (ofLe (s.take k)))

/-- A record that can be told from the end of the stream. -/
def Recordable (k : ℕ) (d : Bytes) : Prop := d ≠ [] ∧ d.length < 256^k

@[simp] theorem frames_nil (k : ℕ) : frames k [] = [] := rfl

theorem frames_cons (k : ℕ) (d : Bytes) (q : List Bytes) :
    frames k (d :: q) = leBytes k d.length ++ (d ++ frames k q) := by
  simp only [frames, frame, List.flatMap_cons, List.append_assoc]

theorem frames_append (k : ℕ) (q r : List Bytes) : frames k (q ++ r) = frames k q ++ frames k r :=
  List.flatMap_append

theorem frames_length_le {k : ℕ} {q : List Bytes} (h : ∀ d ∈ q, Recordable k d) :
    q.length ≤ (frames k q).length := by
  induction q with
  | nil => simp
  | cons d q ih =>
    have hd := List.length_pos_iff.mpr (h d List.mem_cons_self).1
    have hq := ih fun e he => h e (List.mem_cons_of_mem _ he)
    simp only [frames_cons, List.length_append, leBytes_length, List.length_cons]
    omega

theorem unframe_frames {k fuel : ℕ} {q : List Bytes} (hk : 0 < k)
    (h : ∀ d ∈ q, Recordable k d) (hf : q.length ≤ fuel) : unframe k fuel (frames k q) = q := by
  induction q generalizing fuel with
  | nil =>
    cases fuel with
    | zero => rfl
    | succ fuel => simp [unframe, hk]
  | cons d q ih =>
    obtain ⟨hne, hlt⟩ := h d List.mem_cons_self
    cases fuel with
    | zero => simp at hf
    | succ fuel =>
      have hpos := List.length_pos_iff.mpr hne
      have hlen : ¬(frames k (d :: q)).length < k := by
        simp only [frames_cons, List.length_append, leBytes_length]
        omega
      have htake : (frames k (d :: q)).take k = leBytes k d.length := by
        rw [frames_cons, List.take_left' (leBytes_length _ _)]
      have hdrop : (frames k (d :: q)).drop k = d ++ frames k q := by
        rw [frames_cons, List.drop_left' (leBytes_length _ _)]
      have hsz : ofLe (leBytes k d.length) = d.length := ofLe_leBytes _ _ hlt
      simp only [unframe, if_neg hlen, htake, hsz, hdrop, if_neg hpos.ne', List.take_left,
        List.drop_left]
      rw [ih (fun e he => h e (List.mem_cons_of_mem _ he)) (Nat.le_of_succ_le_succ hf)]

end HttpsProxy
