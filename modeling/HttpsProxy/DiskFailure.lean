import HttpsProxy.CacheFailure
import HttpsProxy.DiskQueue

/-! `DiskCache::write` when a stdio call inside it fails. The exits before the
first `fwrite` leave the file alone; a short `fwrite` leaves what has arrived at
the end of the file and the position behind it. -/
namespace HttpsProxy

namespace DiskCache

/-- The `fwrite` of `n` bytes is not short. -/
def Whole (short : Option ℕ) (n : ℕ) : Prop := ∀ k, short = some k → n ≤ k

/-- `write` returns before it writes anything. -/
def Unreached (w : WriteRes) (d : DiskCache) : Prop :=
  (d.mpFile = none ∧ w.tmpfile = false) ∨ w.ftell = false ∨ w.seekEnd = false

/-- The exits of `write`: the value returned and the file then. -/
inductive Exit (w : WriteRes) (data : Bytes) (d : DiskCache) (ret : ℤ) (f : File) : Prop where
  | early (unreached : Unreached w d) (neg : ret < 0) (file : f = d.file)
  | header (reached : ¬Unreached w d) (k : ℕ) (short : w.shortHeader = some k) (lt : k < SIZE_T)
      (neg : ret < 0) (file : f = d.file.append (leBytes SIZE_T data.length) k)
  | body (reached : ¬Unreached w d) (whole : Whole w.shortHeader SIZE_T) (k : ℕ)
      (short : w.shortBody = some k) (lt : k < data.length) (neg : ret < 0)
      (file : f.pos = f.contents.length ∧ d.file.contents.length + SIZE_T ≤ f.contents.length)
  | done (header : Whole w.shortHeader SIZE_T) (body : Whole w.shortBody data.length)
      (ret : ret = data.length)

theorem fwrite_whole {data : Bytes} {short : Option ℕ} (f : File) (h : Whole short data.length) :
    fwrite data short f = (true, f.append data data.length) := by
  cases short with
  | none => rfl
  | some k =>
    have hk : data.length ≤ k := h k rfl
    simp only [fwrite, hk, decide_true, File.append, List.take_of_length_le hk, List.take_length]

theorem fwrite_short {data : Bytes} {k : ℕ} (f : File) (h : k < data.length) :
    fwrite data (some k) f = (false, f.append data k) := by
  simp only [fwrite, not_le.mpr h, decide_false]

theorem whole_or_short (short : Option ℕ) (n : ℕ) : Whole short n ∨ ∃ k, short = some k ∧ k < n := by
  cases short with
  | none => exact Or.inl fun k h => by cases h
  | some k =>
    rcases Nat.lt_or_ge k n with h | h
    · exact Or.inr ⟨k, rfl, h⟩
    · exact Or.inl fun j hj => Option.some.inj hj ▸ h

/-- The file that `write` works on, newly made or not. -/
theorem createFile_file {w : WriteRes} {d : DiskCache} (h : ¬(d.mpFile = none ∧ w.tmpfile = false)) :
    (if d.mpFile = none then _createFile w else d) = ⟨some d.file⟩ := by
  cases hf : d.mpFile with
  | some f =>
    obtain ⟨g⟩ := d
    have hg : g = some f := hf
    simp [file, hg]
  | none =>
    have ht : w.tmpfile = true := by
      by_contra hne
      exact h ⟨hf, by simpa using hne⟩
    simp [_createFile, ht, file, hf]

theorem write_exit (w : WriteRes) (data : Bytes) (d : DiskCache) :
    Exit w data d (d.write w data).1 (d.write w data).2.file := by
  by_cases hnone : d.mpFile = none ∧ w.tmpfile = false
  · have hw : d.write w data = (-1, ⟨none⟩) := by simp [write, _createFile, hnone]
    rw [hw]
    exact .early (Or.inl hnone) (by decide) (by simp [file, hnone.1])
  simp only [write, createFile_file hnone]
  cases htell : w.ftell with
  | false => exact .early (Or.inr (Or.inl htell)) (by simp) rfl
  | true =>
  cases hseek : w.seekEnd with
  | false => exact .early (Or.inr (Or.inr hseek)) (by simp) rfl
  | true =>
  have hreached : ¬Unreached w d := by
    rintro (h | h | h)
    · exact hnone h
    · exact absurd (htell.symm.trans h) (by simp)
    · exact absurd (hseek.symm.trans h) (by simp)
  simp only [Bool.not_true, Bool.false_eq_true, if_false]
  have hlen : (leBytes SIZE_T data.length).length = SIZE_T := leBytes_length _ _
  rcases whole_or_short w.shortHeader SIZE_T with hheader | ⟨k, hk, hlt⟩
  · rw [fwrite_whole _ (by rwa [hlen])]
    simp only [Bool.not_true, Bool.false_eq_true, if_false]
    rcases whole_or_short w.shortBody data.length with hbody | ⟨k, hk, hlt⟩
    · rw [fwrite_whole _ hbody]
      exact .done hheader hbody rfl
    · rw [hk, fwrite_short _ hlt]
      refine .body hreached hheader k hk hlt (by simp) ⟨rfl, ?_⟩
      change d.file.contents.length + SIZE_T ≤
        (d.file.contents ++ (leBytes SIZE_T data.length).take (leBytes SIZE_T data.length).length ++
          data.take k).length
      rw [List.take_length, List.length_append, List.length_append, hlen]
      omega
  · rw [hk, fwrite_short _ (by rwa [hlen])]
    exact .header hreached k hk hlt (by simp) rfl

/-- The position is never behind the end of a file of records. -/
theorem pos_le_length {d : DiskCache} {q : List Bytes} (h : d.Holds q) :
    d.file.pos ≤ d.file.contents.length := by
  obtain ⟨old, hc, hp⟩ := holds_file.mp h
  rw [hc, hp, List.length_append]
  exact Nat.le_add_right _ _

/-- A call of `write` in front of which `q` is unread. If it fails, the position
is where it was, and whatever is called afterwards is answered as by the queue
`q`: the records of `q` are read, and then those that are written later. -/
def Atomic (w : WriteRes) (data : Bytes) (d : DiskCache) (q : List Bytes) : Prop :=
  (d.write w data).1 < 0 → (d.write w data).2.file.pos = d.file.pos ∧
    ∀ ops os q', Refinement.asked RecordQueue.call ⟨q, none⟩ ops = some (os, q') →
      (Refinement.answers call (d.write w data).2 ops).1 = os

/-- `write` returns before it writes anything; or no `fwrite` is short; or
nothing of the header arrives while the position is at the end of the file. -/
def Untorn (w : WriteRes) (data : Bytes) (d : DiskCache) : Prop :=
  Unreached w d ∨ Whole w.shortHeader SIZE_T ∧ Whole w.shortBody data.length ∨
    w.shortHeader = some 0 ∧ d.file.pos = d.file.contents.length

/-- A `write` that fails leaves the queue and the position as they were exactly
if it tears no record. -/
theorem write_atomic_iff (w : WriteRes) (data : Chunk) (d : DiskCache) (q : List Bytes)
    (h : d.Holds q) (hst : ∀ x ∈ q, Storable x) : d.Atomic w data.1 q ↔ d.Untorn w data.1 := by
  have hsame : (d.write w data.1).2.file = d.file →
      (d.write w data.1).2.file.pos = d.file.pos ∧
        ∀ ops os q', Refinement.asked RecordQueue.call ⟨q, none⟩ ops = some (os, q') →
          (Refinement.answers call (d.write w data.1).2 ops).1 = os := fun hf => by
    have hq : (d.write w data.1).2.Holds q := holds_file.mpr (hf ▸ holds_file.mp h)
    exact ⟨congrArg File.pos hf, fun ops os q' ho =>
      (call_simulates.answers (Queues.of_holds hq hst) ho).1⟩
  have hpos := pos_le_length h
  unfold Atomic
  cases write_exit w data.1 d with
  | early unreached neg file => exact iff_of_true (fun _ => hsame file) (Or.inl unreached)
  | done header body ret =>
    refine iff_of_true (fun hneg => absurd hneg ?_) (Or.inr (Or.inl ⟨header, body⟩))
    rw [ret]
    omega
  | header reached k short lt neg file =>
    constructor
    · intro hat
      -- what has arrived stands between the old position and the new one
      have hp := (hat neg).1
      rw [file] at hp
      simp only [File.append, List.length_append, List.length_take, leBytes_length] at hp
      have hk : k = 0 := by
        simp only [SIZE_T] at hp lt
        omega
      exact Or.inr (Or.inr ⟨hk ▸ short, by omega⟩)
    · rintro (hu | ⟨hw, -⟩ | ⟨h0, hend⟩) -
      · exact absurd hu reached
      · exact absurd (hw k short) (not_le.mpr lt)
      · obtain rfl := Option.some.inj (short.symm.trans h0)
        refine hsame (file.trans ?_)
        simp only [File.append, List.take_zero, List.append_nil, ← hend]
  | body reached whole k short lt neg file =>
    refine iff_of_false (fun hat => ?_) ?_
    · have hp := (hat neg).1
      rw [file.1] at hp
      have hroom := file.2
      simp only [SIZE_T] at hroom
      omega
    · rintro (hu | ⟨-, hw⟩ | ⟨h0, -⟩)
      · exact reached hu
      · exact absurd (hw k short) (not_le.mpr lt)
      · exact absurd (whole 0 h0) (by decide)

/-- A disk that holds the record `[1]`, and an `ftell` that fails. -/
theorem write_atomic_noTell : (new.write .ok [1]).2.Atomic CacheUse.noTell [2] [[1]] :=
  (write_atomic_iff CacheUse.noTell ⟨[2], by simp, by decide⟩ (new.write .ok [1]).2 [[1]]
    (write_holds (d := new) [1] (q := []) rfl).2 (by simp [Storable, SSIZE_MAX])).mpr
    (Or.inl (Or.inr (Or.inl rfl)))

/-- Nothing of the record `[2]` arrives, and the record `[1]` is not read any more. -/
theorem write_tears : ¬∀ (w : WriteRes) (data : Chunk) (d : DiskCache) (q : List Bytes),
    d.Holds q → (∀ x ∈ q, Storable x) → d.Atomic w data.1 q := by
  intro h
  have hat := h { shortBody := some 0 } ⟨[2], by simp, by decide⟩ (new.write .ok [1]).2 [[1]]
    (write_holds (d := new) [1] (q := []) rfl).2 (by simp [Storable, SSIZE_MAX])
  have hread := (hat (by decide)).2 [.read 1] [.stored 1 [1]] ⟨[], some [1]⟩ rfl
  revert hread
  decide +kernel

end DiskCache

end HttpsProxy
