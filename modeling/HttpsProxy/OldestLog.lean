import HttpsProxy.LogNames

/-! `_deleteEarliestFile` hands its own `datestr` to `_storeFileDate` and not the
name of the entry: the first entry that is not passed over is its end. -/
namespace HttpsProxy

namespace FileLogImpl

variable (l : FileLogImpl)

/-- A store file of the day `d`, before today, is listed. -/
def Expired (today : UtilDay) (names : List Bytes) (d : UtilDay) : Prop :=
  l.Listed l.mStoreFilePrefix names d ∧ d.Before today

/-- The oldest store file is that of the day `d`. -/
def Oldest (today : UtilDay) (names : List Bytes) (d : UtilDay) : Prop :=
  l.Expired today names d ∧ ∀ e, l.Expired today names e → e ≠ d → d.Before e

/-- What `_deleteEarliestFile` is for, and the loop around it. -/
structure EvictsOldest (today epoch : UtilDay) (names : List Bytes) (disk : Disk) : Prop where
  defined : l._deleteEarliestFile today epoch disk ≠ none
  oldest : ∀ d, l.Oldest today names d → ∃ after,
    l._deleteEarliestFile today epoch disk = some (.Success, after) ∧
      after.files = Function.update disk.files (l._getStoreFilePath d) none
  nothing : (∀ d, ¬l.Expired today names d) →
    l._deleteEarliestFile today epoch disk = some (.NoExpireFile, disk)
  ends : ∀ space, ∃ fuel after, l.evictLoop today epoch space fuel 0 disk = some after

/-- As long as `datestr` is `NULL`, only entries that are passed over do no harm. -/
theorem earliest_scan (today epoch : UtilDay) (names : List Bytes) :
    names.foldlM (l.earliestStep today) ⟨none, epoch, 0⟩ =
      if ∀ name ∈ names, l.skips name = true then some ⟨none, epoch, 0⟩ else none := by
  induction names with
  | nil => rfl
  | cons name names ih =>
    rw [List.foldlM_cons]
    by_cases hs : l.skips name = true
    · have hstep : l.earliestStep today ⟨none, epoch, 0⟩ name = some ⟨none, epoch, 0⟩ := by
        rw [earliestStep, if_pos hs]
      rw [hstep]
      simpa [hs] using ih
    · have hstep : l.earliestStep today ⟨none, epoch, 0⟩ name = none := by
        rw [earliestStep, if_neg hs]
        rfl
      rw [hstep]
      simp [hs]

theorem _deleteEarliestFile_eq (today : UtilDay) {epoch : UtilDay} {names : List Bytes} {disk : Disk}
    (hdir : disk.readdir l.mStoreFileDir = some names) (hepoch : epoch.valid = true) :
    l._deleteEarliestFile today epoch disk =
      if ∀ name ∈ names, l.skips name = true then
        if disk.access (l._getStoreFilePath epoch) then
          some (.Success, disk.unlink (l._getStoreFilePath epoch))
        else some (.NoExpireFile, disk)
      else none := by
  rw [_deleteEarliestFile, hdir]
  simp only [earliest_scan]
  by_cases hskip : ∀ name ∈ names, l.skips name = true
  · rw [if_pos hskip, if_pos hskip]
    simp only [hepoch, Bool.true_and]
  · rw [if_neg hskip, if_neg hskip]

/-- The oldest store file is evicted as long as there is none. -/
theorem evictsOldest_iff (today : UtilDay) {epoch : UtilDay} {names : List Bytes} {disk : Disk}
    (hdir : disk.readdir l.mStoreFileDir = some names) (hepoch : epoch.valid = true) :
    l.EvictsOldest today epoch names disk ↔
      (∀ name ∈ names, l.skips name = true) ∧ disk.access (l._getStoreFilePath epoch) = false := by
  have heq := l._deleteEarliestFile_eq today hdir hepoch
  -- if all names are skipped, none is a store file, and nothing has expired
  have hnone (hskip : ∀ name ∈ names, l.skips name = true) (d : UtilDay) : ¬l.Expired today names d := by
    intro h
    have hname := hskip _ h.1.2
    rw [skips_fileName l _ h.1.1] at hname
    cases hname
  constructor
  · intro h
    by_cases hskip : ∀ name ∈ names, l.skips name = true
    · refine ⟨hskip, ?_⟩
      have hnothing := h.nothing (hnone hskip)
      rw [heq, if_pos hskip] at hnothing
      by_contra hacc
      rw [if_pos (Bool.not_eq_false _ ▸ hacc)] at hnothing
      cases hnothing
    -- a name that is not skipped makes the source do what is not defined
    · rw [if_neg hskip] at heq
      exact absurd heq h.defined
  · rintro ⟨hskip, hacc⟩
    rw [if_pos hskip, hacc, if_neg Bool.false_ne_true] at heq
    refine ⟨by rw [heq]; exact Option.some_ne_none _, fun d hd => absurd hd.1 (hnone hskip d),
      fun _ => heq, fun space => ⟨1, disk, ?_⟩⟩
    rw [evictLoop, heq]
    split
    · rfl
    · rfl

/-- Files that have nothing to do with the log. -/
def foreignNames : List Bytes := [ascii ".", ascii "..", ascii "core", ascii "a.log", ascii "notes-20170131.txt"]

theorem evictsOldest_empty :
    sample.EvictsOldest ⟨2017, 2, 3⟩ ⟨1970, 1, 1⟩ foreignNames
      (Disk.ofNames (ascii "/var/log/old") foreignNames) :=
  (evictsOldest_iff sample ⟨2017, 2, 3⟩ (by decide +kernel) (by decide)).mpr
    ⟨by decide +kernel, by decide +kernel⟩

/-- One store file, which would have to go. -/
theorem evictsOldest_fails :
    sample.Oldest ⟨2017, 2, 3⟩ [ascii "http-proxy-old-20170131.log"] ⟨2017, 1, 31⟩ ∧
      ¬sample.EvictsOldest ⟨2017, 2, 3⟩ ⟨1970, 1, 1⟩ [ascii "http-proxy-old-20170131.log"]
        (Disk.ofNames (ascii "/var/log/old") [ascii "http-proxy-old-20170131.log"]) := by
  constructor
  · refine ⟨⟨⟨by decide, by decide +kernel⟩, by decide⟩, fun e he hne => absurd ?_ hne⟩
    exact fileName_inj sample he.1.1 (by decide) (List.mem_singleton.mp he.1.2)
  · intro h
    apply h.defined
    decide +kernel

end FileLogImpl

end HttpsProxy
