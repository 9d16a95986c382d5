import HttpsProxy.Decimal
import Mathlib.Logic.Function.Basic

/-! `file_log.h` and `file_log.cpp`, with the paths of `FileLogImpl`: the log of
the day is written to one file, and a file that is full or of another day is
dumped to the store. -/
namespace HttpsProxy

def PATH_MAX : ℕ := 4096

/-- A day, or what stands for one in the name of a file. -/
structure UtilDay where
  year : ℕ := 0
  month : ℕ := 0
  day : ℕ := 0
  deriving DecidableEq, Repr

namespace UtilDay

/-- One of the three loops of `parse`: `i` digits, the first one worth `n`. -/
def parseDigits (n : ℕ) : ℕ → Bytes → Option (ℕ × Bytes)
  | 0, s => some (0, s)
  | _+1, [] => none
  | i+1, c :: s =>
    if 48 ≤ c ∧ c ≤ 57 then (parseDigits (n / 10) i s).map fun r => ((c.toNat - 48) * n + r.1, r.2)
    else none

/-- `parse`; what follows the eight digits is not looked at. -/
def parse (s : Bytes) : Option UtilDay :=
  match parseDigits 1000 4 s with
  | none => none
  | some (year, s) =>
    match parseDigits 10 2 s with
    | none => none
    | some (month, s) =>
      if 12 < month then none
      else
        match parseDigits 10 2 s with
        | none => none
        | some (day, _) => if 31 < day then none else some ⟨year, month, day⟩

def valid (d : UtilDay) : Bool := d.year ≠ 0 || d.month ≠ 0 || d.day ≠ 0

def isLeap (y : ℤ) : Bool := y % 4 = 0 && (y % 100 ≠ 0 || y % 400 = 0)

/-- The days before the first of January of the year `y`. -/
def daysBeforeYear (y : ℤ) : ℤ := 365*y + (y+3)/4 - (y+99)/100 + (y+399)/400

/-- The days of the year `y` before the month `m`. -/
def daysBeforeMonth (y : ℤ) (m : ℕ) : ℤ :=
  [0, 0, 31, 59, 90, 120, 151, 181, 212, 243, 273, 304, 334].getD m 0 +
    if 2 < m && isLeap y then 1 else 0

/-- The number of the day, counted as `mktime` does; month 0 is the last one of
the year before. -/
def number (d : UtilDay) : ℤ :=
  if d.month = 0 then daysBeforeYear (d.year - 1) + daysBeforeMonth (d.year - 1) 12 + d.day
  else daysBeforeYear d.year + daysBeforeMonth d.year d.month + d.day

/-- `operator-`, where the days `mktime` finds are all of 24 hours. -/
def sub (a b : UtilDay) : ℤ := a.number - b.number

/-- `"%04d%02d%02d"`. -/
def date (d : UtilDay) : Bytes := zeroPadded 4 d.year ++ zeroPadded 2 d.month ++ zeroPadded 2 d.day

end UtilDay

/-- A file; `id` tells it from one that is created later at the same path. -/
structure DiskFile where
  id : ℕ
  text : Bytes
  deriving DecidableEq, Repr

/-- The part of the file system the log works on. `entries` are the names in a
directory in the order of `readdir`, those of files that are gone included. A
path of `PATH_MAX` characters names no file. -/
structure Disk where
  entries : Bytes → Option (List Bytes)
  files : Bytes → Option DiskFile
  next : ℕ
  /-- Whether `unlink` removes the file. -/
  unlinks : Bytes → Bool
  /-- Whether `fopen` opens the file. -/
  opens : Bytes → Bool
  sound : ∀ p f, files p = some f → f.id < next ∧ p.length < PATH_MAX

/-- `dir + "/" + name`. -/
def joinPath (dir name : Bytes) : Bytes := dir ++ ascii "/" ++ name

namespace Disk

/-- `access(path, F_OK) == 0`. -/
def access (path : Bytes) (disk : Disk) : Bool := (disk.files path).isSome

/-- `opendir` and all calls of `readdir`. -/
def readdir (dir : Bytes) (disk : Disk) : Option (List Bytes) :=
  (disk.entries dir).map fun names => names.filter fun name =>
    PATH_MAX ≤ (joinPath dir name).length || disk.access (joinPath dir name)

def unlink (path : Bytes) (disk : Disk) : Disk :=
  if disk.unlinks path then
    { disk with
      files := Function.update disk.files path none
      sound := fun p f h => by
        by_cases hp : p = path
        · rw [hp, Function.update_self] at h
          cases h
        · rw [Function.update_of_ne hp] at h
          exact disk.sound p f h }
  else disk

/-- `fopen(path, "at+")`: a file that does not exist is created. -/
def fopen (path : Bytes) (disk : Disk) : Bool × Disk :=
  if hfits : path.length < PATH_MAX ∧ disk.opens path then
    (true, if disk.access path then disk
      else { disk with
        files := Function.update disk.files path (some ⟨disk.next, []⟩)
        next := disk.next + 1
        sound := fun p f h => by
          by_cases hp : p = path
          · rw [hp, Function.update_self] at h
            rw [← Option.some.inj h, hp]
            exact ⟨Nat.lt_succ_self _, hfits.1⟩
          · rw [Function.update_of_ne hp] at h
            exact (disk.sound p f h).imp_left Nat.lt_succ_of_lt })
  else (false, disk)

end Disk

inductive EState where
  | Start
  | Error
  | Done
  | PreOpenCurFile
  | Dump
  | Ready
  deriving DecidableEq, Repr

inductive EErrCode where
  | Success
  | Unknown
  | DataErr
  | WriteHeaderFail
  | DiskFull
  | CurFileFull
  | WriteFail
  | FileExist
  | ArgError
  | NoExpireFile
  deriving DecidableEq, Repr

inductive EDiskStatus where
  | Idle
  | Full
  deriving DecidableEq, Repr

/-- `FileLogImpl`, as it has been configured. -/
structure FileLogImpl where
  mCurFileDir : Bytes
  mCurFilePrefix : Bytes
  mStoreFileDir : Bytes
  mStoreFilePrefix : Bytes
  mSuffix : Bytes

/-- The state of a `FileLog`; `mLogFile` is the path of the open file. -/
structure FileLog where
  mLogFile : Option Bytes := none
  mCurDay : UtilDay := {}
  deriving DecidableEq, Repr

namespace FileLogImpl

/-- The name of a current log, or with the other prefix of a store file. -/
def fileName (filePrefix : Bytes) (d : UtilDay) (l : FileLogImpl) : Bytes :=
  filePrefix ++ d.date ++ ascii "." ++ l.mSuffix

def _getTodayFilePath (d : UtilDay) (l : FileLogImpl) : Bytes :=
  snprintf PATH_MAX (joinPath l.mCurFileDir (l.fileName l.mCurFilePrefix d))

def _getStoreFilePath (d : UtilDay) (l : FileLogImpl) : Bytes :=
  snprintf PATH_MAX (joinPath l.mStoreFileDir (l.fileName l.mStoreFilePrefix d))

/-- `strstr(filename, prefix) == filename`, and then what follows the prefix. -/
def fileDate (filePrefix filename : Bytes) : Option Bytes :=
  if strstr filePrefix filename = some 0 then some (filename.drop filePrefix.length) else none

def _todayFileDate (filename : Bytes) (l : FileLogImpl) : Option Bytes :=
  fileDate l.mCurFilePrefix filename

/-- `_storeFileDate` of a pointer; `none` when `NULL` is handed on to `strstr`. -/
def _storeFileDate (filename : Option Bytes) (l : FileLogImpl) : Option (Option Bytes) :=
  filename.map (fileDate l.mStoreFilePrefix)

/-- The first three conditions on which an entry of a directory is passed over. -/
def skips (name : Bytes) (l : FileLogImpl) : Bool :=
  name = ascii "." || name = ascii ".." || strstr l.mSuffix name = none ||
    name.length ≤ (ascii "20170201").length

/-- What the loop of `openRecentFile` has found so far. -/
structure RecentScan where
  minDiff : ℤ
  latest_day : UtilDay
  target : Bytes
  pathname : Bytes
  flist : List Bytes

/-- One entry in the loop of `openRecentFile`. -/
def recentStep (today : UtilDay) (disk : Disk) (l : FileLogImpl) (s : RecentScan) (name : Bytes) :
    RecentScan :=
  if l.skips name then s
  else
    match l._todayFileDate name with
    | none => s
    | some datestr =>
      match UtilDay.parse datestr with
      | none => s
      | some d =>
        let pathname := snprintf PATH_MAX (joinPath l.mCurFileDir name)
        let s := { s with pathname := pathname }
        if disk.access pathname then
          let s := { s with flist := s.flist ++ [pathname] }
          if today.sub d < s.minDiff then
            { s with minDiff := today.sub d, latest_day := d, target := pathname }
          else s
        else s

def openRecentFile (today : UtilDay) (l : FileLogImpl) (log : FileLog) (disk : Disk) :
    FileLog × Disk :=
  match disk.readdir l.mCurFileDir with
  | none => (log, disk)
  | some names =>
    let s := names.foldl (l.recentStep today disk) ⟨999999, {}, [], [], []⟩
    let disk := s.flist.foldl (fun disk path => if path ≠ s.target then disk.unlink path else disk) disk
    if s.latest_day.valid then
      let opened := disk.fopen s.pathname
      if opened.1 then (⟨some s.pathname, s.latest_day⟩, opened.2)
      else ({ log with mLogFile := none }, opened.2)
    else (log, disk)

/-- What the loop of `_deleteEarliestFile` has found so far; `datestr` is a
pointer. -/
structure EarliestScan where
  datestr : Option Bytes
  targetDay : UtilDay
  maxDiffDay : ℤ

/-- One entry in the loop of `_deleteEarliestFile`. It is `datestr` that
`_storeFileDate` is given, and not the entry; `none` when that is `NULL`. -/
def earliestStep (today : UtilDay) (l : FileLogImpl) (s : EarliestScan) (name : Bytes) :
    Option EarliestScan :=
  if l.skips name then some s
  else
    match l._storeFileDate s.datestr with
    | none => none
    | some none => some { s with datestr := none }
    | some (some datestr) =>
      let s := { s with datestr := some datestr }
      match UtilDay.parse datestr with
      | none => some s
      | some d =>
        if s.maxDiffDay < today.sub d then
          some { s with maxDiffDay := today.sub d, targetDay := d }
        else some s

/-- `_deleteEarliestFile`; `epoch` is the day of the time 0. -/
def _deleteEarliestFile (today epoch : UtilDay) (l : FileLogImpl) (disk : Disk) :
    Option (EErrCode × Disk) :=
  match disk.readdir l.mStoreFileDir with
  | none => some (.Unknown, disk)
  | some names =>
    match names.foldlM (l.earliestStep today) ⟨none, epoch, 0⟩ with
    | none => none
    | some s =>
      let pathname := l._getStoreFilePath s.targetDay
      if s.targetDay.valid && disk.access pathname then some (.Success, disk.unlink pathname)
      else some (.NoExpireFile, disk)

def getDiskAlarmSize : ℕ := 2^30

/-- `checkDiskStatus`, on the free space found by `statfs`, or `none`. -/
def checkDiskStatus (space : Option ℕ) : EDiskStatus :=
  if space.getD 0 < getDiskAlarmSize then .Full else .Idle

/-- The `while` loop of `State_Dump`, at most `fuel` times, with the free space
found each time from the `i`-th on. -/
def evictLoop (today epoch : UtilDay) (l : FileLogImpl) (space : ℕ → Option ℕ) :
    ℕ → ℕ → Disk → Option Disk
  | 0, _, _ => none
  | fuel+1, i, disk =>
    if checkDiskStatus (space i) = .Full then
      match l._deleteEarliestFile today epoch disk with
      | none => none
      | some (.Success, disk) => l.evictLoop today epoch space fuel (i+1) disk
      | some (_, disk) => some disk
    else some disk

end FileLogImpl

def BLK_SIZE : ℕ := 4096

/-- An answer of `write`: so many bytes have been taken, or `-1` with `errno`
being `EINTR`, `ENOSPC` or another error. -/
inductive WriteAnswer where
  | wrote (k : ℕ)
  | interrupted
  | noSpace
  | failed
  deriving DecidableEq, Repr

/-- What the system answers in a call of `_dump`. `reads` are the bytes that each
`fread` can get at most. -/
structure DumpAnswers where
  opens : Bool
  seeks : Bool
  reads : List ℕ
  writes : List WriteAnswer
  deriving DecidableEq, Repr

/-- The `write` of one block and the jumps back to it: the error or the bytes
taken, and the answers that are left; `none` when the answers do not suffice. -/
def writeBlock (block : Bytes) : List WriteAnswer → Option (EErrCode × Bytes × List WriteAnswer)
  | [] => none
  | .wrote k :: writes => some (.Success, block.take k, writes)
  | .interrupted :: writes => writeBlock block writes
  | .noSpace :: writes => some (.DiskFull, [], writes)
  | .failed :: writes => some (.WriteFail, [], writes)

/-- The copy loop of `_dump`, on what is left of the current file: its `rv`, and
what is appended to the store file. -/
def dumpLoop (rest : Bytes) : List ℕ → List WriteAnswer → Option (EErrCode × Bytes)
  | [], _ => none
  | k :: reads, writes =>
    let n := min k (min BLK_SIZE rest.length)
    if n = 0 then some (.Success, [])
    else
      match writeBlock (rest.take n) writes with
      | none => none
      | some (rv, taken, writes) =>
        -- the number of bytes taken is not compared with `n`
        if rv = .Success then (dumpLoop (rest.drop n) reads writes).map fun r => (r.1, taken ++ r.2)
        else some (rv, taken)

/-- `_dump` of a current file with this content. -/
def FileLog._dump (content : Bytes) (a : DumpAnswers) : Option (EErrCode × Bytes) :=
  if !a.opens then some (.Unknown, [])
  else if !a.seeks then some (.Unknown, [])
  else dumpLoop content a.reads a.writes

end HttpsProxy
