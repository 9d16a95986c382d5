import HttpsProxy.LogNames
import Mathlib.Computability.StateTransition

/-! The states of `onPrint`. A file that is full is dumped and opened again, and a
`fflush` that fails counts as a full file: where the disk is full the states go
round for ever. -/
namespace HttpsProxy

def FILE_SIZE : ℕ := 5 * 1024 * 1024

/-- `LOG_LEVEL`. -/
def LOG_LEVEL : List (Option Bytes) :=
  [none, some (ascii "[Debug]"), some (ascii "[Info]"), none, some (ascii "[Warn]"), none, none, none,
    some (ascii "[Error]"), none, none, none, none, none, none, none, some (ascii "[Emphasis]")]

/-- The arguments of `onPrint`, with the day of the time and with `hasTime()`. -/
structure LogLine where
  level : BitVec 32
  d : UtilDay
  time : Option Bytes
  msg : Bytes
  hasTime : Bool

/-- What is printed; `none` when the level has no name. -/
def LogLine.text (p : LogLine) : Option Bytes :=
  (LOG_LEVEL.getD p.level.toNat none).map fun level =>
    if p.time.isSome && p.hasTime then p.time.getD [] ++ level ++ p.msg ++ ascii "\n"
    else p.msg ++ level ++ ascii "\n"

/-- What the system answers in a call of `_writeLog`. -/
structure WriteLogAnswers where
  fileno : ℤ
  /-- The size of the file, when `fstat` succeeds. -/
  fstat : Option ℕ
  fprintf : ℤ
  fflush : ℤ
  deriving DecidableEq, Repr

/-- `_writeLog`: what it returns, and what it has printed. -/
def FileLog._writeLog (p : LogLine) (a : WriteLogAnswers) : EErrCode × List Bytes :=
  if a.fileno < 0 then (.Unknown, [])
  else
    match a.fstat with
    | none => (.Unknown, [])
    | some size =>
      if FILE_SIZE ≤ size then (.CurFileFull, [])
      else
        match p.text with
        | none => (.ArgError, [])
        | some text =>
          if a.fprintf < 0 then (.WriteFail, [])
          else if a.fflush ≠ 0 then (.CurFileFull, [text])
          else (.Success, [text])

/-- An answer of `checkDiskStatus`, and of `_deleteEarliestFile` behind it. -/
structure DiskCheck where
  status : EDiskStatus
  deleted : EErrCode
  deriving DecidableEq, Repr

/-- Whether the `while` loop of `State_Dump` goes on. -/
def DiskCheck.goesOn (c : DiskCheck) : Prop := c.status = .Full ∧ c.deleted = .Success

instance (c : DiskCheck) : Decidable c.goesOn := inferInstanceAs (Decidable (_ ∧ _))

/-- What the file operations answer between two times the file is found full. The
answers of `_dump` and of `unlink` are not looked at. -/
structure Round where
  disk : ℕ → DiskCheck
  fopen : Bool
  write : WriteLogAnswers

/-- The variables of `onPrint`. `round` counts how often the file has been full,
`checks` how often the disk has been checked since. -/
structure Printing where
  s : EState
  log : FileLog
  printed : List Bytes
  round : ℕ
  checks : ℕ

namespace Printing

/-- One turn of the loop of `onPrint`, or of the loop of `State_Dump`; `epoch` is
the day of the time 0. -/
def step (l : FileLogImpl) (epoch : UtilDay) (p : LogLine) (env : ℕ → Round) (x : Printing) :
    Option Printing :=
  match x.s with
  | .Start =>
    some { x with
      s := if x.log.mLogFile = none then .PreOpenCurFile
        else if x.log.mCurDay ≠ p.d then .Dump
        else .Ready }
  | .PreOpenCurFile =>
    if (env x.round).fopen then some { x with s := .Ready, log := ⟨some (l._getTodayFilePath p.d), p.d⟩ }
    else some { x with s := .Error, log := ⟨none, p.d⟩ }
  | .Dump =>
    if ((env x.round).disk x.checks).goesOn then some { x with checks := x.checks + 1 }
    else some { x with s := .PreOpenCurFile, log := ⟨none, epoch⟩ }
  | .Ready =>
    let rv := FileLog._writeLog p (env x.round).write
    let x := { x with printed := x.printed ++ rv.2 }
    if rv.1 = .CurFileFull then some { x with s := .Dump, round := x.round + 1, checks := 0 }
    else if rv.1 ≠ .Success then some { x with s := .Error }
    else some { x with s := .Done }
  | .Error => none
  | .Done => none

def start (log : FileLog) : Printing := ⟨.Start, log, [], 0, 0⟩

/-- `onPrint` comes to its end. -/
def Ends (l : FileLogImpl) (epoch : UtilDay) (p : LogLine) (env : ℕ → Round) (x : Printing) : Prop :=
  ∃ y, StateTransition.Reaches (step l epoch p env) x y ∧ (y.s = .Done ∨ y.s = .Error)

/-- The file is found full, or `fflush` fails. -/
def ReportsFull (p : LogLine) (a : WriteLogAnswers) : Prop :=
  0 ≤ a.fileno ∧ ∃ size, a.fstat = some size ∧
    (FILE_SIZE ≤ size ∨ p.text ≠ none ∧ 0 ≤ a.fprintf ∧ a.fflush ≠ 0)

/-- Whether the file is dumped in the round `k`; in the first one when it is of
another day. -/
def Dumps (log : FileLog) (d : UtilDay) (k : ℕ) : Prop :=
  0 < k ∨ log.mLogFile ≠ none ∧ log.mCurDay ≠ d

/-- Whether the file is opened in the round `k`. -/
def Opens (log : FileLog) (d : UtilDay) (k : ℕ) : Prop :=
  0 < k ∨ log.mLogFile = none ∨ log.mCurDay ≠ d

/-- The checks of the disk come to an end. -/
def Stops (r : Round) : Prop := ∃ i, ¬(r.disk i).goesOn

/-- The round `n` is reached, at least where no round before is the last one, and
it is the last one. -/
def LastRound (log : FileLog) (p : LogLine) (env : ℕ → Round) (n : ℕ) : Prop :=
  (∀ k ≤ n, Dumps log p.d k → Stops (env k)) ∧
    (Opens log p.d n ∧ (env n).fopen = false ∨ ¬ReportsFull p (env n).write)

variable {l : FileLogImpl} {epoch : UtilDay} {p : LogLine} {env : ℕ → Round}

theorem _writeLog_full {a : WriteLogAnswers} :
    (FileLog._writeLog p a).1 = .CurFileFull ↔ ReportsFull p a := by
  rw [FileLog._writeLog, ReportsFull]
  by_cases hno : a.fileno < 0
  · simp [hno, not_le.mpr hno]
  · rw [if_neg hno]
    cases hstat : a.fstat with
    | none => simp
    | some size =>
      by_cases hsize : FILE_SIZE ≤ size
      · simp [hsize, not_lt.mp hno]
      · cases htext : p.text with
        | none => simp [hsize]
        | some text =>
          by_cases hprint : a.fprintf < 0
          · simp [hsize, hprint, not_le.mpr hprint]
          · by_cases hflush : a.fflush ≠ 0
            · simp [hsize, hprint, hflush, not_lt.mp hno, not_lt.mp hprint]
            · simp [hsize, hprint, hflush]

theorem Dumps.opens {log : FileLog} {d : UtilDay} {k : ℕ} (h : Dumps log d k) : Opens log d k :=
  h.imp_right fun h => Or.inr h.2

section Steps

variable (l epoch p env)

theorem step_start {x : Printing} (hs : x.s = .Start) : ∃ y, step l epoch p env x = some y ∧
    y.round = x.round ∧ y.checks = x.checks ∧
      y.s = if x.log.mLogFile = none then .PreOpenCurFile
        else if x.log.mCurDay ≠ p.d then .Dump
        else .Ready := by
  simp only [step, hs]
  exact ⟨_, rfl, rfl, rfl, rfl⟩

theorem step_open {x : Printing} (hs : x.s = .PreOpenCurFile) : ∃ y, step l epoch p env x = some y ∧
    y.round = x.round ∧ y.s = if (env x.round).fopen then .Ready else .Error := by
  simp only [step, hs]
  split
  · exact ⟨_, rfl, rfl, rfl⟩
  · exact ⟨_, rfl, rfl, rfl⟩

theorem step_dump {x : Printing} (hs : x.s = .Dump) : ∃ y, step l epoch p env x = some y ∧
    y.round = x.round ∧
      (((env x.round).disk x.checks).goesOn ∧ y.s = .Dump ∧ y.checks = x.checks + 1 ∨
        ¬((env x.round).disk x.checks).goesOn ∧ y.s = .PreOpenCurFile) := by
  simp only [step, hs]
  split
  · rename_i hon
    exact ⟨_, rfl, rfl, Or.inl ⟨hon, rfl, rfl⟩⟩
  · rename_i hon
    exact ⟨_, rfl, rfl, Or.inr ⟨hon, rfl⟩⟩

theorem step_ready {x : Printing} (hs : x.s = .Ready) : ∃ y, step l epoch p env x = some y ∧
    (ReportsFull p (env x.round).write ∧ y.s = .Dump ∧ y.round = x.round + 1 ∧ y.checks = 0 ∨
      ¬ReportsFull p (env x.round).write ∧ (y.s = .Done ∨ y.s = .Error)) := by
  simp only [step, hs]
  by_cases hfull : (FileLog._writeLog p (env x.round).write).1 = .CurFileFull
  · rw [if_pos hfull]
    exact ⟨_, rfl, Or.inl ⟨_writeLog_full.mp hfull, rfl, rfl, rfl⟩⟩
  · rw [if_neg hfull]
    split
    · exact ⟨_, rfl, Or.inr ⟨mt _writeLog_full.mpr hfull, Or.inr rfl⟩⟩
    · exact ⟨_, rfl, Or.inr ⟨mt _writeLog_full.mpr hfull, Or.inl rfl⟩⟩

end Steps

section Ending

theorem Ends.of_step {x y : Printing} (h : step l epoch p env x = some y) (hy : Ends l epoch p env y) :
    Ends l epoch p env x := by
  obtain ⟨z, hz, hend⟩ := hy
  exact ⟨z, Relation.ReflTransGen.head h hz, hend⟩

theorem Ends.of_final {x : Printing} (h : x.s = .Done ∨ x.s = .Error) : Ends l epoch p env x :=
  ⟨x, Relation.ReflTransGen.refl, h⟩

/-- The checks of the disk come to their end, and then the file is opened. -/
theorem ends_dump {x : Printing} (hs : x.s = .Dump) {i : ℕ} (hi : x.checks ≤ i)
    (hstop : ¬((env x.round).disk i).goesOn)
    (h : ∀ y : Printing, y.s = .PreOpenCurFile → y.round = x.round → Ends l epoch p env y) :
    Ends l epoch p env x := by
  -- on the checks that are still to come
  induction hn : i - x.checks generalizing x with
  | zero =>
    have heq : x.checks = i := by omega
    obtain ⟨y, hstep, hround, ⟨hon, -⟩ | ⟨-, hy⟩⟩ := step_dump l epoch p env hs
    · exact absurd hon (heq ▸ hstop)
    · exact Ends.of_step hstep (h y hy hround)
  | succ n ih =>
    obtain ⟨y, hstep, hround, ⟨-, hy, hchecks⟩ | ⟨-, hy⟩⟩ :=
      step_dump l epoch p env hs
    · apply Ends.of_step hstep
      apply ih hy (by omega) (hround ▸ hstop) (fun z hz hzround => h z hz (hzround.trans hround))
      omega
    · exact Ends.of_step hstep (h y hy hround)

theorem ends_open {x : Printing} (hs : x.s = .PreOpenCurFile)
    (h : (env x.round).fopen = true → ∀ y : Printing, y.s = .Ready → y.round = x.round →
      Ends l epoch p env y) : Ends l epoch p env x := by
  obtain ⟨y, hstep, hround, hy⟩ := step_open l epoch p env hs
  apply Ends.of_step hstep
  split at hy
  · rename_i hopen
    exact h hopen y hy hround
  · exact Ends.of_final (Or.inr hy)

theorem ends_ready {x : Printing} (hs : x.s = .Ready)
    (h : ReportsFull p (env x.round).write → ∀ y : Printing, y.s = .Dump → y.round = x.round + 1 →
      y.checks = 0 → Ends l epoch p env y) : Ends l epoch p env x := by
  obtain ⟨y, hstep, ⟨hfull, hy, hround, hchecks⟩ | ⟨-, hy⟩⟩ :=
    step_ready l epoch p env hs
  · exact Ends.of_step hstep (h hfull y hy hround hchecks)
  · exact Ends.of_step hstep (Ends.of_final hy)

/-- From a file that is open in a round up to the last one. -/
theorem LastRound.ends {log : FileLog} {n : ℕ} (hlast : LastRound log p env n) {x : Printing}
    (hs : x.s = .Ready) (hk : x.round ≤ n) (hopen : Opens log p.d x.round → (env x.round).fopen = true) :
    Ends l epoch p env x := by
  -- on the rounds that are left
  induction hm : n - x.round generalizing x with
  | zero =>
    have heq : x.round = n := by omega
    apply ends_ready hs
    intro hfull
    rcases hlast.2 with ⟨hopens, hfail⟩ | hnot
    · rw [heq] at hopen
      rw [hopen hopens] at hfail
      cases hfail
    · exact absurd (heq ▸ hfull) hnot
  | succ m ih =>
    apply ends_ready hs
    intro hfull y hy hround hchecks
    have hpos : 0 < y.round := by omega
    have hle : y.round ≤ n := by omega
    obtain ⟨i, hi⟩ := hlast.1 y.round hle (Or.inl hpos)
    apply ends_dump hy (by omega) hi
    intro z hz hzround
    apply ends_open hz
    intro hfopen w hw hwround
    have hsame : w.round = z.round := hwround
    exact ih hw (by omega) (fun _ => hsame ▸ hfopen) (by omega)

theorem LastRound.ends_start {log : FileLog} {n : ℕ} (hlast : LastRound log p env n) :
    Ends l epoch p env (start log) := by
  obtain ⟨x, hstep, hround, hchecks, hs⟩ := step_start l epoch p env (x := start log) rfl
  have hround : x.round = 0 := hround
  have hchecks : x.checks = 0 := hchecks
  have hready (hopen : ∀ y : Printing, y.s = .Ready → y.round = 0 →
      Opens log p.d 0 → (env 0).fopen = true) {y : Printing} (hy : y.s = .Ready) (h0 : y.round = 0) :
      Ends l epoch p env y :=
    hlast.ends hy (h0 ▸ Nat.zero_le n) (fun h => h0 ▸ hopen y hy h0 (h0 ▸ h))
  apply Ends.of_step hstep
  split at hs
  · apply ends_open hs
    intro hfopen y hy h0
    rw [hround] at hfopen h0
    exact hready (fun _ _ _ _ => hfopen) hy h0
  · rename_i hlog
    split at hs
    · rename_i hday
      obtain ⟨i, hi⟩ := hlast.1 0 (Nat.zero_le n) (Or.inr ⟨hlog, hday⟩)
      apply ends_dump hs (hchecks ▸ Nat.zero_le i) (hround ▸ hi)
      intro y hy hyround
      apply ends_open hy
      intro hfopen z hz hzround
      rw [hyround, hround] at hfopen hzround
      exact hready (fun _ _ _ _ => hfopen) hz hzround
    · rename_i hday
      refine hready (fun y _ _ hopens => ?_) hs hround
      rcases hopens with hlt | hnone | hne
      · exact absurd hlt (lt_irrefl 0)
      · exact absurd hnone hlog
      · exact absurd hne hday

end Ending

/-- The turns have led here and have found no end. -/
def Turning (log : FileLog) (p : LogLine) (env : ℕ → Round) (x : Printing) : Prop :=
  (∀ k < x.round, Dumps log p.d k → Stops (env k)) ∧
    match x.s with
    | .Start => x.round = 0 ∧ x.log = log
    | .PreOpenCurFile => Opens log p.d x.round ∧ (Dumps log p.d x.round → Stops (env x.round))
    | .Dump => Dumps log p.d x.round
    | .Ready => Dumps log p.d x.round → Stops (env x.round)
    | .Done => False
    | .Error => False

/-- Where no round is the last one, the turns go on. -/
theorem Turning.step {log : FileLog} (hnot : ∀ n, ¬LastRound log p env n) {x y : Printing}
    (h : Turning log p env x) (hxy : step l epoch p env x = some y) : Turning log p env y := by
  obtain ⟨hbefore, hnow⟩ := h
  have hupto (hthis : Dumps log p.d x.round → Stops (env x.round)) :
      ∀ k ≤ x.round, Dumps log p.d k → Stops (env k) := by
    intro k hk
    rcases hk.lt_or_eq with hlt | rfl
    · exact hbefore k hlt
    · exact hthis
  cases hs : x.s with
  | Start =>
    rw [hs] at hnow
    obtain ⟨z, hz, hround, -, hzs⟩ := step_start l epoch p env hs
    cases hz.symm.trans hxy
    rw [hnow.2] at hzs
    rw [Turning, hround.trans hnow.1]
    refine ⟨fun k hk => absurd hk (Nat.not_lt_zero k), ?_⟩
    split at hzs
    · rename_i hlog
      rw [hzs]
      refine ⟨Or.inr (Or.inl hlog), fun hdumps => ?_⟩
      rcases hdumps with hlt | hopen
      · exact absurd hlt (lt_irrefl 0)
      · exact absurd hlog hopen.1
    · rename_i hlog
      split at hzs
      · rename_i hday
        rw [hzs]
        exact Or.inr ⟨hlog, hday⟩
      · rename_i hday
        rw [hzs]
        intro hdumps
        rcases hdumps with hlt | hopen
        · exact absurd hlt (lt_irrefl 0)
        · exact absurd hopen.2 hday
  | PreOpenCurFile =>
    rw [hs] at hnow
    obtain ⟨z, hz, hround, hzs⟩ := step_open l epoch p env hs
    cases hz.symm.trans hxy
    have hfopen : (env x.round).fopen = true := by
      by_contra hfail
      exact hnot x.round ⟨hupto hnow.2, Or.inl ⟨hnow.1, Bool.not_eq_true _ ▸ hfail⟩⟩
    rw [Turning, hround, hzs, if_pos hfopen]
    exact ⟨hbefore, hnow.2⟩
  | Dump =>
    rw [hs] at hnow
    obtain ⟨z, hz, hround, ⟨-, hzs, -⟩ | ⟨hstop, hzs⟩⟩ := step_dump l epoch p env hs
    · cases hz.symm.trans hxy
      rw [Turning, hround, hzs]
      exact ⟨hbefore, hnow⟩
    · cases hz.symm.trans hxy
      rw [Turning, hround, hzs]
      exact ⟨hbefore, Dumps.opens hnow, fun _ => ⟨_, hstop⟩⟩
  | Ready =>
    rw [hs] at hnow
    obtain ⟨z, hz, ⟨-, hzs, hround, -⟩ | ⟨hdone, -⟩⟩ := step_ready l epoch p env hs
    · cases hz.symm.trans hxy
      rw [Turning, hround, hzs]
      exact ⟨fun k hk => hupto hnow k (Nat.le_of_lt_succ hk), Or.inl (Nat.succ_pos _)⟩
    · exact absurd ⟨hupto hnow, Or.inr hdone⟩ (hnot x.round)
  | Done =>
    rw [hs] at hnow
    exact hnow.elim
  | Error =>
    rw [hs] at hnow
    exact hnow.elim

theorem not_ends {log : FileLog} (hnot : ∀ n, ¬LastRound log p env n) : ¬Ends l epoch p env (start log) := by
  rintro ⟨y, hy, hend⟩
  have hturning : Turning log p env y := by
    clear hend
    induction hy with
    | refl => exact ⟨fun k hk => absurd hk (Nat.not_lt_zero k), rfl, rfl⟩
    | tail _ hxy ih => exact ih.step hnot hxy
  have hnow := hturning.2
  rcases hend with hs | hs
  · rw [hs] at hnow
    exact hnow
  · rw [hs] at hnow
    exact hnow

/-- The states of `onPrint` come to an end exactly when there is a last round, and
the disk is not checked for ever in it or before it. -/
theorem onPrint_ends_iff (l : FileLogImpl) (epoch : UtilDay) (log : FileLog) (p : LogLine)
    (env : ℕ → Round) : Ends l epoch p env (start log) ↔ ∃ n, LastRound log p env n := by
  constructor
  · intro h
    by_contra hnot
    exact not_ends (fun n hn => hnot ⟨n, hn⟩) h
  · rintro ⟨n, hlast⟩
    exact hlast.ends_start

/-- The disk is full for good: what is printed does not get there. -/
theorem onPrint_ends_fails :
    ¬Ends .sample ⟨1970, 1, 1⟩ ⟨2#32, ⟨2017, 2, 3⟩, none, ascii "x", false⟩
      (fun _ => ⟨fun _ => ⟨.Full, .NoExpireFile⟩, true, ⟨3, some 0, 8, -1⟩⟩) (start {}) := by
  apply not_ends
  rintro n ⟨-, ⟨-, hopen⟩ | hfull⟩
  · cases hopen
  · have hreports : ReportsFull ⟨2#32, ⟨2017, 2, 3⟩, none, ascii "x", false⟩ ⟨3, some 0, 8, -1⟩ :=
      ⟨by decide, 0, rfl, Or.inr ⟨by decide +kernel, by decide, by decide⟩⟩
    exact hfull hreports

end Printing

end HttpsProxy
