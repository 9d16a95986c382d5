import HttpsProxy.Bytes
import Mathlib.Logic.Function.Basic

/-! `log.cpp`: the threads that print put their messages into one of two lists
under a mutex; the log thread swaps the lists and prints without it. The three
parties take their steps in any order. -/
namespace HttpsProxy

inductive ELogLevel where
  | DebugLog | InfoLog | WarningLog | ErrorLog | EmphasisLog | AllLog
  deriving DecidableEq, Repr

/-- The value of the enumerator, an `int`. -/
def ELogLevel.toInt : ELogLevel → BitVec 32
  | DebugLog => 0x01
  | InfoLog => 0x02
  | WarningLog => 0x04
  | ErrorLog => 0x08
  | EmphasisLog => 0x10
  | AllLog => 0x1f

/-- `_MSG`; the time is 0 where it is not wanted. -/
structure Msg where
  msg : Bytes
  time : ℤ
  level : ELogLevel
  deriving DecidableEq, Repr

/-- An `ILogPrinter *`. -/
abbrev PrinterId := ℕ

/-- One call of `onPrint`, with the text of a time that is not 0. -/
structure Print where
  printer : PrinterId
  level : ELogLevel
  time : ℤ
  timeStr : Option Bytes
  msg : Bytes
  deriving DecidableEq, Repr

/-- A `MsgList *`. -/
inductive MsgList where
  | null | mMsgs1 | mMsgs2
  deriving DecidableEq, Repr

structure Log where
  mLogPrinter : List PrinterId
  mLevel : BitVec 32
  mHasTime : Bool
  mbExit : Bool
  mInited : Bool
  mMsgs1 : List Msg
  mMsgs2 : List Msg
  mInlist : MsgList
  mOutlist : MsgList
  deriving DecidableEq, Repr

namespace Log

def new : Log := ⟨[], ELogLevel.AllLog.toInt, true, false, false, [], [], .null, .null⟩

def deref (l : Log) : MsgList → List Msg
  | .null => []
  | .mMsgs1 => l.mMsgs1
  | .mMsgs2 => l.mMsgs2

def store (msgs : List Msg) (l : Log) : MsgList → Log
  | .null => l
  | .mMsgs1 => { l with mMsgs1 := msgs }
  | .mMsgs2 => { l with mMsgs2 := msgs }

/-- `initialise` whose thread, mutex and condition variable could be made. It
leaves `mbExit` as it is. -/
def initialise (level : BitVec 32) (hasTime : Bool) (l : Log) : Log :=
  if l.mInited then l
  else { l with
    mLevel := level
    mHasTime := hasTime
    mInlist := .mMsgs1
    mOutlist := .mMsgs2
    mInited := true }

def regPrinter (p : Option PrinterId) (l : Log) : Log :=
  match p with
  | none => l
  | some p => { l with mLogPrinter := l.mLogPrinter.filter (· ≠ p) ++ [p] }

def unregPrinter (p : Option PrinterId) (l : Log) : Log :=
  match p with
  | none => l
  | some p => { l with mLogPrinter := l.mLogPrinter.erase p }

end Log

/-- The levels of the printers and the text of a time (`localtime`, `snprintf`). -/
structure Printers where
  getLevel : PrinterId → BitVec 32
  timeText : ℤ → Bytes

namespace Printers

/-- The call of `onPrint` for a message. -/
def onPrint (P : Printers) (m : Msg) (p : PrinterId) : Print :=
  ⟨p, m.level, m.time, if m.time ≠ 0 then some (P.timeText m.time) else none, m.msg⟩

/-- `obj->getLevel() & msgnode.level` -/
def wants (P : Printers) (m : Msg) (p : PrinterId) : Bool :=
  P.getLevel p &&& m.level.toInt ≠ 0

end Printers

/-- A thread in `printLog`: what it does next. -/
inductive LogCaller where
  | idle
  | lock (level : ELogLevel) (msg : Bytes)
  | push (level : ELogLevel) (msg : Bytes)
  | unlock
  | signal
  deriving DecidableEq, Repr

/-- `_flushOutlist` under way: its list, the message it is at, and the printer
that is next for this message. -/
structure Flush where
  outlist : MsgList
  msg : ℕ
  printer : ℕ
  deriving DecidableEq, Repr

/-- The log thread in `_logProc`. `test` evaluates the condition of the inner
loop, `wait` enters `pthread_cond_wait`, `blocked` is inside it. -/
inductive LogProc where
  | loop
  | lock
  | test
  | wait
  | blocked
  | relock
  | swapOut
  | swapIn (tmpList : MsgList)
  | unlock
  | flushOutlist
  | flush (f : Flush)
  | exited
  deriving DecidableEq, Repr

/-- The thread that calls `finalise`. -/
inductive Finaliser where
  | call
  | setExit
  | signal
  | join
  | takeList
  | flushOutlist
  | flush (f : Flush)
  | cleanup
  | done
  deriving DecidableEq, Repr

inductive MutexOwner (T : Type) where
  | caller (t : T)
  | logProc
  deriving DecidableEq

/-- The log and its threads. `calls`, `appended` and `printed` record the calls
of `printLog`, the messages in the order of their `push_back`, and the calls of
`onPrint`. -/
structure LogWorld (T : Type) where
  log : Log
  mMutex : Option (MutexOwner T)
  callers : T → LogCaller
  proc : LogProc
  final : Finaliser
  calls : List (T × ELogLevel × Option Bytes)
  appended : List (T × Msg)
  printed : List Print

namespace LogWorld

variable {T : Type} [DecidableEq T]

/-- The world once `initialise` is complete. -/
def start (l : Log) : LogWorld T :=
  { log := l
    mMutex := none
    callers := fun _ => .idle
    proc := .loop
    final := .call
    calls := []
    appended := []
    printed := [] }

/-- `THREAD_SINGNAL_SET(mCond)`: only the log thread ever waits. -/
def signal (w : LogWorld T) : LogWorld T :=
  if w.proc = .blocked then { w with proc := .relock } else w

/-- The steps of the loops of `_flushOutlist`; `none` when they are over. -/
def flushStep (P : Printers) (f : Flush) (w : LogWorld T) : Option Flush × LogWorld T :=
  match (w.log.deref f.outlist)[f.msg]? with
  | none => (none, { w with log := w.log.store [] f.outlist })
  | some m =>
    match w.log.mLogPrinter[f.printer]? with
    | none => (some { f with msg := f.msg + 1, printer := 0 }, w)
    | some p =>
      (some { f with printer := f.printer + 1 },
        if P.wants m p then { w with printed := w.printed ++ [P.onPrint m p] } else w)

/-- `printLog` up to the lock: no text and a filtered level return at once. -/
def printLog (t : T) (level : ELogLevel) (msg : Option Bytes) (w : LogWorld T) : LogWorld T :=
  let w := { w with calls := w.calls ++ [(t, level, msg)] }
  match msg with
  | none => w
  | some msg =>
    if w.log.mLevel &&& level.toInt = 0 then w
    else { w with callers := Function.update w.callers t (.lock level msg) }

/-- The next step of a thread in `printLog`, with the answer of `time(0)`. -/
def callerStep (t : T) (now : ℤ) (w : LogWorld T) : LogWorld T :=
  match w.callers t with
  | .idle => w
  | .lock level msg =>
    { w with
      mMutex := some (.caller t)
      callers := Function.update w.callers t (.push level msg) }
  | .push level msg =>
    let m : Msg := ⟨msg, if w.log.mHasTime then now else 0, level⟩
    { w with
      log := w.log.store (w.log.deref w.log.mInlist ++ [m]) w.log.mInlist
      callers := Function.update w.callers t .unlock
      appended := w.appended ++ [(t, m)] }
  | .unlock => { w with mMutex := none, callers := Function.update w.callers t .signal }
  | .signal => { w.signal with callers := Function.update w.callers t .idle }

/-- The next step of the log thread. -/
def procStep (P : Printers) (w : LogWorld T) : LogWorld T :=
  match w.proc with
  | .loop => { w with proc := if w.log.mbExit then .exited else .lock }
  | .lock => { w with mMutex := some .logProc, proc := .test }
  | .test =>
    { w with
      proc := if (w.log.deref w.log.mInlist).isEmpty && !w.log.mbExit then .wait else .swapOut }
  | .wait => { w with mMutex := none, proc := .blocked }
  | .blocked => w
  | .relock => { w with mMutex := some .logProc, proc := .test }
  | .swapOut =>
    { w with log := { w.log with mOutlist := w.log.mInlist }, proc := .swapIn w.log.mOutlist }
  | .swapIn tmpList => { w with log := { w.log with mInlist := tmpList }, proc := .unlock }
  | .unlock => { w with mMutex := none, proc := .flushOutlist }
  | .flushOutlist =>
    { w with
      proc := if (w.log.deref w.log.mOutlist).isEmpty then .loop
        else .flush ⟨w.log.mOutlist, 0, 0⟩ }
  | .flush f =>
    match w.flushStep P f with
    | (none, w) => { w with proc := .loop }
    | (some f, w) => { w with proc := .flush f }
  | .exited => w

/-- The next step of `finalise`. -/
def finalStep (P : Printers) (w : LogWorld T) : LogWorld T :=
  match w.final with
  | .call => { w with final := if w.log.mInited then .setExit else .done }
  | .setExit => { w with log := { w.log with mbExit := true }, final := .signal }
  | .signal => { w.signal with final := .join }
  | .join => { w with final := .takeList }
  | .takeList =>
    { w with log := { w.log with mOutlist := w.log.mInlist }, final := .flushOutlist }
  | .flushOutlist =>
    { w with
      final := if (w.log.deref w.log.mOutlist).isEmpty then .cleanup
        else .flush ⟨w.log.mOutlist, 0, 0⟩ }
  | .flush f =>
    match w.flushStep P f with
    | (none, w) => { w with final := .cleanup }
    | (some f, w) => { w with final := .flush f }
  | .cleanup =>
    { w with log := { w.log with mLogPrinter := [], mInited := false }, final := .done }
  | .done => w

end LogWorld

/-- A step of one party; `wake` is a wait that returns without a signal. -/
inductive LogAction (T : Type) where
  | printLog (t : T) (level : ELogLevel) (msg : Option Bytes)
  | caller (t : T) (now : ℤ)
  | proc
  | wake
  | finalise

namespace LogWorld

variable {T : Type} [DecidableEq T]

/-- When a step can be taken: the mutex must be free for a lock, the log thread
gone for a join, and `finalise` comes after the last `printLog`. -/
def Enabled (w : LogWorld T) : LogAction T → Prop
  | .printLog t _ _ => w.callers t = .idle ∧ w.final = .call
  | .caller t _ =>
    match w.callers t with
    | .idle => False
    | .lock _ _ => w.mMutex = none
    | _ => True
  | .proc =>
    match w.proc with
    | .lock | .relock => w.mMutex = none
    | .blocked | .exited => False
    | _ => True
  | .wake => w.proc = .blocked
  | .finalise =>
    match w.final with
    | .call => ∀ t, w.callers t = .idle
    | .join => w.proc = .exited
    | .done => False
    | _ => True

def next (P : Printers) (w : LogWorld T) : LogAction T → LogWorld T
  | .printLog t level msg => w.printLog t level msg
  | .caller t now => w.callerStep t now
  | .proc => w.procStep P
  | .wake => { w with proc := .relock }
  | .finalise => w.finalStep P

/-- The worlds reached from one by steps in any order. -/
inductive Reaches (P : Printers) (w : LogWorld T) : LogWorld T → Prop where
  | start : Reaches P w w
  | step {v : LogWorld T} (a : LogAction T) (h : Reaches P w v) (he : v.Enabled a) :
    Reaches P w (v.next P a)

end LogWorld

end HttpsProxy
