import HttpsProxy.LogSteps
import Mathlib.Data.List.Basic
import Mathlib.Data.List.Nodup

/-! What is appended to the log and what is printed of it. At any time the
messages appended are those printed, those of the list under way to the
printers and those of the list the callers append to. -/
namespace HttpsProxy

namespace Log

/-- A log that is not in use: new, or finalised before. -/
structure Idle (l : Log) : Prop where
  inited : l.mInited = false
  msgs1 : l.mMsgs1 = []
  msgs2 : l.mMsgs2 = []
  printers : l.mLogPrinter.Nodup

theorem new_idle : new.Idle := ⟨rfl, rfl, rfl, List.nodup_nil⟩

theorem regPrinter_idle {l : Log} (h : l.Idle) (p : Option PrinterId) : (l.regPrinter p).Idle := by
  cases p with
  | none => exact h
  | some p =>
    refine ⟨h.inited, h.msgs1, h.msgs2, ?_⟩
    refine (h.printers.filter _).append (List.nodup_singleton p) ?_
    intro x hx hxp
    simp [List.mem_singleton.mp hxp] at hx

theorem unregPrinter_idle {l : Log} (h : l.Idle) (p : Option PrinterId) :
    (l.unregPrinter p).Idle := by
  cases p with
  | none => exact h
  | some p => exact ⟨h.inited, h.msgs1, h.msgs2, h.printers.erase p⟩

theorem deref_store_self {p : MsgList} (msgs : List Msg) (l : Log) (h : p ≠ .null) :
    (l.store msgs p).deref p = msgs := by
  cases p with
  | null => exact absurd rfl h
  | mMsgs1 => rfl
  | mMsgs2 => rfl

theorem deref_store_of_ne {p q : MsgList} (msgs : List Msg) (l : Log) (h : q ≠ p) :
    (l.store msgs p).deref q = l.deref q := by
  cases p <;> cases q <;> first | rfl | exact absurd rfl h

/-- A store leaves everything but the two lists alone. -/
theorem store_rest (msgs : List Msg) (l : Log) (p : MsgList) :
    (l.store msgs p).mLogPrinter = l.mLogPrinter ∧ (l.store msgs p).mLevel = l.mLevel ∧
      (l.store msgs p).mInlist = l.mInlist ∧ (l.store msgs p).mOutlist = l.mOutlist ∧
      (l.store msgs p).mInited = l.mInited ∧ (l.store msgs p).mbExit = l.mbExit := by
  cases p <;> exact ⟨rfl, rfl, rfl, rfl, rfl, rfl⟩

/-- The two pointers are at different lists, which hold `out` and `inc`. -/
structure Halves (l : Log) (out inc : List Msg) : Prop where
  ne : l.mInlist ≠ l.mOutlist
  inNull : l.mInlist ≠ .null
  outNull : l.mOutlist ≠ .null
  out : l.deref l.mOutlist = out
  inc : l.deref l.mInlist = inc

/-- Both pointers are at one list, which holds `out`, and the other is empty. -/
structure Whole (l : Log) (out : List Msg) : Prop where
  eq : l.mOutlist = l.mInlist
  null : l.mOutlist ≠ .null
  out : l.deref l.mOutlist = out
  rest : ∀ p, p ≠ l.mOutlist → l.deref p = []

theorem Halves.push {l : Log} {out inc : List Msg} (h : l.Halves out inc) (m : Msg) :
    (l.store (l.deref l.mInlist ++ [m]) l.mInlist).Halves out (inc ++ [m]) := by
  obtain ⟨-, -, hin, hout, -, -⟩ := l.store_rest (l.deref l.mInlist ++ [m]) l.mInlist
  refine ⟨?_, ?_, ?_, ?_, ?_⟩
  · rw [hin, hout]
    exact h.ne
  · rw [hin]
    exact h.inNull
  · rw [hout]
    exact h.outNull
  · rw [hout, deref_store_of_ne _ _ h.ne.symm, h.out]
  · rw [hin, deref_store_self _ _ h.inNull, h.inc]

theorem Halves.clear {l : Log} {out inc : List Msg} (h : l.Halves out inc) :
    (l.store [] l.mOutlist).Halves [] inc := by
  obtain ⟨-, -, hin, hout, -, -⟩ := l.store_rest [] l.mOutlist
  refine ⟨?_, ?_, ?_, ?_, ?_⟩
  · rw [hin, hout]
    exact h.ne
  · rw [hin]
    exact h.inNull
  · rw [hout]
    exact h.outNull
  · rw [hout, deref_store_self _ _ h.outNull]
  · rw [hin, deref_store_of_ne _ _ h.ne, h.inc]

/-- `mOutlist = mInlist` while the outgoing list is empty. -/
theorem Halves.join {l : Log} {inc : List Msg} (h : l.Halves [] inc) :
    ({ l with mOutlist := l.mInlist } : Log).Whole inc := by
  refine ⟨rfl, h.inNull, h.inc, fun p hp => ?_⟩
  change l.deref p = []
  have hout := h.out
  have hne := h.ne
  have hin := h.inNull
  have hnull := h.outNull
  change p ≠ l.mInlist at hp
  cases hi : l.mInlist <;> cases ho : l.mOutlist <;> cases p <;>
    simp_all [deref]

/-- `mInlist = tmpList` completes the swap. -/
theorem Whole.part {l : Log} {out : List Msg} {tmpList : MsgList} (h : l.Whole out)
    (hne : tmpList ≠ l.mOutlist) (hnull : tmpList ≠ .null) :
    ({ l with mInlist := tmpList } : Log).Halves out [] :=
  ⟨hne, hnull, h.null, h.out, h.rest tmpList hne⟩

/-- With the outgoing list printed and cleared, no message is left anywhere. -/
theorem Whole.emptied {l : Log} {out : List Msg} (h : l.Whole out) (p : MsgList) :
    (l.store [] l.mOutlist).deref p = [] := by
  by_cases hp : p = l.mOutlist
  · rw [hp]
    exact l.deref_store_self _ h.null
  · rw [Log.deref_store_of_ne _ _ hp]
    exact h.rest p hp

/-- `mbExit = true` touches neither list. -/
theorem Halves.setExit {l : Log} {out inc : List Msg} (h : l.Halves out inc) :
    ({ l with mbExit := true } : Log).Halves out inc :=
  ⟨h.ne, h.inNull, h.outNull, h.out, h.inc⟩

theorem Whole.setExit {l : Log} {out : List Msg} (h : l.Whole out) :
    ({ l with mbExit := true } : Log).Whole out :=
  ⟨h.eq, h.null, h.out, h.rest⟩

end Log

namespace Printers

/-- The calls of `onPrint` for one message. -/
def prints (P : Printers) (ps : List PrinterId) (m : Msg) : List Print :=
  (ps.filter (P.wants m)).map (P.onPrint m)

/-- The calls of `onPrint` for messages in turn. -/
def printsAll (P : Printers) (ps : List PrinterId) (msgs : List Msg) : List Print :=
  msgs.flatMap (P.prints ps)

@[simp] theorem printsAll_nil (P : Printers) (ps : List PrinterId) : P.printsAll ps [] = [] := rfl

theorem printsAll_append (P : Printers) (ps : List PrinterId) (a b : List Msg) :
    P.printsAll ps (a ++ b) = P.printsAll ps a ++ P.printsAll ps b :=
  List.flatMap_append

/-- What a flush of `out` has printed when it is at `f`. -/
def printing (P : Printers) (ps : List PrinterId) (out : List Msg) (f : Flush) : List Print :=
  P.printsAll ps (out.take f.msg) ++ out[f.msg]?.toList.flatMap (P.prints (ps.take f.printer))

@[simp] theorem printing_start (P : Printers) (ps : List PrinterId) (out : List Msg) (q : MsgList) :
    P.printing ps out ⟨q, 0, 0⟩ = [] := by
  cases out <;> simp [printing, prints]

theorem prints_to (P : Printers) {ps : List PrinterId} (hps : ps.Nodup) {p : PrinterId}
    (hp : p ∈ ps) (m : Msg) : (P.prints ps m).filter (fun o => o.printer = p) =
      if P.wants m p then [P.onPrint m p] else [] := by
  have hcount : ps.filter (fun x => x = p) = [p] := by
    rw [List.filter_eq, List.count_eq_one_of_mem hps hp, List.replicate_one]
  have hcomm : (ps.filter (P.wants m)).filter (fun x => x = p) = [p].filter (P.wants m) := by
    rw [← hcount, List.filter_comm]
  rw [prints, List.filter_map]
  change ((ps.filter (P.wants m)).filter fun x => x = p).map (P.onPrint m) = _
  rw [hcomm]
  cases hw : P.wants m p <;> simp [hw]

/-- One of the printers gets its messages, each once and in order. -/
theorem printsAll_to (P : Printers) {ps : List PrinterId} (hps : ps.Nodup) {p : PrinterId}
    (hp : p ∈ ps) (msgs : List Msg) : (P.printsAll ps msgs).filter (fun o => o.printer = p) =
      (msgs.filter fun m => P.wants m p).map fun m => P.onPrint m p := by
  induction msgs with
  | nil => rfl
  | cons m msgs ih =>
    have hcons : P.printsAll ps (m :: msgs) = P.prints ps m ++ P.printsAll ps msgs := rfl
    rw [hcons, List.filter_append, ih, prints_to P hps hp]
    cases hw : P.wants m p <;> simp [hw]

end Printers

namespace LogWorld

variable {T : Type} {P : Printers} {ps : List PrinterId}

/-- A step of a flush prints what comes next, or clears the list when all is printed. -/
theorem flushStep_spec {w : LogWorld T} (f : Flush) (hps : w.log.mLogPrinter = ps) :
    (w.flushStep P f = (none, { w with log := w.log.store [] f.outlist }) ∧
      P.printing ps (w.log.deref f.outlist) f = P.printsAll ps (w.log.deref f.outlist)) ∨
    ∃ f' more, w.flushStep P f = (some f', { w with printed := w.printed ++ more }) ∧
      f'.outlist = f.outlist ∧
      P.printing ps (w.log.deref f.outlist) f' = P.printing ps (w.log.deref f.outlist) f ++ more := by
  cases hm : (w.log.deref f.outlist)[f.msg]? with
  | none =>
    have hlen := List.getElem?_eq_none_iff.mp hm
    refine Or.inl ⟨by simp only [flushStep, hm], ?_⟩
    simp [Printers.printing, hm, List.take_of_length_le hlen]
  | some m =>
    have htake := List.take_add_one (l := w.log.deref f.outlist) (i := f.msg)
    right
    cases hp : ps[f.printer]? with
    | none =>
      have hlen := List.getElem?_eq_none_iff.mp hp
      refine ⟨{ f with msg := f.msg + 1, printer := 0 }, [], ?_, rfl, ?_⟩
      · simp only [flushStep, hm, hps, hp, List.append_nil]
      · have hnone : ∀ o : Option Msg, o.toList.flatMap (P.prints (ps.take 0)) = [] := by
          intro o
          cases o <;> simp [Printers.prints]
        simp only [Printers.printing, hnone, htake, hm, Printers.printsAll_append, List.append_nil,
          List.take_of_length_le hlen]
        rfl
    | some p =>
      have hps' := List.take_add_one (l := ps) (i := f.printer)
      rw [hp] at hps'
      refine ⟨{ f with printer := f.printer + 1 }, if P.wants m p then [P.onPrint m p] else [],
        ?_, rfl, ?_⟩
      · simp only [flushStep, hm, hps, hp]
        split <;> simp
      · simp only [Printers.printing, hm, hps', Printers.prints, Option.toList_some,
          List.flatMap_cons, List.flatMap_nil, List.append_nil, List.filter_append, List.map_append,
          List.append_assoc]
        cases hw : P.wants m p <;> simp [hw]

end LogWorld

/-- The message that is still to be appended. -/
def LogCaller.pending : LogCaller → List (ELogLevel × Bytes)
  | .lock level msg | .push level msg => [(level, msg)]
  | _ => []

/-- The messages of a thread's calls that have a text and pass the filter. -/
def passedFilter {T : Type} [DecidableEq T] (level : BitVec 32) (t : T)
    (calls : List (T × ELogLevel × Option Bytes)) : List (ELogLevel × Bytes) :=
  (calls.filter fun c => c.1 = t ∧ level &&& c.2.1.toInt ≠ 0).filterMap fun c =>
    c.2.2.map fun msg => (c.2.1, msg)

/-- The messages a thread has appended, without their times. -/
def appendedBy {T : Type} [DecidableEq T] (t : T) (appended : List (T × Msg)) :
    List (ELogLevel × Bytes) :=
  (appended.filter fun a => a.1 = t).map fun a => (a.2.level, a.2.msg)

namespace LogWorld

variable {T : Type}

/-- Who is where: the mutex, the callers before `finalise`, the log thread before the join. -/
structure Placed (w : LogWorld T) : Prop where
  caller : ∀ t, (w.callers t).Critical → w.mMutex = some (.caller t)
  proc : w.proc.Critical → w.mMutex = some .logProc
  quiet : w.final ≠ .call → ∀ t, w.callers t = .idle
  joined : w.final.Joined → w.proc = .exited

theorem start_placed (l : Log) : (start l : LogWorld T).Placed :=
  ⟨fun _ h => h.elim, fun h => h.elim, fun h => absurd rfl h, fun h => h.elim⟩

/-- A thread inside `printLog` keeps `finalise` from being called, so from the join too. -/
theorem Placed.running_of_caller {w : LogWorld T} (h : w.Placed) {t : T}
    (ht : w.callers t ≠ .idle) : ¬w.final.Joined := by
  intro hj
  refine ht (h.quiet ?_ t)
  rintro hf
  rw [hf] at hj
  exact hj

/-- The log thread can take a step, or be woken, until `finalise` has joined it. -/
theorem Placed.running_of_proc {w : LogWorld T} (h : w.Placed)
    (he : w.Enabled .proc ∨ w.Enabled .wake) : ¬w.final.Joined := by
  intro hj
  simp [Enabled, h.joined hj] at he

variable {P : Printers} {ps : List PrinterId} {level : BitVec 32}

variable [DecidableEq T]

/-- What stays as it is until `finalise` is through, and whose messages are appended. -/
structure Booked (ps : List PrinterId) (level : BitVec 32) (w : LogWorld T) : Prop where
  printers : w.final ≠ .done → w.log.mLogPrinter = ps ∧ w.log.mInited = true
  filter : w.log.mLevel = level
  calls : ∀ t, passedFilter level t w.calls = appendedBy t w.appended ++ (w.callers t).pending

/-- Where the messages are while the log thread runs. -/
def ProcHolds (P : Printers) (ps : List PrinterId) (l : Log) (printed past : List Print)
    (out inc : List Msg) : LogProc → Prop
  | .swapIn tmpList =>
    l.Whole out ∧ inc = [] ∧ tmpList ≠ l.mOutlist ∧ tmpList ≠ .null ∧ printed = past
  | .unlock | .flushOutlist => l.Halves out inc ∧ printed = past
  | .flush f => l.Halves out inc ∧ f.outlist = l.mOutlist ∧ printed = past ++ P.printing ps out f
  | _ => l.Halves [] inc ∧ out = [] ∧ printed = past

/-- Where the messages are, `finalise` included. -/
def FinalHolds (P : Printers) (ps : List PrinterId) (w : LogWorld T) (past : List Print)
    (out inc : List Msg) : Finaliser → Prop
  | .flushOutlist => w.log.Whole out ∧ inc = [] ∧ w.printed = past
  | .flush f =>
    w.log.Whole out ∧ inc = [] ∧ f.outlist = w.log.mOutlist ∧
      w.printed = past ++ P.printing ps out f
  | .cleanup | .done => (∀ p, w.log.deref p = []) ∧ out = [] ∧ inc = [] ∧ w.printed = past
  | _ => ProcHolds P ps w.log w.printed past out inc w.proc

/-- The messages appended are those printed, those on their way and those to come. -/
def Flows (P : Printers) (ps : List PrinterId) (w : LogWorld T) : Prop :=
  ∃ past out inc, w.appended.map Prod.snd = past ++ (out ++ inc) ∧
    w.FinalHolds P ps (P.printsAll ps past) out inc w.final

/-- `finalise` starts when every caller is through, and after it none starts. -/
theorem next_quiet {w : LogWorld T} (h : w.Placed) {a : LogAction T} (he : w.Enabled a)
    (hf : (w.next P a).final ≠ .call) (t : T) : (w.next P a).callers t = .idle := by
  cases a with
  | printLog u lv msg =>
    obtain ⟨-, -, -, -, hsame⟩ := w.printLog_same u lv msg
    exact absurd (hsame.trans he.2) hf
  | caller u now =>
    have hv : w.CallerMoves u (w.callerStep u now) := callerStep_moves he
    simp [Enabled, h.quiet (fun hc => hf (hv.final.trans hc)) u] at he
  | proc =>
    have hv := procStep_moves (P := P) he
    rw [next, hv.callers]
    exact h.quiet (fun hc => hf (hv.final.trans hc)) t
  | wake => exact h.quiet hf t
  | finalise =>
    rw [next, (finalStep_moves (P := P) w).callers]
    by_cases hc : w.final = .call
    · exact (show ∀ u, w.callers u = .idle by simpa [Enabled, hc] using he) t
    · exact h.quiet hc t

theorem next_placed {w : LogWorld T} (h : w.Placed) (hb : w.Booked ps level) {a : LogAction T}
    (he : w.Enabled a) : (w.next P a).Placed := by
  have hi : w.final = .call → w.log.mInited = true := fun hc =>
    (hb.printers (by rw [hc]; exact Finaliser.noConfusion)).2
  obtain ⟨hcaller, hproc⟩ := next_exclusive (P := P) ⟨h.caller, h.proc⟩ he.free
  exact ⟨hcaller, hproc, next_quiet h he, next_joined hi h.joined he.free⟩

theorem passedFilter_append (level : BitVec 32) (t : T) (a b : List (T × ELogLevel × Option Bytes)) :
    passedFilter level t (a ++ b) = passedFilter level t a ++ passedFilter level t b := by
  simp [passedFilter]

theorem passedFilter_single (level : BitVec 32) (t : T) (lv : ELogLevel) (msg : Option Bytes) :
    passedFilter level t [(t, lv, msg)] =
      if level &&& lv.toInt = 0 then [] else msg.toList.map fun m => (lv, m) := by
  cases msg <;> by_cases h : level &&& lv.toInt = 0#32 <;> simp [passedFilter, h]

theorem start_booked (l : Log) (hi : l.mInited = true) :
    (start l : LogWorld T).Booked l.mLogPrinter l.mLevel :=
  ⟨fun _ => ⟨rfl, hi⟩, rfl, fun _ => rfl⟩

/-- A thread's books stay balanced when a call of its own is accounted for. -/
theorem Booked.update {w v : LogWorld T} (h : w.Booked ps level) (t : T)
    (hlog : v.log.mLogPrinter = w.log.mLogPrinter ∧ v.log.mLevel = w.log.mLevel ∧
      v.log.mInited = w.log.mInited) (hfinal : v.final = w.final)
    (hother : ∀ t' ≠ t, passedFilter level t' v.calls = passedFilter level t' w.calls ∧
      appendedBy t' v.appended = appendedBy t' w.appended ∧ v.callers t' = w.callers t')
    (hself : passedFilter level t v.calls = appendedBy t v.appended ++ (v.callers t).pending) :
    v.Booked ps level := by
  obtain ⟨hp, hl, hi⟩ := hlog
  refine ⟨?_, hl.trans h.filter, fun t' => ?_⟩
  · rw [hp, hi, hfinal]
    exact h.printers
  · by_cases he : t' = t
    · exact he ▸ hself
    · obtain ⟨h1, h2, h3⟩ := hother t' he
      rw [h1, h2, h3]
      exact h.calls t'

theorem printLog_booked {w : LogWorld T} (h : w.Booked ps level) (t : T) (lv : ELogLevel)
    (msg : Option Bytes) (hidle : w.callers t = .idle) : (w.printLog t lv msg).Booked ps level := by
  have hbal := h.calls t
  rw [hidle] at hbal
  have hother : ∀ t' ≠ t, passedFilter level t' (w.calls ++ [(t, lv, msg)]) =
      passedFilter level t' w.calls := by
    intro t' hne
    simp [passedFilter, hne.symm]
  cases msg with
  | none =>
    refine h.update t ⟨rfl, rfl, rfl⟩ rfl (fun t' hne => ⟨hother t' hne, rfl, rfl⟩) ?_
    simp [printLog, passedFilter_append, passedFilter_single, hbal, hidle, LogCaller.pending]
  | some msg =>
    simp only [printLog]
    split
    · rename_i hno
      simp only [h.filter, BitVec.ofNat_eq_ofNat] at hno
      refine h.update t ⟨rfl, rfl, rfl⟩ rfl (fun t' hne => ⟨hother t' hne, rfl, rfl⟩) ?_
      simp [passedFilter_append, passedFilter_single, hbal, hidle, LogCaller.pending, hno]
    · rename_i hyes
      simp only [h.filter, BitVec.ofNat_eq_ofNat] at hyes
      refine h.update t ⟨rfl, rfl, rfl⟩ rfl
        (fun t' hne => ⟨hother t' hne, rfl, Function.update_of_ne hne _ _⟩) ?_
      simp [passedFilter_append, passedFilter_single, hbal, LogCaller.pending, hyes]

theorem callerStep_booked {w : LogWorld T} (h : w.Booked ps level) (t : T) (now : ℤ) :
    (w.callerStep t now).Booked ps level := by
  have hbal := h.calls t
  cases hc : w.callers t with
  | idle => simpa [callerStep, hc] using h
  | lock lv msg =>
    rw [hc] at hbal
    simp only [callerStep, hc]
    refine h.update t ⟨rfl, rfl, rfl⟩ rfl
      (fun t' hne => ⟨rfl, rfl, Function.update_of_ne hne _ _⟩) ?_
    simpa [LogCaller.pending] using hbal
  | push lv msg =>
    rw [hc] at hbal
    obtain ⟨hp, hl, -, -, hi, -⟩ := w.log.store_rest
      (w.log.deref w.log.mInlist ++ [⟨msg, if w.log.mHasTime then now else 0, lv⟩]) w.log.mInlist
    simp only [callerStep, hc]
    refine h.update t ⟨hp, hl, hi⟩ rfl (fun t' hne => ⟨rfl, ?_, Function.update_of_ne hne _ _⟩) ?_
    · simp [appendedBy, hne.symm]
    · simpa [LogCaller.pending, appendedBy] using hbal
  | unlock =>
    rw [hc] at hbal
    simp only [callerStep, hc]
    refine h.update t ⟨rfl, rfl, rfl⟩ rfl
      (fun t' hne => ⟨rfl, rfl, Function.update_of_ne hne _ _⟩) ?_
    simpa [LogCaller.pending] using hbal
  | signal =>
    rw [hc] at hbal
    simp only [callerStep, hc, signal]
    split <;>
    · refine h.update t ⟨rfl, rfl, rfl⟩ rfl
        (fun t' hne => ⟨rfl, rfl, Function.update_of_ne hne _ _⟩) ?_
      simpa [LogCaller.pending] using hbal

/-- The log thread and `finalise` call nothing and append nothing. -/
theorem Booked.frame {w v : LogWorld T} (h : w.Booked ps level)
    (hprinters : v.final ≠ .done → w.final ≠ .done ∧ v.log.mLogPrinter = w.log.mLogPrinter ∧
      v.log.mInited = w.log.mInited)
    (hlevel : v.log.mLevel = w.log.mLevel) (hcalls : v.calls = w.calls)
    (happended : v.appended = w.appended) (hcallers : v.callers = w.callers) :
    v.Booked ps level := by
  refine ⟨fun hn => ?_, hlevel.trans h.filter, fun t => ?_⟩
  · obtain ⟨hn', hp, hi⟩ := hprinters hn
    rw [hp, hi]
    exact h.printers hn'
  · rw [hcalls, happended, hcallers]
    exact h.calls t

theorem procStep_booked {w : LogWorld T} (h : w.Booked ps level) :
    (w.procStep P).Booked ps level := by
  cases hc : w.proc with
  | flush f =>
    rcases flushStep_spec (P := P) f (w := w) rfl with ⟨hs, -⟩ | ⟨f', more, hs, -⟩ <;>
      simp only [procStep, hc, hs]
    · obtain ⟨hp, hl, -, -, hi, -⟩ := w.log.store_rest [] f.outlist
      exact h.frame (fun hn => ⟨hn, hp, hi⟩) hl rfl rfl rfl
    · exact h.frame (fun hn => ⟨hn, rfl, rfl⟩) rfl rfl rfl rfl
  | _ =>
    simp only [procStep, hc]
    exact h.frame (fun hn => ⟨hn, rfl, rfl⟩) rfl rfl rfl rfl

theorem finalStep_booked {w : LogWorld T} (h : w.Booked ps level) :
    (w.finalStep P).Booked ps level := by
  cases hc : w.final with
  | flush f =>
    rcases flushStep_spec (P := P) f (w := w) rfl with ⟨hs, -⟩ | ⟨f', more, hs, -⟩ <;>
      simp only [finalStep, hc, hs]
    · obtain ⟨hp, hl, -, -, hi, -⟩ := w.log.store_rest [] f.outlist
      exact h.frame (fun _ => ⟨by simp [hc], hp, hi⟩) hl rfl rfl rfl
    · exact h.frame (fun _ => ⟨by simp [hc], rfl, rfl⟩) rfl rfl rfl rfl
  | cleanup =>
    simp only [finalStep, hc]
    exact h.frame (fun hn => absurd rfl hn) rfl rfl rfl rfl
  | done => simpa [finalStep, hc] using h
  | signal =>
    simp only [finalStep, hc, signal]
    split <;> exact h.frame (fun _ => ⟨by simp [hc], rfl, rfl⟩) rfl rfl rfl rfl
  | _ =>
    simp only [finalStep, hc]
    exact h.frame (fun _ => ⟨by simp [hc], rfl, rfl⟩) rfl rfl rfl rfl

theorem next_booked {w : LogWorld T} (h : w.Booked ps level) {a : LogAction T}
    (he : w.Enabled a) : (w.next P a).Booked ps level := by
  cases a with
  | printLog t lv msg => exact printLog_booked h t lv msg he.1
  | caller t now => exact callerStep_booked h t now
  | proc => exact procStep_booked h
  | wake => exact h.frame (fun hn => ⟨hn, rfl, rfl⟩) rfl rfl rfl rfl
  | finalise => exact finalStep_booked h

omit [DecidableEq T] in
/-- Until the join the log thread alone says where the messages are. -/
theorem finalHolds_running {w : LogWorld T} {past : List Print} {out inc : List Msg}
    {c : Finaliser} (hc : ¬c.Joined) :
    w.FinalHolds P ps past out inc c = ProcHolds P ps w.log w.printed past out inc w.proc := by
  cases c <;> first | rfl | exact absurd trivial hc

omit [DecidableEq T] in
theorem Flows.frame {w v : LogWorld T} (h : w.Flows P ps) (hlog : v.log = w.log)
    (hprinted : v.printed = w.printed) (happended : v.appended = w.appended)
    (hproc : v.proc = w.proc) (hfinal : v.final = w.final) : v.Flows P ps := by
  obtain ⟨past, out, inc, happ, hold⟩ := h
  refine ⟨past, out, inc, happended ▸ happ, ?_⟩
  rw [hfinal]
  cases hc : w.final <;>
    simpa only [FinalHolds, hc, hlog, hprinted, hproc] using hold

omit [DecidableEq T] in
@[simp] theorem signal_appended (w : LogWorld T) : w.signal.appended = w.appended := by
  simp only [signal]
  split <;> rfl

omit [DecidableEq T] in
/-- A signal wakes the log thread and leaves the messages where they are. -/
theorem signal_holds {w : LogWorld T} {past : List Print} {out inc : List Msg}
    (h : ProcHolds P ps w.log w.printed past out inc w.proc) :
    ProcHolds P ps w.signal.log w.signal.printed past out inc w.signal.proc := by
  simp only [signal]
  split
  · rename_i hb
    rw [hb] at h
    exact h
  · exact h

/-- The append of a caller that owns the mutex. -/
theorem push_flows {w : LogWorld T} (h : w.Flows P ps) (hp : w.Placed) (t : T) (now : ℤ)
    {lv : ELogLevel} {msg : Bytes} (hc : w.callers t = .push lv msg) :
    (w.callerStep t now).Flows P ps := by
  obtain ⟨past, out, inc, happ, hold⟩ := h
  have hnot : ¬w.final.Joined := hp.running_of_caller (by rw [hc]; exact LogCaller.noConfusion)
  have hcrit : ¬w.proc.Critical := by
    intro hcr
    simpa using (hp.proc hcr).symm.trans (hp.caller t (by rw [hc]; trivial))
  rw [finalHolds_running hnot] at hold
  let m : Msg := ⟨msg, if w.log.mHasTime then now else 0, lv⟩
  refine ⟨past, out, inc ++ [m], ?_, ?_⟩
  · simp only [callerStep, hc, List.map_append, happ, List.map_cons, List.map_nil, List.append_assoc, m]
  · have hstep : w.callerStep t now = { w with
        log := w.log.store (w.log.deref w.log.mInlist ++ [m]) w.log.mInlist
        callers := Function.update w.callers t .unlock
        appended := w.appended ++ [(t, m)] } := by
      simp only [callerStep, hc, m]
    obtain ⟨-, -, -, hout, -, -⟩ := w.log.store_rest (w.log.deref w.log.mInlist ++ [m]) w.log.mInlist
    rw [hstep]
    simp only
    rw [finalHolds_running hnot]
    -- the caller owns the mutex, so the log thread is not amid the swap
    cases hproc : w.proc with
    | swapIn tmp => exact absurd (by rw [hproc]; trivial) hcrit
    | unlock => exact absurd (by rw [hproc]; trivial) hcrit
    | flushOutlist =>
      rw [hproc] at hold
      exact ⟨hold.1.push m, hold.2⟩
    | flush f =>
      rw [hproc] at hold
      exact ⟨hold.1.push m, hold.2.1.trans hout.symm, hold.2.2⟩
    | _ =>
      rw [hproc] at hold
      exact ⟨hold.1.push m, hold.2⟩

omit [DecidableEq T] in
/-- The log thread swaps, prints and clears without losing its place. -/
theorem procStep_flows {w : LogWorld T} (h : w.Flows P ps) (hnot : ¬w.final.Joined)
    (hps : w.log.mLogPrinter = ps) (he : w.Enabled .proc) : (w.procStep P).Flows P ps := by
  obtain ⟨past, out, inc, happ, hold⟩ := h
  rw [finalHolds_running hnot] at hold
  have hv := procStep_moves (P := P) he
  -- it is enough to say where the messages are for the new place of the log thread
  have goal : ∀ past' out' inc', past ++ (out ++ inc) = past' ++ (out' ++ inc') →
      ProcHolds P ps (w.procStep P).log (w.procStep P).printed (P.printsAll ps past') out' inc'
        (w.procStep P).proc → (w.procStep P).Flows P ps := by
    intro past' out' inc' heq hnew
    refine ⟨past', out', inc', by rw [hv.appended, happ, heq], ?_⟩
    rw [hv.final, finalHolds_running hnot]
    exact hnew
  cases hc : w.proc with
  | loop =>
    rw [hc] at hold
    refine goal past out inc rfl ?_
    simp only [procStep, hc]
    split <;> exact hold
  | lock | relock | wait =>
    rw [hc] at hold
    refine goal past out inc rfl ?_
    simp only [procStep, hc]
    exact hold
  | test =>
    rw [hc] at hold
    refine goal past out inc rfl ?_
    simp only [procStep, hc]
    split <;> exact hold
  | blocked => simp [Enabled, hc] at he
  | exited => simp [Enabled, hc] at he
  | swapOut =>
    -- nothing was left of the outgoing list, so it may be given up for the incoming one
    rw [hc] at hold
    obtain ⟨hh, rfl, hpr⟩ := hold
    refine goal past inc [] (by simp) ?_
    simp only [procStep, hc]
    exact ⟨hh.join, rfl, hh.ne.symm, hh.outNull, hpr⟩
  | swapIn tmpList =>
    -- callers push to the emptied list from here on
    rw [hc] at hold
    obtain ⟨hw, rfl, hne, hnull, hpr⟩ := hold
    refine goal past out [] rfl ?_
    simp only [procStep, hc]
    exact ⟨hw.part hne hnull, hpr⟩
  | unlock =>
    rw [hc] at hold
    refine goal past out inc rfl ?_
    simp only [procStep, hc]
    exact hold
  | flushOutlist =>
    rw [hc] at hold
    obtain ⟨hh, hpr⟩ := hold
    refine goal past out inc rfl ?_
    simp only [procStep, hc]
    split
    · rename_i hempty
      have hnil : out = [] := by simpa [hh.out] using hempty
      subst hnil
      exact ⟨hh, rfl, hpr⟩
    · exact ⟨hh, rfl, by rw [hpr, Printers.printing_start, List.append_nil]⟩
  | flush f =>
    rw [hc] at hold
    obtain ⟨hh, hf, hpr⟩ := hold
    have hspec := flushStep_spec (P := P) f hps
    rw [hf, hh.out] at hspec
    -- either all is printed and the list cleared, or the next printer is called
    rcases hspec with ⟨hs, hall⟩ | ⟨f', more, hs, hf', hmore⟩
    · refine goal (past ++ out) [] inc (by simp) ?_
      simp only [procStep, hc, hs]
      exact ⟨hh.clear, rfl, by rw [hpr, hall, Printers.printsAll_append]⟩
    · refine goal past out inc rfl ?_
      simp only [procStep, hc, hs]
      exact ⟨hh, hf', by rw [hpr, hmore, List.append_assoc]⟩

omit [DecidableEq T] in
/-- After the join `finalise` prints what is left. -/
theorem finalStep_flows {w : LogWorld T} (h : w.Flows P ps) (hp : w.Placed)
    (hps : w.final ≠ .done → w.log.mLogPrinter = ps ∧ w.log.mInited = true)
    (he : w.Enabled .finalise) : (w.finalStep P).Flows P ps := by
  obtain ⟨past, out, inc, happ, hold⟩ := h
  cases hc : w.final with
  | call =>
    rw [hc] at hold
    have hi := (hps (by simp [hc])).2
    simp only [finalStep, hc, hi]
    exact ⟨past, out, inc, happ, hold⟩
  -- the flag does not move any message
  | setExit =>
    rw [hc] at hold
    simp only [finalStep, hc]
    refine ⟨past, out, inc, happ, ?_⟩
    simp only [FinalHolds] at hold ⊢
    cases hproc : w.proc <;> rw [hproc] at hold <;> exact ⟨hold.1.setExit, hold.2⟩
  | signal =>
    rw [hc] at hold
    simp only [finalStep, hc]
    exact ⟨past, out, inc, by rw [signal_appended]; exact happ, signal_holds hold⟩
  | join =>
    rw [hc] at hold
    simp only [finalStep, hc]
    exact ⟨past, out, inc, happ, hold⟩
  | takeList =>
    -- the log thread has ended, with its own list printed
    rw [hc] at hold
    have hj : w.proc = .exited := hp.joined (by rw [hc]; trivial)
    simp only [FinalHolds, hj, ProcHolds] at hold
    obtain ⟨hh, rfl, hpr⟩ := hold
    simp only [finalStep, hc]
    exact ⟨past, inc, [], by simpa using happ, hh.join, rfl, hpr⟩
  | flushOutlist =>
    rw [hc] at hold
    obtain ⟨hw, rfl, hpr⟩ := hold
    simp only [finalStep, hc]
    split
    · rename_i hempty
      have hnil : out = [] := by simpa [hw.out] using hempty
      subst hnil
      refine ⟨past, [], [], happ, fun p => ?_, rfl, rfl, hpr⟩
      by_cases hpo : p = w.log.mOutlist
      · exact hpo ▸ hw.out
      · exact hw.rest p hpo
    · exact ⟨past, out, [], happ, hw, rfl, rfl, by simp [hpr]⟩
  -- as for the log thread: either all is printed, or the next printer is called
  | flush f =>
    rw [hc] at hold
    obtain ⟨hw, rfl, hf, hpr⟩ := hold
    have hspec := flushStep_spec (P := P) f (hps (by simp [hc])).1
    rw [hf, hw.out] at hspec
    rcases hspec with ⟨hs, hall⟩ | ⟨f', more, hs, hf', hmore⟩
    · simp only [finalStep, hc, hs]
      refine ⟨past ++ out, [], [], by simpa using happ, hw.emptied, rfl, rfl, ?_⟩
      simp only [hpr, hall, Printers.printsAll_append]
    · simp only [finalStep, hc, hs]
      exact ⟨past, out, [], happ, hw, rfl, hf', by rw [hpr, hmore, List.append_assoc]⟩
  | cleanup =>
    rw [hc] at hold
    simp only [finalStep, hc]
    exact ⟨past, out, inc, happ, hold⟩
  | done => simp [Enabled, hc] at he

theorem next_flows {w : LogWorld T} (h : w.Flows P ps) (hp : w.Placed) (hb : w.Booked ps level)
    {a : LogAction T} (he : w.Enabled a) : (w.next P a).Flows P ps := by
  -- before the join `finalise` is not through
  have hps : ¬w.final.Joined → w.log.mLogPrinter = ps := fun hnot =>
    (hb.printers fun hd => hnot (by rw [hd]; trivial)).1
  cases a with
  | printLog t lv msg =>
    obtain ⟨h1, h2, h3, h4, h5⟩ := w.printLog_same t lv msg
    exact h.frame h1 h2 h3 h4 h5
  | caller t now =>
    simp only [next]
    cases hc : w.callers t with
    | idle => simp [Enabled, hc] at he
    | push lv msg => exact push_flows h hp t now hc
    | lock lv msg | unlock =>
      simp only [callerStep, hc]
      exact h.frame rfl rfl rfl rfl rfl
    | signal =>
      have hnot : ¬w.final.Joined := hp.running_of_caller (by rw [hc]; exact LogCaller.noConfusion)
      obtain ⟨past, out, inc, happ, hold⟩ := h
      rw [finalHolds_running hnot] at hold
      simp only [callerStep, hc]
      have hfin : w.signal.final = w.final := by
        simp only [signal]
        split <;> rfl
      refine ⟨past, out, inc, by simpa using happ, ?_⟩
      simp only [hfin]
      rw [finalHolds_running hnot]
      exact signal_holds hold
  | proc =>
    have hnot := hp.running_of_proc (Or.inl he)
    exact procStep_flows h hnot (hps hnot) he
  | wake =>
    have hnot := hp.running_of_proc (Or.inr he)
    obtain ⟨past, out, inc, happ, hold⟩ := h
    rw [finalHolds_running hnot, show w.proc = .blocked from he] at hold
    refine ⟨past, out, inc, happ, ?_⟩
    simp only [next]
    rw [finalHolds_running hnot]
    exact hold
  | finalise => exact finalStep_flows h hp hb.printers he

/-- What holds of every world reached. -/
theorem reaches_spec {l : Log} (hl : l.Halves [] []) (hi : l.mInited = true) {w : LogWorld T}
    (h : Reaches P (start l) w) :
    w.Placed ∧ w.Booked l.mLogPrinter l.mLevel ∧ w.Flows P l.mLogPrinter := by
  induction h with
  | start => exact ⟨start_placed l, start_booked l hi, [], [], [], rfl, hl, rfl, rfl⟩
  | step a _ he ih =>
    obtain ⟨hp, hb, hf⟩ := ih
    exact ⟨next_placed hp hb he, next_booked hb he, next_flows hf hp hb he⟩

/-- Once `finalise` has returned, all that was appended is printed and the log is empty. -/
theorem done_spec {l : Log} (hl : l.Halves [] []) (hi : l.mInited = true) {w : LogWorld T}
    (h : Reaches P (start l) w) (hdone : w.final = .done) :
    w.printed = P.printsAll l.mLogPrinter (w.appended.map Prod.snd) ∧ ∀ p, w.log.deref p = [] := by
  obtain ⟨-, -, past, out, inc, happ, hold⟩ := reaches_spec hl hi h
  rw [hdone] at hold
  obtain ⟨hempty, rfl, rfl, hpr⟩ := hold
  rw [happ, List.append_nil, List.append_nil]
  exact ⟨hpr, hempty⟩

theorem initialise_halves {l : Log} (hl : l.Idle) (level : BitVec 32) (hasTime : Bool) :
    (l.initialise level hasTime).Halves [] [] ∧ (l.initialise level hasTime).mInited = true ∧
      (l.initialise level hasTime).mLevel = level ∧
      (l.initialise level hasTime).mLogPrinter = l.mLogPrinter := by
  obtain ⟨hi, h1, h2, -⟩ := hl
  simp only [Log.initialise, hi]
  exact ⟨⟨by simp, by simp, by simp, h2, h1⟩, rfl, rfl, rfl⟩

omit [DecidableEq T] in
/-- Once `finalise` is through no party has a step left. -/
theorem Placed.not_done {w : LogWorld T} (h : w.Placed) {a : LogAction T} (he : w.Enabled a) :
    w.final ≠ .done := by
  intro hd
  have hexit := h.joined (by rw [hd]; trivial)
  have hidle := h.quiet (by rw [hd]; exact Finaliser.noConfusion)
  cases a with
  | printLog t lv msg => simpa [hd] using he.2
  | caller t now => simp [Enabled, hidle t] at he
  | proc => simp [Enabled, hexit] at he
  | wake => simp [Enabled, hexit] at he
  | finalise => simp [Enabled, hd] at he

/-- `finalise` alone moves on, and its last step is the cleanup. -/
theorem next_done {w : LogWorld T} (hi : w.final = .call → w.log.mInited = true)
    (hrun : w.final ≠ .done) {a : LogAction T} (he : w.Free a) (hdone : (w.next P a).final = .done) :
    a = .finalise ∧ w.final = .cleanup := by
  by_cases ha : a = .finalise
  · subst ha
    refine ⟨rfl, ?_⟩
    simp only [next] at hdone
    cases hc : w.final with
    | cleanup => rfl
    | done => exact absurd hc hrun
    | call => simp [finalStep, hc, hi hc] at hdone
    | flushOutlist =>
      simp only [finalStep, hc] at hdone
      split at hdone <;> exact Finaliser.noConfusion hdone
    | flush f =>
      rcases flushStep_spec (P := P) f (w := w) rfl with ⟨hs, -⟩ | ⟨f', more, hs, -⟩ <;>
        simp [finalStep, hc, hs] at hdone
    | _ => simp [finalStep, hc] at hdone
  · exact absurd ((next_final he ha).1.symm.trans hdone) hrun

/-- A log that has been finalised can be initialised again. -/
theorem done_idle {l : Log} (hl : l.Halves [] []) (hi : l.mInited = true) {w : LogWorld T}
    (h : Reaches P (start l) w) (hdone : w.final = .done) : w.log.Idle := by
  obtain ⟨-, hempty⟩ := done_spec hl hi h hdone
  suffices hcleared : w.log.mInited = false ∧ w.log.mLogPrinter = [] from
    ⟨hcleared.1, hempty .mMsgs1, hempty .mMsgs2, by rw [hcleared.2]; exact List.nodup_nil⟩
  cases h with
  | start => exact Finaliser.noConfusion hdone
  | @step v a hv he =>
    obtain ⟨hp, hb, -⟩ := reaches_spec hl hi hv
    have hin : v.final = .call → v.log.mInited = true := fun hc =>
      (hb.printers (by rw [hc]; exact Finaliser.noConfusion)).2
    obtain ⟨rfl, hc⟩ := next_done hin (hp.not_done he) he.free hdone
    simp only [next, finalStep, hc, and_self]

/-- The log keeps no message back. When `finalise` has returned, in whatever order
the parties took their steps, each thread has appended its messages that pass
the filter, in the order of its calls, and each registered printer has been
passed the appended messages it wants, each once and in the order of appending. -/
theorem messages_delivered {l : Log} (hl : l.Idle) (level : BitVec 32) (hasTime : Bool)
    {w : LogWorld T} (h : Reaches P (start (l.initialise level hasTime)) w)
    (hdone : w.final = .done) :
    (∀ t, appendedBy t w.appended = passedFilter level t w.calls) ∧
    ∀ p ∈ l.mLogPrinter, w.printed.filter (fun o => o.printer = p) =
      ((w.appended.map Prod.snd).filter fun m => P.wants m p).map fun m => P.onPrint m p := by
  obtain ⟨hh, hi, hlevel, hps⟩ := initialise_halves hl level hasTime
  obtain ⟨hp, hb, -⟩ := reaches_spec hh hi h
  refine ⟨fun t => ?_, fun p hmem => ?_⟩
  -- a caller that is through has nothing pending
  · have hbal := hb.calls t
    rw [hp.quiet (by rw [hdone]; exact Finaliser.noConfusion) t, hlevel] at hbal
    simpa [LogCaller.pending] using hbal.symm
  · rw [(done_spec hh hi h hdone).1, hps]
    exact P.printsAll_to hl.printers hmem _

/-- Steps that can be taken one after the other. -/
def Fires (P : Printers) : LogWorld T → List (LogAction T) → Prop
  | _, [] => True
  | w, a :: as => w.Enabled a ∧ Fires P (w.next P a) as

theorem Reaches.fires {u w : LogWorld T} {as : List (LogAction T)} (h : Reaches P u w)
    (hf : Fires P w as) : Reaches P u (as.foldl (next P) w) := by
  induction as generalizing w with
  | nil => exact h
  | cons a as ih => exact ih (.step a h hf.1) hf.2

/-- One printer for errors and warnings, and a log with that printer. -/
def errorPrinter : Printers := ⟨fun _ => 0x0c, fun _ => []⟩

def errorLog : Log := Log.new.regPrinter (some 7)

/-- An error and an informational message from one thread; the log thread takes
the first, and `finalise` prints the second list itself. -/
def twoMessages : List (LogAction Unit) :=
  [.printLog () .ErrorLog (some [1])] ++ List.replicate 4 (.caller () 99) ++
    List.replicate 6 .proc ++ [.printLog () .InfoLog (some [2])] ++
    List.replicate 4 (.caller () 0) ++ List.replicate 4 .proc ++
    List.replicate 3 .finalise ++ [.proc] ++ List.replicate 7 .finalise

theorem twoMessages_fires :
    Fires errorPrinter (start (errorLog.initialise ELogLevel.AllLog.toInt true)) twoMessages := by
  refine ⟨⟨rfl, rfl⟩, rfl, trivial, trivial, trivial, trivial, rfl, trivial, trivial, trivial, trivial,
    ⟨rfl, rfl⟩, rfl, trivial, trivial, trivial, trivial, trivial, trivial, trivial,
    fun _ => rfl, trivial, trivial, trivial, rfl, trivial, trivial, trivial, trivial, trivial, trivial,
    trivial⟩

theorem messages_delivered_two :
    ∃ w : LogWorld Unit, w.final = .done ∧
      w.appended.map Prod.snd = [⟨[1], 99, .ErrorLog⟩, ⟨[2], 0, .InfoLog⟩] ∧
      w.printed.filter (fun o => o.printer = 7) = [⟨7, .ErrorLog, 99, some [], [1]⟩] := by
  let l := errorLog.initialise ELogLevel.AllLog.toInt true
  refine ⟨twoMessages.foldl (next errorPrinter) (start l), by decide, by decide, ?_⟩
  have hidle : errorLog.Idle := Log.regPrinter_idle Log.new_idle (some 7)
  exact (messages_delivered hidle ELogLevel.AllLog.toInt true
    (Reaches.start.fires twoMessages_fires) (by decide)).2 7 (by decide)

end LogWorld

end HttpsProxy
