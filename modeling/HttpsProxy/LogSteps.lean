import HttpsProxy.Log

/-! What a step of each party of the log does, and that the mutex is kept. Here
`finalise` may be called while other threads print. -/
namespace HttpsProxy

/-- The thread holds the mutex. -/
def LogCaller.Critical : LogCaller → Prop
  | .push _ _ | .unlock => True
  | _ => False

/-- The log thread holds the mutex. -/
def LogProc.Critical : LogProc → Prop
  | .test | .wait | .swapOut | .swapIn _ | .unlock => True
  | _ => False

/-- `finalise` has seen the log thread end. -/
def Finaliser.Joined : Finaliser → Prop
  | .takeList | .flushOutlist | .flush _ | .cleanup | .done => True
  | _ => False

namespace LogWorld

variable {T : Type} {P : Printers}

theorem flushStep_frame (f : Flush) (w : LogWorld T) :
    (w.flushStep P f).2.mMutex = w.mMutex ∧ (w.flushStep P f).2.callers = w.callers ∧
      (w.flushStep P f).2.proc = w.proc ∧ (w.flushStep P f).2.final = w.final ∧
      (w.flushStep P f).2.appended = w.appended ∧
      (w.flushStep P f).2.log.mbExit = w.log.mbExit ∧
      (w.flushStep P f).2.log.mInited = w.log.mInited := by
  unfold flushStep
  split
  · cases f.outlist <;> exact ⟨rfl, rfl, rfl, rfl, rfl, rfl, rfl⟩
  · split
    · exact ⟨rfl, rfl, rfl, rfl, rfl, rfl, rfl⟩
    · split <;> exact ⟨rfl, rfl, rfl, rfl, rfl, rfl, rfl⟩

/-- What a step of the log thread can do: it takes the mutex when it is free,
gives up its own or leaves it alone, and it gets to a wait only by a test that
finds no exit. -/
structure ProcMoves (w v : LogWorld T) : Prop where
  callers : v.callers = w.callers
  final : v.final = w.final
  appended : v.appended = w.appended
  exit : v.log.mbExit = w.log.mbExit
  inited : v.log.mInited = w.log.mInited
  mutex : v.mMutex = w.mMutex ∧ (v.proc.Critical → w.proc.Critical) ∨
    w.mMutex = none ∧ v.mMutex = some .logProc ∨ w.proc.Critical ∧ ¬v.proc.Critical
  wait : v.proc = .wait → w.log.mbExit = false
  blocked : v.proc = .blocked → w.proc = .wait

theorem procStep_moves {w : LogWorld T} (he : w.Enabled .proc) : w.ProcMoves (w.procStep P) := by
  cases hc : w.proc with
  | loop =>
    simp only [procStep, hc]
    split
    · exact ⟨rfl, rfl, rfl, rfl, rfl, Or.inl ⟨rfl, fun hp => hp.elim⟩, nofun, nofun⟩
    · exact ⟨rfl, rfl, rfl, rfl, rfl, Or.inl ⟨rfl, fun hp => hp.elim⟩, nofun, nofun⟩
  | lock | relock =>
    have hn : w.mMutex = none := by simpa [Enabled, hc] using he
    simp only [procStep, hc]
    exact ⟨rfl, rfl, rfl, rfl, rfl, Or.inr (Or.inl ⟨hn, rfl⟩), nofun, nofun⟩
  | test =>
    simp only [procStep, hc]
    split
    · rename_i htest
      have hno : w.log.mbExit = false := by simpa using (Bool.and_eq_true_iff.mp htest).2
      exact ⟨rfl, rfl, rfl, rfl, rfl, Or.inl ⟨rfl, fun _ => by rw [hc]; trivial⟩, fun _ => hno, nofun⟩
    · exact ⟨rfl, rfl, rfl, rfl, rfl, Or.inl ⟨rfl, fun _ => by rw [hc]; trivial⟩, nofun, nofun⟩
  | swapOut | swapIn _ =>
    simp only [procStep, hc]
    exact ⟨rfl, rfl, rfl, rfl, rfl, Or.inl ⟨rfl, fun _ => by rw [hc]; trivial⟩, nofun, nofun⟩
  | wait =>
    -- `pthread_cond_wait` gives up the mutex as it blocks
    simp only [procStep, hc]
    exact ⟨rfl, rfl, rfl, rfl, rfl, Or.inr (Or.inr ⟨by rw [hc]; trivial, id⟩), nofun, fun _ => hc⟩
  | unlock =>
    simp only [procStep, hc]
    exact ⟨rfl, rfl, rfl, rfl, rfl, Or.inr (Or.inr ⟨by rw [hc]; trivial, id⟩), nofun, nofun⟩
  | flushOutlist =>
    simp only [procStep, hc]
    split
    · exact ⟨rfl, rfl, rfl, rfl, rfl, Or.inl ⟨rfl, fun hp => hp.elim⟩, nofun, nofun⟩
    · exact ⟨rfl, rfl, rfl, rfl, rfl, Or.inl ⟨rfl, fun hp => hp.elim⟩, nofun, nofun⟩
  | flush f =>
    obtain ⟨hm, hca, -, hfi, hap, hex, hin⟩ := w.flushStep_frame (P := P) f
    cases hs : w.flushStep P f with
    | mk next v =>
      rw [hs] at hm hca hfi hap hex hin
      cases next <;> simp only [procStep, hc, hs] <;>
        exact ⟨hca, hfi, hap, hex, hin, Or.inl ⟨hm, fun hp => hp.elim⟩, nofun, nofun⟩
  | blocked => simp [Enabled, hc] at he
  | exited => simp [Enabled, hc] at he

/-- `finalise` leaves the callers and the mutex alone, and the log thread but
for its signal. -/
structure FinalMoves (w v : LogWorld T) : Prop where
  callers : v.callers = w.callers
  mutex : v.mMutex = w.mMutex
  proc : v.proc = w.proc ∨ w.proc = .blocked ∧ v.proc = .relock
  signal : w.final = .signal → v.proc ≠ .blocked

theorem finalStep_moves (w : LogWorld T) : w.FinalMoves (w.finalStep P) := by
  cases hc : w.final with
  | signal =>
    simp only [finalStep, hc, signal]
    split
    · rename_i hb
      exact ⟨rfl, rfl, Or.inr ⟨hb, rfl⟩, nofun⟩
    · rename_i hb
      exact ⟨rfl, rfl, Or.inl rfl, fun _ => hb⟩
  | flush f =>
    obtain ⟨hm, hca, hp, -⟩ := w.flushStep_frame (P := P) f
    cases hs : w.flushStep P f with
    | mk next v =>
      rw [hs] at hm hca hp
      cases next <;> simp only [finalStep, hc, hs] <;>
        exact ⟨hca, hm, Or.inl hp, by simp [hc]⟩
  | _ =>
    simp only [finalStep, hc]
    exact ⟨rfl, rfl, Or.inl rfl, by simp [hc]⟩

variable [DecidableEq T]

/-- `printLog` checks its arguments and the filter before it touches the log. -/
theorem printLog_same (w : LogWorld T) (t : T) (lv : ELogLevel) (msg : Option Bytes) :
    (w.printLog t lv msg).log = w.log ∧ (w.printLog t lv msg).printed = w.printed ∧
      (w.printLog t lv msg).appended = w.appended ∧ (w.printLog t lv msg).proc = w.proc ∧
      (w.printLog t lv msg).final = w.final := by
  cases msg with
  | none => exact ⟨rfl, rfl, rfl, rfl, rfl⟩
  | some msg =>
    simp only [printLog]
    split <;> exact ⟨rfl, rfl, rfl, rfl, rfl⟩

theorem printLog_others (w : LogWorld T) {t u : T} (lv : ELogLevel) (msg : Option Bytes)
    (hne : u ≠ t) : (w.printLog t lv msg).callers u = w.callers u := by
  cases msg with
  | none => rfl
  | some msg =>
    simp only [printLog]
    split
    · rfl
    · exact Function.update_of_ne hne _ _

/-- What a step of a caller can do besides its place and the list: wake the log
thread. It does so as its last step. -/
structure CallerMoves (t : T) (w v : LogWorld T) : Prop where
  others : ∀ u ≠ t, v.callers u = w.callers u
  final : v.final = w.final
  exit : v.log.mbExit = w.log.mbExit
  inited : v.log.mInited = w.log.mInited
  proc : v.proc = w.proc ∨ w.proc = .blocked ∧ v.proc = .relock
  last : v.callers t = .idle → v.proc ≠ .blocked

theorem callerStep_moves {w : LogWorld T} {t : T} {now : ℤ} (he : w.Enabled (.caller t now)) :
    w.CallerMoves t (w.callerStep t now) := by
  cases hc : w.callers t with
  | idle => simp [Enabled, hc] at he
  | lock lv msg | unlock =>
    simp only [callerStep, hc]
    exact ⟨fun u hne => Function.update_of_ne hne _ _, rfl, rfl, rfl, Or.inl rfl, by simp⟩
  | push lv msg =>
    simp only [callerStep, hc]
    have hrest : ∀ (msgs : List Msg) (p : MsgList),
        (w.log.store msgs p).mbExit = w.log.mbExit ∧ (w.log.store msgs p).mInited = w.log.mInited := by
      rintro msgs (_ | _ | _) <;> exact ⟨rfl, rfl⟩
    exact ⟨fun u hne => Function.update_of_ne hne _ _, rfl, (hrest _ _).1, (hrest _ _).2,
      Or.inl rfl, by simp⟩
  | signal =>
    simp only [callerStep, hc, signal]
    split
    · rename_i hb
      exact ⟨fun u hne => Function.update_of_ne hne _ _, rfl, rfl, rfl, Or.inr ⟨hb, rfl⟩, nofun⟩
    · rename_i hb
      exact ⟨fun u hne => Function.update_of_ne hne _ _, rfl, rfl, rfl, Or.inl rfl, fun _ => hb⟩

/-- When a step can be taken if threads print before, beside and after `finalise`. -/
def Free (w : LogWorld T) : LogAction T → Prop
  | .printLog t _ _ => w.callers t = .idle
  | .caller t now => w.Enabled (.caller t now)
  | .proc => w.Enabled .proc
  | .wake => w.Enabled .wake
  | .finalise =>
    match w.final with
    | .join => w.proc = .exited
    | .done => False
    | _ => True

omit [DecidableEq T] in
theorem Enabled.free {w : LogWorld T} {a : LogAction T} (he : w.Enabled a) : w.Free a := by
  cases a with
  | printLog t level msg => exact he.1
  | caller t now => exact he
  | proc => exact he
  | wake => exact he
  | finalise =>
    cases hc : w.final with
    | join => simpa [Enabled, Free, hc] using he
    | done => simp [Enabled, hc] at he
    | _ => simp [Free, hc]

/-- A step of another party leaves `finalise` where it is and the flags as they are. -/
theorem next_final {w : LogWorld T} {a : LogAction T} (he : w.Free a) (ha : a ≠ .finalise) :
    (w.next P a).final = w.final ∧ (w.next P a).log.mbExit = w.log.mbExit ∧
      (w.next P a).log.mInited = w.log.mInited := by
  cases a with
  | printLog t lv msg =>
    obtain ⟨hl, -, -, -, hf⟩ := w.printLog_same t lv msg
    exact ⟨hf, congrArg Log.mbExit hl, congrArg Log.mInited hl⟩
  | caller t now =>
    have hv : w.CallerMoves t (w.callerStep t now) := callerStep_moves he
    exact ⟨hv.final, hv.exit, hv.inited⟩
  | proc =>
    have hv := procStep_moves (P := P) he
    exact ⟨hv.final, hv.exit, hv.inited⟩
  | wake => exact ⟨rfl, rfl, rfl⟩
  | finalise => exact absurd rfl ha

/-- At most one party is in the critical section, and the mutex is its. -/
structure Exclusive (w : LogWorld T) : Prop where
  caller : ∀ t, (w.callers t).Critical → w.mMutex = some (.caller t)
  proc : w.proc.Critical → w.mMutex = some .logProc

omit [DecidableEq T] in
theorem start_exclusive (l : Log) : (start l : LogWorld T).Exclusive :=
  ⟨fun _ h => h.elim, fun h => h.elim⟩

omit [DecidableEq T] in
theorem Exclusive.alone {w : LogWorld T} (h : w.Exclusive) {t : T} (ht : (w.callers t).Critical) :
    (∀ t' ≠ t, ¬(w.callers t').Critical) ∧ ¬w.proc.Critical := by
  have hm := h.caller t ht
  refine ⟨fun t' hne ht' => hne ?_, fun hp => ?_⟩
  · have ht := hm.symm.trans (h.caller t' ht')
    simpa using ht.symm
  · simpa using hm.symm.trans (h.proc hp)

omit [DecidableEq T] in
/-- A step of the log thread: it stays on its side of the mutex, or no caller is
in the critical section. -/
theorem Exclusive.moveProc {w v : LogWorld T} (h : w.Exclusive) (hv : w.ProcMoves v) :
    v.Exclusive := by
  have hfree : w.mMutex = none → ∀ t, ¬(w.callers t).Critical := by
    intro hn t ht
    simpa [hn] using h.caller t ht
  have hown : w.proc.Critical → ∀ t, ¬(w.callers t).Critical := by
    intro hp t ht
    simpa using (h.proc hp).symm.trans (h.caller t ht)
  refine ⟨fun t ht => ?_, fun hp => ?_⟩
  · rw [hv.callers] at ht
    rcases hv.mutex with ⟨hsame, -⟩ | ⟨hn, -⟩ | ⟨hp, -⟩
    · exact hsame.trans (h.caller t ht)
    · exact absurd ht (hfree hn t)
    · exact absurd ht (hown hp t)
  · rcases hv.mutex with ⟨hsame, hstay⟩ | ⟨-, hmine⟩ | ⟨-, hleft⟩
    · exact hsame.trans (h.proc (hstay hp))
    · exact hmine
    · exact absurd hp hleft

/-- A thread that takes its next step in `printLog` is the only one to change
place, and moves the mutex only if it is its own or free. -/
theorem Exclusive.update {w : LogWorld T} (h : w.Exclusive) (t : T) (c : LogCaller)
    (m : Option (MutexOwner T)) (hc : c.Critical → m = some (.caller t))
    (hm : m = w.mMutex ∨ (∀ t' ≠ t, ¬(w.callers t').Critical) ∧ ¬w.proc.Critical) :
    ({ w with mMutex := m, callers := Function.update w.callers t c } : LogWorld T).Exclusive := by
  refine ⟨fun t' ht' => ?_, fun hp => ?_⟩
  · by_cases he : t' = t
    · subst he
      simp only [Function.update_self] at ht'
      exact hc ht'
    · simp only [Function.update_of_ne he] at ht'
      rcases hm with rfl | ⟨hothers, -⟩
      · exact h.caller t' ht'
      · exact absurd ht' (hothers t' he)
  · rcases hm with rfl | ⟨-, hlog⟩
    · exact h.proc hp
    · exact absurd hp hlog

theorem printLog_exclusive {w : LogWorld T} (h : w.Exclusive) (t : T) (lv : ELogLevel)
    (msg : Option Bytes) : (w.printLog t lv msg).Exclusive := by
  have hcalls : ({ w with calls := w.calls ++ [(t, lv, msg)] } : LogWorld T).Exclusive :=
    ⟨h.caller, h.proc⟩
  cases msg with
  | none => exact hcalls
  | some msg =>
    simp only [printLog]
    split
    · exact hcalls
    · exact hcalls.update t (.lock lv msg) w.mMutex (fun hc => hc.elim) (Or.inl rfl)

theorem callerStep_exclusive {w : LogWorld T} (h : w.Exclusive) (t : T) (now : ℤ)
    (he : w.Enabled (.caller t now)) : (w.callerStep t now).Exclusive := by
  cases hc : w.callers t with
  | idle => simp [Enabled, hc] at he
  | lock lv msg =>
    have hfree : w.mMutex = none := by simpa [Enabled, hc] using he
    simp only [callerStep, hc]
    refine h.update t _ _ (fun _ => rfl) (Or.inr ⟨fun t' _ ht' => ?_, fun hp => ?_⟩)
    · simpa [hfree] using h.caller t' ht'
    · simpa [hfree] using h.proc hp
  | push lv msg =>
    have hm := h.caller t (by rw [hc]; trivial)
    simp only [callerStep, hc]
    obtain ⟨hcaller, hlog⟩ := h.update t .unlock w.mMutex (fun _ => hm) (Or.inl rfl)
    exact ⟨hcaller, hlog⟩
  | unlock =>
    have halone := h.alone (by rw [hc]; trivial : (w.callers t).Critical)
    simp only [callerStep, hc]
    exact h.update t .signal none (fun hs => hs.elim) (Or.inr halone)
  | signal =>
    have hidle := h.update t .idle w.mMutex (fun hs => hs.elim) (Or.inl rfl)
    simp only [callerStep, hc, signal]
    split
    · exact ⟨hidle.caller, fun hp => hp.elim⟩
    · exact hidle

/-- Every step of every party keeps the mutex. -/
theorem next_exclusive {w : LogWorld T} (h : w.Exclusive) {a : LogAction T} (he : w.Free a) :
    (w.next P a).Exclusive := by
  cases a with
  | printLog t lv msg => exact printLog_exclusive h t lv msg
  | caller t now => exact callerStep_exclusive h t now he
  | proc => exact h.moveProc (procStep_moves he)
  | wake => exact ⟨h.caller, fun hp => hp.elim⟩
  | finalise =>
    obtain ⟨hcallers, hm, hproc, -⟩ := finalStep_moves (P := P) w
    refine ⟨fun t ht => hm.trans (h.caller t (hcallers ▸ ht)), fun hp => hm.trans (h.proc ?_)⟩
    rcases hproc with hsame | ⟨-, hwoken⟩
    · exact hsame ▸ hp
    · rw [next, hwoken] at hp
      exact hp.elim

/-- After the join the log thread is gone, whoever takes the next step. -/
theorem next_joined {w : LogWorld T} (hi : w.final = .call → w.log.mInited = true)
    (hj : w.final.Joined → w.proc = .exited) {a : LogAction T} (he : w.Free a)
    (hjoined : (w.next P a).final.Joined) : (w.next P a).proc = .exited := by
  have hstay : ∀ v : LogWorld T, v.final = w.final → v.final.Joined →
      (v.proc = w.proc ∨ w.proc = .blocked ∧ v.proc = .relock) → v.proc = .exited := by
    rintro v hf hv (hp | ⟨hb, -⟩)
    · exact hp.trans (hj (hf ▸ hv))
    · simp [hj (hf ▸ hv)] at hb
  cases a with
  | printLog t lv msg =>
    obtain ⟨-, -, -, hp, hf⟩ := w.printLog_same t lv msg
    exact hstay _ hf hjoined (Or.inl hp)
  | caller t now =>
    have hv : w.CallerMoves t (w.callerStep t now) := callerStep_moves he
    exact hstay _ hv.final hjoined hv.proc
  | proc =>
    have hex := hj ((procStep_moves (P := P) he).final ▸ hjoined)
    simp [Free, Enabled, hex] at he
  | wake =>
    have hex := hj hjoined
    simp [Free, Enabled, hex] at he
  | finalise =>
    obtain ⟨-, -, hp, -⟩ := finalStep_moves (P := P) w
    have hbefore : w.proc = .exited := by
      cases hc : w.final with
      | call => simp [next, finalStep, hc, hi hc, Finaliser.Joined] at hjoined
      | setExit | signal => simp [next, finalStep, hc, Finaliser.Joined] at hjoined
      | join => simpa [Free, hc] using he
      | _ => exact hj (by rw [hc]; trivial)
    rcases hp with hp | ⟨hb, -⟩
    · exact hp.trans hbefore
    · simp [hbefore] at hb

end LogWorld

end HttpsProxy
