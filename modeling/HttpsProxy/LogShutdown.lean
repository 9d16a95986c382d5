import HttpsProxy.LogDelivery

/-! `finalise` sets `mbExit` and signals without the mutex. Between its test and
its wait the log thread has seen neither: the signal is lost, and the thread
waits for good unless a caller is about to send another. -/
namespace HttpsProxy

/-- The thread is about to take the mutex, and will signal once it has had it. -/
def LogCaller.Entering : LogCaller → Prop
  | .lock _ _ => True
  | _ => False

/-- `finalise` has sent its signal. -/
def Finaliser.Signalled : Finaliser → Prop
  | .call | .setExit | .signal => False
  | _ => True

namespace LogWorld

variable {T : Type} {P : Printers}

/-- The log thread is in its wait, `mbExit` is set, the signal of `finalise` is
sent and no caller is on its way to another. -/
structure Stranded (w : LogWorld T) : Prop where
  exit : w.log.mbExit = true
  signalled : w.final.Signalled
  blocked : w.proc = .blocked
  alone : ∀ t, w.callers t = .idle

/-- The signal of `finalise` comes between the test and the wait of the log
thread, while no caller is about to lock. -/
def Lost (w : LogWorld T) : LogAction T → Prop
  | .finalise => w.final = .signal ∧ w.proc = .wait ∧ ∀ t, ¬(w.callers t).Entering
  | _ => False

variable [DecidableEq T]

/-- The worlds reached by steps in any order, each of which satisfies `Q`. -/
inductive Interleaves (P : Printers) (Q : LogWorld T → LogAction T → Prop) (u : LogWorld T) :
    LogWorld T → Prop where
  | start : Interleaves P Q u u
  | step {v : LogWorld T} (a : LogAction T) (h : Interleaves P Q u v) (he : v.Free a)
    (hq : Q v a) : Interleaves P Q u (v.next P a)

/-- Every order of steps. -/
abbrev Shuffles (P : Printers) (u w : LogWorld T) : Prop :=
  Interleaves P (fun _ _ => True) u w

theorem Reaches.shuffles {u w : LogWorld T} (h : Reaches P u w) : Shuffles P u w := by
  induction h with
  | start => exact .start
  | step a _ he ih => exact .step a ih he.free trivial

theorem Interleaves.trans {u v w : LogWorld T} (h : Shuffles P u v) (h' : Shuffles P v w) :
    Shuffles P u w := by
  induction h' with
  | start => exact h
  | step a _ he _ ih => exact .step a ih he trivial

/-- How far `finalise` is says what it has done. -/
structure Sequenced (w : LogWorld T) : Prop where
  mutex : w.Exclusive
  inited : w.final = .call → w.log.mInited = true
  exit : w.final ≠ .call → w.final ≠ .setExit → w.log.mbExit = true
  joined : w.final.Joined → w.proc = .exited

omit [DecidableEq T] in
theorem start_sequenced {l : Log} (hi : l.mInited = true) : (start l : LogWorld T).Sequenced :=
  ⟨start_exclusive l, fun _ => hi, fun h => absurd rfl h, fun h => h.elim⟩

omit [DecidableEq T] in
theorem finalStep_exit {w : LogWorld T} (hi : w.final = .call → w.log.mInited = true)
    (hx : w.final ≠ .call → w.final ≠ .setExit → w.log.mbExit = true) :
    (w.finalStep P).final ≠ .call ∧
      ((w.finalStep P).final ≠ .setExit → (w.finalStep P).log.mbExit = true) := by
  cases hc : w.final with
  | call => simp [finalStep, hc, hi hc]
  | setExit => simp [finalStep, hc]
  | flush f =>
    obtain ⟨-, -, -, -, -, hex, -⟩ := w.flushStep_frame (P := P) f
    have hw := hx (by simp [hc]) (by simp [hc])
    cases hs : w.flushStep P f with
    | mk next v =>
      have hv : v.log.mbExit = true := by
        rw [hs] at hex
        exact hex.trans hw
      cases next <;> simp [finalStep, hc, hs, hv]
  | flushOutlist =>
    have hw := hx (by simp [hc]) (by simp [hc])
    simp only [finalStep, hc]
    split <;> simp [hw]
  | signal =>
    have hw := hx (by simp [hc]) (by simp [hc])
    simp only [finalStep, hc, signal]
    split <;> simp [hw]
  | join | takeList | cleanup | done =>
    have hw := hx (by simp [hc]) (by simp [hc])
    simp [finalStep, hc, hw]

theorem next_sequenced {w : LogWorld T} (h : w.Sequenced) {a : LogAction T} (he : w.Free a) :
    (w.next P a).Sequenced := by
  obtain ⟨hm, hi, hx, hj⟩ := h
  refine ⟨next_exclusive hm he, ?_, ?_, next_joined hi hj he⟩
  · by_cases ha : a = .finalise
    · subst ha
      exact fun hc => absurd hc (finalStep_exit hi hx).1
    · obtain ⟨hf, -, hin⟩ := next_final (P := P) he ha
      rw [hf, hin]
      exact hi
  · by_cases ha : a = .finalise
    · subst ha
      exact fun _ => (finalStep_exit hi hx).2
    · obtain ⟨hf, hex, -⟩ := next_final (P := P) he ha
      rw [hf, hex]
      exact hx

/-- Once the signal is sent, a log thread in or before its wait has another coming. -/
structure Heeded (w : LogWorld T) : Prop where
  waiting : w.final.Signalled → w.proc = .wait → ∃ t, (w.callers t).Entering
  blocked : w.final.Signalled → w.proc = .blocked → ∃ t, w.callers t ≠ .idle

omit [DecidableEq T] in
theorem start_heeded (l : Log) : (start l : LogWorld T).Heeded :=
  ⟨fun h => h.elim, fun h => h.elim⟩

omit [DecidableEq T] in
/-- A signal at most takes the log thread out of its wait. -/
theorem before_signal {w v : LogWorld T}
    (h : v.proc = w.proc ∨ w.proc = .blocked ∧ v.proc = .relock) :
    (v.proc = .wait → w.proc = .wait) ∧ (v.proc = .blocked → w.proc = .blocked) := by
  rcases h with hp | ⟨hb, hp⟩
  · exact ⟨hp.symm.trans, hp.symm.trans⟩
  · exact ⟨fun hw => by simp [hp] at hw, fun _ => hb⟩

omit [DecidableEq T] in
theorem finalStep_signalled {w : LogWorld T} (hi : w.final = .call → w.log.mInited = true)
    (hs : (w.finalStep P).final.Signalled) : w.final = .signal ∨ w.final.Signalled := by
  cases hc : w.final with
  | call => simp [finalStep, hc, hi hc, Finaliser.Signalled] at hs
  | setExit => simp [finalStep, hc, Finaliser.Signalled] at hs
  | signal => exact Or.inl rfl
  | _ => exact Or.inr trivial

/-- A caller takes the mutex only when the log thread is past its wait, and its
last step is a signal. -/
theorem callerStep_heeded {w : LogWorld T} (ho : w.Sequenced) (h : w.Heeded) {t : T} {now : ℤ}
    (he : w.Enabled (.caller t now)) : (w.callerStep t now).Heeded := by
  have hv := callerStep_moves he
  obtain ⟨hwait, hblocked⟩ := before_signal hv.proc
  refine ⟨fun hs hw => ?_, fun hs hb => ?_⟩
  · obtain ⟨u, hu⟩ := h.waiting (hv.final ▸ hs) (hwait hw)
    refine ⟨u, ?_⟩
    by_cases hut : u = t
    · -- the log thread has the mutex, so no caller can take it
      have hm := ho.mutex.proc (by rw [hwait hw]; trivial)
      subst hut
      cases hc : w.callers u with
      | lock lv msg => simp [Enabled, hc, hm] at he
      | _ => rw [hc] at hu; exact hu.elim
    · rw [hv.others u hut]
      exact hu
  · obtain ⟨u, hu⟩ := h.blocked (hv.final ▸ hs) (hblocked hb)
    by_cases hut : u = t
    · subst hut
      exact ⟨u, fun hidle => hv.last hidle hb⟩
    · exact ⟨u, by rw [hv.others u hut]; exact hu⟩

theorem next_heeded {w : LogWorld T} (ho : w.Sequenced) (h : w.Heeded) {a : LogAction T}
    (he : w.Free a) (hlost : ¬w.Lost a) : (w.next P a).Heeded := by
  cases a with
  | printLog t lv msg =>
    obtain ⟨-, -, -, hp, hf⟩ := w.printLog_same t lv msg
    -- the thread that starts was idle, so it is not the one the log thread waits for
    have hkeep : ∀ u, w.callers u ≠ .idle → (w.printLog t lv msg).callers u = w.callers u :=
      fun u hu => w.printLog_others lv msg fun hut => hu (hut ▸ he)
    refine ⟨fun hs hw => ?_, fun hs hb => ?_⟩
    · obtain ⟨u, hu⟩ := h.waiting (hf ▸ hs) (hp.symm.trans hw)
      refine ⟨u, ?_⟩
      rw [next, hkeep u (by rintro hidle; rw [hidle] at hu; exact hu)]
      exact hu
    · obtain ⟨u, hu⟩ := h.blocked (hf ▸ hs) (hp.symm.trans hb)
      exact ⟨u, by rw [next, hkeep u hu]; exact hu⟩
  | caller t now => exact callerStep_heeded ho h he
  | proc =>
    have hv := procStep_moves (P := P) he
    -- it comes to no new wait, and it blocks in an old one
    refine ⟨fun hs hw => ?_, fun hs hb => ?_⟩
    · have hexit : w.log.mbExit = true := by
        have hs' : w.final.Signalled := hv.final ▸ hs
        apply ho.exit <;> intro hc <;> rw [hc] at hs' <;> exact hs'
      simp [hv.wait hw] at hexit
    · obtain ⟨u, hu⟩ := h.waiting (hv.final ▸ hs) (hv.blocked hb)
      refine ⟨u, fun hidle => ?_⟩
      rw [next, hv.callers] at hidle
      rw [hidle] at hu
      exact hu
  | wake => exact ⟨fun _ hw => by simp [next] at hw, fun _ hb => by simp [next] at hb⟩
  | finalise =>
    obtain ⟨hcallers, -, hproc, hsignal⟩ := finalStep_moves (P := P) w
    obtain ⟨hwait, hblocked⟩ := before_signal hproc
    -- the signal wakes a thread in its wait; one before it needs another to come
    refine ⟨fun hs hw => ?_, fun hs hb => ?_⟩
    · rw [next, hcallers]
      rcases finalStep_signalled ho.inited hs with hc | hs'
      · by_contra hnone
        exact hlost ⟨hc, hwait hw, fun t ht => hnone ⟨t, ht⟩⟩
      · exact h.waiting hs' (hwait hw)
    · rw [next, hcallers]
      rcases finalStep_signalled ho.inited hs with hc | hs'
      · exact absurd hb (hsignal hc)
      · exact h.blocked hs' (hblocked hb)

theorem run_sequenced {Q : LogWorld T → LogAction T → Prop} {l : Log} (hi : l.mInited = true)
    {w : LogWorld T} (h : Interleaves P Q (start l) w) : w.Sequenced := by
  induction h with
  | start => exact start_sequenced hi
  | step a _ he _ ih => exact next_sequenced ih he

theorem run_heeded {l : Log} (hi : l.mInited = true) {w : LogWorld T}
    (h : Interleaves P (fun v a => ¬v.Lost a) (start l) w) : w.Heeded := by
  induction h with
  | start => exact start_heeded l
  | step a hv he hq ih => exact next_heeded (run_sequenced hi hv) ih he hq

omit [DecidableEq T] in
theorem Heeded.not_stranded {w : LogWorld T} (h : w.Heeded) : ¬w.Stranded := by
  intro hs
  obtain ⟨t, ht⟩ := h.blocked hs.signalled hs.blocked
  exact ht (hs.alone t)

omit [DecidableEq T] in
/-- A stranded log thread goes on only if it wakes by itself or a new message is printed. -/
theorem Stranded.stuck {w : LogWorld T} (h : w.Stranded) (ho : w.Sequenced) {a : LogAction T}
    (he : w.Free a) : a = .wake ∨ ∃ t level msg, a = .printLog t level msg := by
  cases a with
  | printLog t level msg => exact Or.inr ⟨t, level, msg, rfl⟩
  | caller t now => simp [Free, Enabled, h.alone t] at he
  | proc => simp [Free, Enabled, h.blocked] at he
  | wake => exact Or.inl rfl
  | finalise =>
    exfalso
    have hb := h.blocked
    cases hc : w.final with
    | call | setExit | signal =>
      have hs := h.signalled
      rw [hc] at hs
      exact hs
    | join => simp [Free, hc, hb] at he
    | _ => simp [ho.joined (by rw [hc]; trivial)] at hb

/-- The signal is sent, the log thread is about to wait, and the callers that
are not through have only their own signal left. -/
structure Doomed (w : LogWorld T) : Prop where
  exit : w.log.mbExit = true
  signalled : w.final.Signalled
  waiting : w.proc = .wait
  leaving : ∀ t, w.callers t = .idle ∨ w.callers t = .signal

omit [DecidableEq T] in
theorem Lost.doomed {w : LogWorld T} (h : w.Lost .finalise) (ho : w.Sequenced) :
    (w.finalStep P).Doomed := by
  obtain ⟨hf, hw, hout⟩ := h
  have hm := ho.mutex.proc (by rw [hw]; trivial)
  have hx := ho.exit (by simp [hf]) (by simp [hf])
  have hnext : w.finalStep P = { w with final := .join } := by
    simp [finalStep, hf, signal, hw]
  rw [hnext]
  refine ⟨hx, trivial, hw, fun t => ?_⟩
  cases hc : w.callers t with
  | idle => exact Or.inl rfl
  | signal => exact Or.inr rfl
  | lock lv msg => exact absurd (by rw [hc]; trivial) (hout t)
  | push lv msg | unlock =>
    have hown := ho.mutex.caller t (by rw [hc]; trivial)
    simp [hm] at hown

/-- The callers send their signals to nobody, and then the log thread waits. -/
theorem Doomed.strands {w : LogWorld T} (h : w.Doomed) (ts : List T)
    (hts : ∀ t ∉ ts, w.callers t = .idle) : ∃ v, Shuffles P w v ∧ v.Stranded := by
  induction ts generalizing w with
  | nil =>
    have hfree : w.Free .proc := by simp [Free, Enabled, h.waiting]
    refine ⟨w.next P .proc, .step .proc .start hfree trivial, ?_⟩
    simp only [next, procStep, h.waiting]
    exact ⟨h.exit, h.signalled, rfl, fun t => hts t List.not_mem_nil⟩
  | cons t ts ih =>
    rcases h.leaving t with hidle | hsig
    · refine ih h fun u hu => ?_
      by_cases hut : u = t
      · exact hut ▸ hidle
      · exact hts u (by simp [hut, hu])
    · -- nobody is in the wait yet, so the signal of `t` is lost as well
      have hfree : w.Free (.caller t 0) := by simp [Free, Enabled, hsig]
      have hnext : w.next P (.caller t 0) =
          { w with callers := Function.update w.callers t .idle } := by
        simp [next, callerStep, hsig, signal, h.waiting]
      have hdoomed : (w.next P (.caller t 0)).Doomed := by
        rw [hnext]
        refine ⟨h.exit, h.signalled, h.waiting, fun u => ?_⟩
        by_cases hut : u = t
        · exact Or.inl (by simp [hut])
        · simpa [hut] using h.leaving u
      obtain ⟨v, hv, hs⟩ := ih hdoomed fun u hu => by
        rw [hnext]
        by_cases hut : u = t
        · simp [hut]
        · simpa [hut] using hts u (by simp [hut, hu])
      exact ⟨v, Interleaves.trans (.step _ .start hfree trivial) hv, hs⟩

/-- Only finitely many threads have been in `printLog`. -/
theorem run_finite {Q : LogWorld T → LogAction T → Prop} {l : Log} {w : LogWorld T}
    (h : Interleaves P Q (start l) w) : ∃ ts : List T, ∀ t ∉ ts, w.callers t = .idle := by
  induction h with
  | start => exact ⟨[], fun _ _ => rfl⟩
  | @step v a _ he _ ih =>
    obtain ⟨ts, hts⟩ := ih
    cases a with
    | printLog t lv msg =>
      refine ⟨t :: ts, fun u hu => ?_⟩
      obtain ⟨hut, huts⟩ := not_or.mp (List.mem_cons.not.mp hu)
      rw [next, v.printLog_others lv msg hut]
      exact hts u huts
    | caller t now =>
      have hv : v.CallerMoves t (v.callerStep t now) := callerStep_moves he
      refine ⟨t :: ts, fun u hu => ?_⟩
      obtain ⟨hut, huts⟩ := not_or.mp (List.mem_cons.not.mp hu)
      rw [next, hv.others u hut]
      exact hts u huts
    | proc =>
      refine ⟨ts, fun u hu => ?_⟩
      rw [next, (procStep_moves (P := P) he).callers]
      exact hts u hu
    | wake => exact ⟨ts, hts⟩
    | finalise =>
      refine ⟨ts, fun u hu => ?_⟩
      rw [next, (finalStep_moves (P := P) v).callers]
      exact hts u hu

theorem initialise_inited (l : Log) (level : BitVec 32) (hasTime : Bool) :
    (l.initialise level hasTime).mInited = true := by
  unfold Log.initialise
  split
  · assumption
  · rfl

/-- `finalise` ends the log thread in every order of steps in which its signal
is not lost, and where it is lost some order of the steps to come strands it. -/
theorem shutdown_wakes (l : Log) (level : BitVec 32) (hasTime : Bool) :
    (∀ w : LogWorld T, Interleaves P (fun v a => ¬v.Lost a) (start (l.initialise level hasTime)) w →
      ¬w.Stranded) ∧
    ∀ (w : LogWorld T) (a : LogAction T), Shuffles P (start (l.initialise level hasTime)) w →
      w.Free a → w.Lost a → ∃ v, Shuffles P (w.next P a) v ∧ v.Stranded := by
  have hi := initialise_inited l level hasTime
  refine ⟨fun w h => (run_heeded hi h).not_stranded, fun w a h he hlost => ?_⟩
  cases a with
  | finalise =>
    obtain ⟨ts, hts⟩ := run_finite h
    have hdoomed := hlost.doomed (P := P) (run_sequenced hi h)
    refine hdoomed.strands ts fun t ht => ?_
    rw [(finalStep_moves (P := P) w).callers]
    exact hts t ht
  | _ => exact hlost.elim

/-- The log thread tests, `finalise` sets the flag and signals, the log thread waits. -/
def lostSignal : List (LogAction Unit) :=
  List.replicate 3 .proc ++ List.replicate 3 .finalise ++ [.proc]

theorem lostSignal_fires :
    Fires errorPrinter (start (errorLog.initialise ELogLevel.AllLog.toInt true)) lostSignal :=
  ⟨trivial, rfl, trivial, fun _ => rfl, trivial, trivial, trivial, trivial⟩

theorem shutdown_strands :
    ¬∀ w : LogWorld Unit,
      Shuffles errorPrinter (start (errorLog.initialise ELogLevel.AllLog.toInt true)) w →
        ¬w.Stranded := by
  intro h
  refine h _ (Reaches.start.fires lostSignal_fires).shuffles ⟨by decide, ?_, by decide, ?_⟩
  · trivial
  · intro t
    rfl

end LogWorld

end HttpsProxy
