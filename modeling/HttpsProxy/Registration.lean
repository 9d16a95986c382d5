import HttpsProxy.ConnectionInvariant
import HttpsProxy.Watching

/-! Whether a connection and the poller it is attached to agree on its
registrations. The caller of `registerForRead` and `registerForWrite` does not
look at the answer, and the poller refuses what does not fit in an `fd_set`. -/
namespace HttpsProxy

open Ctx

/-- Every descriptor that `accept` or `socket` returned for this call is below
`FD_SETSIZE`. -/
def ThreadStep.Fits (s : Connections) : ThreadStep → Prop
  | .call c m env => ∀ fd, 0 ≤ fd → m.Takes (s.ctx c env) fd → fd < FD_SETSIZE
  | .elsewhere _ => True

/-- No descriptor that `accept` or `socket` returned for this call is in use by
another connection. -/
def ThreadStep.Fresh (s : Connections) : ThreadStep → Prop
  | .call c m env => ∀ fd, 0 ≤ fd → m.Takes (s.ctx c env) fd → ∀ d, d ≠ c → (s.conn d).mFd ≠ fd
  | .elsewhere _ => True

/-- The call was an attempt to open the connection, and it returned true. -/
def ConnCall.Returned (x : Ctx) : ConnCall → Prop
  | .acceptConnection connfd => (x.acceptConnection connfd).1 = true
  | .connect sa => (x.connect sa).1 = true
  | _ => False

/-- An open connection takes itself for registered. -/
theorem ConnCall.Returned.reg {m : ConnCall} {x : Ctx} (h : m.Returned x) (hm : m.Valid) :
    0 ≤ (m.run x).1.conn.mFd ∧ ∃ i, (m.run x).1.conn.reg i = true := by
  cases m with
  | acceptConnection connfd =>
    have hs := x.acceptConnection_spec connfd
    have hok : (x.acceptConnection connfd).1 = true := h
    simp only [run]
    generalize x.acceptConnection connfd = r at hs hok
    cases hs with
    | inUse => cases hok
    | failed => cases hok
    | opened y _ hc _ => exact ⟨by rw [hc]; exact hm, .read, by rw [hc]; rfl⟩
  | connect sa =>
    have hclosed : ∀ y : Ctx, y.conn.mFd < 0 → (y.connect sa).1 = true →
        0 ≤ (y.connect sa).2.1.conn.mFd ∧ ∃ i, (y.connect sa).2.1.conn.reg i = true := by
      intro y hy hok
      have hs := y.connect_spec sa hy
      generalize y.connect sa = r at hs hok
      cases hs with
      | failed => cases hok
      | connecting z fd hfd hc _ => exact ⟨by rw [hc]; exact hfd, .write, by rw [hc]; rfl⟩
      | connected z fd hfd hc _ =>
        have hz : (if y.conn.mHandler then z.log (.onConnected y.conn.this) else z).conn = z.conn := by
          split <;> rfl
        simp only
        rw [hz, hc]
        exact ⟨hfd, .read, rfl⟩
    by_cases hfd : x.conn.mFd < 0
    · exact hclosed x hfd h
    · obtain ⟨hc, he⟩ := x.connect_of_open sa (not_lt.mp hfd)
      simp only [run, he]
      exact hclosed x.shutdown hc (he ▸ show (x.connect sa).1 = true from h)
  | setEventHandler => exact h.elim
  | shutdown => exact h.elim
  | send => exact h.elim
  | inputRecv => exact h.elim
  | inputFinish => exact h.elim
  | handleOutputNotification => exact h.elim

namespace Connections

theorem new_agreed (e : Errno) : Agreed (new e).conn (new e).sys.poller where
  sound := SelectPoller.new_sound
  held i fd d h := by cases i <;> cases h
  called i d h := by cases i <;> cases h
  apart c d h := absurd h (by simp [new, Connection.new])
  conns i fd w h := by cases i <;> cases h
  small d h := absurd h (by simp [new, Connection.new])

theorem step_agreed {s : Connections} (h : s.Regular) (ha : Agreed s.conn s.sys.poller) {a : ThreadStep}
    (valid : a.Valid) (fresh : a.Fresh s) (fits : a.Fits s) :
    Agreed (s.step a).conn (s.step a).sys.poller := by
  cases a with
  | elsewhere e => exact ha
  | call c m env =>
    have hnext := ha.moves (x := s.ctx c env) rfl (h.this c)
      (fun fd hf hpos => ⟨fits fd hpos hf, fresh fd hpos hf⟩) (m.run_moves valid _ (h.conn c))
    have hconn : (s.step (.call c m env)).conn =
        Function.update s.conn c (m.run (s.ctx c env)).1.conn := by
      funext d
      by_cases hd : d = c
      · subst hd
        simp [step]
      · simp [step, hd]
    rw [hconn]
    exact hnext

/-- The agreement in every state of a run whose descriptors fit. -/
theorem run_agreed (e : Errno) (steps : List ThreadStep) (valid : ∀ a ∈ steps, a.Valid)
    (fresh : ∀ pre a post, steps = pre ++ a :: post → a.Fresh (run e pre))
    (fits : ∀ pre a post, steps = pre ++ a :: post → a.Fits (run e pre)) :
    Agreed (run e steps).conn (run e steps).sys.poller := by
  induction steps using List.reverseRecOn with
  | nil => exact new_agreed e
  | append_singleton steps a ih =>
    have hv : ∀ b ∈ steps, b.Valid := fun b hb => valid b (List.mem_append_left _ hb)
    have hprev := ih hv (fun pre b post hs => fresh pre b (post ++ [a]) (by rw [hs]; simp))
      fun pre b post hs => fits pre b (post ++ [a]) (by rw [hs]; simp)
    have hr : (run e steps).Regular := foldl_step_regular (new_regular e) hv
    have hlast := step_agreed hr hprev (valid a (List.mem_append_right _ (List.mem_singleton.mpr rfl)))
      (fresh steps a [] rfl) (fits steps a [] rfl)
    rw [run, List.foldl_append]
    exact hlast

/-- As long as all descriptors fit in an `fd_set`, each connection and the
poller agree on what the connection is registered for, and a connection that
has just been opened will be notified. -/
theorem registration_agrees (e : Errno) (steps : List ThreadStep) (valid : ∀ a ∈ steps, a.Valid)
    (fresh : ∀ pre a post, steps = pre ++ a :: post → a.Fresh (run e pre))
    (fits : ∀ pre a post, steps = pre ++ a :: post → a.Fits (run e pre)) (c : ConnId) :
    let s := run e steps
    ((s.conn c).mbRegForRead = true ↔ s.sys.poller.findForRead (s.conn c).mFd = some (.conn c)) ∧
      ((s.conn c).mbRegForWrite = true ↔ s.sys.poller.findForWrite (s.conn c).mFd = some (.conn c)) ∧
      ∀ pre m env, steps = pre ++ [.call c m env] → m.Returned ((run e pre).ctx c env) →
        s.sys.poller.findForRead (s.conn c).mFd = some (.conn c) ∨
          s.sys.poller.findForWrite (s.conn c).mFd = some (.conn c) := by
  intro s
  have h : s.Regular := foldl_step_regular (new_regular e) valid
  have ha : Agreed s.conn s.sys.poller := run_agreed e steps valid fresh fits
  -- a registered connection has a descriptor
  have hfd : ∀ i, (s.conn c).reg i = true → 0 ≤ (s.conn c).mFd := fun i hi => by
    by_contra hneg
    obtain ⟨-, hr, hw, -⟩ := (h.conn c).clean (not_le.mp hneg)
    cases i
    exacts [absurd (hr.symm.trans hi) (by simp), absurd (hw.symm.trans hi) (by simp)]
  have hiff : ∀ i, (s.conn c).reg i = true ↔ s.sys.poller.find i (s.conn c).mFd = some (.conn c) :=
    fun i => ⟨fun hi => ha.called i c hi (hfd i hi), fun hi => (ha.held i _ c hi).2⟩
  refine ⟨hiff .read, hiff .write, ?_⟩
  rintro pre m env rfl hret
  have hm : m.Valid := valid _ (List.mem_append_right _ (List.mem_singleton.mpr rfl))
  obtain ⟨-, i, hi⟩ := hret.reg hm
  have hs : s.conn c = (m.run ((run e pre).ctx c env)).1.conn := by
    simp [s, run, step]
  rw [← hs] at hi
  cases i
  exacts [Or.inl ((hiff .read).mp hi), Or.inr ((hiff .write).mp hi)]

/-- The steps of a run of one call. -/
theorem split_single {α : Type} {x a : α} {pre post : List α} (h : [x] = pre ++ a :: post) :
    pre = [] ∧ a = x := by
  cases pre with
  | nil => exact ⟨rfl, (List.cons.inj h).1.symm⟩
  | cons b pre => exact absurd (List.cons.inj h).2 (by simp)

theorem accept_fresh (c : ConnId) (connfd : ℤ) (env : Env) (e : Errno) :
    (ThreadStep.call c (.acceptConnection connfd) env).Fresh (new e) := by
  rintro fd hpos - d -
  simp only [new, Connection.new]
  omega

/-- The greatest descriptor that fits. -/
def lastFit : List ThreadStep := [.call ⟨0, .loc⟩ (.acceptConnection 1023) {}]

/-- The least that does not. -/
def firstMisfit : List ThreadStep := [.call ⟨0, .loc⟩ (.acceptConnection 1024) {}]

theorem registration_agrees_last :
    ((run (.other 0) lastFit).conn ⟨0, .loc⟩).mbRegForRead = true ∧
      (((run (.other 0) lastFit).conn ⟨0, .loc⟩).mbRegForRead = true ↔
        (run (.other 0) lastFit).sys.poller.findForRead
          ((run (.other 0) lastFit).conn ⟨0, .loc⟩).mFd = some (.conn ⟨0, .loc⟩)) := by
  refine ⟨by rfl, (registration_agrees (.other 0) lastFit ?_ ?_ ?_ ⟨0, .loc⟩).1⟩
  · simp [lastFit, ThreadStep.Valid, ConnCall.Valid]
  · intro pre a post hs
    obtain ⟨rfl, rfl⟩ := split_single hs
    exact accept_fresh ⟨0, .loc⟩ _ {} (.other 0)
  · intro pre a post hs
    obtain ⟨rfl, rfl⟩ := split_single hs
    rintro fd - rfl
    decide

/-- A connection that takes itself for registered with a poller that will never
notify it. -/
theorem registration_lost : ¬∀ (e : Errno) (steps : List ThreadStep), (∀ a ∈ steps, a.Valid) →
    (∀ pre a post, steps = pre ++ a :: post → a.Fresh (run e pre)) → ∀ c : ConnId,
      (((run e steps).conn c).mbRegForRead = true ↔
        (run e steps).sys.poller.findForRead ((run e steps).conn c).mFd = some (.conn c)) := by
  intro h
  have hfresh : ∀ pre a post, firstMisfit = pre ++ a :: post → a.Fresh (run (.other 0) pre) := by
    intro pre a post hs
    obtain ⟨rfl, rfl⟩ := split_single hs
    exact accept_fresh ⟨0, .loc⟩ _ {} (.other 0)
  have hiff := h (.other 0) firstMisfit (by simp [firstMisfit, ThreadStep.Valid, ConnCall.Valid])
    hfresh ⟨0, .loc⟩
  have hfound := hiff.mp (by rfl)
  revert hfound
  decide +kernel

end Connections

end HttpsProxy
