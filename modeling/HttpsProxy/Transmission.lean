import HttpsProxy.ConnectionErrors
import HttpsProxy.ConnectionMoves

/-! A connected connection that is given data and told when its socket takes
more: between what has been passed to it and what its socket has taken there is
the queue, and nothing else. -/
namespace HttpsProxy

/-- What the rest of the process leaves for a call, and the answers it gets. -/
structure Surroundings where
  errno : Errno
  env : Env
  poller : SelectPoller Watcher

inductive Transmit where
  | send (data : Bytes)
  | handleOutputNotification

/-- The data a call passes to the connection. -/
def Transmit.data : Transmit → Bytes
  | .send data => data
  | .handleOutputNotification => []

namespace Ctx

def within (u : Surroundings) (x : Ctx) : Ctx :=
  { x with sys := { x.sys with errno := u.errno, env := u.env, poller := u.poller } }

def transmit (x : Ctx) (a : Surroundings × Transmit) : Ctx :=
  match a.2 with
  | .send data => ((x.within a.1).send data).1
  | .handleOutputNotification => (x.within a.1).handleOutputNotification.1

/-- An error of `c` has been reported in the entries `evs`. -/
def Reports (c : ConnId) (evs : List Ev) : Prop := ∃ b, .onError c b ∈ evs

/-- From `x` to `y` the connection has stayed connected, and of what it had to
send and what it was passed on top nothing is missing. -/
structure Conserves (x y : Ctx) (data : Bytes) : Prop where
  link : SameLink x.conn y.conn
  bytes : accepted x.conn.this (news x.sys y.sys) ++ y.conn.pending = x.conn.pending ++ data

theorem transmit_extends (x : Ctx) (a : Surroundings × Transmit) :
    x.sys.trace <+: (x.transmit a).sys.trace := by
  unfold transmit
  cases a.2 with
  | send data => exact extends_rule.send data (x.within a.1)
  | handleOutputNotification => exact extends_rule.handleOutputNotification (x.within a.1)

theorem foldl_transmit_extends (x : Ctx) (as : List (Surroundings × Transmit)) :
    x.sys.trace <+: (as.foldl transmit x).sys.trace := by
  induction as generalizing x with
  | nil => exact List.prefix_refl _
  | cons a as ih => exact (x.transmit_extends a).trans (ih _)

theorem news_trans {s t u : Sys} (h : s.trace <+: t.trace) (k : t.trace <+: u.trace) :
    news s u = news s t ++ news t u := by
  obtain ⟨es, ht⟩ := h
  obtain ⟨fs, hu⟩ := k
  rw [news_eq ht.symm, news_eq hu.symm]
  exact news_eq (by rw [← hu, ← ht, List.append_assoc])

/-- One call: it conserves the bytes, or it reports an error. -/
theorem transmit_conserves (x : Ctx) (fd : 0 ≤ x.conn.mFd) (status : x.conn.mConnStatus = .Connected)
    (handler : x.conn.mHandler = true) (a : Surroundings × Transmit) :
    Reports x.conn.this (news x.sys (x.transmit a).sys) ∨ Conserves x (x.transmit a) a.2.data := by
  -- an error reported by `z` ends the log of the call
  have hreport : ∀ (y z : Ctx) (b : Caller) (bs : Bytes) (s : Sys),
      (y, some Callback.onError) = z.raiseError b → z.conn.this = x.conn.this →
      x.sys.trace <+: s.trace → Wire x.conn.this s z.sys bs → Reports x.conn.this (news x.sys y.sys) := by
    rintro y z b bs s eq hthis ⟨es, hs⟩ ⟨fs, hz, -⟩
    have ht := (z.raiseError_spec b).2.2.2.2.1
    rw [← eq] at ht
    refine ⟨b, ?_⟩
    rw [news_eq (show y.sys.trace = x.sys.trace ++ (es ++ fs ++ [.onError x.conn.this b]) by
      rw [show y.sys.trace = _ from ht, hz, ← hs, hthis]; simp)]
    simp
  obtain ⟨u, t⟩ := a
  cases t with
  | send data =>
    have hlog : x.sys.trace <+: ((x.within u).sys.log (.sendCall x.conn.this data)).trace :=
      List.prefix_append _ _
    have hspec := send_spec data (x.within u)
    change Reports _ (news x.sys ((x.within u).send data).1.sys) ∨ Conserves x ((x.within u).send data).1 data
    generalize (x.within u).send data = r at hspec
    obtain ⟨y, cb⟩ := r
    cases hspec with
    | refused why => exact absurd why (not_or.mpr ⟨not_lt.mpr fd, not_not.mpr status⟩)
    | unheard _ _ _ hno => exact absurd (hno.symm.trans handler) (by simp)
    | kept bs _ _ link wire bytes =>
      obtain ⟨evs, ht, -, hacc⟩ := wire
      refine Or.inr ⟨link, ?_⟩
      rw [news_eq (show y.sys.trace = x.sys.trace ++ (.sendCall x.conn.this data :: evs) by
        rw [ht]; simp [Sys.log, within])]
      exact (congrArg (· ++ y.conn.pending) hacc).trans bytes
    | failed z bs _ _ link wire _ _ eq =>
      exact Or.inl (hreport y z .send bs _ eq link.this hlog wire)
  | handleOutputNotification =>
    have hspec := (x.within u).handleOutputNotification_spec handler
    change Reports _ (news x.sys (x.within u).handleOutputNotification.1.sys) ∨
      Conserves x (x.within u).handleOutputNotification.1 []
    generalize (x.within u).handleOutputNotification = r at hspec
    obtain ⟨y, cb⟩ := r
    cases hspec with
    | idle hst => exact absurd status hst.2
    | refused _ _ hst => exact absurd (status.symm.trans hst) (by simp)
    | connected hst => exact absurd (status.symm.trans hst) (by simp)
    | flushed bs _ link wire bytes =>
      obtain ⟨evs, ht, -, hacc⟩ := wire
      refine Or.inr ⟨link, ?_⟩
      rw [news_eq (show y.sys.trace = x.sys.trace ++ evs from ht), List.append_nil]
      exact (congrArg (· ++ y.conn.pending) hacc).trans bytes
    | failed z bs _ link wire _ _ eq =>
      exact Or.inl (hreport y z .output bs _ eq link.this (List.prefix_refl _) wire)

/-- As long as no error is reported, what the socket has taken and what is
queued are what was queued before and what has been passed since. -/
theorem transmission_conserved (x : Ctx) (fd : 0 ≤ x.conn.mFd)
    (status : x.conn.mConnStatus = .Connected) (handler : x.conn.mHandler = true)
    (as : List (Surroundings × Transmit))
    (calm : ¬Reports x.conn.this (news x.sys (as.foldl transmit x).sys)) :
    accepted x.conn.this (news x.sys (as.foldl transmit x).sys) ++ (as.foldl transmit x).conn.pending =
      x.conn.pending ++ as.flatMap fun a => a.2.data := by
  induction as generalizing x with
  | nil => simp [news]
  | cons a as ih =>
    rw [List.foldl_cons] at calm ⊢
    have hnews := news_trans (x.transmit_extends a) ((x.transmit a).foldl_transmit_extends as)
    rw [hnews] at calm ⊢
    -- a step that reports is excluded, the others keep the connection and account for the bytes
    rcases x.transmit_conserves fd status handler a with ⟨b, hb⟩ | ⟨link, bytes⟩
    · exact absurd ⟨b, List.mem_append_left _ hb⟩ calm
    have hrest := ih (x.transmit a) (by rw [link.fd]; exact fd) (link.status.trans status)
      (link.handler.trans handler) (by
        rintro ⟨b, hb⟩
        exact calm ⟨b, List.mem_append_right _ (link.this ▸ hb)⟩)
    rw [link.this] at hrest
    -- accepted by this step, accepted by the rest, and pending at the end
    calc
      _ = accepted x.conn.this (news x.sys (x.transmit a).sys) ++
          (accepted x.conn.this (news (x.transmit a).sys (as.foldl transmit (x.transmit a)).sys) ++
            (as.foldl transmit (x.transmit a)).conn.pending) := by
        rw [accepted_append, List.append_assoc]
      _ = accepted x.conn.this (news x.sys (x.transmit a).sys) ++ (x.transmit a).conn.pending ++
          as.flatMap (fun a => a.2.data) := by rw [hrest, List.append_assoc]
      _ = _ := by rw [bytes, List.flatMap_cons, List.append_assoc]

/-- The socket takes two bytes, then none, then the first packet and half of
the second. -/
def shortWrites : List (Surroundings × Transmit) :=
  [(⟨.EAGAIN, { sends := [.sent 2] }, .new⟩, .send [1, 2, 3]),
    (⟨.EAGAIN, { sends := [.fail .EAGAIN] }, .new⟩, .send [4, 5]),
    (⟨.EAGAIN, { sends := [.sent 1, .sent 1] }, .new⟩, .handleOutputNotification)]

def connectedCtx : Ctx := ⟨⟨⟨0, .loc⟩, 5, .Connected, true, true, false, []⟩, ⟨.EAGAIN, {}, .new, [], false⟩⟩

theorem transmission_conserved_short :
    accepted ⟨0, .loc⟩ (news connectedCtx.sys (shortWrites.foldl transmit connectedCtx).sys) = [1, 2, 3, 4] ∧
      accepted ⟨0, .loc⟩ (news connectedCtx.sys (shortWrites.foldl transmit connectedCtx).sys) ++
        (shortWrites.foldl transmit connectedCtx).conn.pending = [1, 2, 3, 4, 5] :=
  ⟨by rfl, transmission_conserved connectedCtx (by decide) rfl rfl shortWrites
    (by rintro ⟨b, hb⟩; cases b <;> exact absurd hb (by decide +kernel))⟩

end Ctx

end HttpsProxy
