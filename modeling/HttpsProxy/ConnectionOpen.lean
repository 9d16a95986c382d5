import HttpsProxy.ConnectionSpec

/-! The two ways of opening a connection. Each either opens it on a descriptor
of its own or leaves it closed, as it was before but for the descriptor. -/
namespace HttpsProxy

/-- The entries of the log that opening a connection makes. -/
def Ev.isSetup : Ev → Prop
  | .opened _ _ | .connect _ _ _ | .close _ => True
  | _ => False

theorem Ev.isSetup.isNote {e : Ev} (h : e.isSetup) : e.isNote := by
  cases e <;> first | exact trivial | exact h.elim

/-- From `s` to `t` the log grew by the opening of a connection. -/
def Setup (s t : Sys) : Prop := ∃ evs, t.trace = s.trace ++ evs ∧ ∀ e ∈ evs, e.isSetup

namespace Setup

theorem of_eq {s t : Sys} (h : t.trace = s.trace) : Setup s t := Extends.of_eq h

theorem trans {s t u : Sys} (h : Setup s t) (k : Setup t u) : Setup s u := Extends.trans h k

theorem entry {s t : Sys} {e : Ev} (h : t.trace = s.trace ++ [e]) (he : e.isSetup) : Setup s t :=
  Extends.entry h he

theorem noted {s t : Sys} (h : Setup s t) : Noted s t := Extends.mono h fun _ => Ev.isSetup.isNote

end Setup

namespace Sys

theorem fcntl_trace (s : Sys) : s.fcntl.2.trace = s.trace := by
  unfold fcntl
  cases s.env.fcntls.headD .ok <;> rfl

theorem setNonblocking_trace (s : Sys) : s.setNonblocking.2.trace = s.trace := by
  unfold setNonblocking
  simp only
  split
  · exact s.fcntl_trace
  · split <;> exact s.fcntl.2.fcntl_trace.trans s.fcntl_trace

theorem socket_trace (s : Sys) : s.socket.2.trace = s.trace := by
  unfold socket
  cases s.env.sockets.headD (.fail (.other 0)) <;> rfl

/-- `socket` fails with -1 and with nothing else. -/
theorem socket_fd (s : Sys) : 0 ≤ s.socket.1 ∨ s.socket.1 = -1 := by
  unfold socket
  cases s.env.sockets.headD (.fail (.other 0)) with
  | fd n => exact Or.inl (Int.natCast_nonneg n)
  | fail e => exact Or.inr rfl

theorem connect_trace (c : ConnId) (sa : SockAddr) (s : Sys) :
    ∃ r, (s.connect c sa).2.trace = s.trace ++ [.connect c sa r] := by
  unfold connect
  cases s.env.connects.headD (.fail .EINPROGRESS) <;> exact ⟨_, rfl⟩

end Sys

/-- What `acceptConnection` can do. -/
inductive AcceptSpec (connfd : ℤ) (x : Ctx) : Bool × Ctx → Prop where
  | inUse (fd : 0 ≤ x.conn.mFd) : AcceptSpec connfd x (false, x)
  | failed (y : Ctx) (fd : x.conn.mFd < 0) (conn : y.conn = { x.conn with mFd := -1 })
      (log : Setup x.sys y.sys) : AcceptSpec connfd x (false, y)
  | opened (y : Ctx) (fd : x.conn.mFd < 0)
      (conn : y.conn =
        { x.conn with mFd := connfd, mbRegForRead := true, mConnStatus := .Connected })
      (log : Setup x.sys y.sys) : AcceptSpec connfd x (true, y)

/-- What `connect` can do on a closed connection. -/
inductive ConnectSpec (x : Ctx) : Bool × Ctx × Option Callback → Prop where
  | failed (y : Ctx) (conn : y.conn = { x.conn with mFd := -1 }) (log : Setup x.sys y.sys) :
      ConnectSpec x (false, y, none)
  | connecting (y : Ctx) (fd : ℤ) (hfd : 0 ≤ fd)
      (conn : y.conn =
        { x.conn with mFd := fd, mbRegForWrite := true, mConnStatus := .Connecting })
      (log : Setup x.sys y.sys) : ConnectSpec x (true, y, none)
  | connected (y : Ctx) (fd : ℤ) (hfd : 0 ≤ fd)
      (conn : y.conn =
        { x.conn with mFd := fd, mbRegForRead := true, mConnStatus := .Connected })
      (log : Setup x.sys y.sys) :
      ConnectSpec x (true, if x.conn.mHandler then y.log (.onConnected x.conn.this) else y,
        if x.conn.mHandler then some .onConnected else none)

namespace Ctx

/-- `connect` once `::connect` has succeeded. -/
def established (x : Ctx) : Bool × Ctx × Option Callback :=
  let x := x.tryRegReadEvent.setStatus .Connected
  if x.conn.mHandler then (true, x.log (.onConnected x.conn.this), some .onConnected)
  else (true, x, none)

/-- `connect` from the call of `::connect` on. -/
def dial (sa : SockAddr) (x : Ctx) : Bool × Ctx × Option Callback :=
  let (ok, s) := x.sys.connect x.conn.this sa
  let x := { x with sys := s }
  if ok then x.established
  else if x.sys.errno = .EINPROGRESS then
    (true, (x.setStatus .Connecting).tryRegWriteEvent, none)
  else (false, x.closeFd, none)

theorem connect_closed (sa : SockAddr) (x : Ctx) (hx : x.conn.mFd < 0) : x.connect sa =
    let (fd, s) := x.sys.socket
    let x : Ctx := ⟨{ x.conn with mFd := fd }, s⟩
    if fd < 0 then (false, x, none)
    else
      let x := x.log (.opened x.conn.this fd)
      let (ok, s) := x.sys.setNonblocking
      let x := { x with sys := s }
      if !ok then (false, x.closeFd, none) else x.dial sa := by
  unfold connect
  rw [if_neg (not_le.mpr hx), if_neg (not_le.mpr hx)]
  rfl

theorem acceptConnection_spec (connfd : ℤ) (x : Ctx) :
    AcceptSpec connfd x (x.acceptConnection connfd) := by
  by_cases hfd : 0 ≤ x.conn.mFd
  · rw [acceptConnection, if_pos hfd]
    exact .inUse hfd
  let y := { x with conn.mFd := connfd }.log (.opened x.conn.this connfd)
  have hy : Setup x.sys y.sys := .entry rfl trivial
  have hs : Setup x.sys y.sys.setNonblocking.2 := hy.trans (.of_eq y.sys.setNonblocking_trace)
  cases hn : y.sys.setNonblocking with
  | mk ok s =>
    rw [hn] at hs
    cases ok with
    | false =>
      have ha : x.acceptConnection connfd = (false, Ctx.closeFd ⟨y.conn, s⟩) := by
        simp [acceptConnection, hfd, y] at hn ⊢
        simp [hn]
      rw [ha]
      exact .failed _ (not_le.mp hfd) rfl (hs.trans (.entry rfl trivial))
    | true =>
      have ha : x.acceptConnection connfd =
          (true, (Ctx.mk y.conn s).tryRegReadEvent.setStatus .Connected) := by
        simp [acceptConnection, hfd, y] at hn ⊢
        simp [hn]
      rw [ha]
      refine .opened _ (not_le.mp hfd) ?_ (hs.trans (.of_eq ?_))
      · simp [setStatus, y, log]
      · simp [setStatus]

/-- An open connection is shut down first. -/
theorem connect_of_open (sa : SockAddr) (x : Ctx) (hx : 0 ≤ x.conn.mFd) :
    x.shutdown.conn.mFd < 0 ∧ x.connect sa = x.shutdown.connect sa := by
  have hfd : x.shutdown.conn.mFd = -1 := by rw [shutdown_conn x hx]
  exact ⟨by omega, by simp [connect, hx, hfd]⟩

/-- From the call of `::connect` on, for the connection `y` that `x` has opened. -/
theorem dial_spec (sa : SockAddr) {x y : Ctx} (hfd : 0 ≤ y.conn.mFd)
    (hconn : y.conn = { x.conn with mFd := y.conn.mFd }) (hlog : Setup x.sys y.sys) :
    ConnectSpec x (y.dial sa) := by
  obtain ⟨r, hr⟩ := y.sys.connect_trace y.conn.this sa
  have hs : Setup x.sys (y.sys.connect y.conn.this sa).2 := hlog.trans (.entry hr trivial)
  unfold dial
  simp only
  generalize y.sys.connect y.conn.this sa = done at hs
  split
  · -- connected at once: `onConnected` is called if there is a handler
    let z := (Ctx.mk y.conn done.2).tryRegReadEvent.setStatus .Connected
    have hz : z.conn =
        { x.conn with mFd := y.conn.mFd, mbRegForRead := true, mConnStatus := .Connected } := by
      simp only [z, setStatus, tryRegReadEvent_conn]
      rw [hconn]
    have hzl : Setup x.sys z.sys := hs.trans (.of_eq (by simp [z, setStatus]))
    have hc := ConnectSpec.connected z y.conn.mFd hfd hz hzl
    unfold established
    cases hh : x.conn.mHandler <;> simpa [hh, hz, z] using hc
  split
  · refine .connecting _ y.conn.mFd hfd ?_ (hs.trans (.of_eq ?_))
    · simp only [setStatus, tryRegWriteEvent_conn]
      rw [hconn]
    · simp [setStatus]
  · refine .failed _ ?_ (hs.trans (.entry rfl trivial))
    simp only [closeFd]
    rw [hconn]

theorem connect_spec (sa : SockAddr) (x : Ctx) (hx : x.conn.mFd < 0) :
    ConnectSpec x (x.connect sa) := by
  have hsock := x.sys.socket_fd
  have htr := x.sys.socket_trace
  rw [connect_closed sa x hx]
  generalize x.sys.socket = opened at hsock htr
  simp only
  split
  · rename_i hneg
    exact .failed _ (by rw [hsock.resolve_left (not_le.mpr hneg)]) (.of_eq htr)
  rename_i hpos
  let y := (Ctx.mk { x.conn with mFd := opened.1 } opened.2).log (.opened x.conn.this opened.1)
  have hy : Setup x.sys y.sys := (Setup.of_eq htr).trans (.entry rfl trivial)
  have hs : Setup x.sys y.sys.setNonblocking.2 := hy.trans (.of_eq y.sys.setNonblocking_trace)
  split
  · exact .failed _ rfl (hs.trans (.entry rfl trivial))
  · exact dial_spec sa (y := { y with sys := y.sys.setNonblocking.2 }) (not_lt.mp hpos) rfl hs

end Ctx

end HttpsProxy
