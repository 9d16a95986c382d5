import HttpsProxy.ConnectionOpen
import HttpsProxy.ConnectionRule
import Mathlib.Logic.Relation

/-! What the methods of `Connection` do to the descriptor and to the two
registrations, as a chain of few kinds of steps. Everything else they do is
aside from it. -/
namespace HttpsProxy

/-- A descriptor is taken over, or closed. -/
def Ev.isFd : Ev → Prop
  | .opened _ _ | .close _ => True
  | _ => False

theorem Ev.isCall.not_isFd {e : Ev} (he : e.isCall) : ¬e.isFd := by
  intro hfd
  cases e <;> first | exact he | exact hfd

/-- From `s` to `t` no registration has changed, and no descriptor. -/
structure Sys.Aside (s t : Sys) : Prop where
  poller : t.poller = s.poller
  log : ∃ evs, t.trace = s.trace ++ evs ∧ ∀ e ∈ evs, ¬e.isFd

namespace Sys.Aside

theorem of_eq {s t : Sys} (hp : t.poller = s.poller) (ht : t.trace = s.trace) : s.Aside t :=
  ⟨hp, Extends.of_eq ht⟩

theorem refl (s : Sys) : s.Aside s := of_eq rfl rfl

theorem trans {s t u : Sys} (h : s.Aside t) (k : t.Aside u) : s.Aside u :=
  ⟨k.poller.trans h.poller, Extends.trans h.log k.log⟩

/-- One more entry of the log. -/
theorem entry {s t : Sys} {e : Ev} (hp : t.poller = s.poller) (ht : t.trace = s.trace ++ [e])
    (he : ¬e.isFd) : s.Aside t :=
  ⟨hp, Extends.entry ht he⟩

end Sys.Aside

theorem Sys.Aside.extends {s t : Sys} (h : s.Aside t) : s.trace <+: t.trace := by
  obtain ⟨evs, ht, -⟩ := h.log
  exact ⟨evs, ht.symm⟩

namespace Sys

theorem send_aside (c : ConnId) (data : Bytes) (s : Sys) : s.Aside (s.send c data).2 := by
  unfold send
  cases s.env.sends.headD (.fail .EAGAIN) <;> exact .entry rfl rfl id

theorem recv_aside (c : ConnId) (maxlen room : ℕ) (s : Sys) : s.Aside (s.recv c maxlen room).2 := by
  unfold recv
  cases s.env.recvs.headD (.fail .EAGAIN) <;> exact .entry rfl rfl id

theorem sockError_aside (c : ConnId) (s : Sys) : s.Aside (s.sockError c).2 := by
  unfold sockError
  cases s.env.sockopts.headD .ok <;> exact .entry rfl rfl id

theorem fcntl_aside (s : Sys) : s.Aside s.fcntl.2 := by
  unfold fcntl
  cases s.env.fcntls.headD .ok <;> exact .of_eq rfl rfl

theorem setNonblocking_aside (s : Sys) : s.Aside s.setNonblocking.2 := by
  unfold setNonblocking
  simp only
  split
  · exact s.fcntl_aside
  · split <;> exact s.fcntl_aside.trans s.fcntl.2.fcntl_aside

theorem socket_aside (s : Sys) : s.Aside s.socket.2 := by
  unfold socket
  cases s.env.sockets.headD (.fail (.other 0)) <;> exact .of_eq rfl rfl

theorem connect_aside (c : ConnId) (sa : SockAddr) (s : Sys) : s.Aside (s.connect c sa).2 := by
  unfold connect
  cases s.env.connects.headD (.fail .EINPROGRESS) <;> exact .entry rfl rfl id

/-- The answer of `socket` depends on its script alone. -/
theorem socket_congr {s t : Sys} (h : t.env.sockets = s.env.sockets) : t.socket.1 = s.socket.1 := by
  unfold socket
  rw [h]
  cases s.env.sockets.headD (.fail (.other 0)) <;> rfl

theorem setNonblocking_sockets (s : Sys) : s.setNonblocking.2.env.sockets = s.env.sockets := by
  have hf : ∀ u : Sys, u.fcntl.2.env.sockets = u.env.sockets := fun u => by
    unfold fcntl
    cases u.env.fcntls.headD .ok <;> rfl
  unfold setNonblocking
  simp only
  split
  · exact hf s
  · split <;> exact (hf _).trans (hf s)

end Sys

/-- The same descriptor and the same registrations. -/
structure SameReg (c d : Connection) : Prop where
  this : d.this = c.this
  fd : d.mFd = c.mFd
  read : d.mbRegForRead = c.mbRegForRead
  write : d.mbRegForWrite = c.mbRegForWrite

theorem SameReg.refl (c : Connection) : SameReg c c := ⟨rfl, rfl, rfl, rfl⟩

/-- An attempt to open a connection that fails: no descriptor is obtained, or
the one obtained is closed again. -/
def Refusal (F : ℤ → Prop) (c : ConnId) (evs : List Ev) : Prop :=
  (∀ e ∈ evs, ¬e.isFd) ∨
    ∃ fd es, 0 ≤ fd ∧ F fd ∧ evs = .opened c fd :: (es ++ [.close fd]) ∧ ∀ e ∈ es, ¬e.isFd

/-- One step of a connection that may take over descriptors of `F`. It is opened
and closed only without registrations. -/
inductive Ctx.Move (F : ℤ → Prop) (x : Ctx) : Ctx → Prop where
  | aside (y : Ctx) (reg : SameReg x.conn y.conn) (sys : x.sys.Aside y.sys) : Move F x y
  | regRead : Move F x x.tryRegReadEvent
  | unregRead : Move F x x.tryUnregReadEvent
  | regWrite : Move F x x.tryRegWriteEvent
  | unregWrite : Move F x x.tryUnregWriteEvent
  | closed (fd : 0 ≤ x.conn.mFd) (read : x.conn.mbRegForRead = false)
      (write : x.conn.mbRegForWrite = false) : Move F x x.closeFd
  | opened (fd : ℤ) (hfd : 0 ≤ fd) (free : F fd) (down : x.conn.mFd < 0)
      (read : x.conn.mbRegForRead = false) (write : x.conn.mbRegForWrite = false) :
      Move F x (Ctx.log (.opened x.conn.this fd) { x with conn.mFd := fd })
  | refused (y : Ctx) (down : x.conn.mFd < 0) (conn : y.conn = { x.conn with mFd := -1 })
      (poller : y.sys.poller = x.sys.poller)
      (log : ∃ evs, y.sys.trace = x.sys.trace ++ evs ∧ Refusal F x.conn.this evs) : Move F x y

def Ctx.Moves (F : ℤ → Prop) : Ctx → Ctx → Prop := Relation.ReflTransGen (Ctx.Move F)

namespace Ctx

open Connection

variable {F : ℤ → Prop}

theorem Moves.refl (x : Ctx) : Moves F x x := Relation.ReflTransGen.refl

theorem Moves.trans {x y z : Ctx} (h : Moves F x y) (k : Moves F y z) : Moves F x z :=
  Relation.ReflTransGen.trans h k

theorem Move.moves {x y : Ctx} (h : Move F x y) : Moves F x y := Relation.ReflTransGen.single h

theorem Move.mono {G : ℤ → Prop} (hFG : ∀ fd, F fd → G fd) {x y : Ctx} (h : Move F x y) :
    Move G x y := by
  cases h with
  | aside _ reg sys => exact .aside _ reg sys
  | regRead => exact .regRead
  | unregRead => exact .unregRead
  | regWrite => exact .regWrite
  | unregWrite => exact .unregWrite
  | closed fd read write => exact .closed fd read write
  | opened fd hfd free down read write => exact .opened fd hfd (hFG fd free) down read write
  | refused _ down conn poller log =>
    refine .refused _ down conn poller ?_
    obtain ⟨evs, ht, hp | ⟨fd, es, hfd, free, he⟩⟩ := log
    · exact ⟨evs, ht, Or.inl hp⟩
    · exact ⟨evs, ht, Or.inr ⟨fd, es, hfd, hFG fd free, he⟩⟩

theorem Moves.mono {G : ℤ → Prop} (hFG : ∀ fd, F fd → G fd) {x y : Ctx} (h : Moves F x y) :
    Moves G x y := by
  induction h with
  | refl => exact .refl x
  | tail _ hstep ih => exact ih.trans (hstep.mono hFG).moves

theorem Move.extends {x y : Ctx} (h : Move F x y) : x.sys.trace <+: y.sys.trace := by
  cases h with
  | aside _ _ sys => exact sys.extends
  | regRead => rw [(tryRegReadEvent_sys x).2.2.1]
  | unregRead => rw [(tryUnregReadEvent_sys x).2.2.1]
  | regWrite => rw [(tryRegWriteEvent_sys x).2.2.1]
  | unregWrite => rw [(tryUnregWriteEvent_sys x).2.2.1]
  | closed => exact List.prefix_append _ _
  | opened => exact List.prefix_append _ _
  | refused _ _ _ _ log =>
    obtain ⟨evs, ht, -⟩ := log
    exact ⟨evs, ht.symm⟩

/-- The log only grows. -/
theorem Moves.extends {x y : Ctx} (h : Moves F x y) : x.sys.trace <+: y.sys.trace := by
  induction h with
  | refl => exact List.prefix_refl _
  | tail _ hstep ih => exact ih.trans hstep.extends

theorem moves_aside {x y : Ctx} (reg : SameReg x.conn y.conn) (sys : x.sys.Aside y.sys) :
    Moves F x y :=
  Move.moves (.aside y reg sys)

/-- A step of the surroundings. -/
theorem moves_sys {x : Ctx} {s : Sys} (h : x.sys.Aside s) : Moves F x { x with sys := s } :=
  moves_aside (SameReg.refl _) h

theorem moves_log (x : Ctx) {e : Ev} (he : ¬e.isFd) : Moves F x (x.log e) :=
  moves_sys (.entry rfl rfl he)

theorem moves_setStatus (x : Ctx) (st : EConnStatus) : Moves F x (x.setStatus st) :=
  moves_aside ⟨rfl, rfl, rfl, rfl⟩ (.refl _)

/-- An attempt to open a closed connection that fails. -/
theorem moves_refused {x y : Ctx} {evs : List Ev} (down : x.conn.mFd < 0)
    (conn : y.conn = { x.conn with mFd := -1 }) (poller : y.sys.poller = x.sys.poller)
    (trace : y.sys.trace = x.sys.trace ++ evs) (h : Refusal F x.conn.this evs) : Moves F x y :=
  Move.moves (.refused y down conn poller ⟨evs, trace, h⟩)

theorem shutdown_moves (x : Ctx) : Moves F x x.shutdown := by
  by_cases h : x.conn.mFd < 0
  · rw [shutdown_of_closed x h]
    exact .refl x
  let y := x.tryUnregWriteEvent.tryUnregReadEvent
  have hy : Moves F x y := (Move.unregWrite).moves.trans (Move.unregRead).moves
  have hc : Move F y y.closeFd := by
    refine .closed ?_ ?_ ?_ <;> simp [y, not_lt.mp h]
  have hs : x.shutdown = { y.closeFd.setStatus .Closed with conn.mTcpPacketList := [] } := by
    simp only [shutdown, if_neg h, y]
  rw [hs]
  exact hy.trans (hc.moves.trans (moves_aside ⟨rfl, rfl, rfl, rfl⟩ (.refl _)))

/-- What finds a connection open does no more to it than to register and to
unregister it. -/
theorem moves_rule : Rule (Moves F) where
  refl := .refl
  trans h k := h.trans k
  regRead _ := (Move.regRead).moves
  unregRead _ := (Move.unregRead).moves
  regWrite _ := (Move.regWrite).moves
  unregWrite _ := (Move.unregWrite).moves
  setStatus st x := moves_setStatus x st
  packets _ _ := moves_aside ⟨rfl, rfl, rfl, rfl⟩ (.refl _)
  log _ he x := moves_log x he.not_isFd
  sysSend c data x := moves_sys (x.sys.send_aside c data)
  sysRecv c maxlen room x := moves_sys (x.sys.recv_aside c maxlen room)
  sockError c x := moves_sys (x.sys.sockError_aside c)
  aborted _ := moves_sys (.of_eq rfl rfl)

theorem extends_rule : Rule fun x y => x.sys.trace <+: y.sys.trace where
  refl _ := List.prefix_refl _
  trans h k := h.trans k
  regRead x := by rw [(tryRegReadEvent_sys x).2.2.1]
  unregRead x := by rw [(tryUnregReadEvent_sys x).2.2.1]
  regWrite x := by rw [(tryRegWriteEvent_sys x).2.2.1]
  unregWrite x := by rw [(tryUnregWriteEvent_sys x).2.2.1]
  setStatus _ _ := List.prefix_refl _
  packets _ _ := List.prefix_refl _
  log _ _ _ := List.prefix_append _ _
  sysSend c data x := (x.sys.send_aside c data).extends
  sysRecv c maxlen room x := (x.sys.recv_aside c maxlen room).extends
  sockError c x := (x.sys.sockError_aside c).extends
  aborted _ := List.prefix_refl _

/-- The only descriptor `acceptConnection` takes over is the one it is given. -/
theorem acceptConnection_moves (connfd : ℕ) (x : Ctx)
    (hreg : x.conn.mFd < 0 → x.conn.mbRegForRead = false ∧ x.conn.mbRegForWrite = false) :
    Moves (· = (connfd : ℤ)) x (x.acceptConnection connfd).2 := by
  unfold acceptConnection
  split
  · exact .refl x
  rename_i hx
  let y := Ctx.log (.opened x.conn.this connfd) { x with conn.mFd := (connfd : ℤ) }
  have hs := y.sys.setNonblocking_aside
  simp only
  split
  · -- the descriptor is closed again
    obtain ⟨hp, es, ht, he⟩ := hs
    refine moves_refused (not_le.mp hx) rfl hp ?_
      (Or.inr ⟨connfd, es, Int.natCast_nonneg connfd, rfl, rfl, he⟩)
    change y.sys.setNonblocking.2.trace ++ [.close connfd] = _
    rw [ht]
    simp [y, log, Sys.log]
  · have hy : Moves (· = (connfd : ℤ)) x y :=
      Move.moves (.opened connfd (Int.natCast_nonneg connfd) rfl (not_le.mp hx)
        (hreg (not_le.mp hx)).1 (hreg (not_le.mp hx)).2)
    exact hy.trans ((moves_sys hs).trans ((Move.regRead).moves.trans (moves_setStatus _ .Connected)))

theorem acceptConnection_sockets (connfd : ℤ) (x : Ctx) :
    (x.acceptConnection connfd).2.sys.env.sockets = x.sys.env.sockets := by
  unfold acceptConnection
  split
  · rfl
  · have hs := (Ctx.log (.opened x.conn.this connfd) { x with conn.mFd := connfd }).sys.setNonblocking_sockets
    simp only
    split
    · exact hs
    · exact (congrArg Env.sockets (tryRegReadEvent_sys _).2.1).trans hs

theorem established_moves (x : Ctx) : Moves F x x.established.2.1 := by
  have hc : Moves F x (x.tryRegReadEvent.setStatus .Connected) :=
    (Move.regRead).moves.trans (moves_setStatus _ .Connected)
  simp only [established]
  split
  · exact hc.trans (moves_log _ id)
  · exact hc

/-- `connect` takes over the descriptor `socket` returns, if any. -/
theorem connect_moves (sa : SockAddr) (x : Ctx) (hx : x.conn.mFd < 0)
    (read : x.conn.mbRegForRead = false) (write : x.conn.mbRegForWrite = false) :
    Moves (· = x.sys.socket.1) x (x.connect sa).2.1 := by
  have hsock := x.sys.socket_aside
  rw [connect_closed sa x hx]
  simp only
  split
  · rename_i hneg
    have hfd : x.sys.socket.1 = -1 := x.sys.socket_fd.resolve_left (not_le.mpr hneg)
    obtain ⟨hp, es, ht, he⟩ := hsock
    exact moves_refused hx (by simp only [hfd]) hp ht (Or.inl he)
  rename_i hpos
  have hfd : 0 ≤ x.sys.socket.1 := not_lt.mp hpos
  let z : Ctx := { x with sys := x.sys.socket.2 }
  let y := Ctx.log (.opened x.conn.this x.sys.socket.1) { z with conn.mFd := x.sys.socket.1 }
  have hz : Moves (· = x.sys.socket.1) x z := moves_sys hsock
  have hn := y.sys.setNonblocking_aside
  -- whatever fails from here on, the new descriptor is closed again
  have hrefuse : ∀ s : Sys, y.sys.Aside s →
      Moves (· = x.sys.socket.1) x (Ctx.closeFd { y with sys := s }) := by
    rintro s ⟨hp, es, ht, he⟩
    refine hz.trans (moves_refused hx rfl hp ?_ (Or.inr ⟨_, es, hfd, rfl, rfl, he⟩))
    change s.trace ++ [.close x.sys.socket.1] = _
    rw [ht]
    simp [y, z, log, Sys.log]
  split
  · exact hrefuse _ hn
  have hy : Moves (· = x.sys.socket.1) x { y with sys := y.sys.setNonblocking.2 } :=
    hz.trans ((show Moves (· = x.sys.socket.1) z y from Move.moves (.opened _ hfd rfl hx read write)).trans
      (moves_sys hn))
  have hc := y.sys.setNonblocking.2.connect_aside x.conn.this sa
  have hd : Moves (· = x.sys.socket.1) x
      { y with sys := (y.sys.setNonblocking.2.connect x.conn.this sa).2 } :=
    hy.trans (moves_sys hc)
  simp only [dial]
  split
  · exact hd.trans (established_moves _)
  split
  · exact hd.trans ((moves_setStatus _ .Connecting).trans (Move.regWrite).moves)
  · exact hrefuse _ (hn.trans hc)

end Ctx

end HttpsProxy
