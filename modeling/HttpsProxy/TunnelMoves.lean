import HttpsProxy.ConnectionMoves
import HttpsProxy.TunnelRule

/-! The methods of a tunnel as chains of steps of its two connections. Between
them a tunnel does much that concerns neither a descriptor nor a registration,
nor who it is. -/
namespace HttpsProxy

theorem Ev.isTunnel.not_isFd {e : Ev} (he : e.isTunnel) : ¬e.isFd := by
  intro hfd
  cases e <;> first | exact he | exact hfd

namespace TunCtx

/-- From `m` to `n` nothing happens that concerns descriptors or registrations. -/
structure Beside (m n : TunCtx) : Prop where
  reg : ∀ side, SameReg (m.conn side) (n.conn side)
  sys : m.sys.Aside n.sys
  this : n.tun.this = m.tun.this
  user : n.tun.mUsername = m.tun.mUsername

/-- One step of one of the connections, which may take over a descriptor of `F`,
or a step beside. -/
inductive Move (F : ℤ → Prop) (m : TunCtx) : TunCtx → Prop where
  | conn (side : Side) (x : Ctx) (step : Ctx.Move F (m.ctx side) x) : Move F m (m.put side x)
  | beside (n : TunCtx) (h : Beside m n) : Move F m n

def Moves (F : ℤ → Prop) : TunCtx → TunCtx → Prop := Relation.ReflTransGen (Move F)

variable {F : ℤ → Prop}

theorem Moves.refl (m : TunCtx) : Moves F m m := Relation.ReflTransGen.refl

theorem Moves.trans {m n k : TunCtx} (h : Moves F m n) (l : Moves F n k) : Moves F m k :=
  Relation.ReflTransGen.trans h l

theorem Move.moves {m n : TunCtx} (h : Move F m n) : Moves F m n := Relation.ReflTransGen.single h

theorem moves_beside {m n : TunCtx} (h : Beside m n) : Moves F m n := Move.moves (.beside n h)

theorem Moves.mono {G : ℤ → Prop} (hFG : ∀ fd, F fd → G fd) {m n : TunCtx} (h : Moves F m n) :
    Moves G m n := by
  induction h with
  | refl => exact .refl m
  | tail _ hstep ih =>
    refine ih.trans ?_
    cases hstep with
    | conn side x step => exact Move.moves (.conn side x (step.mono hFG))
    | beside _ h => exact moves_beside h

/-- What a method of a connection does, done to the tunnel it is part of. -/
theorem moves_put {m : TunCtx} {side : Side} {x : Ctx} (h : Ctx.Moves F (m.ctx side) x) :
    Moves F m (m.put side x) := by
  induction h with
  | refl =>
    rw [put_ctx]
    exact .refl m
  | @tail y z _ hstep ih =>
    have hctx : (m.put side y).ctx side = y := by cases side <;> rfl
    have hput : (m.put side y).put side z = m.put side z := by cases side <;> rfl
    have hnext : Move F (m.put side y) ((m.put side y).put side z) :=
      .conn side z (by rw [hctx]; exact hstep)
    rw [hput] at hnext
    exact ih.trans hnext.moves

/-- The rule for a state predicate that every step keeps. -/
theorem Moves.keeps {P : TunCtx → Prop} {m n : TunCtx} (h : Moves F m n)
    (step : ∀ u v, Move F u v → P u → P v) (hm : P m) : P n := by
  induction h with
  | refl => exact hm
  | tail _ hstep ih => exact step _ _ hstep ih

section Methods

variable (m : TunCtx)

/-- Changes of the fields a tunnel has besides its connections. -/
theorem moves_of_conn {m n : TunCtx} (conn : ∀ side, n.conn side = m.conn side) (sys : m.sys.Aside n.sys)
    (this : n.tun.this = m.tun.this) (user : n.tun.mUsername = m.tun.mUsername) : Moves F m n :=
  moves_beside ⟨fun side => by rw [conn side]; exact .refl _, sys, this, user⟩

theorem setEventHandler_moves (side : Side) (b : Bool) : Moves F m (m.setEventHandler side b) := by
  refine moves_beside ⟨fun s => ?_, ?_, ?_, ?_⟩
  · cases side <;> cases s <;> exact ⟨rfl, rfl, rfl, rfl⟩
  · cases side <;> exact .refl _
  · cases side <;> rfl
  · cases side <;> rfl

/-- What a tunnel does with its connections, once they are open. -/
theorem moves_rule : Rule (Moves F) where
  refl := .refl
  trans h k := h.trans k
  shutdown side m := moves_put (m.ctx side).shutdown_moves
  send side data m := moves_put (Ctx.moves_rule.send data (m.ctx side))
  inputRecv side m := moves_put (Ctx.moves_rule.inputRecv (m.ctx side))
  inputFinish side m := moves_put (Ctx.moves_rule.inputFinish (m.ctx side))
  output side m := moves_put (Ctx.moves_rule.handleOutputNotification (m.ctx side))
  setEventHandler side b m := m.setEventHandler_moves side b
  setStatus st m := moves_of_conn (fun side => conn_setStatus m side st) (.refl _) rfl rfl
  cache _ _ m := moves_of_conn (fun side => by cases side <;> rfl) (.refl _) rfl rfl
  restart m := moves_of_conn (fun side => by cases side <;> rfl) (.refl _) rfl rfl
  take _ m _ := moves_of_conn (fun side => by cases side <;> rfl) (.refl _) rfl rfl
  insertBroken m := moves_of_conn (fun side => conn_insertBroken m side) (.refl _) rfl rfl
  log e he m := moves_of_conn (fun side => conn_log m side e) (.entry rfl rfl he.not_isFd) rfl rfl
  dangling m := moves_of_conn (fun side => by cases side <;> rfl) (.refl _) rfl rfl
  aborted m := moves_of_conn (fun side => by cases side <;> rfl) (.of_eq rfl rfl) rfl rfl

/-- No notification opens a descriptor. -/
theorem notify_moves (n : Notice) : Moves F m (m.notify n) := moves_rule.notify n m

/-- `acceptLocal` once the connection to the client is open: it takes over the
descriptor `socket` returns to it. -/
theorem acceptLocal_dials (connfd : ℤ) (h : m.Shut) {y : Ctx}
    (hr : (m.ctx .loc).acceptConnection connfd = (true, y)) :
    Moves (· = m.sys.socket.1) (m.put .loc y) (m.acceptLocal connfd).2 := by
  have hsock := Sys.socket_congr ((m.ctx .loc).acceptConnection_sockets connfd)
  have hp := (h .proxy).toDead
  rw [hr] at hsock
  let n := m.dialing y
  have hconn := (Ctx.connect_moves n.tun.mProxySvrAddr (n.ctx .proxy) hp.fd hp.read hp.write).mono
    (G := fun fd => fd = m.sys.socket.1) fun fd h => h.trans hsock
  exact moves_rule.dials connfd hr (moves_put hconn)

/-- `acceptLocal` takes over the descriptor it is given and the one `socket`
returns to it. -/
theorem acceptLocal_moves (connfd : ℕ) (h : m.Shut) :
    Moves (fun fd => fd = (connfd : ℤ) ∨ fd = m.sys.socket.1) m (m.acceptLocal connfd).2 := by
  have hacc := (Ctx.acceptConnection_moves connfd (m.ctx .loc)
    fun _ => ⟨(h .loc).read, (h .loc).write⟩).mono
    (G := fun fd => fd = (connfd : ℤ) ∨ fd = m.sys.socket.1) fun fd h => Or.inl h
  cases hr : (m.ctx .loc).acceptConnection connfd with
  | mk ok y =>
    rw [hr] at hacc
    have hy : Moves _ m (m.put .loc y) := moves_put hacc
    cases ok with
    | false =>
      rw [acceptLocal_of_failed connfd hr]
      exact hy
    | true => exact hy.trans ((m.acceptLocal_dials connfd h hr).mono fun fd h => Or.inr h)

theorem configured_moves (cfg : Config) : Moves F m (m.configured cfg) := by
  have hbeside : Beside m (m.configured cfg) := by
    unfold configured setProxyServer
    cases cfg.pton cfg.mProxyIp <;>
      exact ⟨fun side => by cases side <;> exact ⟨rfl, rfl, rfl, rfl⟩, .refl _, rfl, rfl⟩
  exact moves_beside hbeside

end Methods

end TunCtx

end HttpsProxy
