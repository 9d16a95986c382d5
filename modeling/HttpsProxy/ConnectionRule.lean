import HttpsProxy.Connection

/-! What the methods of `Connection` consist of, but for the two that open it. A
relation that holds over each of these pieces, and from one to the next, holds over
every method. -/
namespace HttpsProxy

/-- The entries of the log a connection makes itself. -/
def Ev.isCall : Ev → Prop
  | .sendCall _ _ | .onConnected _ | .onDisconnected _ | .onRecv _ _ | .onError _ _ => True
  | _ => False

namespace Ctx

open Connection

/-- `R` holds between the states before and after each piece. -/
structure Rule (R : Ctx → Ctx → Prop) : Prop where
  refl (x : Ctx) : R x x
  trans {x y z : Ctx} : R x y → R y z → R x z
  regRead (x : Ctx) : R x x.tryRegReadEvent
  unregRead (x : Ctx) : R x x.tryUnregReadEvent
  regWrite (x : Ctx) : R x x.tryRegWriteEvent
  unregWrite (x : Ctx) : R x x.tryUnregWriteEvent
  setStatus (st : EConnStatus) (x : Ctx) : R x (x.setStatus st)
  packets (ps : List TcpPacket) (x : Ctx) : R x { x with conn.mTcpPacketList := ps }
  log (e : Ev) (he : e.isCall) (x : Ctx) : R x (x.log e)
  sysSend (c : ConnId) (data : Bytes) (x : Ctx) : R x { x with sys := (x.sys.send c data).2 }
  sysRecv (c : ConnId) (maxlen room : ℕ) (x : Ctx) : R x { x with sys := (x.sys.recv c maxlen room).2 }
  sockError (c : ConnId) (x : Ctx) : R x { x with sys := (x.sys.sockError c).2 }
  aborted (x : Ctx) : R x { x with sys.aborted := true }

namespace Rule

variable {R : Ctx → Ctx → Prop} (r : Rule R)

include r

theorem flushPackets (c : ConnId) (ps : List TcpPacket) (x : Ctx) :
    R x { x with sys := (Ctx.flushPackets c ps x.sys).2 } := by
  induction ps generalizing x with
  | nil => exact r.refl x
  | cons p ps ih =>
    unfold Ctx.flushPackets
    split
    · exact r.aborted x
    · have hsend := r.sysSend c p.rest x
      simp only
      split
      · exact r.trans hsend (ih _)
      · exact hsend

theorem tryFlushRemainPacket (x : Ctx) : R x x.tryFlushRemainPacket.2 := by
  unfold Ctx.tryFlushRemainPacket
  split
  · exact r.refl x
  · have hflush := r.trans (r.flushPackets x.conn.this x.conn.mTcpPacketList x)
      (r.packets (Ctx.flushPackets x.conn.this x.conn.mTcpPacketList x.sys).1 _)
    simp only
    split
    · exact r.trans hflush (r.unregWrite _)
    · exact hflush

theorem raiseError (b : Caller) (x : Ctx) : R x (x.raiseError b).1 :=
  r.trans (r.unregRead x) (r.trans (r.unregWrite _) (r.log (.onError _ b) trivial _))

theorem checkSocketErrors (b : Caller) (x : Ctx) : R x (x.checkSocketErrors b).2.1 := by
  unfold Ctx.checkSocketErrors
  split
  · exact r.refl x
  · split
    · exact r.raiseError b x
    · exact r.refl x

theorem sendRest (rest : Bytes) (x : Ctx) : R x (x.sendRest rest).1 := by
  have herrors := r.checkSocketErrors .send x
  simp only [Ctx.sendRest]
  split
  · exact herrors
  · exact r.trans herrors (r.trans (r.packets _ _) (r.regWrite _))

theorem send (data : Bytes) (x : Ctx) : R x (x.send data).1 := by
  have hlog := r.log (.sendCall x.conn.this data) trivial x
  simp only [Ctx.send]
  generalize x.log (.sendCall x.conn.this data) = u at hlog ⊢
  split
  · exact hlog
  split
  · exact hlog
  have hflush := r.trans hlog (r.tryFlushRemainPacket u)
  split
  · have hsent := r.trans hflush (r.sysSend u.tryFlushRemainPacket.2.conn.this data u.tryFlushRemainPacket.2)
    split
    · exact hsent
    · exact r.trans hsent (r.sendRest _ _)
  · exact r.trans hflush (r.sendRest _ _)

theorem recvLoop (c : ConnId) (rs : List RecvRes) (buf : Bytes) (cap : ℕ) (x : Ctx) :
    R x { x with sys := (Ctx.recvLoop c rs buf cap x.sys).2.2 } := by
  induction rs generalizing buf cap x with
  | nil => exact r.sysRecv c MAXLEN (cap - buf.length) x
  | cons a rs ih =>
    have hrecv := r.sysRecv c MAXLEN (cap - buf.length) x
    unfold Ctx.recvLoop
    cases hs : x.sys.recv c MAXLEN (cap - buf.length) with
    | mk got s =>
      rw [hs] at hrecv
      cases got with
      | none => exact hrecv
      | some bs =>
        simp only
        split
        · split
          · exact hrecv
          · exact r.trans hrecv (ih _ _ _)
        · exact hrecv

theorem inputRecv (x : Ctx) : R x x.inputRecv.1 := by
  have hread := r.trans (r.recvLoop x.conn.this x.sys.env.recvs [] MAXLEN x)
    (r.setStatus ((Ctx.recvLoop x.conn.this x.sys.env.recvs [] MAXLEN x.sys).2.1.getD x.conn.mConnStatus) _)
  simp only [Ctx.inputRecv]
  split
  · exact r.trans hread (r.log (.onRecv _ _) trivial _)
  · exact hread

theorem inputFinish (x : Ctx) : R x x.inputFinish.1 := by
  unfold Ctx.inputFinish
  split
  · split
    · exact r.raiseError .input x
    · split
      · exact r.trans (r.unregRead x) (r.trans (r.unregWrite _) (r.log (.onDisconnected _) trivial _))
      · exact r.refl x
  · exact r.refl x

theorem handleOutputNotification (x : Ctx) : R x x.handleOutputNotification.1 := by
  simp only [Ctx.handleOutputNotification]
  split
  · have hasked := r.trans (r.unregWrite x) (r.sockError x.tryUnregWriteEvent.conn.this _)
    split
    · have hstatus := r.trans hasked (r.setStatus .Error _)
      split
      · exact r.trans hstatus (r.raiseError .output _)
      · exact hstatus
    · have hopen := r.trans hasked (r.trans (r.regRead _) (r.setStatus .Connected _))
      split
      · exact r.trans hopen (r.log (.onConnected _) trivial _)
      · exact hopen
  · split
    · exact r.trans (r.tryFlushRemainPacket x) (r.checkSocketErrors .output _)
    · exact r.refl x

end Rule

end Ctx

end HttpsProxy
