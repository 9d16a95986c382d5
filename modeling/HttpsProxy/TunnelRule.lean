import HttpsProxy.Session

/-! What the methods of a tunnel consist of. A relation that holds over each of
these pieces, and from one to the next, holds over every method. Where it holds
only once a session has been ended altogether, that is one piece. -/
namespace HttpsProxy

/-- The entries of the log a tunnel makes itself. -/
def Ev.isTunnel : Ev → Prop
  | .established _ | .flushing _ | .flushTouched _ | .onClosed _ | .onBroken _ => True
  | _ => False

namespace TunCtx

/-- The room that `onRecv` finds in `mHttpHeader`. -/
def room (m : TunCtx) : ℕ := HTTP_HEADER_SIZE - 1 - strlen m.tun.mHttpHeader

/-- `mHttpHeader` once `onRecv` has taken the chunk `data`. -/
def written (data : Bytes) (m : TunCtx) : Bytes :=
  memcpy (memcpy m.tun.mHttpHeader (strlen m.tun.mHttpHeader) data)
    (strlen m.tun.mHttpHeader + data.length) [0]

/-- `R` holds over what `flushAll` does, with all that a failing `send` comes to. -/
structure FlushRule (R : TunCtx → TunCtx → Prop) : Prop where
  refl (m : TunCtx) : R m m
  trans {m n k : TunCtx} : R m n → R n k → R m k
  send (side : Side) (data : Bytes) (m : TunCtx) : R m (m.put side ((m.ctx side).send data).1)
  cache (c : Cache) (ws : List WriteRes) (m : TunCtx) : R m { m with tun.mLocalCache := c, stdio := ws }
  log (e : Ev) (he : e.isTunnel) (m : TunCtx) : R m (m.log e)
  dangling (m : TunCtx) : R m { m with dangling := true }
  aborted (m : TunCtx) : R m { m with sys.aborted := true }
  onErrorProxy (m : TunCtx) : R m m.onErrorProxy

/-- `R` holds over what a callback does, a method that ends the session being one
piece. -/
structure ReportRule (R : TunCtx → TunCtx → Prop) : Prop extends FlushRule R where
  inputRecv (side : Side) (m : TunCtx) : R m (m.put side (m.ctx side).inputRecv.1)
  inputFinish (side : Side) (m : TunCtx) : R m (m.put side (m.ctx side).inputFinish.1)
  output (side : Side) (m : TunCtx) : R m (m.put side (m.ctx side).handleOutputNotification.1)
  setStatus (st : EProxyStatus) (m : TunCtx) : R m (m.setStatus st)
  restart (m : TunCtx) : R m { m with tun.mHttpHeader := memcpy m.tun.mHttpHeader 0 [0] }
  take (data : Bytes) (m : TunCtx) (h : data.length ≤ m.room) :
    R m { m with tun.mHttpHeader := m.written data }
  dropProxy (m : TunCtx) : R m m.dropProxy
  onErrorLocal (m : TunCtx) : R m m.onErrorLocal
  onDisconnected (side : Side) (m : TunCtx) : R m (m.onDisconnected side)

/-- `R` holds between the states before and after each piece. -/
structure Rule (R : TunCtx → TunCtx → Prop) : Prop where
  refl (m : TunCtx) : R m m
  trans {m n k : TunCtx} : R m n → R n k → R m k
  shutdown (side : Side) (m : TunCtx) : R m (m.shutdown side)
  send (side : Side) (data : Bytes) (m : TunCtx) : R m (m.put side ((m.ctx side).send data).1)
  inputRecv (side : Side) (m : TunCtx) : R m (m.put side (m.ctx side).inputRecv.1)
  inputFinish (side : Side) (m : TunCtx) : R m (m.put side (m.ctx side).inputFinish.1)
  output (side : Side) (m : TunCtx) : R m (m.put side (m.ctx side).handleOutputNotification.1)
  setEventHandler (side : Side) (h : Bool) (m : TunCtx) : R m (m.setEventHandler side h)
  setStatus (st : EProxyStatus) (m : TunCtx) : R m (m.setStatus st)
  cache (c : Cache) (ws : List WriteRes) (m : TunCtx) : R m { m with tun.mLocalCache := c, stdio := ws }
  restart (m : TunCtx) : R m { m with tun.mHttpHeader := memcpy m.tun.mHttpHeader 0 [0] }
  take (data : Bytes) (m : TunCtx) (h : data.length ≤ m.room) :
    R m { m with tun.mHttpHeader := m.written data }
  insertBroken (m : TunCtx) : R m m.insertBroken
  log (e : Ev) (he : e.isTunnel) (m : TunCtx) : R m (m.log e)
  dangling (m : TunCtx) : R m { m with dangling := true }
  aborted (m : TunCtx) : R m { m with sys.aborted := true }

variable {R : TunCtx → TunCtx → Prop}

namespace FlushRule

variable (r : FlushRule R)

include r

/-- A method of a connection followed by the callback it makes. -/
theorem run {o : Owner TunCtx} {side : Side} (hput : o.put = TunCtx.put side)
    (hh : ∀ cb n, R n (o.handler cb n)) {x : Ctx × Option Callback} {m : TunCtx}
    (h : R m (m.put side x.1)) : R m (o.run x m) := by
  unfold Owner.run
  rw [hput]
  split
  · exact h
  · exact r.trans h (hh _ _)

/-- A `send` of one of the connections, which may call `onError`. -/
theorem sends (side : Side) (data : Bytes) {onError : TunCtx → TunCtx} (h : ∀ n, R n (onError n))
    (m : TunCtx) : R m ((errorOwner side onError).run ((m.ctx side).send data) m) := by
  apply r.run (o := errorOwner side onError) rfl
  · intro cb n
    cases cb with
    | onError => exact h n
    | onConnected => exact r.refl n
    | onDisconnected => exact r.refl n
    | onRecv _ => exact r.refl n
  · exact r.send side data m

theorem sendProxy (data : Bytes) (m : TunCtx) : R m (m.sendProxy data) :=
  r.sends .proxy data r.onErrorProxy m

theorem flushLocal (m : TunCtx) : R m m.flushLocal := by
  unfold TunCtx.flushLocal
  split
  · exact cacheHost.flushAll_preserves (P := R m) (fun _ _ => rfl)
      (fun c s hs _ => r.trans hs (r.cache c s.stdio s)) (fun d s hs => r.trans hs (r.sendProxy d s))
      (fun s hs => r.trans hs (r.aborted s))
      (fun s hs => r.trans hs (r.trans (r.log (.flushTouched s.tun.this) trivial s) (r.dangling _)))
      (fun s hs => r.trans hs (r.log (.flushTouched s.tun.this) trivial s)) _
      (r.log (.flushing m.tun.this) trivial m)
  · exact r.refl m

end FlushRule

namespace ReportRule

variable (r : ReportRule R)

include r

theorem onError (side : Side) (m : TunCtx) : R m (m.onError side) := by
  cases side with
  | loc => exact r.onErrorLocal m
  | proxy => exact r.onErrorProxy m

theorem sendLocal (data : Bytes) (m : TunCtx) : R m (m.sendLocal data) :=
  r.sends .loc data r.onErrorLocal m

theorem onConnected (side : Side) (m : TunCtx) : R m (m.onConnected side) := by
  cases side with
  | loc => exact r.aborted m
  | proxy => exact r.trans (r.setStatus .Connecting m) (r.trans (r.restart _) (r.sendProxy _ _))

theorem parseHttpHeader (m : TunCtx) : R m m.parseHttpHeader := by
  unfold TunCtx.parseHttpHeader
  split
  · split
    · exact r.trans (r.trans (r.setStatus .Connected m) (r.log (.established m.tun.this) trivial _))
        (r.flushLocal _)
    · exact r.trans (r.setStatus .Error m) (r.dropProxy _)
  · exact r.refl m

theorem onRecv (side : Side) (data : Bytes) (m : TunCtx) : R m (m.onRecv side data) := by
  cases side with
  | loc =>
    simp only [TunCtx.onRecv]
    split
    · exact r.sendProxy data m
    · exact r.cache _ _ m
  | proxy =>
    simp only [TunCtx.onRecv]
    split
    · split
      · exact r.dropProxy m
      · rename_i hroom
        exact r.trans (r.take data m (not_lt.mp hroom)) (r.parseHttpHeader _)
    · split
      · exact r.dropProxy m
      · exact r.sendLocal data m
    · exact r.dropProxy m

theorem handler (side : Side) (cb : Callback) (m : TunCtx) : R m (TunCtx.handler side cb m) := by
  cases cb with
  | onConnected => exact r.onConnected side m
  | onDisconnected => exact r.onDisconnected side m
  | onRecv data => exact r.onRecv side data m
  | onError => exact r.onError side m

theorem notify (n : Notice) (m : TunCtx) : R m (m.notify n) := by
  cases n with
  | input side =>
    change R m ((owner side).handleInputNotification m)
    unfold Owner.handleInputNotification
    split
    · exact r.refl m
    · have hrecv : R m ((owner side).run (m.ctx side).inputRecv m) :=
        r.run (o := owner side) rfl (fun cb n => r.handler side cb n) (r.inputRecv side m)
      exact r.trans hrecv
        (r.run (o := owner side) rfl (fun cb n => r.handler side cb n) (r.inputFinish side _))
  | output side =>
    exact r.run (o := owner side) rfl (fun cb n => r.handler side cb n) (r.output side m)

end ReportRule

namespace Rule

variable (r : Rule R)

include r

theorem clearCache (m : TunCtx) : R m m.clearCache := r.cache _ m.stdio m

theorem detach (side : Side) (m : TunCtx) : R m (m.detach side) :=
  r.trans (r.setEventHandler side false m) (r.shutdown side _)

theorem cleanup (m : TunCtx) : R m m.cleanup :=
  r.trans (r.trans (r.clearCache m) (r.detach .loc _)) (r.trans (r.setStatus .Closed _) (r.detach .proxy _))

theorem _onClose (m : TunCtx) : R m m._onClose := by
  unfold TunCtx._onClose
  split
  · exact r.trans (r.log (.onClosed m.tun.this) trivial m) (r.trans (r.cleanup _) (r.insertBroken _))
  · exact r.refl m

theorem _onError (m : TunCtx) : R m m._onError := by
  unfold TunCtx._onError
  split
  · exact r.trans (r.log (.onBroken m.tun.this) trivial m) (r.trans (r.cleanup _) (r.insertBroken _))
  · exact r.refl m

theorem flushing : FlushRule R where
  refl := r.refl
  trans := r.trans
  send := r.send
  cache := r.cache
  log := r.log
  dangling := r.dangling
  aborted := r.aborted
  onErrorProxy m := r.trans (r.trans (r.detach .proxy m) (r.clearCache _))
    (r.trans (r.detach .loc _) (r._onError _))

theorem flushLocal (m : TunCtx) : R m m.flushLocal := r.flushing.flushLocal m

theorem onErrorLocal (m : TunCtx) : R m m.onErrorLocal := by
  rw [onErrorLocal_eq]
  exact r.trans (r.trans (r.shutdown .loc m) (r.flushLocal _))
    (r.trans (r.setStatus .Closed _) (r.trans (r.detach .proxy _) (r._onError _)))

theorem onDisconnected (side : Side) (m : TunCtx) : R m (m.onDisconnected side) := by
  cases side with
  | loc =>
    rw [onDisconnected_loc_eq]
    exact r.trans (r.trans (r.shutdown .loc m) (r.flushLocal _))
      (r.trans (r.setStatus .Closed _) (r.trans (r.shutdown .proxy _) (r._onClose _)))
  | proxy =>
    exact r.trans (r.trans (r.shutdown .proxy m) (r.clearCache _))
      (r.trans (r.shutdown .loc _) (r._onClose _))

theorem reporting : ReportRule R where
  toFlushRule := r.flushing
  inputRecv := r.inputRecv
  inputFinish := r.inputFinish
  output := r.output
  setStatus := r.setStatus
  restart := r.restart
  take := r.take
  dropProxy m := r.trans (r.setEventHandler .proxy false m) (r._onError _)
  onErrorLocal := r.onErrorLocal
  onDisconnected := r.onDisconnected

theorem notify (n : Notice) (m : TunCtx) : R m (m.notify n) := r.reporting.notify n m

theorem dialing (y : Ctx) (m : TunCtx) : R (m.put .loc y) (m.dialing y) :=
  r.trans (r.setEventHandler .loc true _) (r.trans (r.setStatus .Closed _) (r.setEventHandler .proxy true _))

/-- `acceptLocal` from where the connection to the client is open, for a relation
that holds over the `connect` it makes. -/
theorem dials (connfd : ℤ) {m : TunCtx} {y : Ctx} (hr : (m.ctx .loc).acceptConnection connfd = (true, y))
    (hconn : R (m.dialing y) ((m.dialing y).put .proxy
      (((m.dialing y).ctx .proxy).connect (m.dialing y).tun.mProxySvrAddr).2.1)) :
    R (m.put .loc y) (m.acceptLocal connfd).2 := by
  have hrun := r.trans (r.dialing y m) (r.flushing.run (o := owner .proxy) rfl
    (fun cb n => r.reporting.handler .proxy cb n) hconn)
  rw [acceptLocal_of_opened connfd hr]
  unfold dial
  simp only
  split
  · exact r.trans hrun (r.trans (r.setEventHandler .loc false _)
      (r.trans (r.shutdown .loc _) (r.setEventHandler .proxy false _)))
  · exact hrun

/-- `acceptLocal`, for a relation that holds over the two ways of opening a
connection as well. -/
theorem acceptLocal (connfd : ℤ) {m : TunCtx}
    (hacc : R m (m.put .loc ((m.ctx .loc).acceptConnection connfd).2))
    (hconn : ∀ n : TunCtx, n.tun.mProxySvrAddr = m.tun.mProxySvrAddr →
      R n (n.put .proxy ((n.ctx .proxy).connect n.tun.mProxySvrAddr).2.1)) :
    R m (m.acceptLocal connfd).2 := by
  cases hr : (m.ctx .loc).acceptConnection connfd with
  | mk ok y =>
    rw [hr] at hacc
    cases ok with
    | false =>
      rw [acceptLocal_of_failed connfd hr]
      exact hacc
    | true => exact r.trans hacc (r.dials connfd hr (hconn (m.dialing y) rfl))

/-- `onAccept`, for a relation that holds over its own pieces as well. -/
theorem onAccept (cfg : Config) (connfd : ℤ) {m : TunCtx} (hconf : R m (m.configured cfg))
    (hclose : ∀ n, R n (n.log (.close connfd))) (hhandler : ∀ n, R n { n with tun.mHandler := true })
    (hacc : ∀ n, R n (n.put .loc ((n.ctx .loc).acceptConnection connfd).2))
    (hconn : ∀ n : TunCtx, n.tun.mProxySvrAddr = (m.configured cfg).tun.mProxySvrAddr →
      R n (n.put .proxy ((n.ctx .proxy).connect n.tun.mProxySvrAddr).2.1)) :
    R m (m.onAccept cfg connfd).2 := by
  have hlocal : R m ((m.configured cfg).acceptLocal connfd).2 :=
    r.trans hconf (r.acceptLocal connfd (hacc _) hconn)
  rw [onAccept_eq]
  split
  · exact r.trans hconf (hclose _)
  · simp only
    split
    · exact r.trans hlocal (hhandler _)
    · exact r.trans hlocal (r.trans (hclose _) (r.insertBroken _))

end Rule

end TunCtx

end HttpsProxy
