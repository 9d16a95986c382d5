import HttpsProxy.ProxyTunnel
import HttpsProxy.CacheSpec
import HttpsProxy.ConnectionSpec

/-! Every way in which a tunnel gives up a session ends with both connections
closed, unregistered, empty and detached and with an empty cache, and adds
nothing to the traffic. -/
namespace HttpsProxy

namespace Connection

/-- A connection without descriptor holds nothing: not connected, not
registered, no packet. -/
def Clean (c : Connection) : Prop :=
  c.mFd < 0 → c.mConnStatus = .Closed ∧ c.mbRegForRead = false ∧ c.mbRegForWrite = false ∧
    c.mTcpPacketList = []

/-- Closed and clean. -/
structure Dead (c : Connection) : Prop where
  fd : c.mFd < 0
  status : c.mConnStatus = .Closed
  read : c.mbRegForRead = false
  write : c.mbRegForWrite = false
  queue : c.mTcpPacketList = []

/-- Closed, clean and without handler. -/
structure Down (c : Connection) : Prop extends Dead c where
  handler : c.mHandler = false

theorem Dead.clean {c : Connection} (h : c.Dead) : c.Clean :=
  fun _ => ⟨h.status, h.read, h.write, h.queue⟩

theorem clean_of_open {c : Connection} (h : 0 ≤ c.mFd) : c.Clean :=
  fun hn => absurd hn (not_lt.mpr h)

theorem new_down (this : ConnId) : (Connection.new this).Down :=
  ⟨⟨by simp [Connection.new], rfl, rfl, rfl, rfl⟩, rfl⟩

end Connection

/-- The entries of the log that are no traffic and no step of the protocol. -/
def Ev.isQuiet : Ev → Prop
  | .close _ | .onClosed _ | .onBroken _ | .onError _ _ => True
  | _ => False

theorem Ev.isQuiet.isNote {e : Ev} (h : e.isQuiet) : e.isNote := by
  cases e <;> first | exact trivial | exact h.elim

/-- What identifies a tunnel and its request; no method of the session changes it. -/
structure TunKey where
  this : TunId
  loc : ConnId
  proxy : ConnId
  request : Bytes

def TunCtx.key (m : TunCtx) : TunKey :=
  ⟨m.tun.this, m.tun.mLocalConn.this, m.tun.mProxyConn.this, m.tun.connectRequest⟩

/-- From `m` to `m'` the log grew by quiet entries only. -/
structure Quiet (m m' : TunCtx) : Prop where
  key : m'.key = m.key
  log : ∃ evs, m'.sys.trace = m.sys.trace ++ evs ∧ ∀ e ∈ evs, e.isQuiet

theorem Quiet.noted {m m' : TunCtx} (h : Quiet m m') : Noted m.sys m'.sys :=
  Extends.mono h.log fun _ => Ev.isQuiet.isNote

theorem Quiet.refl (m : TunCtx) : Quiet m m := ⟨rfl, [], by simp, by simp⟩

theorem Quiet.trans {m n k : TunCtx} (h : Quiet m n) (l : Quiet n k) : Quiet m k :=
  ⟨l.key.trans h.key, Extends.trans h.log l.log⟩

/-- Quiet entries leave every account of the traffic alone. -/
theorem quiet_traffic (c : ConnId) {evs : List Ev} (h : ∀ e ∈ evs, e.isQuiet) :
    accepted c evs = [] ∧ received c evs = [] ∧ passed c evs = [] ∧ chunks c evs = [] :=
  note_traffic c fun e hm => Ev.isQuiet.isNote (h e hm)

namespace Ctx

/-- `shutdown` of a clean connection, open or not. -/
theorem shutdown_spec (x : Ctx) (hc : x.conn.Clean) :
    x.shutdown.conn.Dead ∧ x.shutdown.conn.this = x.conn.this ∧
      x.shutdown.conn.mHandler = x.conn.mHandler ∧
      ∃ evs, x.shutdown.sys.trace = x.sys.trace ++ evs ∧ ∀ e ∈ evs, e.isQuiet := by
  by_cases h : x.conn.mFd < 0
  · rw [shutdown_of_closed x h]
    obtain ⟨h1, h2, h3, h4⟩ := hc h
    exact ⟨⟨h, h1, h2, h3, h4⟩, rfl, rfl, [], by simp, by simp⟩
  · have h' := not_lt.mp h
    rw [shutdown_conn x h']
    refine ⟨⟨by simp, rfl, rfl, rfl, rfl⟩, rfl, rfl, [.close x.conn.mFd],
      (shutdown_sys x h').2.2.1, ?_⟩
    simp [Ev.isQuiet]

end Ctx

namespace TunCtx

section Conn

variable (m : TunCtx) (side : Side)

@[simp] theorem conn_log (e : Ev) : (m.log e).conn side = m.conn side := by cases side <;> rfl

@[simp] theorem conn_setStatus (st : EProxyStatus) : (m.setStatus st).conn side = m.conn side := by
  cases side <;> rfl

@[simp] theorem conn_clearCache : m.clearCache.conn side = m.conn side := by cases side <;> rfl

@[simp] theorem conn_insertBroken : m.insertBroken.conn side = m.conn side := by
  cases side <;> rfl

@[simp] theorem conn_put (x : Ctx) : (m.put side x).conn side = x.conn := by cases side <;> rfl

@[simp] theorem conn_put_other (x : Ctx) : (m.put side x).conn side.other = m.conn side.other := by
  cases side <;> rfl

end Conn

/-- Neither connection breaks the invariant of `Connection.Clean`. -/
def Tidy (m : TunCtx) : Prop := ∀ side, (m.conn side).Clean

/-- Both connections are down. -/
def Shut (m : TunCtx) : Prop := ∀ side, (m.conn side).Down

theorem Shut.tidy {m : TunCtx} (h : m.Shut) : m.Tidy := fun side => (h side).toDead.clean

theorem Tidy.put_open {m : TunCtx} (h : m.Tidy) (side : Side) {x : Ctx} (hfd : 0 ≤ x.conn.mFd) :
    (m.put side x).Tidy := by
  have hx := Connection.clean_of_open hfd
  intro s
  cases side <;> cases s
  exacts [hx, h .proxy, h .loc, hx]

/-- From `m` to `n` only the connection `side` changed, and the log grew quietly. -/
structure Touches (side : Side) (m n : TunCtx) : Prop extends Quiet m n where
  other : n.conn side.other = m.conn side.other
  mHandler : n.tun.mHandler = m.tun.mHandler
  mProxyStatus : n.tun.mProxyStatus = m.tun.mProxyStatus
  mLocalCache : n.tun.mLocalCache = m.tun.mLocalCache

variable (m : TunCtx)

theorem shutdown_spec (side : Side) (h : (m.conn side).Clean) :
    ((m.shutdown side).conn side).Dead ∧ Touches side m (m.shutdown side) ∧
      ((m.shutdown side).conn side).mHandler = (m.conn side).mHandler := by
  obtain ⟨hd, ht, hh, hlog⟩ := (m.ctx side).shutdown_spec h
  cases side
  · exact ⟨hd, ⟨⟨by simp only [key, shutdown, put, setConn, ht]; rfl, hlog⟩, rfl, rfl, rfl, rfl⟩, hh⟩
  · exact ⟨hd, ⟨⟨by simp only [key, shutdown, put, setConn, ht]; rfl, hlog⟩, rfl, rfl, rfl, rfl⟩, hh⟩

theorem setEventHandler_touches (side : Side) (b : Bool) :
    Touches side m (m.setEventHandler side b) := by
  cases side <;> exact ⟨⟨rfl, [], by simp [setEventHandler, setConn], by simp⟩, rfl, rfl, rfl, rfl⟩

theorem Touches.trans {side : Side} {m n k : TunCtx} (h : Touches side m n)
    (l : Touches side n k) : Touches side m k :=
  ⟨h.toQuiet.trans l.toQuiet, l.other.trans h.other, l.mHandler.trans h.mHandler,
    l.mProxyStatus.trans h.mProxyStatus, l.mLocalCache.trans h.mLocalCache⟩

theorem detach_spec (side : Side) (h : (m.conn side).Clean) :
    ((m.detach side).conn side).Down ∧ Touches side m (m.detach side) := by
  have hc : ((m.setEventHandler side false).conn side).Clean := by cases side <;> exact h
  have hh : ((m.setEventHandler side false).conn side).mHandler = false := by cases side <;> rfl
  obtain ⟨hd, ht, hk⟩ := (m.setEventHandler side false).shutdown_spec side hc
  exact ⟨⟨hd, hk.trans hh⟩, (m.setEventHandler_touches side false).trans ht⟩

/-- `m'` is `m` with the session given up. -/
structure Closes (m m' : TunCtx) : Prop extends Quiet m m' where
  shut : m'.Shut
  emptied : m'.tun.mLocalCache.Emptied
  mHandler : m'.tun.mHandler = m.tun.mHandler

theorem clearCache_quiet (m : TunCtx) : Quiet m m.clearCache := ⟨rfl, [], by simp [clearCache], by simp⟩

theorem setStatus_quiet (m : TunCtx) (st : EProxyStatus) : Quiet m (m.setStatus st) :=
  ⟨rfl, [], by simp [setStatus], by simp⟩

/-- A log entry of the closing itself. -/
theorem log_quiet (m : TunCtx) (e : Ev) (he : e.isQuiet) : Quiet m (m.log e) :=
  ⟨rfl, [e], rfl, by simpa using he⟩

theorem insertBroken_quiet (m : TunCtx) : Quiet m m.insertBroken :=
  ⟨rfl, [], by simp [insertBroken], by simp⟩

section Quiet

/-! Giving up is quiet whatever state it starts from. -/

theorem shutdown_quiet (m : TunCtx) (side : Side) : Quiet m (m.shutdown side) := by
  have hthis : (m.ctx side).shutdown.conn.this = (m.conn side).this := by
    by_cases h : (m.conn side).mFd < 0
    · rw [(m.ctx side).shutdown_of_closed h]
      rfl
    · rw [(m.ctx side).shutdown_conn (not_lt.mp h)]
      rfl
  have hlog : ∃ evs, (m.ctx side).shutdown.sys.trace = m.sys.trace ++ evs ∧ ∀ e ∈ evs, e.isQuiet := by
    by_cases h : (m.conn side).mFd < 0
    · rw [(m.ctx side).shutdown_of_closed h]
      exact ⟨[], by simp [ctx], by simp⟩
    · exact ⟨[.close (m.conn side).mFd], ((m.ctx side).shutdown_sys (not_lt.mp h)).2.2.1,
        by simp [Ev.isQuiet]⟩
  cases side <;> exact ⟨by simp only [key, shutdown, put, setConn, hthis]; rfl, hlog⟩

theorem detach_quiet (m : TunCtx) (side : Side) : Quiet m (m.detach side) :=
  (m.setEventHandler_touches side false).toQuiet.trans ((m.setEventHandler side false).shutdown_quiet side)

theorem cleanup_quiet (m : TunCtx) : Quiet m m.cleanup :=
  ((clearCache_quiet m).trans (m.clearCache.detach_quiet .loc)).trans
    ((setStatus_quiet _ .Closed).trans (detach_quiet _ .proxy))

theorem _onError_quiet (m : TunCtx) : Quiet m m._onError := by
  unfold _onError
  split
  · exact (log_quiet m _ (by simp [Ev.isQuiet])).trans
      ((cleanup_quiet _).trans (insertBroken_quiet _))
  · exact Quiet.refl m

theorem dropProxy_quiet (m : TunCtx) : Quiet m m.dropProxy :=
  (m.setEventHandler_touches .proxy false).toQuiet.trans (_onError_quiet _)

theorem onErrorProxy_quiet (m : TunCtx) : Quiet m m.onErrorProxy :=
  ((m.detach_quiet .proxy).trans (clearCache_quiet _)).trans
    ((detach_quiet _ .loc).trans (_onError_quiet _))

end Quiet

/-- Detaching both sides, one after the other. -/
theorem shut_of_detached (side : Side) {m : TunCtx} (h : (m.conn side.other).Down)
    (hc : (m.conn side).Clean) : (m.detach side).Shut := by
  obtain ⟨hd, ht⟩ := m.detach_spec side hc
  have ho : ((m.detach side).conn side.other).Down := by rw [ht.other]; exact h
  cases side <;> intro s <;> cases s <;> first | exact hd | exact ho

theorem cleanup_closes {m : TunCtx} (h : m.Tidy) : Closes m m.cleanup := by
  obtain ⟨hd, ht⟩ := m.clearCache.detach_spec .loc (h .loc)
  let n := (m.clearCache.detach .loc).setStatus .Closed
  have hp : (n.conn .proxy).Clean := by
    have : n.conn .proxy = m.clearCache.conn .proxy := ht.other
    rw [this]
    exact h .proxy
  obtain ⟨-, kt⟩ := n.detach_spec .proxy hp
  have hq : Quiet m m.cleanup :=
    (((clearCache_quiet m).trans ht.toQuiet).trans (setStatus_quiet _ _)).trans kt.toQuiet
  refine ⟨hq, shut_of_detached .proxy hd hp, ?_, kt.mHandler.trans ht.mHandler⟩
  have hc : m.cleanup.tun.mLocalCache = m.tun.mLocalCache.clear :=
    kt.mLocalCache.trans ht.mLocalCache
  rw [hc]
  exact Cache.clear_emptied _

theorem clientOnClosed_closes {m : TunCtx} (h : m.Tidy) : Closes m m.clientOnClosed :=
  have hc := cleanup_closes h
  ⟨hc.toQuiet.trans (insertBroken_quiet _), fun side => by
    simpa [clientOnClosed] using hc.shut side, hc.emptied, hc.mHandler⟩

theorem _onClose_closes {m : TunCtx} (h : m.Tidy) (hh : m.tun.mHandler = true) :
    Closes m m._onClose := by
  have hc := clientOnClosed_closes (m := m.log (.onClosed m.tun.this)) fun side => by simpa using h side
  rw [_onClose, if_pos hh]
  exact ⟨(log_quiet m _ (by simp [Ev.isQuiet])).trans hc.toQuiet, hc.shut, hc.emptied, hc.mHandler⟩

theorem _onError_closes {m : TunCtx} (h : m.Tidy) (hh : m.tun.mHandler = true) :
    Closes m m._onError := by
  have hc := clientOnClosed_closes (m := m.log (.onBroken m.tun.this)) fun side => by simpa using h side
  rw [_onError, if_pos hh]
  exact ⟨(log_quiet m _ (by simp [Ev.isQuiet])).trans hc.toQuiet, hc.shut, hc.emptied, hc.mHandler⟩

/-- A session that is already given up is given up once more by the client. -/
theorem _onError_closes_of_shut {m : TunCtx} (h : m.Shut) (he : m.tun.mLocalCache.Emptied) :
    Closes m m._onError := by
  cases hh : m.tun.mHandler
  · rw [_onError, hh]
    exact ⟨Quiet.refl m, h, he, rfl⟩
  · exact _onError_closes h.tidy hh

theorem onErrorProxy_closes {m : TunCtx} (h : m.Tidy) : Closes m m.onErrorProxy := by
  obtain ⟨hd, ht⟩ := m.detach_spec .proxy (h .proxy)
  let n := (m.detach .proxy).clearCache
  have hl : (n.conn .loc).Clean := by
    have : n.conn .loc = m.conn .loc := ht.other
    rw [this]
    exact h .loc
  have hshut : (n.detach .loc).Shut := shut_of_detached .loc hd hl
  obtain ⟨-, kt⟩ := n.detach_spec .loc hl
  have hempty : (n.detach .loc).tun.mLocalCache.Emptied := by
    rw [kt.mLocalCache]
    exact Cache.clear_emptied _
  have hc := _onError_closes_of_shut hshut hempty
  have hq : Quiet m (n.detach .loc) :=
    (ht.toQuiet.trans (clearCache_quiet _)).trans kt.toQuiet
  exact ⟨hq.trans hc.toQuiet, hc.shut, hc.emptied, hc.mHandler.trans (kt.mHandler.trans ht.mHandler)⟩

/-- The error exits of `onRecv` leave the closing to the client. -/
theorem dropProxy_closes {m : TunCtx} (h : m.Tidy) (hh : m.tun.mHandler = true) :
    Closes m m.dropProxy := by
  have ht := m.setEventHandler_touches .proxy false
  have hc := _onError_closes (m := m.setEventHandler .proxy false)
    (fun side => by cases side; exacts [h .loc, h .proxy]) hh
  exact ⟨ht.toQuiet.trans hc.toQuiet, hc.shut, hc.emptied, hc.mHandler⟩

theorem onDisconnected_proxy_closes {m : TunCtx} (h : m.Tidy) (hh : m.tun.mHandler = true) :
    Closes m (m.onDisconnected .proxy) := by
  obtain ⟨hd, ht, -⟩ := m.shutdown_spec .proxy (h .proxy)
  let n := (m.shutdown .proxy).clearCache
  have hl : (n.conn .loc).Clean := by
    have : n.conn .loc = m.conn .loc := ht.other
    rw [this]
    exact h .loc
  obtain ⟨kd, kt, -⟩ := n.shutdown_spec .loc hl
  have hp : (n.shutdown .loc).conn .proxy = (m.shutdown .proxy).conn .proxy := kt.other
  have hc := _onClose_closes (m := n.shutdown .loc)
    (fun side => by cases side; exacts [kd.clean, hp ▸ hd.clean])
    (kt.mHandler.trans (ht.mHandler.trans hh))
  have hq : Quiet m (n.shutdown .loc) := (ht.toQuiet.trans (clearCache_quiet _)).trans kt.toQuiet
  exact ⟨hq.trans hc.toQuiet, hc.shut, hc.emptied, hc.mHandler.trans (kt.mHandler.trans ht.mHandler)⟩

end TunCtx

end HttpsProxy
