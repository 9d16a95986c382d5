import HttpsProxy.TunnelNotify
import HttpsProxy.ConnectionOpen

/-! One session of a tunnel: the tunnel is given an accepted descriptor and
then gets notifications for its two sockets. Between two of them the rest of
the process runs, so each finds its own `errno` and poller. -/
namespace HttpsProxy

/-- What `ProxyClient` has been told of the two servers. -/
structure Config where
  pton : Bytes → PtonRes
  mDestHost : Bytes
  mDestPort : ℤ
  mProxyIp : Bytes
  mProxyPort : ℤ

def exampleConfig : Config where
  pton _ := .valid 0x0a000001
  mDestHost := ascii "example.org"
  mDestPort := 443
  mProxyIp := ascii "10.0.0.1"
  mProxyPort := 8080

/-- How `ProxyClient::onAccept` ends for the tunnel it has chosen. -/
inductive AcceptRes where
  | illegalProxy
  | failed
  | created
  deriving DecidableEq, Repr

/-- What a callback finds, and the answers its calls will get. -/
structure Entry where
  errno : Errno
  env : Env
  poller : SelectPoller Watcher
  stdio : List WriteRes

/-- A notification of the poller for one of the two connections. -/
inductive Notice where
  | input (side : Side)
  | output (side : Side)
  deriving DecidableEq, Repr

namespace TunCtx

/-- `ProxyClient::onAccept` behind `newTunnel`, without `reclaimTunnel`. -/
def onAccept (cfg : Config) (connfd : ℤ) (m : TunCtx) : AcceptRes × TunCtx :=
  let m := m.setDestServer cfg.mDestHost cfg.mDestPort
  let (ok, m) := m.setProxyServer cfg.pton cfg.mProxyIp cfg.mProxyPort
  if !ok then (.illegalProxy, m.log (.close connfd))
  else
    let (ok, m) := m.acceptLocal connfd
    if !ok then (.failed, (m.log (.close connfd)).insertBroken)
    else (.created, { m with tun.mHandler := true })

def enter (e : Entry) (m : TunCtx) : TunCtx :=
  { m with
    sys := { m.sys with errno := e.errno, env := e.env, poller := e.poller }
    stdio := e.stdio }

def notify (n : Notice) (m : TunCtx) : TunCtx :=
  match n with
  | .input side => (owner side).handleInputNotification m
  | .output side => (owner side).handleOutputNotification m

def step (m : TunCtx) (a : Entry × Notice) : TunCtx :=
  if m.halted then m else (m.enter a.1).notify a.2

end TunCtx

/-- The descriptor a session is opened with, and all that happens to it. -/
structure Session where
  connfd : ℕ
  entry : Entry
  arrivals : List (Entry × Notice)

namespace Session

def accept (cfg : Config) (s : Session) (t : ProxyTunnel) : AcceptRes × TunCtx :=
  TunCtx.onAccept cfg s.connfd
    ⟨t, ⟨s.entry.errno, s.entry.env, s.entry.poller, [], false⟩, s.entry.stdio, [], false⟩

/-- The tunnel and its log at the end of the session. -/
def run (cfg : Config) (s : Session) (t : ProxyTunnel) : TunCtx :=
  s.arrivals.foldl TunCtx.step (s.accept cfg t).2

/-- The stdio calls of `DiskCache` succeed. -/
def DiskOk (s : Session) : Prop := ∀ a ∈ s.arrivals, ∀ w ∈ a.1.stdio, w = .ok

end Session

/-- The tunnels `newTunnel` can return: new ones, and those that have served
their sessions and gone through `mBrokenTuns`, or were not even started. -/
inductive Recycled (cfg : Config) : ProxyTunnel → Prop where
  | new (this : TunId) : Recycled cfg (.new this)
  | unserved {t : ProxyTunnel} (s : Session) (free : Recycled cfg t)
      (res : (s.accept cfg t).1 = .illegalProxy) : Recycled cfg (s.accept cfg t).2.tun
  | broken {t : ProxyTunnel} (s : Session) (free : Recycled cfg t)
      (broken : t.this ∈ (s.run cfg t).mBrokenTuns) (halted : (s.run cfg t).halted = false) :
      Recycled cfg (s.run cfg t).tun

/-- Both connections down and the cache empty. -/
structure ProxyTunnel.Idle (t : ProxyTunnel) : Prop where
  loc : t.mLocalConn.Down
  proxy : t.mProxyConn.Down
  emptied : t.mLocalCache.Emptied

/-- The two connections are part of the tunnel. -/
structure ProxyTunnel.Whole (t : ProxyTunnel) : Prop where
  loc : t.mLocalConn.this = ⟨t.this, .loc⟩
  proxy : t.mProxyConn.this = ⟨t.this, .proxy⟩

namespace TunCtx

theorem shut_iff (m : TunCtx) : m.Shut ↔ m.tun.mLocalConn.Down ∧ m.tun.mProxyConn.Down :=
  ⟨fun h => ⟨h .loc, h .proxy⟩, fun h side => by cases side; exacts [h.1, h.2]⟩

theorem idle_iff (m : TunCtx) : m.tun.Idle ↔ m.Shut ∧ m.tun.mLocalCache.Emptied := by
  rw [shut_iff]
  exact ⟨fun h => ⟨⟨h.loc, h.proxy⟩, h.emptied⟩, fun h => ⟨h.1.1, h.1.2, h.2⟩⟩

/-- The tunnel before it connects to the proxy server, with `y` left behind by
`acceptConnection`. -/
def dialing (y : Ctx) (m : TunCtx) : TunCtx :=
  (((m.put .loc y).setEventHandler .loc true).setStatus .Closed).setEventHandler .proxy true

/-- `acceptLocal` from the call of `connect` on. -/
def dial (m : TunCtx) : Bool × TunCtx :=
  let r := (m.ctx .proxy).connect m.tun.mProxySvrAddr
  let k := (owner .proxy).run r.2 m
  if !r.1 then (false, ((k.setEventHandler .loc false).shutdown .loc).setEventHandler .proxy false)
  else (true, k)

theorem acceptLocal_of_failed (connfd : ℤ) {m : TunCtx} {y : Ctx}
    (h : (m.ctx .loc).acceptConnection connfd = (false, y)) :
    m.acceptLocal connfd = (false, m.put .loc y) := by
  simp only [acceptLocal, h]
  rfl

theorem acceptLocal_of_opened (connfd : ℤ) {m : TunCtx} {y : Ctx}
    (h : (m.ctx .loc).acceptConnection connfd = (true, y)) :
    m.acceptLocal connfd = (m.dialing y).dial := by
  simp only [acceptLocal, h]
  rfl

/-- What `acceptLocal` makes of an idle tunnel. -/
inductive Opening (m : TunCtx) : Bool × TunCtx → Prop where
  | failed (n : TunCtx) (key : n.key = m.key) (shut : n.Shut)
      (cache : n.tun.mLocalCache = m.tun.mLocalCache) (log : Noted m.sys n.sys) :
      Opening m (false, n)
  | waiting (n : TunCtx) (key : n.key = m.key) (broken : n.mBrokenTuns = m.mBrokenTuns)
      (linked : n.Linked) (status : n.tun.mProxyStatus = .Closed)
      (cache : n.tun.mLocalCache = m.tun.mLocalCache)
      (queue : ∀ side, (n.conn side).mTcpPacketList = []) (log : Noted m.sys n.sys) :
      Opening m (true, n)
  | asked (n : TunCtx) (key : n.key = m.key) (broken : n.mBrokenTuns = m.mBrokenTuns)
      (linked : n.Linked) (status : n.tun.mProxyStatus = .Connecting)
      (header : n.tun.mHttpHeader = memcpy m.tun.mHttpHeader 0 [0])
      (cache : n.tun.mLocalCache = m.tun.mLocalCache)
      (queue : ∀ side, (n.conn side).mTcpPacketList = []) (log : Noted m.sys n.sys) :
      Opening m (true, n.sendProxy m.key.request)

/-- `n` is `m` with the client's side open, before the proxy's side is. -/
structure Dialing (m n : TunCtx) : Prop where
  key : n.key = m.key
  broken : n.mBrokenTuns = m.mBrokenTuns
  mProxyStatus : n.tun.mProxyStatus = .Closed
  mLocalCache : n.tun.mLocalCache = m.tun.mLocalCache
  mHttpHeader : n.tun.mHttpHeader = m.tun.mHttpHeader
  fd : 0 ≤ (n.conn .loc).mFd
  status : (n.conn .loc).mConnStatus = .Connected
  handler : ∀ side, (n.conn side).mHandler = true
  queue : ∀ side, (n.conn side).mTcpPacketList = []
  dead : (n.conn .proxy).Dead
  log : Noted m.sys n.sys

theorem dialing_spec (connfd : ℕ) {m : TunCtx} (h : m.Shut) {y : Ctx}
    (hr : (m.ctx .loc).acceptConnection connfd = (true, y)) : Dialing m (m.dialing y) := by
  have ha := (m.ctx .loc).acceptConnection_spec connfd
  rw [hr] at ha
  cases ha with
  | opened _ _ hc hlog =>
    have hl : (m.dialing y).conn .loc = { m.conn .loc with
        mFd := connfd, mbRegForRead := true, mConnStatus := .Connected, mHandler := true } := by
      change { y.conn with mHandler := true } = _
      rw [hc]
      rfl
    have hp : (m.dialing y).conn .proxy = { m.conn .proxy with mHandler := true } := rfl
    have hpd := (h .proxy).toDead
    refine ⟨?_, rfl, rfl, rfl, rfl, ?_, ?_, fun side => ?_, fun side => ?_, ?_, hlog.noted⟩
    · change TunKey.mk _ ((m.dialing y).conn .loc).this ((m.dialing y).conn .proxy).this _ = _
      rw [hl, hp]
      rfl
    · rw [hl]
      exact Int.natCast_nonneg connfd
    · rw [hl]
    · cases side
      exacts [by rw [hl], by rw [hp]]
    · cases side
      exacts [by rw [hl]; exact (h .loc).queue, by rw [hp]; exact hpd.queue]
    · rw [hp]
      exact ⟨hpd.fd, hpd.status, hpd.read, hpd.write, hpd.queue⟩

section Dial

variable {m n : TunCtx} {x : Ctx}

/-- The proxy's side cannot be opened, and the client's is shut down again. -/
theorem Dialing.gives_up (h : Dialing m n) (hx : x.conn = { n.conn .proxy with mFd := -1 })
    (hlog : Setup n.sys x.sys) : Opening m (false,
      (((n.put .proxy x).setEventHandler .loc false).shutdown .loc).setEventHandler .proxy false) := by
  let k := (n.put .proxy x).setEventHandler .loc false
  have hk : k.key = m.key := (n.key_put .proxy x (by rw [hx])).trans h.key
  obtain ⟨hd, ht, hh⟩ := k.shutdown_spec .loc (Connection.clean_of_open h.fd)
  have hkp : ((k.shutdown .loc).setEventHandler .proxy false).conn .proxy =
      { x.conn with mHandler := false } := by
    change { (k.shutdown .loc).conn .proxy with mHandler := false } = _
    rw [show (k.shutdown .loc).conn .proxy = x.conn from ht.other]
  have htp := (k.shutdown .loc).setEventHandler_touches .proxy false
  refine .failed _ (htp.key.trans (ht.key.trans hk)) (fun side => ?_)
    (htp.mLocalCache.trans (ht.mLocalCache.trans h.mLocalCache))
    (h.log.trans (hlog.noted.trans (ht.toQuiet.noted.trans htp.toQuiet.noted)))
  cases side with
  | loc =>
    rw [show ((k.shutdown .loc).setEventHandler .proxy false).conn .loc =
      (k.shutdown .loc).conn .loc from htp.other]
    exact ⟨hd, hh⟩
  | proxy =>
    rw [hkp, hx]
    exact ⟨⟨by simp, h.dead.status, h.dead.read, h.dead.write, h.dead.queue⟩, rfl⟩

/-- Both sides are open, whatever else the tunnel has done since. -/
theorem Dialing.linked (h : Dialing m n) {k : TunCtx} (hl : k.conn .loc = n.conn .loc)
    (hfd : 0 ≤ (k.conn .proxy).mFd) (hh : (k.conn .proxy).mHandler = true)
    (phase : (k.conn .proxy).mConnStatus = .Connecting ∧ k.tun.mProxyStatus = .Closed ∨
      (k.conn .proxy).mConnStatus = .Connected ∧
        (k.tun.mProxyStatus = .Connecting ∨ k.tun.mProxyStatus = .Connected)) : k.Linked := by
  refine ⟨fun side => ?_, fun side => ?_, hl ▸ h.status, phase⟩
  · cases side
    exacts [hl ▸ h.fd, hfd]
  · cases side
    exacts [hl ▸ h.handler .loc, hh]

/-- `connect` is under way. -/
theorem Dialing.waits (h : Dialing m n) {fd : ℤ} (hfd : 0 ≤ fd)
    (hx : x.conn = { n.conn .proxy with mFd := fd, mbRegForWrite := true, mConnStatus := .Connecting })
    (hlog : Setup n.sys x.sys) : Opening m (true, n.put .proxy x) := by
  have hp : (n.put .proxy x).conn .proxy = x.conn := rfl
  refine .waiting _ ((n.key_put .proxy x (by rw [hx])).trans h.key) h.broken
    (h.linked rfl (by rw [hp, hx]; exact hfd) (by rw [hp, hx]; exact h.handler .proxy)
      (Or.inl ⟨by rw [hp, hx], h.mProxyStatus⟩))
    h.mProxyStatus h.mLocalCache (fun side => ?_) (h.log.trans hlog.noted)
  cases side
  exacts [h.queue .loc, by rw [hp, hx]; exact h.dead.queue]

/-- `::connect` has succeeded at once, so the request is sent from inside it. -/
theorem Dialing.asks (h : Dialing m n) {fd : ℤ} (hfd : 0 ≤ fd)
    (hx : x.conn = { n.conn .proxy with mFd := fd, mbRegForRead := true, mConnStatus := .Connected })
    (hlog : Setup n.sys x.sys) : Opening m (true, (owner .proxy).run
      (x.log (.onConnected (n.conn .proxy).this), some .onConnected) n) := by
  let k : TunCtx := n.asking (x.log (.onConnected (n.conn .proxy).this))
  have hp : k.conn .proxy = x.conn := rfl
  have hkk : k.key = m.key :=
    (n.key_put .proxy (x.log (.onConnected (n.conn .proxy).this)) (by simp [Ctx.log, hx])).trans h.key
  have hreq : (owner .proxy).run (x.log (.onConnected (n.conn .proxy).this), some .onConnected) n =
      k.sendProxy m.key.request := by
    have hrk : k.tun.connectRequest = m.key.request := congrArg TunKey.request hkk
    rw [← hrk]
    rfl
  rw [hreq]
  refine .asked k hkk h.broken
    (h.linked rfl (by rw [hp, hx]; exact hfd) (by rw [hp, hx]; exact h.handler .proxy)
      (Or.inr ⟨by rw [hp, hx], Or.inl rfl⟩))
    rfl ?_ h.mLocalCache (fun side => ?_)
    (h.log.trans (hlog.noted.trans (.entry rfl trivial)))
  · change memcpy n.tun.mHttpHeader 0 [0] = _
    rw [h.mHttpHeader]
  · cases side
    exacts [h.queue .loc, by rw [hp, hx]; exact h.dead.queue]

theorem Dialing.opening (h : Dialing m n) : Opening m n.dial := by
  have hconn := (n.ctx .proxy).connect_spec n.tun.mProxySvrAddr h.dead.fd
  have hh : (n.ctx .proxy).conn.mHandler = true := h.handler .proxy
  unfold dial
  generalize (n.ctx .proxy).connect n.tun.mProxySvrAddr = r at hconn
  cases hconn with
  | failed x hx hlog => exact h.gives_up hx hlog
  | connecting x fd hfd hx hlog => exact h.waits hfd hx hlog
  | connected x fd hfd hx hlog =>
    simp only [hh, if_true]
    exact h.asks hfd hx hlog

end Dial

theorem acceptLocal_opening (connfd : ℕ) {m : TunCtx} (h : m.Shut) :
    Opening m (m.acceptLocal connfd) := by
  have ha := (m.ctx .loc).acceptConnection_spec connfd
  cases hr : (m.ctx .loc).acceptConnection connfd with
  | mk ok y =>
    rw [hr] at ha
    cases ha with
    | inUse hfd => exact absurd (h .loc).fd (not_lt.mpr hfd)
    | failed _ _ hc hlog =>
      have hl : (m.put .loc y).conn .loc = y.conn := rfl
      rw [acceptLocal_of_failed connfd hr]
      refine .failed _ (m.key_put .loc y (by rw [hc]; rfl)) (fun side => ?_) rfl hlog.noted
      cases side with
      | loc =>
        obtain ⟨⟨-, h1, h2, h3, h4⟩, h5⟩ := h .loc
        rw [hl, hc]
        exact ⟨⟨by simp, h1, h2, h3, h4⟩, h5⟩
      | proxy => exact h .proxy
    | opened =>
      rw [acceptLocal_of_opened connfd hr]
      exact (dialing_spec connfd h hr).opening

/-- The tunnel once it has been told the two servers. -/
def configured (cfg : Config) (m : TunCtx) : TunCtx :=
  ((m.setDestServer cfg.mDestHost cfg.mDestPort).setProxyServer cfg.pton cfg.mProxyIp
    cfg.mProxyPort).2

theorem configured_same (cfg : Config) (m : TunCtx) :
    (∀ side, (m.configured cfg).conn side = m.conn side) ∧
      (m.configured cfg).tun.mLocalCache = m.tun.mLocalCache ∧
      (m.configured cfg).tun.this = m.tun.this ∧
      (m.configured cfg).tun.mHandler = m.tun.mHandler ∧
      (m.configured cfg).mBrokenTuns = m.mBrokenTuns ∧ (m.configured cfg).sys = m.sys := by
  unfold configured setProxyServer
  cases cfg.pton cfg.mProxyIp <;>
    exact ⟨fun side => by cases side <;> rfl, rfl, rfl, rfl, rfl, rfl⟩

theorem onAccept_eq (cfg : Config) (connfd : ℤ) (m : TunCtx) : m.onAccept cfg connfd =
    if cfg.pton cfg.mProxyIp = .error then (.illegalProxy, (m.configured cfg).log (.close connfd))
    else
      let r := (m.configured cfg).acceptLocal connfd
      if r.1 then (.created, { r.2 with tun.mHandler := true })
      else (.failed, (r.2.log (.close connfd)).insertBroken) := by
  unfold onAccept configured setProxyServer
  cases cfg.pton cfg.mProxyIp with
  | error => rfl
  | invalid =>
    simp only [Bool.not_true, Bool.false_eq_true, if_false, reduceCtorEq]
    split <;> simp_all
  | valid a =>
    simp only [Bool.not_true, Bool.false_eq_true, if_false, reduceCtorEq]
    split <;> simp_all

theorem configured_shut (cfg : Config) {m : TunCtx} (h : m.Shut) : (m.configured cfg).Shut :=
  fun side => (m.configured_same cfg).1 side ▸ h side

theorem configured_idle (cfg : Config) {m : TunCtx} (h : m.tun.Idle) :
    (m.configured cfg).tun.Idle := by
  obtain ⟨-, hcache, -⟩ := m.configured_same cfg
  obtain ⟨hshut, hempty⟩ := (idle_iff m).mp h
  exact (idle_iff _).mpr ⟨configured_shut cfg hshut, hcache ▸ hempty⟩

/-- What `_onAccept` makes of a shut tunnel: it leaves it shut, or opens it and
waits for the proxy server, or has it connected and asks at once. The client
becomes the handler of the tunnel `n` last. -/
inductive Accepting (cfg : Config) (m : TunCtx) : AcceptRes × TunCtx → Prop where
  | refused (res : AcceptRes) (n : TunCtx) (key : n.key = (m.configured cfg).key) (shut : n.Shut)
      (cache : n.tun.mLocalCache = m.tun.mLocalCache) (log : Noted m.sys n.sys) :
      Accepting cfg m (res, n)
  | waiting (n : TunCtx) (key : n.key = (m.configured cfg).key)
      (broken : n.mBrokenTuns = m.mBrokenTuns) (linked : n.Linked)
      (status : n.tun.mProxyStatus = .Closed) (cache : n.tun.mLocalCache = m.tun.mLocalCache)
      (queue : ∀ side, (n.conn side).mTcpPacketList = []) (log : Noted m.sys n.sys) :
      Accepting cfg m (.created, { n with tun.mHandler := true })
  | asked (n : TunCtx) (key : n.key = (m.configured cfg).key)
      (broken : n.mBrokenTuns = m.mBrokenTuns) (linked : n.Linked)
      (status : n.tun.mProxyStatus = .Connecting)
      (header : n.tun.mHttpHeader = memcpy (m.configured cfg).tun.mHttpHeader 0 [0])
      (cache : n.tun.mLocalCache = m.tun.mLocalCache)
      (queue : ∀ side, (n.conn side).mTcpPacketList = []) (log : Noted m.sys n.sys) :
      Accepting cfg m (.created, { n.sendProxy n.key.request with tun.mHandler := true })

theorem onAccept_spec (cfg : Config) (connfd : ℕ) {m : TunCtx} (h : m.Shut) :
    Accepting cfg m (m.onAccept cfg connfd) := by
  obtain ⟨-, hcache, -, -, hbroken, hsys⟩ := m.configured_same cfg
  have hshut := configured_shut cfg h
  rw [onAccept_eq]
  split
  · refine .refused _ _ rfl (fun side => by simpa using hshut side) hcache ?_
    rw [← hsys]
    exact .entry (e := .close connfd) rfl trivial
  · have ho := acceptLocal_opening connfd hshut
    generalize (m.configured cfg).acceptLocal connfd = r at ho
    cases ho with
    | failed n key shut cache log =>
      refine .refused .failed _ key (fun side => by simpa using shut side) (cache.trans hcache) ?_
      rw [← hsys]
      exact log.trans (.entry (e := .close connfd) rfl trivial)
    | waiting n key broken linked status cache queue log =>
      exact .waiting n key (broken.trans hbroken) linked status (cache.trans hcache) queue
        (hsys ▸ log)
    | asked n key broken linked status header cache queue log =>
      rw [← key]
      exact .asked n key (broken.trans hbroken) linked status header (cache.trans hcache) queue
        (hsys ▸ log)

theorem Accepting.key {cfg : Config} {m : TunCtx} {r : AcceptRes × TunCtx}
    (h : Accepting cfg m r) : r.2.key = (m.configured cfg).key := by
  cases h with
  | refused _ n key => exact key
  | waiting n key => exact key
  | asked n key _ linked =>
    rcases sendProxy_continues n.key.request linked.tidy (linked.heard .proxy) with hg | he
    · exact hg.key.trans key
    · exact he.key.trans key

theorem Linked.live {m : TunCtx} (h : m.Linked) : Live { m with tun.mHandler := true } :=
  ⟨⟨fun side => by cases side; exacts [h.fd .loc, h.fd .proxy],
    fun side => by cases side; exacts [h.handler .loc, h.handler .proxy], h.loc, h.phase⟩, rfl⟩

/-- The shape of a tunnel whenever no callback is running. -/
def Shaped (m : TunCtx) : Prop := m.Live ∨ m.Shut ∧ m.tun.mLocalCache.Emptied

/-- A tunnel taken from the free ones is live after `onAccept`, or free of any
session again. -/
theorem onAccept_shaped (cfg : Config) (connfd : ℕ) {m : TunCtx} (h : m.tun.Idle) :
    (m.onAccept cfg connfd).2.tun.this = m.tun.this ∧
    (∀ side, ((m.onAccept cfg connfd).2.conn side).this = (m.conn side).this) ∧
    ((m.onAccept cfg connfd).1 = .created ∧ (m.onAccept cfg connfd).2.Live ∧
        (m.onAccept cfg connfd).2.mBrokenTuns = m.mBrokenTuns ∨
      (m.onAccept cfg connfd).2.Shut ∧ (m.onAccept cfg connfd).2.tun.mLocalCache.Emptied) := by
  obtain ⟨hshut, hempty⟩ := (idle_iff m).mp h
  obtain ⟨hc, -, hthis, -, -, -⟩ := m.configured_same cfg
  have ho := onAccept_spec cfg connfd hshut
  have hk := ho.key
  generalize m.onAccept cfg connfd = r at ho hk
  refine ⟨(congrArg TunKey.this hk).trans hthis, fun side => ?_, ?_⟩
  · rw [← hc side]
    cases side
    exacts [congrArg TunKey.loc hk, congrArg TunKey.proxy hk]
  cases ho with
  | refused _ n _ shut cache _ => exact Or.inr ⟨shut, cache ▸ hempty⟩
  | waiting n _ broken linked _ _ _ _ => exact Or.inl ⟨rfl, linked.live, broken⟩
  | asked n _ broken linked _ _ _ _ _ =>
    rcases sendProxy_continues n.key.request linked.tidy (linked.heard .proxy) with hg | he
    · exact Or.inl ⟨rfl, (linked.goes hg).live, hg.broken.trans broken⟩
    · refine Or.inr ⟨fun side => ?_, he.emptied⟩
      cases side
      exacts [he.shut .loc, he.shut .proxy]

theorem notify_shaped (n : Notice) {m : TunCtx} (h : m.Shaped) :
    (m.notify n).key = m.key ∧ (m.notify n).tun.mHandler = m.tun.mHandler ∧
      (m.Live ∧ (m.notify n).Live ∧ (m.notify n).mBrokenTuns = m.mBrokenTuns ∨
        (m.notify n).Shut ∧ (m.notify n).tun.mLocalCache.Emptied) := by
  rcases h with h | ⟨h, he⟩
  · have hs : Settled m (m.notify n) := by
      cases n
      exacts [h.input _, h.output _]
    exact ⟨hs.1, hs.2.1, hs.2.2.imp (fun hl => ⟨h, hl⟩) id⟩
  · have hn : m.notify n = m := by
      cases n
      exacts [(h.notified _).1, (h.notified _).2]
    rw [hn]
    exact ⟨rfl, rfl, Or.inr ⟨h, he⟩⟩

theorem Live.enter {m : TunCtx} (h : m.Live) (e : Entry) : (m.enter e).Live :=
  ⟨⟨fun side => by cases side; exacts [h.fd .loc, h.fd .proxy],
    fun side => by cases side; exacts [h.handler .loc, h.handler .proxy], h.loc, h.phase⟩,
    h.mHandler⟩

theorem Shut.enter {m : TunCtx} (h : m.Shut) (e : Entry) : (m.enter e).Shut :=
  fun side => by cases side; exacts [h .loc, h .proxy]

theorem Shut.notify {m : TunCtx} (h : m.Shut) (n : Notice) : m.notify n = m := by
  cases n
  exacts [(h.notified _).1, (h.notified _).2]

/-- A session that is over logs nothing more. -/
theorem Shut.run_trace {m : TunCtx} (h : m.Shut) (as : List (Entry × Notice)) :
    (as.foldl TunCtx.step m).sys.trace = m.sys.trace := by
  induction as generalizing m with
  | nil => rfl
  | cons a as ih =>
    have hstep : (m.step a).Shut ∧ (m.step a).sys.trace = m.sys.trace := by
      unfold TunCtx.step
      split
      · exact ⟨h, rfl⟩
      · rw [(h.enter a.1).notify a.2]
        exact ⟨h.enter a.1, rfl⟩
    exact (ih hstep.1).trans hstep.2

/-- One arrival, whatever the tunnel finds. -/
theorem step_shaped (a : Entry × Notice) {m : TunCtx} (h : m.Shaped) :
    (m.step a).key = m.key ∧
      (m.Live ∧ (m.step a).Live ∧ (m.step a).mBrokenTuns = m.mBrokenTuns ∨
        (m.step a).Shut ∧ (m.step a).tun.mLocalCache.Emptied) := by
  unfold step
  split
  · exact ⟨rfl, h.imp (fun h => ⟨h, h, rfl⟩) id⟩
  · rcases h with h | ⟨h, he⟩
    · obtain ⟨hk, -, hs⟩ := notify_shaped a.2 (Or.inl (h.enter a.1))
      exact ⟨hk, hs.imp (fun hl => ⟨h, hl.2⟩) id⟩
    · obtain ⟨hk, -, hs⟩ := notify_shaped a.2 (Or.inr ⟨h.enter a.1, he⟩)
      refine ⟨hk, Or.inr (hs.resolve_left fun hl => ?_)⟩
      exact absurd ((h.enter a.1) .loc).fd (not_lt.mpr (hl.1.fd .loc))

theorem whole_of_key {m n : TunCtx} (hk : n.key = m.key) (h : m.tun.Whole) : n.tun.Whole := by
  have ht : n.tun.this = m.tun.this := congrArg TunKey.this hk
  exact ⟨(congrArg TunKey.loc hk).trans (ht ▸ h.loc), (congrArg TunKey.proxy hk).trans (ht ▸ h.proxy)⟩

theorem configured_whole (cfg : Config) {m : TunCtx} (h : m.tun.Whole) :
    (m.configured cfg).tun.Whole := by
  obtain ⟨hc, -, hthis, -, -, -⟩ := m.configured_same cfg
  exact ⟨(congrArg Connection.this (hc .loc)).trans (hthis ▸ h.loc),
    (congrArg Connection.this (hc .proxy)).trans (hthis ▸ h.proxy)⟩

end TunCtx

namespace Session

/-- A session is live and not broken, or it is over and has left nothing behind. -/
theorem run_shaped (cfg : Config) (s : Session) {t : ProxyTunnel} (h : t.Idle) (hw : t.Whole) :
    (s.run cfg t).tun.this = t.this ∧ (s.run cfg t).tun.Whole ∧
      ((s.run cfg t).Live ∧ (s.run cfg t).mBrokenTuns = [] ∨
        (s.run cfg t).Shut ∧ (s.run cfg t).tun.mLocalCache.Emptied) := by
  have hstart := TunCtx.onAccept_shaped cfg s.connfd
    (m := ⟨t, ⟨s.entry.errno, s.entry.env, s.entry.poller, [], false⟩, s.entry.stdio, [], false⟩) h
  change (s.accept cfg t).2.tun.this = _ ∧ _ ∧ _ at hstart
  obtain ⟨hthis, haddr, hshape⟩ := hstart
  have hwhole : (s.accept cfg t).2.tun.Whole :=
    ⟨(haddr .loc).trans (by rw [hthis]; exact hw.loc),
      (haddr .proxy).trans (by rw [hthis]; exact hw.proxy)⟩
  have hshape' : (s.accept cfg t).2.Live ∧ (s.accept cfg t).2.mBrokenTuns = [] ∨
      (s.accept cfg t).2.Shut ∧ (s.accept cfg t).2.tun.mLocalCache.Emptied :=
    hshape.imp And.right id
  unfold run
  generalize (s.accept cfg t).2 = m at hthis hwhole hshape'
  clear hshape haddr
  induction s.arrivals using List.reverseRecOn with
  | nil => exact ⟨hthis, hwhole, hshape'⟩
  | append_singleton as a ih =>
    rw [List.foldl_append, List.foldl_cons, List.foldl_nil]
    obtain ⟨ithis, iwhole, ishape⟩ := ih
    obtain ⟨hk, hs⟩ := TunCtx.step_shaped a (m := as.foldl TunCtx.step m)
      (ishape.imp And.left id)
    refine ⟨(congrArg TunKey.this hk).trans ithis, TunCtx.whole_of_key hk iwhole, ?_⟩
    rcases hs with ⟨hm, hl, hb⟩ | hs
    · rcases ishape with ⟨-, ib⟩ | ⟨hshut, -⟩
      · exact Or.inl ⟨hl, hb.trans ib⟩
      · exact absurd (hshut .loc).fd (not_lt.mpr (hm.fd .loc))
    · exact Or.inr hs

end Session

theorem ProxyTunnel.new_idle (this : TunId) : (ProxyTunnel.new this).Idle :=
  ⟨Connection.new_down _, Connection.new_down _, Cache.new_emptied⟩

/-- A free tunnel is idle. -/
theorem Recycled.idle {cfg : Config} {t : ProxyTunnel} (h : Recycled cfg t) : t.Idle ∧ t.Whole := by
  induction h with
  | new this => exact ⟨ProxyTunnel.new_idle this, ⟨rfl, rfl⟩⟩
  | @unserved t s _ res ih =>
    have hstart := TunCtx.onAccept_shaped cfg s.connfd
      (m := ⟨t, ⟨s.entry.errno, s.entry.env, s.entry.poller, [], false⟩, s.entry.stdio, [], false⟩)
      ih.1
    obtain ⟨hthis, haddr, hshape⟩ := hstart
    refine ⟨(TunCtx.idle_iff _).mpr (hshape.resolve_left fun hl => ?_), ?_, ?_⟩
    · have hc : (s.accept cfg t).1 = .created := hl.1
      rw [res] at hc
      cases hc
    · exact (haddr .loc).trans (ih.2.loc.trans (by rw [← show _ = t.this from hthis]; rfl))
    · exact (haddr .proxy).trans (ih.2.proxy.trans (by rw [← show _ = t.this from hthis]; rfl))
  | broken s _ broken _ ih =>
    obtain ⟨-, hwhole, hshape⟩ := s.run_shaped cfg ih.1 ih.2
    refine ⟨(TunCtx.idle_iff _).mpr (hshape.resolve_left fun hl => ?_), hwhole⟩
    rw [hl.2] at broken
    cases broken

end HttpsProxy
