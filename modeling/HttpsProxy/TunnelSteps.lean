import HttpsProxy.TunnelClosing
import HttpsProxy.CacheFlush

/-! What the callbacks of a tunnel do to its two connections: the session goes
on with the same two descriptors, or it is given up. -/
namespace HttpsProxy

namespace TunCtx

/-- `n` goes on with the session of `m`. The tunnel may have been established. -/
structure Goes (m n : TunCtx) : Prop where
  key : n.key = m.key
  mHandler : n.tun.mHandler = m.tun.mHandler
  broken : n.mBrokenTuns = m.mBrokenTuns
  tidy : n.Tidy
  status : n.tun.mProxyStatus = m.tun.mProxyStatus ∨
    m.tun.mProxyStatus = .Connecting ∧ n.tun.mProxyStatus = .Connected
  link : ∀ side, SameLink (m.conn side) (n.conn side)

/-- `n` has given up the session of `m`. -/
structure Ended (m n : TunCtx) : Prop where
  key : n.key = m.key
  mHandler : n.tun.mHandler = m.tun.mHandler
  shut : n.Shut
  emptied : n.tun.mLocalCache.Emptied

/-- The two ways a callback can end. -/
def Continues (m n : TunCtx) : Prop := Goes m n ∨ Ended m n

theorem Goes.refl {m : TunCtx} (h : m.Tidy) : Goes m m :=
  ⟨rfl, rfl, rfl, h, Or.inl rfl, fun _ => SameLink.refl _⟩

theorem Goes.trans {m n k : TunCtx} (h : Goes m n) (l : Goes n k) : Goes m k := by
  refine ⟨l.key.trans h.key, l.mHandler.trans h.mHandler, l.broken.trans h.broken, l.tidy, ?_,
    fun side => (h.link side).trans (l.link side)⟩
  rcases h.status with hs | ⟨hs, hs'⟩ <;> rcases l.status with ls | ⟨ls, ls'⟩
  · exact Or.inl (ls.trans hs)
  · exact Or.inr ⟨hs ▸ ls, ls'⟩
  · exact Or.inr ⟨hs, ls.trans hs'⟩
  · rw [hs'] at ls; cases ls

/-- `n` goes on with the session of `m` and nothing but the connection `side` and
the cache has changed. -/
structure Along (side : Side) (m n : TunCtx) : Prop extends Goes m n where
  other : n.conn side.other = m.conn side.other
  mProxyStatus : n.tun.mProxyStatus = m.tun.mProxyStatus
  mHttpHeader : n.tun.mHttpHeader = m.tun.mHttpHeader

/-- The cache has not changed either. -/
structure Keeps (side : Side) (m n : TunCtx) : Prop extends Along side m n where
  mLocalCache : n.tun.mLocalCache = m.tun.mLocalCache

theorem Along.refl {m : TunCtx} (side : Side) (h : m.Tidy) : Along side m m :=
  ⟨Goes.refl h, rfl, rfl, rfl⟩

theorem Along.trans {side : Side} {m n k : TunCtx} (h : Along side m n) (l : Along side n k) :
    Along side m k :=
  ⟨h.toGoes.trans l.toGoes, l.other.trans h.other, l.mProxyStatus.trans h.mProxyStatus,
    l.mHttpHeader.trans h.mHttpHeader⟩

theorem Goes.ended {m n k : TunCtx} (h : Goes m n) (l : Ended n k) : Ended m k :=
  ⟨l.key.trans h.key, l.mHandler.trans h.mHandler, l.shut, l.emptied⟩

theorem Goes.continues {m n k : TunCtx} (h : Goes m n) (l : Continues n k) : Continues m k :=
  l.elim (fun l => Or.inl (h.trans l)) fun l => Or.inr (h.ended l)

theorem Closes.ended {m n : TunCtx} (h : Closes m n) : Ended m n :=
  ⟨h.key, h.mHandler, h.shut, h.emptied⟩

/-- The key is the identity of the tunnel, the addresses of its connections and
the request, whatever else changes. -/
theorem key_put (m : TunCtx) (side : Side) (x : Ctx) (h : x.conn.this = (m.conn side).this) :
    (m.put side x).key = m.key := by
  cases side
  · simp only [key, put, setConn, h]; rfl
  · simp only [key, put, setConn, h]; rfl

theorem put_goes {m : TunCtx} {side : Side} {x : Ctx} (h : m.Tidy)
    (hl : SameLink (m.conn side) x.conn) (hfd : 0 ≤ (m.conn side).mFd) : Goes m (m.put side x) := by
  refine ⟨m.key_put side x hl.this, by cases side <;> rfl, by cases side <;> rfl, ?_,
    Or.inl (by cases side <;> rfl), ?_⟩
  · exact h.put_open side (hl.fd ▸ hfd)
  · intro s
    cases side <;> cases s
    exacts [hl, SameLink.refl _, SameLink.refl _, hl]

/-- What `Connection::send` does to the tunnel that owns the connection. -/
inductive SideSend (side : Side) (onError : TunCtx → TunCtx) (data : Bytes) (m : TunCtx) :
    TunCtx → Prop where
  | refused (why : (m.conn side).mFd < 0 ∨ (m.conn side).mConnStatus ≠ .Connected) :
      SideSend side onError data m (m.log (.sendCall (m.conn side).this data))
  | kept (x : Ctx) (bs : Bytes) (fd : 0 ≤ (m.conn side).mFd)
      (status : (m.conn side).mConnStatus = .Connected) (link : SameLink (m.conn side) x.conn)
      (wire : Wire (m.conn side).this (m.sys.log (.sendCall (m.conn side).this data)) x.sys bs)
      (bytes : bs ++ x.conn.pending = (m.conn side).pending ++ data) :
      SideSend side onError data m (m.put side x)
  | failed (x : Ctx) (s : Sys) (bs : Bytes) (fd : 0 ≤ (m.conn side).mFd)
      (status : (m.conn side).mConnStatus = .Connected) (link : SameLink (m.conn side) x.conn)
      (wire : Wire (m.conn side).this (m.sys.log (.sendCall (m.conn side).this data)) s bs)
      (bytes : bs <+: (m.conn side).pending ++ data)
      (trace : x.sys.trace = s.trace ++ [.onError (m.conn side).this .send]) :
      SideSend side onError data m (onError (m.put side x))

/-- With a handler installed, or closed, a connection reports every failure. -/
theorem sideSend_spec (side : Side) (onError : TunCtx → TunCtx) (data : Bytes) (m : TunCtx)
    (hh : (m.conn side).mHandler = true ∨ (m.conn side).mFd < 0) :
    SideSend side onError data m
      ((errorOwner side onError).run ((m.ctx side).send data) m) := by
  have hs := Ctx.send_spec data (m.ctx side)
  generalize hr : (m.ctx side).send data = r at hs
  obtain ⟨y, cb⟩ := r
  simp only at hs
  have hput : m.put side ((m.ctx side).log (.sendCall (m.conn side).this data)) =
      m.log (.sendCall (m.conn side).this data) := by
    cases side <;> rfl
  have hlink := hs.link
  cases hs with
  | refused why eq =>
    simp only [Owner.run, errorOwner, eq]
    exact hput ▸ .refused why
  | kept bs fd status link wire bytes => exact .kept y bs fd status link wire bytes
  | failed z bs fd status link wire bytes _ eq =>
    obtain ⟨-, -, -, -, ht, -⟩ := z.raiseError_spec .send
    rw [← eq] at ht
    exact .failed y z.sys bs fd status hlink wire bytes (by rw [ht, link.this]; rfl)
  | unheard bs fd status handler _ _ _ =>
    rcases hh with hh | hh
    · exact absurd (hh.symm.trans handler) (by simp)
    · exact absurd fd (not_le.mpr hh)

/-- A connection that is closed, or that reports what happens to it. -/
def Heard (side : Side) (m : TunCtx) : Prop :=
  (m.conn side).mHandler = true ∨ (m.conn side).mFd < 0

theorem Ended.heard {m n : TunCtx} (h : Ended m n) (side : Side) : n.Heard side :=
  Or.inr (h.shut side).fd

theorem Goes.heard {m n : TunCtx} {side : Side} (h : Goes m n) (hh : m.Heard side) :
    n.Heard side :=
  hh.imp (fun hm => (h.link side).handler.trans hm) fun hf => (h.link side).fd ▸ hf

theorem Continues.heard {m n : TunCtx} {side : Side} (h : Continues m n) (hh : m.Heard side) :
    n.Heard side :=
  h.elim (fun h => h.heard hh) fun h => h.heard side

theorem Continues.tidy {m n : TunCtx} (h : Continues m n) : n.Tidy :=
  h.elim (fun h => h.tidy) fun h => h.shut.tidy

/-- An entry of the log is no change. -/
theorem log_goes {m : TunCtx} (e : Ev) (h : m.Tidy) : Goes m (m.log e) :=
  ⟨rfl, rfl, rfl, fun side => by simpa using h side, Or.inl rfl, fun side => by
    rw [conn_log]; exact SameLink.refl _⟩

theorem Ended.congr {m n k : TunCtx} (h : Ended m n) (key : k.key = n.key)
    (mHandler : k.tun.mHandler = n.tun.mHandler) (conn : ∀ side, k.conn side = n.conn side)
    (emptied : k.tun.mLocalCache.Emptied) : Ended m k :=
  ⟨key.trans h.key, mHandler.trans h.mHandler, fun side => conn side ▸ h.shut side, emptied⟩

theorem Goes.congr {m n k : TunCtx} (h : Goes m n) (key : k.key = n.key)
    (mHandler : k.tun.mHandler = n.tun.mHandler)
    (broken : k.mBrokenTuns = n.mBrokenTuns) (status : k.tun.mProxyStatus = n.tun.mProxyStatus)
    (conn : ∀ side, k.conn side = n.conn side) : Goes m k :=
  ⟨key.trans h.key, mHandler.trans h.mHandler, broken.trans h.broken, fun side => conn side ▸ h.tidy side,
    status ▸ h.status, fun side => conn side ▸ h.link side⟩

/-- Changes that leave the connections alone. -/
theorem Continues.congr {m n k : TunCtx} (h : Continues m n) (key : k.key = n.key)
    (mHandler : k.tun.mHandler = n.tun.mHandler)
    (broken : k.mBrokenTuns = n.mBrokenTuns) (status : k.tun.mProxyStatus = n.tun.mProxyStatus)
    (conn : ∀ side, k.conn side = n.conn side)
    (emptied : n.tun.mLocalCache.Emptied → k.tun.mLocalCache.Emptied) : Continues m k :=
  h.elim (fun h => Or.inl (h.congr key mHandler broken status conn)) fun h =>
    Or.inr (h.congr key mHandler conn (emptied h.emptied))

theorem log_keeps {m : TunCtx} (side : Side) (e : Ev) (h : m.Tidy) : Keeps side m (m.log e) :=
  ⟨⟨log_goes e h, conn_log m side.other e, rfl, rfl⟩, rfl⟩

theorem put_keeps {m : TunCtx} {side : Side} {x : Ctx} (h : m.Tidy)
    (hl : SameLink (m.conn side) x.conn) (hfd : 0 ≤ (m.conn side).mFd) :
    Keeps side m (m.put side x) := by
  refine ⟨⟨put_goes h hl hfd, conn_put_other m side x, ?_, ?_⟩, ?_⟩ <;> cases side <;> rfl

theorem SideSend.keeps {side : Side} {onError : TunCtx → TunCtx} {data : Bytes}
    {m n : TunCtx} (h : SideSend side onError data m n) (ht : m.Tidy)
    (herr : ∀ k, Goes m k → Ended k (onError k)) : Keeps side m n ∨ Ended m n := by
  cases h with
  | refused why => exact Or.inl (log_keeps side _ ht)
  | kept x bs fd status link wire bytes => exact Or.inl (put_keeps ht link fd)
  | failed x s bs fd status link wire bytes trace =>
    have hg := put_goes ht link fd
    exact Or.inr (hg.ended (herr _ hg))

theorem onErrorProxy_ended {m : TunCtx} (h : m.Tidy) : Ended m m.onErrorProxy :=
  (onErrorProxy_closes h).ended

theorem sendProxy_spec (data : Bytes) {m : TunCtx} (hh : m.Heard .proxy) :
    SideSend .proxy onErrorProxy data m (m.sendProxy data) :=
  sideSend_spec .proxy onErrorProxy data m hh

theorem sendProxy_keeps (data : Bytes) {m : TunCtx} (ht : m.Tidy) (hh : m.Heard .proxy) :
    Keeps .proxy m (m.sendProxy data) ∨ Ended m (m.sendProxy data) :=
  (sendProxy_spec data hh).keeps ht fun _ hg => onErrorProxy_ended hg.tidy

theorem sendProxy_continues (data : Bytes) {m : TunCtx} (ht : m.Tidy) (hh : m.Heard .proxy) :
    Continues m (m.sendProxy data) :=
  (sendProxy_keeps data ht hh).imp (fun h => h.toGoes) id

/-- Giving up a session twice is giving it up. -/
theorem Ended.sendProxy {m n : TunCtx} (h : Ended m n) (data : Bytes) :
    Ended m (n.sendProxy data) := by
  have hs : n.sendProxy data = n.log (.sendCall (n.conn .proxy).this data) := by
    have hspec := sendProxy_spec data (h.heard .proxy)
    generalize n.sendProxy data = k at hspec ⊢
    cases hspec with
    | refused => rfl
    | kept _ _ fd => exact absurd (h.shut .proxy).fd (not_lt.mpr fd)
    | failed _ _ _ fd => exact absurd (h.shut .proxy).fd (not_lt.mpr fd)
  rw [hs]
  exact h.congr rfl rfl (fun side => conn_log n side _) h.emptied

/-- A flush changes the proxy connection and the cache, or gives up the session. -/
theorem flushLocal_along {m : TunCtx} (ht : m.Tidy) (hh : m.Heard .proxy) :
    Along .proxy m m.flushLocal ∨ Ended m m.flushLocal := by
  unfold flushLocal
  split
  swap
  · exact Or.inl (Along.refl .proxy ht)
  have hmod : ∀ s k : TunCtx, Along .proxy m s ∨ Ended m s → k.key = s.key →
      k.tun.mHandler = s.tun.mHandler → k.mBrokenTuns = s.mBrokenTuns →
      k.tun.mProxyStatus = s.tun.mProxyStatus → k.tun.mHttpHeader = s.tun.mHttpHeader →
      (∀ side, k.conn side = s.conn side) →
      (s.tun.mLocalCache.Emptied → k.tun.mLocalCache.Emptied) →
      Along .proxy m k ∨ Ended m k := by
    intro s k hs hk hm hb hst hd hc he
    rcases hs with hs | hs
    · exact Or.inl ⟨hs.toGoes.congr hk hm hb hst hc, (hc _).trans hs.other,
        hst.trans hs.mProxyStatus, hd.trans hs.mHttpHeader⟩
    · exact Or.inr (hs.congr hk hm hc (he hs.emptied))
  have hconn : ∀ s k : TunCtx, k.tun.mLocalConn = s.tun.mLocalConn →
      k.tun.mProxyConn = s.tun.mProxyConn → ∀ side, k.conn side = s.conn side := by
    intro s k h1 h2 side
    cases side
    exacts [h1, h2]
  refine cacheHost.flushAll_preserves (P := fun s => Along .proxy m s ∨ Ended m s)
    (fun _ _ => rfl) ?_ ?_ ?_ ?_ ?_ (m.log (.flushing m.tun.this))
    (Or.inl (log_keeps .proxy _ ht).toAlong)
  · exact fun c s hs hd => hmod s _ hs rfl rfl rfl rfl rfl (hconn _ _ rfl rfl) fun he => he.drains hd
  · intro d s hs
    rcases hs with hs | hs
    · exact (sendProxy_keeps d hs.tidy (hs.toGoes.heard hh)).imp (fun hk => hs.trans hk.toAlong)
        fun he => hs.toGoes.ended he
    · exact Or.inr (hs.sendProxy d)
  · exact fun s hs => hmod s _ hs rfl rfl rfl rfl rfl (hconn _ _ rfl rfl) id
  · exact fun s hs => hmod s _ hs rfl rfl rfl rfl rfl (hconn _ _ rfl rfl) id
  · exact fun s hs => hmod s _ hs rfl rfl rfl rfl rfl (hconn _ _ rfl rfl) id

theorem flushLocal_continues {m : TunCtx} (ht : m.Tidy) (hh : m.Heard .proxy) :
    Continues m m.flushLocal :=
  (flushLocal_along ht hh).imp Along.toGoes id

/-- `flushLocal` asks for the status itself. -/
theorem flushLocal_if (m : TunCtx) :
    (if m.tun.mProxyStatus = .Connected then m.flushLocal else m) = m.flushLocal := by
  split
  · rfl
  · rename_i hs
    rw [flushLocal, if_neg hs]

theorem onErrorLocal_eq (m : TunCtx) : m.onErrorLocal =
    (((m.shutdown .loc).flushLocal.setStatus .Closed).detach .proxy)._onError := by
  rw [← (m.shutdown .loc).flushLocal_if]
  rfl

theorem onDisconnected_loc_eq (m : TunCtx) : m.onDisconnected .loc =
    (((m.shutdown .loc).flushLocal.setStatus .Closed).shutdown .proxy)._onClose := by
  rw [← (m.shutdown .loc).flushLocal_if]
  rfl

/-- Closing the client's side leaves the other connection as it is. -/
theorem shutdown_loc_tidy {m : TunCtx} (ht : m.Tidy) (hh : m.Heard .proxy) :
    (m.shutdown .loc).Tidy ∧ (m.shutdown .loc).Heard .proxy := by
  obtain ⟨hd, htouch, -⟩ := m.shutdown_spec .loc (ht .loc)
  have hp : (m.shutdown .loc).conn .proxy = m.conn .proxy := htouch.other
  refine ⟨fun side => ?_, ?_⟩
  · cases side
    exacts [hd.clean, hp ▸ ht .proxy]
  · unfold Heard
    rw [hp]
    exact hh

/-- The state in which the local side is closed and the cache is flushed. -/
theorem flushed_tidy {m : TunCtx} (ht : m.Tidy) (hh : m.Heard .proxy) :
    (m.shutdown .loc).flushLocal.Tidy ∧ (m.shutdown .loc).flushLocal.key = m.key ∧
      (m.shutdown .loc).flushLocal.tun.mHandler = m.tun.mHandler := by
  obtain ⟨-, htouch, -⟩ := m.shutdown_spec .loc (ht .loc)
  obtain ⟨ht', hh'⟩ := shutdown_loc_tidy ht hh
  have hc := flushLocal_continues ht' hh'
  refine ⟨hc.tidy, ?_, ?_⟩
  · rcases hc with hc | hc <;> exact hc.key.trans htouch.key
  · rcases hc with hc | hc <;> exact hc.mHandler.trans htouch.mHandler

theorem onErrorLocal_ended {m : TunCtx} (ht : m.Tidy) (hh : m.Heard .proxy)
    (hm : m.tun.mHandler = true) : Ended m m.onErrorLocal := by
  rw [onErrorLocal_eq]
  obtain ⟨ht', hk, hm'⟩ := flushed_tidy ht hh
  let n := (m.shutdown .loc).flushLocal.setStatus .Closed
  have hn : n.Tidy := fun side => by simpa [n] using ht' side
  obtain ⟨hd, htouch⟩ := n.detach_spec .proxy (hn .proxy)
  have hl : (n.detach .proxy).conn .loc = n.conn .loc := htouch.other
  have hc := _onError_closes (m := n.detach .proxy)
    (fun side => by cases side; exacts [hl ▸ hn .loc, hd.toDead.clean])
    (htouch.mHandler.trans (hm'.trans hm))
  exact ⟨hc.key.trans (htouch.key.trans hk), hc.mHandler.trans (htouch.mHandler.trans hm'),
    hc.shut, hc.emptied⟩

theorem onDisconnected_loc_ended {m : TunCtx} (ht : m.Tidy) (hh : m.Heard .proxy)
    (hm : m.tun.mHandler = true) : Ended m (m.onDisconnected .loc) := by
  rw [onDisconnected_loc_eq]
  obtain ⟨ht', hk, hm'⟩ := flushed_tidy ht hh
  let n := (m.shutdown .loc).flushLocal.setStatus .Closed
  have hn : n.Tidy := fun side => by simpa [n] using ht' side
  obtain ⟨hd, htouch, -⟩ := n.shutdown_spec .proxy (hn .proxy)
  have hl : (n.shutdown .proxy).conn .loc = n.conn .loc := htouch.other
  have hc := _onClose_closes (m := n.shutdown .proxy)
    (fun side => by cases side; exacts [hl ▸ hn .loc, hd.clean])
    (htouch.mHandler.trans (hm'.trans hm))
  exact ⟨hc.key.trans (htouch.key.trans hk), hc.mHandler.trans (htouch.mHandler.trans hm'),
    hc.shut, hc.emptied⟩

theorem onError_ended (side : Side) {m : TunCtx} (ht : m.Tidy) (hh : m.Heard .proxy)
    (hm : m.tun.mHandler = true) : Ended m (m.onError side) := by
  cases side
  · exact onErrorLocal_ended ht hh hm
  · exact onErrorProxy_ended ht

theorem onDisconnected_ended (side : Side) {m : TunCtx} (ht : m.Tidy) (hh : m.Heard .proxy)
    (hm : m.tun.mHandler = true) : Ended m (m.onDisconnected side) := by
  cases side
  · exact onDisconnected_loc_ended ht hh hm
  · exact (onDisconnected_proxy_closes ht hm).ended

theorem sendLocal_spec (data : Bytes) {m : TunCtx} (hh : m.Heard .loc) :
    SideSend .loc onErrorLocal data m (m.sendLocal data) :=
  sideSend_spec .loc onErrorLocal data m hh

theorem sendLocal_keeps (data : Bytes) {m : TunCtx} (ht : m.Tidy)
    (hh : ∀ side, m.Heard side) (hm : m.tun.mHandler = true) :
    Keeps .loc m (m.sendLocal data) ∨ Ended m (m.sendLocal data) :=
  (sendLocal_spec data (hh .loc)).keeps ht fun _ hg =>
    onErrorLocal_ended hg.tidy (hg.heard (hh .proxy)) (hg.mHandler.trans hm)

theorem dropProxy_ended {m : TunCtx} (ht : m.Tidy) (hm : m.tun.mHandler = true) :
    Ended m m.dropProxy :=
  (dropProxy_closes ht hm).ended

theorem parseHttpHeader_continues {m : TunCtx} (ht : m.Tidy) (hh : m.Heard .proxy)
    (hm : m.tun.mHandler = true) (hs : m.tun.mProxyStatus = .Connecting) :
    Continues m m.parseHttpHeader := by
  unfold parseHttpHeader
  split
  swap
  · exact Or.inl (Goes.refl ht)
  split
  · let n := (m.setStatus .Connected).log (.established m.tun.this)
    have hg : Goes m n := ⟨rfl, rfl, rfl, fun side => by simpa [n] using ht side, Or.inr ⟨hs, rfl⟩,
      fun side => by simp only [n, conn_log, conn_setStatus]; exact SameLink.refl _⟩
    exact hg.continues (flushLocal_continues hg.tidy (hg.heard hh))
  · have hc := dropProxy_ended (m := m.setStatus .Error) (fun side => by simpa using ht side) hm
    exact Or.inr ⟨hc.key, hc.mHandler, hc.shut, hc.emptied⟩

theorem setHeader_goes {m : TunCtx} (buf : Bytes) (ht : m.Tidy) :
    Goes m { m with tun.mHttpHeader := buf } :=
  (Goes.refl ht).congr rfl rfl rfl rfl fun side => by cases side <;> rfl

theorem onRecv_continues (side : Side) (data : Bytes) {m : TunCtx} (ht : m.Tidy)
    (hh : ∀ side, m.Heard side) (hm : m.tun.mHandler = true) :
    Continues m (m.onRecv side data) := by
  cases side with
  | loc =>
    simp only [onRecv]
    split
    · exact sendProxy_continues data ht (hh .proxy)
    · exact Or.inl ((Goes.refl ht).congr rfl rfl rfl rfl fun side => by cases side <;> rfl)
  | proxy =>
    simp only [onRecv]
    split
    · rename_i hs
      split
      · exact Or.inr (dropProxy_ended ht hm)
      · exact (setHeader_goes _ ht).continues (parseHttpHeader_continues (setHeader_goes _ ht).tidy
          (hh .proxy) hm hs)
    · split
      · exact Or.inr (dropProxy_ended ht hm)
      · exact (sendLocal_keeps data ht hh hm).imp (fun h => h.toGoes) id
    · exact Or.inr (dropProxy_ended ht hm)

end TunCtx

end HttpsProxy
