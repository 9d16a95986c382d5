import HttpsProxy.ConnectionErrors
import HttpsProxy.ServerStream

/-! Whatever happens to a session, every packet that waits for a socket has
bytes left to send, so the `assert` of `tryFlushRemainPacket` never fails. -/
namespace HttpsProxy

namespace ProxyTunnel

theorem connectRequest_ne_nil (t : ProxyTunnel) : t.connectRequest ≠ [] := by
  have hlines : ∃ rest, t.requestLines = 67 :: rest := ⟨_, rfl⟩
  obtain ⟨rest, hrest⟩ := hlines
  have hcstr : ∀ s : Bytes, cstr (snprintf HTTP_HEADER_SIZE (67 :: s)) ≠ [] := by
    intro s
    simp [snprintf, HTTP_HEADER_SIZE, cstr]
  unfold connectRequest
  split
  · rw [hrest, List.cons_append]
    exact hcstr _
  · rw [hrest]
    exact hcstr _

end ProxyTunnel

/-- No chunk that is kept is empty. -/
theorem Cache.cache_ne_nil {c : Cache} {data : Bytes} (maxLen : ℕ) (ws : List WriteRes)
    (h : ∀ d ∈ c.mCachedList, d ≠ []) (hd : data ≠ []) :
    ∀ d ∈ (c.cache maxLen ws data).1.mCachedList, d ≠ [] := by
  have happ : ∀ d ∈ c.mCachedList ++ [data], d ≠ [] := by
    intro d hm
    rcases List.mem_append.mp hm with hm | hm
    · exact h d hm
    · rw [List.mem_singleton.mp hm]
      exact hd
  unfold cache
  simp only
  split
  · split
    · exact h
    · exact happ
  · exact happ

namespace TunCtx

/-- The packets that wait for a socket and the chunks in memory have bytes to
send. -/
structure Fit (m : TunCtx) : Prop where
  queue : ∀ side, Unspent (m.conn side).mTcpPacketList
  cached : ∀ d ∈ m.tun.mLocalCache.mCachedList, d ≠ []

namespace Fit

variable {m : TunCtx}

theorem congr {n : TunCtx} (h : m.Fit)
    (queue : ∀ side, (n.conn side).mTcpPacketList = (m.conn side).mTcpPacketList)
    (cached : n.tun.mLocalCache.mCachedList = m.tun.mLocalCache.mCachedList) : n.Fit :=
  ⟨fun side => queue side ▸ h.queue side, cached ▸ h.cached⟩

theorem put (h : m.Fit) (side : Side) {x : Ctx} (hx : Unspent x.conn.mTcpPacketList) :
    (m.put side x).Fit := by
  have hcached : (m.put side x).tun.mLocalCache = m.tun.mLocalCache := by cases side <;> rfl
  refine ⟨fun s => ?_, hcached ▸ h.cached⟩
  by_cases hs : s = side
  · rw [hs, conn_put]
    exact hx
  · rw [Side.eq_other hs, conn_put_other]
    exact h.queue _

theorem setEventHandler (h : m.Fit) (side : Side) (b : Bool) : (m.setEventHandler side b).Fit :=
  h.congr (fun s => by cases side <;> cases s <;> rfl) (by cases side <;> rfl)

theorem setStatus (h : m.Fit) (st : EProxyStatus) : (m.setStatus st).Fit :=
  h.congr (fun s => by cases s <;> rfl) rfl

theorem log (h : m.Fit) (e : Ev) : (m.log e).Fit :=
  h.congr (fun s => by cases s <;> rfl) rfl

theorem insertBroken (h : m.Fit) : m.insertBroken.Fit :=
  h.congr (fun s => by cases s <;> rfl) rfl

theorem clearCache (h : m.Fit) : m.clearCache.Fit :=
  ⟨fun s => by cases s; exacts [h.queue .loc, h.queue .proxy], by simp [TunCtx.clearCache, Cache.clear]⟩

theorem shutdown (h : m.Fit) (side : Side) : (m.shutdown side).Fit :=
  h.put side ((m.ctx side).shutdown_unspent (h.queue side)).2

theorem detach (h : m.Fit) (side : Side) : (m.detach side).Fit :=
  (h.setEventHandler side false).shutdown side

theorem cleanup (h : m.Fit) : m.cleanup.Fit :=
  ((h.clearCache.detach .loc).setStatus .Closed).detach .proxy

theorem _onClose (h : m.Fit) : m._onClose.Fit := by
  unfold TunCtx._onClose
  split
  · exact (h.log _).cleanup.insertBroken
  · exact h

theorem _onError (h : m.Fit) : m._onError.Fit := by
  unfold TunCtx._onError
  split
  · exact (h.log _).cleanup.insertBroken
  · exact h

theorem onErrorProxy (h : m.Fit) : m.onErrorProxy.Fit :=
  ((h.detach .proxy).clearCache.detach .loc)._onError

theorem dropProxy (h : m.Fit) : m.dropProxy.Fit := (h.setEventHandler .proxy false)._onError

/-- A `send` on either side, with the handling of the error it may end in. -/
theorem send (h : m.Fit) (side : Side) {onError : TunCtx → TunCtx} {data : Bytes}
    (hd : data ≠ []) (herr : ∀ n : TunCtx, n.Fit → (onError n).Fit) :
    ((errorOwner side onError).run ((m.ctx side).send data) m).Fit := by
  have hput := h.put side ((m.ctx side).send_unspent ⟨data, hd⟩ (h.queue side)).2
  unfold Owner.run
  split
  · exact hput
  · rename_i cb _
    cases cb with
    | onError => exact herr _ hput
    | _ => exact hput

theorem sendProxy (h : m.Fit) {data : Bytes} (hd : data ≠ []) : (m.sendProxy data).Fit :=
  h.send .proxy hd fun _ hn => hn.onErrorProxy

theorem drains {c : Cache} (h : m.Fit) (hc : (cacheHost.get m).Drains c) :
    (cacheHost.put c m).Fit := by
  refine ⟨fun side => by cases side; exacts [h.queue .loc, h.queue .proxy], ?_⟩
  change ∀ d ∈ c.mCachedList, d ≠ []
  cases hc with
  | erase => exact fun d hm => h.cached d (List.mem_of_mem_tail hm)
  | peek => exact h.cached
  | read n => exact h.cached
  | count n => exact h.cached
  | rollback n => exact h.cached

theorem flushLocal (h : m.Fit) : m.flushLocal.Fit := by
  unfold TunCtx.flushLocal
  split
  swap
  · exact h
  refine cacheHost.flushAll_watched (P := Fit) (D := fun d => d ≠ []) (fun _ _ => rfl)
    (fun _ _ hs hc => hs.drains hc) (fun _ hd => hd) ?_ ?_ _ h.cached (h.log _)
  · intro d s hd hs
    have hsent := hs.sendProxy hd
    refine ⟨fun _ => hsent, fun _ => ⟨⟨fun side => ?_, hsent.cached⟩, hsent.log _⟩⟩
    cases side
    exacts [hsent.queue .loc, hsent.queue .proxy]
  · exact fun s hs => hs.congr (fun s => by cases s <;> rfl) rfl

theorem onErrorLocal (h : m.Fit) : m.onErrorLocal.Fit := by
  rw [onErrorLocal_eq]
  exact ((((h.shutdown .loc).flushLocal).setStatus .Closed).detach .proxy)._onError

theorem sendLocal (h : m.Fit) {data : Bytes} (hd : data ≠ []) : (m.sendLocal data).Fit :=
  h.send .loc hd fun _ hn => hn.onErrorLocal

theorem onError (h : m.Fit) (side : Side) : (m.onError side).Fit := by
  cases side
  exacts [h.onErrorLocal, h.onErrorProxy]

theorem onConnected (h : m.Fit) (side : Side) : (m.onConnected side).Fit := by
  cases side with
  | loc => exact h.congr (fun s => by cases s <;> rfl) rfl
  | proxy =>
    have hn : Fit { m.setStatus .Connecting with
        tun.mHttpHeader := memcpy m.tun.mHttpHeader 0 [0] } :=
      h.congr (fun s => by cases s <;> rfl) rfl
    exact hn.sendProxy (ProxyTunnel.connectRequest_ne_nil _)

theorem onDisconnected (h : m.Fit) (side : Side) : (m.onDisconnected side).Fit := by
  cases side with
  | loc =>
    rw [onDisconnected_loc_eq]
    exact ((((h.shutdown .loc).flushLocal).setStatus .Closed).shutdown .proxy)._onClose
  | proxy => exact ((h.shutdown .proxy).clearCache.shutdown .loc)._onClose

theorem parseHttpHeader (h : m.Fit) : m.parseHttpHeader.Fit := by
  unfold TunCtx.parseHttpHeader
  split
  · split
    · exact ((h.setStatus .Connected).log _).flushLocal
    · exact ((h.setStatus .Error).setEventHandler .proxy false)._onError
  · exact h

theorem cacheLocal (h : m.Fit) {data : Bytes} (hd : data ≠ []) : (m.cacheLocal data).Fit :=
  ⟨fun s => by cases s; exacts [h.queue .loc, h.queue .proxy],
    Cache.cache_ne_nil MAX_LEN_CACHE_IN_MEM m.stdio h.cached hd⟩

theorem onRecv (h : m.Fit) (side : Side) {data : Bytes} (hd : data ≠ []) :
    (m.onRecv side data).Fit := by
  cases side with
  | loc =>
    simp only [TunCtx.onRecv]
    split
    · exact h.sendProxy hd
    · exact h.cacheLocal hd
  | proxy =>
    simp only [TunCtx.onRecv]
    split
    · split
      · exact h.dropProxy
      · have hbuf : ∀ buf, Fit { m with tun.mHttpHeader := buf } :=
          fun buf => h.congr (fun s => by cases s <;> rfl) rfl
        exact (hbuf _).parseHttpHeader
    · split
      · exact h.dropProxy
      · exact h.sendLocal hd
    · exact h.dropProxy

theorem read (h : m.Fit) {side : Side} {n : TunCtx} (hr : Read side m n) : n.Fit := by
  obtain ⟨st, -, hc⟩ := hr.conn
  refine h.congr (fun s => ?_) (by rw [hr.mLocalCache])
  by_cases hs : s = side
  · rw [hs, hc]
  · rw [Side.eq_other hs, hr.other]

theorem noting (h : m.Fit) {side : Side} {e : Ev} {y : TunCtx} (hy : Noting side e m y) :
    y.Fit := by
  refine h.congr (fun s => ?_) (by rw [hy.mLocalCache])
  by_cases hs : s = side
  · rw [hs, hy.queue]
  · rw [Side.eq_other hs, hy.other]

/-- A method of a connection and the callback it makes. -/
theorem run (h : m.Fit) (side : Side) {r : Ctx × Option Callback}
    (hr : Unspent r.1.conn.mTcpPacketList) (hd : r.2 ≠ some (.onRecv [])) :
    ((owner side).run r m).Fit := by
  obtain ⟨x, cb⟩ := r
  have hput := h.put side hr
  cases cb with
  | none => exact hput
  | some cb =>
    cases cb with
    | onConnected => exact hput.onConnected side
    | onDisconnected => exact hput.onDisconnected side
    | onError => exact hput.onError side
    | onRecv data => exact hput.onRecv side fun hnil => hd (by rw [hnil])

theorem input (h : m.Fit) (side : Side) : ((owner side).handleInputNotification m).Fit := by
  unfold Owner.handleInputNotification
  split
  · exact h
  · have hr : ((owner side).run ((owner side).ctx m).inputRecv m).Fit := by
      refine h.run side ?_ ?_
      · rw [(Ctx.inputRecv_calm _).2.2]
        exact h.queue side
      · unfold Ctx.inputRecv
        simp only
        split
        · rename_i hb
          simpa using hb.1
        · simp
    refine hr.run side ?_ ?_
    · rw [(Ctx.inputFinish_calm _).2.2]
      exact hr.queue side
    · unfold Ctx.inputFinish
      split
      · split
        · simp [Ctx.raiseError]
        · split <;> simp
      · simp

theorem output (h : m.Fit) (side : Side) : ((owner side).handleOutputNotification m).Fit := by
  refine h.run side (Ctx.handleOutputNotification_unspent _ (h.queue side)).2 ?_
  unfold Ctx.handleOutputNotification Ctx.checkSocketErrors
  simp only
  repeat' split
  all_goals simp [Ctx.raiseError]

theorem step (h : m.Fit) (a : Entry × Notice) : (m.step a).Fit := by
  unfold TunCtx.step
  split
  · exact h
  · have he : (m.enter a.1).Fit := h.congr (fun s => by cases s <;> rfl) rfl
    unfold notify
    split
    · exact he.input _
    · exact he.output _

end Fit

/-- With nothing queued at all, nothing empty is queued. -/
theorem Fit.of_empty {m : TunCtx} (hq : ∀ side, (m.conn side).mTcpPacketList = [])
    (hc : m.tun.mLocalCache.Emptied) : m.Fit := by
  refine ⟨fun side => ?_, ?_⟩
  · rw [hq side]
    simp [Unspent]
  · rw [hc.list]
    simp

theorem onAccept_fit (cfg : Config) (connfd : ℕ) {m : TunCtx} (h : m.tun.Idle) :
    (m.onAccept cfg connfd).2.Fit := by
  obtain ⟨hshut, hempty⟩ := (idle_iff m).mp h
  have hhandler : ∀ {n : TunCtx}, n.Fit → Fit { n with tun.mHandler := true } := fun hn =>
    hn.congr (fun s => by cases s <;> rfl) rfl
  have ho := onAccept_spec cfg connfd hshut
  generalize m.onAccept cfg connfd = r at ho
  cases ho with
  | refused _ n key shut cache log =>
    exact .of_empty (fun side => (shut side).toDead.queue) (cache ▸ hempty)
  | waiting n key broken linked status cache queue log =>
    exact hhandler (.of_empty queue (cache ▸ hempty))
  | asked n key broken linked status header cache queue log =>
    have hn : n.Fit := .of_empty queue (cache ▸ hempty)
    exact hhandler (hn.sendProxy (ProxyTunnel.connectRequest_ne_nil _))

end TunCtx

namespace Session

theorem run_fit (cfg : Config) (s : Session) {t : ProxyTunnel} (h : Recycled cfg t) :
    (s.run cfg t).Fit :=
  s.run_rule h (TunCtx.onAccept_fit cfg s.connfd h.idle.1) fun _ a _ _ hm => hm.step a

end Session

end HttpsProxy
