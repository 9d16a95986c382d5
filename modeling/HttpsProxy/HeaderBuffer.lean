import HttpsProxy.ClientRule
import HttpsProxy.TunnelPool
import HttpsProxy.TunnelRule

/-! The bounds of `mHttpHeader`. Whatever has been written to it before, it ends
with a zero somewhere, and a chunk is only taken where it and a zero fit behind
the text. -/
namespace HttpsProxy

theorem strlen_lt {buf : Bytes} (h : 0 ∈ buf) : strlen buf < buf.length := by
  induction buf with
  | nil => cases h
  | cons b buf ih =>
    by_cases hb : b = 0
    · simp [strlen, cstr, hb]
    · have hrest := ih ((List.mem_cons.mp h).resolve_left (Ne.symm hb))
      simpa [strlen, cstr, hb] using hrest

theorem memcpy_length {buf data : Bytes} {off : ℕ} (h : off + data.length ≤ buf.length) :
    (memcpy buf off data).length = buf.length := by
  simp only [memcpy, List.length_append, List.length_take, List.length_drop]
  omega

/-- `memcpy` writes to its own range only. -/
theorem memcpy_outside {buf data : Bytes} {off i : ℕ} (h : off + data.length ≤ buf.length)
    (hi : i < off ∨ off + data.length ≤ i) : (memcpy buf off data)[i]? = buf[i]? := by
  have hlen : (buf.take off).length = off := by
    rw [List.length_take]
    omega
  rcases hi with hi | hi
  · rw [memcpy, List.append_assoc, List.getElem?_append_left (by omega), List.getElem?_take_of_lt hi]
  · rw [memcpy, List.getElem?_append_right (by rw [List.length_append]; omega), List.length_append, hlen,
      List.getElem?_drop]
    congr 1
    omega

theorem mem_memcpy {buf data : Bytes} {off : ℕ} {b : UInt8} (h : b ∈ data) : b ∈ memcpy buf off data :=
  List.mem_append_left _ (List.mem_append_right _ h)

/-- `mHttpHeader` has its size, and ends with a zero somewhere. -/
structure Terminated (buf : Bytes) : Prop where
  length : buf.length = HTTP_HEADER_SIZE
  zero : 0 ∈ buf

theorem Terminated.strlen {buf : Bytes} (h : Terminated buf) : strlen buf < HTTP_HEADER_SIZE := by
  have hlt := strlen_lt h.zero
  rwa [h.length] at hlt

namespace TunCtx

theorem restart_terminated {buf : Bytes} (h : Terminated buf) : Terminated (memcpy buf 0 [0]) := by
  refine ⟨?_, mem_memcpy List.mem_cons_self⟩
  have hsize : 0 < HTTP_HEADER_SIZE := by decide
  rw [memcpy_length, h.length]
  rw [h.length, List.length_singleton]
  exact hsize

theorem written_terminated {data : Bytes} {m : TunCtx} (h : Terminated m.tun.mHttpHeader)
    (hfits : strlen m.tun.mHttpHeader + data.length < HTTP_HEADER_SIZE) : Terminated (m.written data) := by
  have hfirst : (memcpy m.tun.mHttpHeader (strlen m.tun.mHttpHeader) data).length = HTTP_HEADER_SIZE := by
    rw [memcpy_length, h.length]
    rw [h.length]
    exact hfits.le
  refine ⟨?_, mem_memcpy List.mem_cons_self⟩
  rw [written, memcpy_length, hfirst]
  rw [hfirst, List.length_singleton]
  exact hfits

theorem room_eq {m : TunCtx} (h : Terminated m.tun.mHttpHeader) (data : Bytes) :
    data.length ≤ m.room ↔ strlen m.tun.mHttpHeader + data.length < HTTP_HEADER_SIZE := by
  have hlt := h.strlen
  rw [room]
  omega

/-- No piece of a method takes the zero away. -/
theorem terminated_rule : Rule fun m n => Terminated m.tun.mHttpHeader → Terminated n.tun.mHttpHeader := by
  have hput (side : Side) (x : Ctx) (m : TunCtx) (h : Terminated m.tun.mHttpHeader) :
      Terminated (m.put side x).tun.mHttpHeader := by
    cases side <;> exact h
  exact {
    refl := fun _ h => h
    trans := fun h l hm => l (h hm)
    shutdown := fun side m => hput side _ m
    send := fun side _ m => hput side _ m
    inputRecv := fun side m => hput side _ m
    inputFinish := fun side m => hput side _ m
    output := fun side m => hput side _ m
    setEventHandler := fun side _ m h => by cases side <;> exact h
    setStatus := fun _ _ h => h
    cache := fun _ _ _ h => h
    restart := fun _ h => restart_terminated h
    take := fun data _ hroom h => written_terminated h ((room_eq h data).mp hroom)
    insertBroken := fun _ h => h
    log := fun _ _ _ h => h
    dangling := fun _ h => h
    aborted := fun _ h => h }

theorem onAccept_terminated (cfg : Config) (connfd : ℤ) (m : TunCtx) (h : Terminated m.tun.mHttpHeader) :
    Terminated (m.onAccept cfg connfd).2.tun.mHttpHeader := by
  have hput (side : Side) (x : Ctx) (n : TunCtx) (h : Terminated n.tun.mHttpHeader) :
      Terminated (n.put side x).tun.mHttpHeader := by
    cases side <;> exact h
  refine terminated_rule.onAccept cfg connfd (fun h => ?_) (fun _ h => h) (fun _ h => h)
    (fun n => hput .loc _ n) (fun n _ => hput .proxy _ n) h
  unfold configured setProxyServer
  cases cfg.pton cfg.mProxyIp <;> exact h

/-- The indices of the bytes that `onRecv` writes when it takes the chunk. -/
def writes (data : Bytes) (m : TunCtx) : List ℕ :=
  List.range' (strlen m.tun.mHttpHeader) (data.length + 1)

/-- What `onRecv` does with the chunk `data` of the answer of the proxy server. It
is taken when it fits, and then only bytes inside the buffer are written; else
nothing is written, and the client is told once. -/
structure TakesChunk (data : Bytes) (m : TunCtx) : Prop where
  terminated : Terminated m.tun.mHttpHeader
  taken : strlen m.tun.mHttpHeader + data.length < HTTP_HEADER_SIZE →
    m.onRecv .proxy data = parseHttpHeader { m with tun.mHttpHeader := m.written data } ∧
      Terminated (m.written data) ∧ (∀ i ∈ m.writes data, i < HTTP_HEADER_SIZE) ∧
        ∀ i ∉ m.writes data, (m.written data)[i]? = m.tun.mHttpHeader[i]?
  dropped : HTTP_HEADER_SIZE ≤ strlen m.tun.mHttpHeader + data.length →
    (m.onRecv .proxy data).tun.mHttpHeader = m.tun.mHttpHeader ∧
      (∃ evs, (m.onRecv .proxy data).sys.trace = m.sys.trace ++ evs ∧
        evs.count (.onBroken m.tun.this) = 1) ∧
      (owner .proxy).run ((m.onRecv .proxy data).ctx .proxy).inputFinish (m.onRecv .proxy data) =
        m.onRecv .proxy data

/-- Shutting a connection down closes a descriptor, and tells nobody. -/
theorem shutdown_closes (side : Side) (m : TunCtx) :
    (∃ evs, (m.shutdown side).sys.trace = m.sys.trace ++ evs ∧ ∀ e ∈ evs, ∃ fd, e = .close fd) ∧
      ((m.shutdown side).conn side).mHandler = (m.conn side).mHandler := by
  have hconn : (m.shutdown side).conn side = (m.ctx side).shutdown.conn := conn_put m side _
  have hsys : (m.shutdown side).sys = (m.ctx side).shutdown.sys := by cases side <;> rfl
  rw [hconn, hsys]
  by_cases h : (m.ctx side).conn.mFd < 0
  · rw [Ctx.shutdown_of_closed _ h]
    exact ⟨⟨[], (List.append_nil _).symm, by simp⟩, rfl⟩
  · have h' := not_lt.mp h
    rw [Ctx.shutdown_conn _ h', (Ctx.shutdown_sys _ h').2.2.1]
    exact ⟨⟨_, rfl, by simp⟩, rfl⟩

theorem count_onBroken {t : TunId} {evs : List Ev} (h : ∀ e ∈ evs, ∃ fd, e = .close fd) :
    evs.count (.onBroken t) = 0 := by
  apply List.count_eq_zero.mpr
  intro ht
  obtain ⟨fd, hfd⟩ := h _ ht
  cases hfd

/-- The proxy server is not listened to any more, and the client is told once. -/
theorem dropProxy_once {m : TunCtx} (hm : m.tun.mHandler = true) :
    m.dropProxy.tun.mHttpHeader = m.tun.mHttpHeader ∧
      (∃ evs, m.dropProxy.sys.trace = m.sys.trace ++ evs ∧ evs.count (.onBroken m.tun.this) = 1) ∧
        (m.dropProxy.conn .proxy).mHandler = false := by
  let n := (m.setEventHandler .proxy false).log (.onBroken m.tun.this)
  let u := n.clearCache.setEventHandler .loc false
  let v := ((u.shutdown .loc).setStatus .Closed).setEventHandler .proxy false
  have hdrop : m.dropProxy = (v.shutdown .proxy).insertBroken := by
    rw [dropProxy, _onError, if_pos (show (m.setEventHandler .proxy false).tun.mHandler = true from hm)]
    rfl
  obtain ⟨⟨es, hes, hce⟩, -⟩ := shutdown_closes .loc u
  obtain ⟨⟨fs, hfs, hcf⟩, hhandler⟩ := shutdown_closes .proxy v
  have htrace : m.dropProxy.sys.trace = m.sys.trace ++ ([.onBroken m.tun.this] ++ (es ++ fs)) := by
    calc m.dropProxy.sys.trace = (v.shutdown .proxy).sys.trace := by rw [hdrop]; rfl
      _ = (u.shutdown .loc).sys.trace ++ fs := hfs
      _ = (m.sys.trace ++ [.onBroken m.tun.this]) ++ es ++ fs := by rw [hes]; rfl
      _ = _ := by simp only [List.append_assoc]
  refine ⟨by rw [hdrop]; rfl, ⟨_, htrace, ?_⟩, by rw [hdrop]; exact hhandler⟩
  rw [List.count_append, List.count_append, count_onBroken hce, count_onBroken hcf,
    List.count_singleton_self]

theorem takesChunk {m : TunCtx} (h : Terminated m.tun.mHttpHeader) (hst : m.tun.mProxyStatus = .Connecting)
    (hm : m.tun.mHandler = true) (data : Bytes) : m.TakesChunk data := by
  have hroom := room_eq h data
  refine ⟨h, fun hfits => ⟨?_, written_terminated h hfits, fun i hi => ?_, fun i hi => ?_⟩, fun hlarge => ?_⟩
  · have hle : ¬m.room < data.length := not_lt.mpr (hroom.mpr hfits)
    simp only [onRecv, hst]
    rw [room] at hle
    rw [if_neg hle]
    rfl
  · rw [writes, List.mem_range'_1] at hi
    omega
  · rw [writes, List.mem_range'_1] at hi
    have hlen := h.length
    have hfirst : (memcpy m.tun.mHttpHeader (strlen m.tun.mHttpHeader) data).length = m.tun.mHttpHeader.length :=
      memcpy_length (by omega)
    rw [written, memcpy_outside, memcpy_outside]
    · omega
    · omega
    · rw [hfirst, List.length_singleton]
      omega
    · rw [List.length_singleton]
      omega
  · have hlt : m.room < data.length := not_le.mp (mt hroom.mp (not_lt.mpr hlarge))
    have hrecv : m.onRecv .proxy data = m.dropProxy := by
      rw [room] at hlt
      simp only [onRecv, hst]
      rw [if_pos hlt]
    obtain ⟨hheader, hlog, hhandler⟩ := dropProxy_once hm
    rw [hrecv]
    exact ⟨hheader, hlog, inputFinish_unheard hhandler⟩

end TunCtx

namespace ProxyClient

open TunCtx

theorem new_terminated (t : TunId) : Terminated (ProxyTunnel.new t).mHttpHeader :=
  ⟨List.length_replicate, List.mem_replicate.mpr ⟨by decide, rfl⟩⟩

/-- The header buffer of every tunnel is in order, and a notification that finds
the proxy server asked hands on what it has read with the bounds kept. -/
theorem header_in_bounds (cfg : Config) {w : ProxyClient} (h : Reachable cfg w) {t : TunId}
    {tun : ProxyTunnel} (ht : w.tunnels t = some tun) :
    Terminated tun.mHttpHeader ∧
      ∀ (a : Answers) (fd : ℤ), w.sys.poller.find .read fd = some (.conn ⟨t, .proxy⟩) →
        tun.mProxyStatus = .Connecting →
        ∃ n bs, InputSpec .proxy ((w.resume a).enter tun) n bs
            ((owner .proxy).run (((w.resume a).enter tun).ctx .proxy).inputRecv ((w.resume a).enter tun)) ∧
          ∀ data, n.TakesChunk data := by
  -- the buffer is terminated in every tunnel, at every moment of the run
  have hall : w.All fun tun => Terminated tun.mHttpHeader := by
    obtain ⟨p, hlater⟩ := h.later
    refine (Rule.all cfg new_terminated (fun connfd m => onAccept_terminated cfg connfd m)
      (fun n m => terminated_rule.notify n m) (fun side m => terminated_rule.shutdown side m)).later hlater ?_
    exact fun t tun ht => nomatch ht
  refine ⟨hall t tun ht, fun a fd hfind hst => ?_⟩
  -- the poller calls live tunnels only, so the chunk is read into this buffer
  obtain ⟨tun', ht', hlive⟩ := (reaches_pooled cfg h).live hfind
  cases ht'.symm.trans ht
  have hconn := hlive.joined (show tun.mProxyStatus ≠ .Closed by rw [hst]; decide) .proxy
  obtain ⟨n, bs, hin⟩ := inputRecv_input .proxy ((w.resume a).enter tun) hconn (hlive.handler .proxy)
  have hread := hin.toRead
  refine ⟨n, bs, hin, fun data => takesChunk ?_ (hread.mProxyStatus.trans hst)
    (hread.mHandler.trans hlive.mHandler) data⟩
  rw [hread.mHttpHeader]
  exact hall t tun ht

/-- The proxy server has been asked, and the answer has begun to come. -/
def answering : ProxyClient :=
  (serving.next exampleConfig (.callback .write 5 ⟨.other 0, { sends := [.sent 4096] }, []⟩)).next
    exampleConfig (.callback .read 5 ⟨.other 0, { recvs := [.data (ascii "HTTP/1.1 ")] }, []⟩)

theorem answering_reachable : Reachable exampleConfig answering := by
  refine .step _ (.step _ serving_reachable ?_ trivial) ?_ trivial
  · change ProxyClient.halted _ = false
    decide +kernel
  · change ProxyClient.halted _ = false
    decide +kernel

/-- The rest of the line goes behind the first nine bytes. -/
theorem header_in_bounds_serving : ∃ (tun : ProxyTunnel) (n : TunCtx), answering.tunnels 0 = some tun ∧
    Terminated tun.mHttpHeader ∧ strlen n.tun.mHttpHeader = 9 ∧ ∃ bs, bs = ascii "200 OK\r\n" ∧
      Terminated (n.written bs) ∧ ∀ i ∈ n.writes bs, i < HTTP_HEADER_SIZE := by
  have hstate : (answering.tunnels 0).map (fun tun => (tun.mProxyStatus, strlen tun.mHttpHeader)) =
      some (.Connecting, 9) := by decide +kernel
  obtain ⟨tun, ht, he⟩ := Option.map_eq_some_iff.mp hstate
  obtain ⟨hst, hlen⟩ := Prod.mk.inj he
  have hfind : answering.sys.poller.find .read 5 = some (.conn ⟨0, .proxy⟩) := by decide +kernel
  obtain ⟨hterm, hnote⟩ := header_in_bounds exampleConfig answering_reachable ht
  obtain ⟨n, bs, hin, htake⟩ :=
    hnote ⟨.other 0, { recvs := [.data (ascii "200 OK\r\n")] }, []⟩ 5 hfind hst
  have hbytes : bs = ascii "200 OK\r\n" := hin.bytes.trans
    (show (Connection.inbound [.data (ascii "200 OK\r\n")] 0).1 = _ from by decide +kernel)
  have hbuf : n.tun.mHttpHeader = tun.mHttpHeader := hin.toRead.mHttpHeader
  have hnine : strlen n.tun.mHttpHeader = 9 := by rw [hbuf, hlen]
  obtain ⟨-, hwritten, hinside, -⟩ := (htake bs).taken (by rw [hnine, hbytes]; decide +kernel)
  exact ⟨tun, n, ht, hterm, hnine, bs, hbytes, hwritten, hinside⟩

end ProxyClient

end HttpsProxy
