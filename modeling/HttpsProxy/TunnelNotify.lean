import HttpsProxy.TunnelSteps

/-! A notification on one of the two sockets of a tunnel in session, and the
shape of the tunnel before and after it. -/
namespace HttpsProxy

namespace TunCtx

@[simp] theorem put_ctx (m : TunCtx) (side : Side) : m.put side (m.ctx side) = m := by
  cases side <;> rfl

/-- What the end of `handleInputNotification` does. -/
inductive FinishSpec (side : Side) (m : TunCtx) : TunCtx → Prop where
  | unheard (handler : (m.conn side).mHandler = false) : FinishSpec side m m
  | open (handler : (m.conn side).mHandler = true) (error : (m.conn side).mConnStatus ≠ .Error)
      (closed : (m.conn side).mConnStatus ≠ .Closed) : FinishSpec side m m
  | error (x : Ctx) (handler : (m.conn side).mHandler = true)
      (status : (m.conn side).mConnStatus = .Error) (link : SameLink (m.conn side) x.conn)
      (queue : x.conn.mTcpPacketList = (m.conn side).mTcpPacketList)
      (trace : x.sys.trace = m.sys.trace ++ [.onError (m.conn side).this .input]) :
      FinishSpec side m (onError side (m.put side x))
  | disconnected (x : Ctx) (handler : (m.conn side).mHandler = true)
      (status : (m.conn side).mConnStatus = .Closed) (link : SameLink (m.conn side) x.conn)
      (queue : x.conn.mTcpPacketList = (m.conn side).mTcpPacketList)
      (trace : x.sys.trace = m.sys.trace ++ [.onDisconnected (m.conn side).this]) :
      FinishSpec side m (onDisconnected side (m.put side x))

section Input

variable {side : Side} {m : TunCtx}

/-- Nothing is read as long as the socket is not connected. -/
theorem input_of_idle (hst : (m.conn side).mConnStatus ≠ .Connected) :
    (owner side).handleInputNotification m = m := if_pos hst

theorem input_of_connected (hst : (m.conn side).mConnStatus = .Connected) :
    (owner side).handleInputNotification m = (owner side).run
      (((owner side).run (m.ctx side).inputRecv m).ctx side).inputFinish
      ((owner side).run (m.ctx side).inputRecv m) := if_neg (not_not.mpr hst)

end Input

/-- A connection without handler has nothing to report. -/
theorem inputFinish_unheard {side : Side} {m : TunCtx} (hh : (m.conn side).mHandler = false) :
    (owner side).run (m.ctx side).inputFinish m = m := by
  rw [Ctx.inputFinish_of_unheard (x := m.ctx side) hh]
  exact put_ctx m side

theorem inputFinish_spec (side : Side) (m : TunCtx) :
    FinishSpec side m ((owner side).run (m.ctx side).inputFinish m) := by
  cases hh : (m.conn side).mHandler with
  | false =>
    rw [inputFinish_unheard hh]
    exact .unheard hh
  | true =>
    by_cases he : (m.conn side).mConnStatus = .Error
    · have hf := Ctx.inputFinish_of_error (x := m.ctx side) hh he
      obtain ⟨hcb, hc, -, -, ht, -⟩ := (m.ctx side).raiseError_spec .input
      simp only [hf, Owner.run, owner, hcb, handler]
      refine .error _ hh he ?_ ?_ ht
      · rw [hc]; exact ⟨rfl, rfl, rfl, rfl⟩
      · rw [hc]; rfl
    · by_cases hd : (m.conn side).mConnStatus = .Closed
      · have hf := Ctx.inputFinish_of_closed (x := m.ctx side) hh hd
        simp only [hf, Owner.run, owner, handler]
        refine .disconnected _ hh hd ?_ ?_ ?_
        · simp only [Ctx.log, Ctx.tryUnregWriteEvent_conn, Ctx.tryUnregReadEvent_conn]
          exact ⟨rfl, rfl, rfl, rfl⟩
        · simp only [Ctx.log, Ctx.tryUnregWriteEvent_conn, Ctx.tryUnregReadEvent_conn]
          rfl
        · simp only [Ctx.log, Sys.log, Ctx.tryUnregWriteEvent_sys, Ctx.tryUnregReadEvent_sys]
          rfl
      · have hf := Ctx.inputFinish_of_open (x := m.ctx side) he hd
        simp only [hf, Owner.run, owner, put_ctx]
        exact .open hh he hd

/-- What `handleInputNotification` does up to and with the call of `onRecv`:
from `m` the bytes `bs` are read, which leaves `n`, and are handed on. -/
structure InputSpec (side : Side) (m n : TunCtx) (bs : Bytes) (r : TunCtx) : Prop where
  size : bs.length < Connection.LIMIT_LEN + Connection.MAXLEN
  read : ∃ x st s, n = m.put side x ∧ st ≠ .Connecting ∧
    x.conn = { m.conn side with mConnStatus := st } ∧ ReadWire (m.conn side).this m.sys s bs ∧
    x.sys = if bs = [] then s else s.log (.onRecv (m.conn side).this bs)
  result : r = if bs = [] then n else n.onRecv side bs
  bytes : bs = (Connection.inbound m.sys.env.recvs 0).1
  eof : (n.conn side).mConnStatus = .Closed ↔ (Connection.inbound m.sys.env.recvs 0).2 = true
  sends : n.sys.env.sends = m.sys.env.sends
  status : (n.conn side).mConnStatus =
    (Connection.readEnd m.sys.env.recvs 0 m.sys.errno).1.getD .Connected
  errno : n.sys.errno = (Connection.readEnd m.sys.env.recvs 0 m.sys.errno).2

theorem inputRecv_input (side : Side) (m : TunCtx) (hst : (m.conn side).mConnStatus = .Connected)
    (hh : (m.conn side).mHandler = true) :
    ∃ n bs, InputSpec side m n bs ((owner side).run (m.ctx side).inputRecv m) := by
  obtain ⟨bs, st, hlt, hstatus, hconn, hcb, ⟨s, hw, hsys⟩, hbytes, heof, hsends⟩ :=
    (m.ctx side).inputRecv_spec hst hh
  obtain ⟨hend, herrno⟩ := (m.ctx side).inputRecv_end hst
  refine ⟨m.put side (m.ctx side).inputRecv.1, bs, hlt, ⟨_, st, s, rfl, hstatus, hconn, hw, hsys⟩,
    ?_, hbytes, ?_, ?_, ?_, ?_⟩
  · simp only [Owner.run, owner, hcb]
    by_cases hb : bs = []
    · simp [hb]
    · simp only [if_neg hb]
      rfl
  · rw [conn_put, hconn]
    exact heof
  · rw [← show (m.ctx side).sys.env.sends = m.sys.env.sends from rfl, ← hsends]
    cases side <;> rfl
  · rw [conn_put]
    exact hend
  · have hsys : (m.put side (m.ctx side).inputRecv.1).sys = (m.ctx side).inputRecv.1.sys := by
      cases side <;> rfl
    rw [hsys]
    exact herrno

/-- In session: both sockets open, both handlers installed, the client's side
connected, the other one not yet or with the exchange of headers begun. -/
structure Linked (m : TunCtx) : Prop where
  fd : ∀ side, 0 ≤ (m.conn side).mFd
  handler : ∀ side, (m.conn side).mHandler = true
  loc : (m.conn .loc).mConnStatus = .Connected
  phase : (m.conn .proxy).mConnStatus = .Connecting ∧ m.tun.mProxyStatus = .Closed ∨
    (m.conn .proxy).mConnStatus = .Connected ∧
      (m.tun.mProxyStatus = .Connecting ∨ m.tun.mProxyStatus = .Connected)

/-- In session, with the client as handler of the tunnel. -/
structure Live (m : TunCtx) : Prop extends Linked m where
  mHandler : m.tun.mHandler = true

/-- Once the exchange of headers has begun, the tunnel is connected to both peers. -/
theorem Linked.joined {m : TunCtx} (h : m.Linked) (hst : m.tun.mProxyStatus ≠ .Closed)
    (side : Side) : (m.conn side).mConnStatus = .Connected := by
  cases side with
  | loc => exact h.loc
  | proxy =>
    rcases h.phase with ⟨-, hc⟩ | ⟨hc, -⟩
    · exact absurd hc hst
    · exact hc

theorem Linked.tidy {m : TunCtx} (h : m.Linked) : m.Tidy :=
  fun side => Connection.clean_of_open (h.fd side)

theorem Linked.heard {m : TunCtx} (h : m.Linked) (side : Side) : m.Heard side :=
  Or.inl (h.handler side)

theorem Linked.goes {m n : TunCtx} (h : m.Linked) (hg : Goes m n) : n.Linked := by
  refine ⟨fun s => (hg.link s).fd ▸ h.fd s, fun s => (hg.link s).handler.trans (h.handler s),
    (hg.link .loc).status.trans h.loc, ?_⟩
  rw [(hg.link .proxy).status]
  rcases h.phase with ⟨hc, hs⟩ | ⟨hc, hs⟩
  · refine Or.inl ⟨hc, ?_⟩
    rcases hg.status with he | ⟨he, -⟩
    · exact he.trans hs
    · rw [hs] at he; cases he
  · refine Or.inr ⟨hc, ?_⟩
    rcases hg.status with he | ⟨-, he⟩
    · rw [he]; exact hs
    · exact Or.inr he

theorem Live.goes {m n : TunCtx} (h : m.Live) (hg : Goes m n) : n.Live :=
  ⟨h.toLinked.goes hg, hg.mHandler.trans h.mHandler⟩

/-- While it holds the session, or once it has given it up. -/
def Settled (m n : TunCtx) : Prop := n.key = m.key ∧ n.tun.mHandler = m.tun.mHandler ∧
  (n.Live ∧ n.mBrokenTuns = m.mBrokenTuns ∨ n.Shut ∧ n.tun.mLocalCache.Emptied)

theorem Ended.settled {m n : TunCtx} (h : Ended m n) : Settled m n :=
  ⟨h.key, h.mHandler, Or.inr ⟨h.shut, h.emptied⟩⟩

theorem Live.settled {m n : TunCtx} (h : m.Live) (hc : Continues m n) : Settled m n :=
  hc.elim (fun hg => ⟨hg.key, hg.mHandler, Or.inl ⟨h.goes hg, hg.broken⟩⟩) Ended.settled

theorem Settled.of_ended {m n k : TunCtx} (hk : n.key = m.key)
    (hm : n.tun.mHandler = m.tun.mHandler) (h : Ended n k) : Settled m k :=
  ⟨h.key.trans hk, h.mHandler.trans hm, Or.inr ⟨h.shut, h.emptied⟩⟩

/-- The state in which `onRecv` is called: only the connection has changed, and
its status may say that the peer is gone. -/
structure Read (side : Side) (m n : TunCtx) : Prop where
  key : n.key = m.key
  mHandler : n.tun.mHandler = m.tun.mHandler
  broken : n.mBrokenTuns = m.mBrokenTuns
  mProxyStatus : n.tun.mProxyStatus = m.tun.mProxyStatus
  mHttpHeader : n.tun.mHttpHeader = m.tun.mHttpHeader
  mLocalCache : n.tun.mLocalCache = m.tun.mLocalCache
  stdio : n.stdio = m.stdio
  other : n.conn side.other = m.conn side.other
  conn : ∃ st, st ≠ .Connecting ∧ n.conn side = { m.conn side with mConnStatus := st }

theorem InputSpec.toRead {side : Side} {m n r : TunCtx} {bs : Bytes}
    (h : InputSpec side m n bs r) : Read side m n := by
  obtain ⟨x, st, s, rfl, hst, hc, -, -⟩ := h.read
  refine ⟨m.key_put side x (by rw [hc]), ?_, ?_, ?_, ?_, ?_, ?_, conn_put_other m side x,
    st, hst, (conn_put m side x).trans hc⟩ <;> cases side <;> rfl

theorem Read.tidy {side : Side} {m n : TunCtx} (h : Read side m n) (hm : m.Live) : n.Tidy := by
  obtain ⟨st, -, hc⟩ := h.conn
  have ho := h.other
  intro s
  apply Connection.clean_of_open
  cases side <;> cases s
  · rw [hc]; exact hm.fd .loc
  · exact ho ▸ hm.fd .proxy
  · exact ho ▸ hm.fd .loc
  · rw [hc]; exact hm.fd .proxy

theorem Read.heard {side : Side} {m n : TunCtx} (h : Read side m n) (hm : m.Live) (s : Side) :
    n.Heard s := by
  obtain ⟨st, -, hc⟩ := h.conn
  have ho := h.other
  apply Or.inl
  cases side <;> cases s
  · rw [hc]; exact hm.handler .loc
  · exact ho ▸ hm.handler .proxy
  · exact ho ▸ hm.handler .loc
  · rw [hc]; exact hm.handler .proxy

/-- Nothing but the log has changed if the peer is still there. -/
theorem Read.goes {side : Side} {m n : TunCtx} (h : Read side m n) (hm : m.Live)
    (hst : (n.conn side).mConnStatus = (m.conn side).mConnStatus) : Goes m n := by
  obtain ⟨st, -, hc⟩ := h.conn
  have ho := h.other
  have hl : SameLink (m.conn side) (n.conn side) := ⟨by rw [hc], by rw [hc], hst, by rw [hc]⟩
  refine ⟨h.key, h.mHandler, h.broken, h.tidy hm, Or.inl h.mProxyStatus, fun s => ?_⟩
  cases side <;> cases s
  · exact hl
  · exact ho ▸ SameLink.refl _
  · exact ho ▸ SameLink.refl _
  · exact hl

theorem InputSpec.continues {side : Side} {m n r : TunCtx} {bs : Bytes} (hm : m.Live)
    (h : InputSpec side m n bs r) : Continues n r := by
  have hr := h.toRead
  rw [h.result]
  split
  · exact Or.inl (Goes.refl (hr.tidy hm))
  · exact onRecv_continues side bs (hr.tidy hm) (hr.heard hm) (hr.mHandler.trans hm.mHandler)

theorem Live.input {m : TunCtx} (h : m.Live) (side : Side) :
    Settled m ((owner side).handleInputNotification m) := by
  by_cases hst : (m.conn side).mConnStatus = .Connected
  swap
  · rw [input_of_idle hst]
    exact ⟨rfl, rfl, Or.inl ⟨h, rfl⟩⟩
  rw [input_of_connected hst]
  obtain ⟨n, bs, hin⟩ := inputRecv_input side m hst (h.handler side)
  generalize (owner side).run (m.ctx side).inputRecv m = r at hin ⊢
  have hread := hin.toRead
  obtain ⟨st, hst', hc⟩ := hread.conn
  have hfin := inputFinish_spec side r
  generalize (owner side).run (r.ctx side).inputFinish r = k at hfin ⊢
  rcases hin.continues h with hg | he
  · have hfd : 0 ≤ (r.conn side).mFd := by rw [(hg.link side).fd, hc]; exact h.fd side
    have hput : ∀ x : Ctx, SameLink (r.conn side) x.conn → Goes n (r.put side x) := fun x hx =>
      hg.trans (put_goes hg.tidy hx hfd)
    have hheard : ∀ k, Goes n k → k.Heard .proxy := fun k hk => hk.heard (hread.heard h .proxy)
    have hmh : ∀ k, Goes n k → k.tun.mHandler = true := fun k hk =>
      hk.mHandler.trans (hread.mHandler.trans h.mHandler)
    cases hfin with
    | unheard hno =>
      rw [(hg.link side).handler, hc] at hno
      exact absurd (h.handler side) (by simpa using hno)
    | «open» _ herror hclosed =>
      have hsame : (n.conn side).mConnStatus = (m.conn side).mConnStatus := by
        rw [(hg.link side).status] at herror hclosed
        rw [hc] at herror hclosed ⊢
        rw [hst]
        cases st <;> simp_all
      exact h.settled (Or.inl ((hread.goes h hsame).trans hg))
    | error x _ _ hl _ _ =>
      have hgx := hput x hl
      exact .of_ended hread.key hread.mHandler
        (hgx.ended (onError_ended side hgx.tidy (hheard _ hgx) (hmh _ hgx)))
    | disconnected x _ _ hl _ _ =>
      have hgx := hput x hl
      exact .of_ended hread.key hread.mHandler
        (hgx.ended (onDisconnected_ended side hgx.tidy (hheard _ hgx) (hmh _ hgx)))
  · have hno := (he.shut side).handler
    cases hfin with
    | unheard => exact .of_ended hread.key hread.mHandler he
    | «open» hyes => rw [hno] at hyes; cases hyes
    | error _ hyes => rw [hno] at hyes; cases hyes
    | disconnected _ hyes => rw [hno] at hyes; cases hyes

/-- The tunnel before the request is sent. -/
def asking (x : Ctx) (m : TunCtx) : TunCtx :=
  { (m.put .proxy x).setStatus .Connecting with
    tun.mHttpHeader := memcpy (m.put .proxy x).tun.mHttpHeader 0 [0] }

theorem Live.asking {m : TunCtx} (h : m.Live) {x : Ctx} (hx : x.conn =
      { m.conn .proxy with mbRegForRead := true, mbRegForWrite := false, mConnStatus := .Connected }) :
    (m.asking x).Live ∧ (m.asking x).key = m.key := by
  have hl : (m.asking x).conn .loc = m.conn .loc := rfl
  have hp : (m.asking x).conn .proxy = x.conn := rfl
  refine ⟨⟨⟨fun s => ?_, fun s => ?_, hl ▸ h.loc, Or.inr ⟨by rw [hp, hx], Or.inl rfl⟩⟩, h.mHandler⟩, ?_⟩
  · cases s
    exacts [hl ▸ h.fd .loc, by rw [hp, hx]; exact h.fd .proxy]
  · cases s
    exacts [hl ▸ h.handler .loc, by rw [hp, hx]; exact h.handler .proxy]
  · exact m.key_put .proxy x (by rw [hx])

/-- What `handleOutputNotification` does to a tunnel in session. -/
inductive OutputStep (m : TunCtx) : Side → TunCtx → Prop where
  | idle (side : Side) : OutputStep m side m
  | flushed (side : Side) (x : Ctx) (bs : Bytes) (status : (m.conn side).mConnStatus = .Connected)
      (link : SameLink (m.conn side) x.conn) (wire : Wire (m.conn side).this m.sys x.sys bs)
      (bytes : bs ++ x.conn.pending = (m.conn side).pending) : OutputStep m side (m.put side x)
  | failed (side : Side) (x : Ctx) (s : Sys) (bs : Bytes)
      (status : (m.conn side).mConnStatus = .Connected)
      (link : SameLink (m.conn side) x.conn) (wire : Wire (m.conn side).this m.sys s bs)
      (bytes : bs <+: (m.conn side).pending)
      (trace : x.sys.trace = s.trace ++ [.onError (m.conn side).this .output]) :
      OutputStep m side (onError side (m.put side x))
  | refused (x : Ctx) (r : SockoptRes) (status : (m.conn .proxy).mConnStatus = .Connecting)
      (fd : x.conn.mFd = (m.conn .proxy).mFd) (this : x.conn.this = (m.conn .proxy).this)
      (trace : x.sys.trace = m.sys.trace ++
        [.sockopt (m.conn .proxy).this r, .onError (m.conn .proxy).this .output]) :
      OutputStep m .proxy (onErrorProxy (m.put .proxy x))
  | connected (x : Ctx) (status : (m.conn .proxy).mConnStatus = .Connecting)
      (conn : x.conn = { m.conn .proxy with
        mbRegForRead := true, mbRegForWrite := false, mConnStatus := .Connected })
      (trace : x.sys.trace = m.sys.trace ++
        [.sockopt (m.conn .proxy).this .ok, .onConnected (m.conn .proxy).this]) :
      OutputStep m .proxy ((m.asking x).sendProxy m.key.request)

theorem Live.outputStep {m : TunCtx} (h : m.Live) (side : Side) :
    OutputStep m side ((owner side).handleOutputNotification m) := by
  have hspec := (m.ctx side).handleOutputNotification_spec (h.handler side)
  unfold Owner.handleOutputNotification
  change OutputStep m side ((owner side).run (m.ctx side).handleOutputNotification m)
  generalize (m.ctx side).handleOutputNotification = r at hspec ⊢
  obtain ⟨y, cb⟩ := r
  have hloc : side = .loc → (m.conn side).mConnStatus ≠ .Connecting := by
    rintro rfl hc
    rw [h.loc] at hc
    cases hc
  cases hspec with
  | idle hst heq =>
    subst heq
    simp only [Owner.run, owner, put_ctx]
    exact .idle side
  | refused z r hst hconn htrace hbad heq =>
    cases side with
    | loc => exact absurd hst (hloc rfl)
    | proxy =>
      obtain ⟨-, hc, -, -, ht, -⟩ := z.raiseError_spec .output
      rw [← heq] at hc ht
      have hz : z.conn.this = (m.conn .proxy).this := by rw [hconn]; rfl
      refine .refused y r hst ?_ ?_ ?_
      · rw [hc, hconn]; rfl
      · rw [hc]; exact hz
      · rw [ht, htrace, hz, List.append_assoc]; rfl
  | connected hst hconn htrace =>
    cases side with
    | loc => exact absurd hst (hloc rfl)
    | proxy => exact .connected y hst hconn htrace
  | flushed bs hst hl hw hb => exact .flushed side y bs hst hl hw hb
  | failed z bs hst hl hw hb hstale heq =>
    obtain ⟨-, hc, -, -, ht, -⟩ := z.raiseError_spec .output
    rw [← heq] at hc ht
    refine .failed side y z.sys bs hst ?_ hw ⟨_, hb⟩ (by rw [ht, hl.this]; rfl)
    rw [hc]
    exact ⟨hl.this, hl.fd, hl.status, hl.handler⟩

theorem Live.output {m : TunCtx} (h : m.Live) (side : Side) :
    Settled m ((owner side).handleOutputNotification m) := by
  have hput : ∀ x : Ctx, SameLink (m.conn side) x.conn → Goes m (m.put side x) := fun x hx =>
    put_goes h.tidy hx (h.fd side)
  have hstep := h.outputStep side
  generalize (owner side).handleOutputNotification m = k at hstep ⊢
  cases hstep with
  | idle => exact ⟨rfl, rfl, Or.inl ⟨h, rfl⟩⟩
  | flushed _ x bs _ hl _ _ => exact h.settled (Or.inl (hput x hl))
  | failed _ x s bs _ hl _ _ _ =>
    have hg := hput x hl
    exact (hg.ended (onError_ended side hg.tidy (hg.heard (h.heard .proxy))
      (hg.mHandler.trans h.mHandler))).settled
  | refused x r _ hfd hthis _ =>
    have ht := h.tidy.put_open .proxy (hfd ▸ h.fd .proxy)
    exact .of_ended (m.key_put .proxy x hthis) rfl (onErrorProxy_ended ht)
  | connected x _ hc _ =>
    obtain ⟨ha, hk⟩ := h.asking hc
    obtain ⟨hk', hm', hs'⟩ := ha.settled (sendProxy_continues m.key.request ha.tidy (ha.heard .proxy))
    exact ⟨hk'.trans hk, hm', hs'⟩

/-- A tunnel that has given up its session answers no notification. -/
theorem Shut.notified {m : TunCtx} (h : m.Shut) (side : Side) :
    (owner side).handleInputNotification m = m ∧ (owner side).handleOutputNotification m = m := by
  have hst : (m.ctx side).conn.mConnStatus = .Closed := (h side).status
  constructor
  · exact input_of_idle (fun hc => by cases (h side).status.symm.trans hc)
  · have ho : (m.ctx side).handleOutputNotification = (m.ctx side, none) := by
      simp [Ctx.handleOutputNotification, hst]
    simp only [Owner.handleOutputNotification, owner, ho, Owner.run, put_ctx]

end TunCtx

end HttpsProxy
