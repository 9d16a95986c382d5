import HttpsProxy.ServerStream
import HttpsProxy.TunnelTwins
import HttpsProxy.TunnelMoves

/-! What an earlier session leaves behind in a tunnel does not reach the sockets
of a later one: what a recycled tunnel hands over is what a new one would. -/
namespace HttpsProxy

/-- The same `errno` and the same answers to come. -/
structure Entry.Alike (e e' : Entry) : Prop where
  errno : e'.errno = e.errno
  env : e'.env = e.env

/-- The same descriptor and the same notifications, with the same `errno` and
the same answers each time. -/
structure Session.Alike (s s' : Session) : Prop where
  connfd : s'.connfd = s.connfd
  entry : s.entry.Alike s'.entry
  arrivals : List.Forall₂ (fun a b => a.1.Alike b.1 ∧ b.2 = a.2) s.arrivals s'.arrivals

theorem Entry.Alike.refl (e : Entry) : e.Alike e := ⟨rfl, rfl⟩

theorem Session.Alike.refl (s : Session) : s.Alike s :=
  ⟨rfl, .refl s.entry, List.forall₂_same.mpr fun a _ => ⟨.refl a.1, rfl⟩⟩

namespace TunCtx

section Step

variable {m n : TunCtx}

theorem Twin.enter (h : Twin m n) {e e' : Entry} (he : e.Alike e') : Twin (m.enter e) (n.enter e') :=
  ⟨fun side => by cases side; exacts [h.conn .loc, h.conn .proxy],
    ⟨he.errno, he.env, h.sys.aborted, h.sys.handed⟩, h.key, h.mProxyStatus, h.header, h.held, h.sound⟩

theorem Twin.live (h : Twin m n) (hm : m.Live) (hn : n.Shaped) : n.Live := by
  refine hn.resolve_right fun hs => ?_
  have hfd := (hs.1 .loc).fd
  rw [h.conn .loc] at hfd
  exact absurd hfd (not_lt.mpr (hm.fd .loc))

/-- Nothing is handed over once the session is given up. -/
theorem Shut.step_handed (h : m.Shut) (a : Entry × Notice) :
    (m.step a).Shut ∧ handed (m.step a).sys.trace = handed m.sys.trace := by
  unfold TunCtx.step
  split
  · exact ⟨h, rfl⟩
  · rw [(h.enter a.1).notify a.2]
    exact ⟨h.enter a.1, rfl⟩

theorem Paired.step (h : Paired m n) (hm : m.Shaped) (hn : n.Shaped) (hw : m.tun.Whole)
    {a b : Entry × Notice} (hab : a.1.Alike b.1) (hnotice : b.2 = a.2)
    (ha : ∀ w ∈ a.1.stdio, w = .ok) (hb : ∀ w ∈ b.1.stdio, w = .ok) :
    Paired (m.step a) (n.step b) := by
  -- two tunnels that are over stay so, and so does a pair of which one is
  have hover : m.Shut → n.Shut → Paired (m.step a) (n.step b) := fun hs hs' =>
    Or.inr ⟨(hs.step_handed a).1, (hs'.step_handed b).1,
      by rw [(hs.step_handed a).2, (hs'.step_handed b).2, h.handed]⟩
  rcases h with h | h
  swap
  · exact hover h.left h.right
  rcases hm with hl | ⟨hs, -⟩
  swap
  · exact hover hs fun side => h.conn side ▸ hs side
  have hl' := h.live hl hn
  unfold TunCtx.step halted
  rw [h.sound.1, h.sound.2, h.sys.aborted, hnotice]
  split
  · exact Or.inl h
  have he := h.enter hab
  cases a.2 with
  | input side => exact he.input (hl.enter a.1) (hl'.enter b.1) ⟨hw.loc, hw.proxy⟩ side ha hb
  | output side => exact he.output (hl.enter a.1) (hl'.enter b.1) ⟨hw.loc, hw.proxy⟩ side

end Step

/-- No step of a chain renames a tunnel or gives it credentials. -/
theorem Moves.user {F : ℤ → Prop} {m n : TunCtx} (h : Moves F m n) :
    n.tun.mUsername = m.tun.mUsername := by
  refine h.keeps (P := fun k => k.tun.mUsername = m.tun.mUsername) (fun u v huv hu => ?_) rfl
  cases huv with
  | conn side x _ => cases side <;> exact hu
  | beside _ hb => exact hb.user.trans hu

theorem step_user (m : TunCtx) (a : Entry × Notice) :
    (m.step a).tun.mUsername = m.tun.mUsername := by
  unfold TunCtx.step
  split
  · rfl
  · exact ((m.enter a.1).notify_moves (F := fun _ => False) a.2).user

theorem onAccept_user (cfg : Config) (connfd : ℕ) {m : TunCtx} (h : m.tun.Idle) :
    (m.onAccept cfg connfd).2.tun.mUsername = m.tun.mUsername := by
  have hc := (m.configured_moves (F := fun _ => False) cfg).user
  have hshut := configured_shut cfg ((idle_iff m).mp h).1
  have ha := ((m.configured cfg).acceptLocal_moves connfd hshut).user
  rw [onAccept_eq]
  split
  · exact hc
  · simp only
    split <;> exact ha.trans hc

end TunCtx

/-- The constructor leaves the credentials empty, and nothing fills them in. -/
theorem Recycled.user {cfg : Config} {t : ProxyTunnel} (h : Recycled cfg t) : t.mUsername = [] := by
  induction h with
  | new this => rfl
  | unserved s free res ih => exact (TunCtx.onAccept_user cfg s.connfd free.idle.1).trans ih
  | broken s free broken halted ih =>
    have hstart := (TunCtx.onAccept_user (m := ⟨_, ⟨s.entry.errno, s.entry.env, s.entry.poller, [], false⟩,
      s.entry.stdio, [], false⟩) cfg s.connfd free.idle.1).trans ih
    exact s.run_rule free (P := fun m => m.tun.mUsername = []) hstart
      fun m a _ _ hm => (m.step_user a).trans hm

/-- The request does not depend on what a tunnel has been through. -/
theorem Recycled.request {cfg : Config} {t t' : ProxyTunnel} (h : Recycled cfg t)
    (h' : Recycled cfg t') : cfg.request t' = cfg.request t := by
  simp only [Config.request, ProxyTunnel.connectRequest, h.user, h'.user, if_true]
  rfl

namespace TunCtx

/-- Both free for a session, and the same but for what earlier ones left behind. -/
structure Ready (m n : TunCtx) : Prop where
  left : m.tun.Idle
  right : n.tun.Idle
  this : ∀ side, (n.conn side).this = (m.conn side).this
  sys : Sys.Twin m.sys n.sys
  sound : m.dangling = false ∧ n.dangling = false

theorem Ready.reopens {m n : TunCtx} (h : Ready m n) (side : Side) :
    Ctx.Reopens (m.ctx side) (n.ctx side) := by
  have hm := ((idle_iff m).mp h.left).1 side
  have hn := ((idle_iff n).mp h.right).1 side
  refine ⟨hm.fd, hn.fd, fun fd => ?_, h.sys⟩
  change ({ n.conn side with mFd := fd } : Connection) = { m.conn side with mFd := fd }
  rw [Connection.mk.injEq]
  exact ⟨h.this side, rfl, hn.status.trans hm.status.symm, hn.handler.trans hm.handler.symm,
    hn.read.trans hm.read.symm, hn.write.trans hm.write.symm, hn.queue.trans hm.queue.symm⟩

/-- An attempt that fails leaves the tunnel as free as it was. -/
theorem acceptLocal_refused (connfd : ℕ) {m : TunCtx} (h : m.Shut)
    (hf : (m.acceptLocal connfd).1 = false) : (m.acceptLocal connfd).2.Shut ∧
      handed (m.acceptLocal connfd).2.sys.trace = handed m.sys.trace := by
  have ho := acceptLocal_opening connfd h
  generalize m.acceptLocal connfd = r at ho hf
  cases ho with
  | failed n _ shut _ log => exact ⟨shut, log.handed⟩
  | waiting => cases hf
  | asked => cases hf

section Dial

variable {m n : TunCtx} {x y : Ctx}

/-- Before the proxy's side is opened it is free on both sides. -/
theorem Ready.dialing_reopens (h : Ready m n) (hloc : Ctx.Twin x y) :
    Ctx.Reopens ((m.dialing x).ctx .proxy) ((n.dialing y).ctx .proxy) := by
  obtain ⟨hm, hn, hconn, -⟩ := h.reopens .proxy
  exact ⟨hm, hn, fun fd => congrArg (Connection.setEventHandler true) (hconn fd), hloc.sys⟩

/-- With both sides opened the same way, what earlier sessions left no longer matters. -/
theorem Ready.twin (h : Ready m n) (hkey : n.key = m.key) (hloc : Ctx.Twin x y) {z z' : Ctx}
    (hproxy : Ctx.Twin z z') :
    Twin ((m.dialing x).put .proxy z) ((n.dialing y).put .proxy z') := by
  refine ⟨fun side => ?_, hproxy.sys, ?_, rfl, fun hc => ?_,
    ⟨[], h.left.emptied.holds, h.right.emptied.holds⟩, h.sound⟩
  · cases side
    · exact congrArg (Connection.setEventHandler true) hloc.conn
    · exact hproxy.conn
  · have hthis : n.tun.this = m.tun.this := congrArg TunKey.this hkey
    have hreq : n.tun.connectRequest = m.tun.connectRequest := congrArg TunKey.request hkey
    change TunKey.mk n.tun.this y.conn.this z'.conn.this n.tun.connectRequest =
      TunKey.mk m.tun.this x.conn.this z.conn.this m.tun.connectRequest
    rw [hthis, hreq, hloc.conn, hproxy.conn]
  · cases hc

/-- The call of `connect` has the same result on both, and if it succeeds the
tunnels go on alike. -/
theorem Ready.dial (h : Ready m n) (hkey : n.key = m.key) (hloc : Ctx.Twin x y)
    (hx : 0 ≤ x.conn.mFd) : (n.dialing y).dial.1 = (m.dialing x).dial.1 ∧
      ((m.dialing x).dial.1 = true → Paired (m.dialing x).dial.2 (n.dialing y).dial.2) := by
  let u := m.dialing x
  let v := n.dialing y
  have hprox : Ctx.Reopens (u.ctx .proxy) (v.ctx .proxy) := h.dialing_reopens hloc
  have hconn := Ctx.connect_spec u.tun.mProxySvrAddr (u.ctx .proxy) hprox.left
  obtain ⟨hok, hcalls⟩ := Ctx.connect_twin u.tun.mProxySvrAddr v.tun.mProxySvrAddr hprox
  have htwin : Twin (u.put .proxy ((u.ctx .proxy).connect u.tun.mProxySvrAddr).2.1)
      (v.put .proxy ((v.ctx .proxy).connect v.tun.mProxySvrAddr).2.1) :=
    h.twin hkey hloc hcalls.twin
  change v.dial.1 = u.dial.1 ∧ (u.dial.1 = true → Paired u.dial.2 v.dial.2)
  unfold TunCtx.dial
  generalize (u.ctx .proxy).connect u.tun.mProxySvrAddr = r at hok hcalls hconn htwin
  generalize (v.ctx .proxy).connect v.tun.mProxySvrAddr = r' at hok hcalls htwin
  cases hconn with
  | failed z _ _ =>
    simp only [hok, Bool.not_false, if_true]
    exact ⟨trivial, fun hf => by cases hf⟩
  | connecting z _ _ hz _ =>
    have hcb : r'.2.2 = none := hcalls.cb
    simp only [hok, Bool.not_true, Bool.false_eq_true, if_false, Owner.run, owner, hcb]
    exact ⟨trivial, fun _ => Or.inl htwin⟩
  | connected z fd hzfd hz _ =>
    have hh : (u.ctx .proxy).conn.mHandler = true := rfl
    have hcb : r'.2.2 = some .onConnected := by rw [hcalls.cb]; simp [hh]
    simp only [hok, Bool.not_true, Bool.false_eq_true, if_false, Owner.run, owner, hcb, hh, if_true]
    refine ⟨trivial, fun _ => htwin.onConnected fun side => Connection.clean_of_open ?_⟩
    cases side with
    | loc => exact hx
    | proxy =>
      simp only [hh, if_true]
      change 0 ≤ z.conn.mFd
      rw [hz]
      exact hzfd

end Dial

theorem Ready.acceptLocal {m n : TunCtx} (h : Ready m n) (hkey : n.key = m.key) (connfd : ℕ) :
    (n.acceptLocal connfd).1 = (m.acceptLocal connfd).1 ∧
      Paired (m.acceptLocal connfd).2 (n.acceptLocal connfd).2 := by
  -- both fail and are free again, or both succeed and are twins
  suffices hs : (n.acceptLocal connfd).1 = (m.acceptLocal connfd).1 ∧
      ((m.acceptLocal connfd).1 = true → Paired (m.acceptLocal connfd).2 (n.acceptLocal connfd).2) by
    obtain ⟨hok, hp⟩ := hs
    refine ⟨hok, ?_⟩
    cases hf : (m.acceptLocal connfd).1 with
    | true => exact hp hf
    | false =>
      obtain ⟨hs, hh⟩ := acceptLocal_refused connfd ((idle_iff m).mp h.left).1 hf
      obtain ⟨hs', hh'⟩ := acceptLocal_refused connfd ((idle_iff n).mp h.right).1 (hok.trans hf)
      exact Or.inr ⟨hs, hs', by rw [hh, hh', h.sys.handed]⟩
  have hspec := (m.ctx .loc).acceptConnection_spec connfd
  obtain ⟨hok, hloc⟩ := Ctx.acceptConnection_twin connfd (h.reopens .loc)
  cases hr : (m.ctx .loc).acceptConnection connfd with
  | mk ok x =>
  cases hr' : (n.ctx .loc).acceptConnection connfd with
  | mk ok' y =>
  rw [hr, hr'] at hok hloc
  rw [hr] at hspec
  simp only at hok hloc
  subst hok
  cases hspec with
  | inUse hfd => exact absurd (((idle_iff m).mp h.left).1 .loc).fd (not_lt.mpr hfd)
  | failed _ _ _ _ =>
    rw [acceptLocal_of_failed connfd hr, acceptLocal_of_failed connfd hr']
    exact ⟨rfl, fun hf => by cases hf⟩
  | opened _ _ hx _ =>
    rw [acceptLocal_of_opened connfd hr, acceptLocal_of_opened connfd hr']
    refine h.dial hkey hloc ?_
    rw [hx]
    exact Int.natCast_nonneg connfd

theorem Ready.onAccept {m n : TunCtx} (h : Ready m n) (cfg : Config) (connfd : ℕ)
    (hcfg : (n.configured cfg).key = (m.configured cfg).key) :
    Paired (m.onAccept cfg connfd).2 (n.onAccept cfg connfd).2 := by
  obtain ⟨hcm, -, -, -, -, hsm⟩ := m.configured_same cfg
  obtain ⟨hcn, -, -, -, -, hsn⟩ := n.configured_same cfg
  have hsound : ∀ k : TunCtx, (k.configured cfg).dangling = k.dangling := fun k => by
    unfold configured setProxyServer
    cases cfg.pton cfg.mProxyIp <;> rfl
  have hready : Ready (m.configured cfg) (n.configured cfg) :=
    ⟨configured_idle cfg h.left, configured_idle cfg h.right,
      fun side => by rw [hcm side, hcn side, h.this side], by rw [hsm, hsn]; exact h.sys,
      (hsound m).trans h.sound.1, (hsound n).trans h.sound.2⟩
  rw [onAccept_eq, onAccept_eq]
  split
  · refine Or.inr ⟨fun side => ?_, fun side => ?_, ?_⟩
    · simpa using ((idle_iff _).mp hready.left).1 side
    · simpa using ((idle_iff _).mp hready.right).1 side
    · exact (handed_log _ rfl).trans (hready.sys.handed.trans (handed_log _ rfl).symm)
  · obtain ⟨hok, hp⟩ := hready.acceptLocal hcfg connfd
    simp only [hok]
    split
    · rcases hp with hp | hp
      · exact Or.inl ⟨fun side => by cases side; exacts [hp.conn .loc, hp.conn .proxy], hp.sys,
          hp.key, hp.mProxyStatus, hp.header, hp.held, hp.sound⟩
      · exact Or.inr ⟨fun side => by cases side; exacts [hp.left .loc, hp.left .proxy],
          fun side => by cases side; exacts [hp.right .loc, hp.right .proxy], hp.handed⟩
    · rename_i hf
      have hf' : ((m.configured cfg).acceptLocal connfd).1 = false := by simpa using hf
      have hl := acceptLocal_refused connfd ((idle_iff _).mp hready.left).1 hf'
      have hr := acceptLocal_refused connfd ((idle_iff _).mp hready.right).1 (hok.trans hf')
      refine Or.inr ⟨fun side => ?_, fun side => ?_, ?_⟩
      · simpa using hl.1 side
      · simpa using hr.1 side
      · exact (handed_log _ rfl).trans (hp.handed.trans (handed_log _ rfl).symm)

end TunCtx

namespace Session

theorem run_paired (cfg : Config) {t t' : ProxyTunnel} (h : Recycled cfg t) (h' : Recycled cfg t')
    (hthis : t'.this = t.this) {s s' : Session} (hs : s.Alike s') (hd : s.DiskOk) (hd' : s'.DiskOk) :
    TunCtx.Paired (s.run cfg t) (s'.run cfg t') := by
  obtain ⟨hidle, hw⟩ := h.idle
  obtain ⟨hidle', hw'⟩ := h'.idle
  have hloc : t'.mLocalConn.this = t.mLocalConn.this := by rw [hw'.loc, hw.loc, hthis]
  have hproxy : t'.mProxyConn.this = t.mProxyConn.this := by rw [hw'.proxy, hw.proxy, hthis]
  have hready : TunCtx.Ready
      ⟨t, ⟨s.entry.errno, s.entry.env, s.entry.poller, [], false⟩, s.entry.stdio, [], false⟩
      ⟨t', ⟨s'.entry.errno, s'.entry.env, s'.entry.poller, [], false⟩, s'.entry.stdio, [], false⟩ :=
    ⟨hidle, hidle', fun side => by cases side; exacts [hloc, hproxy],
      ⟨hs.entry.errno, hs.entry.env, rfl, rfl⟩, rfl, rfl⟩
  have hstart : TunCtx.Paired (s.accept cfg t).2 (s'.accept cfg t').2 := by
    unfold accept
    rw [hs.connfd]
    refine hready.onAccept cfg s.connfd ?_
    rw [TunCtx.configured_key, TunCtx.configured_key]
    change TunKey.mk t'.this t'.mLocalConn.this t'.mProxyConn.this (cfg.request t') = _
    rw [hthis, hloc, hproxy, h.request h']
    rfl
  have hk := s.accept_kept cfg h
  have hk' := s'.accept_kept cfg h'
  unfold run
  have harr := hs.arrivals
  have hshape := hk.shaped
  have hshape' := hk'.shaped
  have hwhole := hk.whole
  unfold DiskOk at hd hd'
  generalize (s.accept cfg t).2 = m at hstart hshape hwhole
  generalize (s'.accept cfg t').2 = n at hstart hshape'
  clear hs hk hk' hready
  generalize s.arrivals = as at harr hd
  generalize s'.arrivals = bs at harr hd'
  -- the two chains of arrivals side by side
  induction harr generalizing m n with
  | nil => exact hstart
  | @cons a b as bs hab _ ih =>
    rw [List.foldl_cons, List.foldl_cons]
    have ha := hd a (List.mem_cons_self ..)
    have hb := hd' b (List.mem_cons_self ..)
    obtain ⟨hkey, hstep⟩ := TunCtx.step_shaped a hshape
    obtain ⟨-, hstep'⟩ := TunCtx.step_shaped b hshape'
    exact ih (m.step a) (hstep.imp (fun hl => hl.2.1) id) (TunCtx.whole_of_key hkey hwhole) (n.step b)
      (hstart.step hshape hshape' hwhole hab.1 hab.2 ha hb) (hstep'.imp (fun hl => hl.2.1) id)
      (fun c hc => hd c (List.mem_cons_of_mem a hc)) fun c hc => hd' c (List.mem_cons_of_mem b hc)

/-- What a session hands over to its two sockets depends on what arrives in it
and on the answers its calls get, not on the sessions the tunnel has served
before, and it is what a new tunnel would hand over. -/
theorem session_isolated (cfg : Config) {t t' : ProxyTunnel} (h : Recycled cfg t)
    (h' : Recycled cfg t') (hthis : t'.this = t.this) {s s' : Session} (hs : s.Alike s')
    (hd : s.DiskOk) (hd' : s'.DiskOk) :
    handed (s.run cfg t).sys.trace = handed (s'.run cfg t').sys.trace ∧
      handed (s.run cfg t).sys.trace = handed (s'.run cfg (.new t.this)).sys.trace :=
  ⟨(run_paired cfg h h' hthis hs hd hd').handed.symm,
    (run_paired cfg h (.new t.this) rfl hs hd hd').handed.symm⟩

/-- The client goes away with bytes in the cache and in the queue of the proxy
connection. -/
def leavingSession : Session :=
  ⟨3, ⟨.EAGAIN, { sockets := [.fd 4] }, .new, []⟩,
    [(⟨.EAGAIN, { recvs := [.data (ascii "secret")] }, .new, []⟩, .input .loc),
      (⟨.EAGAIN, { sends := [.sent 10] }, .new, []⟩, .output .proxy),
      (⟨.EAGAIN, { recvs := [.data []] }, .new, []⟩, .input .loc)]⟩

theorem session_isolated_left :
    handed (earlySession.run exampleConfig (leavingSession.run exampleConfig (.new 0)).tun).sys.trace =
        handed (earlySession.run exampleConfig (.new 0)).sys.trace ∧
      handed (earlySession.run exampleConfig (leavingSession.run exampleConfig (.new 0)).tun).sys.trace =
        handed (earlySession.run exampleConfig
          (.new (leavingSession.run exampleConfig (.new 0)).tun.this)).sys.trace :=
  session_isolated exampleConfig
    (.broken leavingSession (.new 0) (by decide +kernel) (by decide +kernel)) (.new 0)
    (by decide +kernel) (.refl earlySession) (by simp [DiskOk, earlySession])
    (by simp [DiskOk, earlySession])

end Session

end HttpsProxy
