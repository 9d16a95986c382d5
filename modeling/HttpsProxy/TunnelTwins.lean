import HttpsProxy.ConnectionTwins
import HttpsProxy.AnswerSteps

/-! Two tunnels in the same session. Their caches may keep the same chunks in
different places, since `Cache::clear` leaves the two lengths as they are, and
their header buffers may differ behind the text; neither reaches a socket. -/
namespace HttpsProxy

namespace TunCtx

/-- The same tunnel as far as the session goes. -/
structure Twin (m n : TunCtx) : Prop where
  conn : ∀ side, n.conn side = m.conn side
  sys : Sys.Twin m.sys n.sys
  key : n.key = m.key
  mProxyStatus : n.tun.mProxyStatus = m.tun.mProxyStatus
  header : m.tun.mProxyStatus = .Connecting → n.tun.header = m.tun.header
  held : ∃ q, m.tun.mLocalCache.Holds q ∧ n.tun.mLocalCache.Holds q
  sound : m.dangling = false ∧ n.dangling = false

/-- Both have given up the session, having handed over the same. -/
structure Over (m n : TunCtx) : Prop where
  left : m.Shut
  right : n.Shut
  handed : handed n.sys.trace = handed m.sys.trace

def Paired (m n : TunCtx) : Prop := Twin m n ∨ Over m n

theorem Paired.handed {m n : TunCtx} (h : Paired m n) : handed n.sys.trace = handed m.sys.trace :=
  h.elim (fun h => h.sys.handed) fun h => h.handed

/-- Giving up quietly, each in its own way. -/
theorem over_of_quiet {m n m' n' : TunCtx} (h : HttpsProxy.handed n.sys.trace = HttpsProxy.handed m.sys.trace)
    (hm : Quiet m m') (hn : Quiet n n') (hm' : m'.Shut) (hn' : n'.Shut) : Over m' n' :=
  ⟨hm', hn', by rw [hm.noted.handed, hn.noted.handed, h]⟩

/-- `Connection::send` of chunk after chunk, until one of them fails. -/
def sendAll : List Bytes → Ctx → Ctx × Option Callback
  | [], x => (x, none)
  | d :: ds, x =>
    match x.send d with
    | (y, none) => sendAll ds y
    | r => r

theorem sendAll_twin (q : List Bytes) {x y : Ctx} (h : Ctx.Twin x y) :
    Calls (sendAll q x) (sendAll q y) := by
  induction q generalizing x y with
  | nil => exact ⟨h, rfl⟩
  | cons d q ih =>
    obtain ⟨htwin, hcb⟩ := h.send d
    unfold sendAll
    cases hx : x.send d with
    | mk u cb =>
      cases hy : y.send d with
      | mk v cb' =>
        rw [hx, hy] at htwin hcb
        simp only at htwin hcb
        subst hcb
        cases cb' with
        | none => exact ih htwin
        | some cb => exact ⟨htwin, rfl⟩

section Twin

variable {m n : TunCtx}

theorem Twin.ctx (h : Twin m n) (side : Side) : Ctx.Twin (m.ctx side) (n.ctx side) :=
  ⟨h.conn side, h.sys⟩

theorem Twin.put (h : Twin m n) (side : Side) {x y : Ctx} (hx : Ctx.Twin x y) :
    Twin (m.put side x) (n.put side y) := by
  have hkey := h.key
  have hl : (n.conn .loc).this = (m.conn .loc).this := congrArg TunKey.loc hkey
  have hp : (n.conn .proxy).this = (m.conn .proxy).this := congrArg TunKey.proxy hkey
  have ht : n.tun.this = m.tun.this := congrArg TunKey.this hkey
  have hr : n.tun.connectRequest = m.tun.connectRequest := congrArg TunKey.request hkey
  refine ⟨fun s => ?_, hx.sys, ?_, ?_, ?_, ?_, ?_⟩
  · cases side <;> cases s
    exacts [hx.conn, h.conn .proxy, h.conn .loc, hx.conn]
  · cases side
    · change TunKey.mk n.tun.this y.conn.this (n.conn .proxy).this n.tun.connectRequest = _
      rw [ht, hx.conn, hp, hr]
      rfl
    · change TunKey.mk n.tun.this (n.conn .loc).this y.conn.this n.tun.connectRequest = _
      rw [ht, hl, hx.conn, hr]
      rfl
  · cases side <;> exact h.mProxyStatus
  · cases side <;> exact h.header
  · cases side <;> exact h.held
  · cases side <;> exact h.sound

theorem Twin.setStatus (h : Twin m n) {st : EProxyStatus} (hst : st ≠ .Connecting) :
    Twin (m.setStatus st) (n.setStatus st) :=
  ⟨fun side => by simpa using h.conn side, h.sys, h.key, rfl, fun hc => absurd hc hst, h.held, h.sound⟩

theorem Twin.log (h : Twin m n) {e e' : Ev} (he : e'.handed = e.handed) :
    Twin (m.log e) (n.log e') :=
  ⟨fun side => by simpa using h.conn side, h.sys.log he, h.key, h.mProxyStatus, h.header, h.held, h.sound⟩

theorem Twin.tidy (h : Twin m n) (hm : m.Tidy) : n.Tidy := fun side => h.conn side ▸ hm side

theorem Twin.heard (h : Twin m n) {side : Side} (hm : m.Heard side) : n.Heard side := by
  unfold Heard
  rw [h.conn side]
  exact hm

theorem Twin.sane (h : Twin m n) (hm : m.Sane) (hn : n.tun.mHandler = true) : n.Sane :=
  ⟨fun side => h.conn side ▸ hm.fd side, fun side => h.conn side ▸ hm.handler side, hn,
    whole_of_key h.key hm.whole⟩

theorem Twin.shutdown (h : Twin m n) (side : Side) : Twin (m.shutdown side) (n.shutdown side) :=
  h.put side (h.ctx side).shutdown

/-- A connection fails for both or for neither, and only an open one fails. -/
theorem Twin.sends (h : Twin m n) (side : Side) (data : Bytes) :
    ∃ (x y : Ctx) (cb : Option Callback), (m.ctx side).send data = (x, cb) ∧
      (n.ctx side).send data = (y, cb) ∧ Twin (m.put side x) (n.put side y) ∧
      (cb = none ∨ cb = some .onError ∧ 0 ≤ (m.conn side).mFd ∧ SameLink (m.conn side) x.conn) := by
  obtain ⟨hx, hcb⟩ := (h.ctx side).send data
  have hspec := Ctx.send_spec data (m.ctx side)
  rcases hm : (m.ctx side).send data with ⟨x, cb⟩
  rcases hn : (n.ctx side).send data with ⟨y, cb'⟩
  rw [hm, hn] at hx hcb
  rw [hm] at hspec
  simp only at hcb
  subst hcb
  have hlink := hspec.link
  refine ⟨x, y, _, rfl, rfl, h.put side hx, ?_⟩
  cases hspec with
  | refused => exact Or.inl rfl
  | kept => exact Or.inl rfl
  | unheard => exact Or.inl rfl
  | failed z bs fd => exact Or.inr ⟨rfl, fd, hlink⟩

theorem Twin.sendProxy (h : Twin m n) (data : Bytes) (ht : m.Tidy) :
    Paired (m.sendProxy data) (n.sendProxy data) := by
  obtain ⟨x, y, cb, hx, hy, hput, rfl | ⟨rfl, hfd, hl⟩⟩ := h.sends .proxy data
  · simp only [TunCtx.sendProxy, Owner.run, errorOwner, hx, hy]
    exact Or.inl hput
  · simp only [TunCtx.sendProxy, Owner.run, errorOwner, hx, hy]
    have ht' := (put_goes ht hl hfd).tidy
    have hm := onErrorProxy_closes ht'
    have hn := onErrorProxy_closes (hput.tidy ht')
    exact Or.inr (over_of_quiet hput.sys.handed hm.toQuiet hn.toQuiet hm.shut hn.shut)

/-- What a flush of the chunks `q` does, in terms of the sends alone. -/
inductive FlushSends (m : TunCtx) (q : List Bytes) (n : TunCtx) : Prop where
  | done (along : Along .proxy m n) (ctx : sendAll q (m.ctx .proxy) = (n.ctx .proxy, none))
      (held : n.tun.mLocalCache.Holds []) (sound : n.dangling = m.dangling) : FlushSends m q n
  | failed (x : Ctx) (cb : Callback) (ctx : sendAll q (m.ctx .proxy) = (x, some cb))
      (shut : n.Shut) (handed : handed n.sys.trace = handed x.sys.trace) : FlushSends m q n

/-- Between two rounds of a flush that began at `m`: the chunks that remain lead to
`r`, as all of them did from `m`. -/
def Sending (m : TunCtx) (r : Ctx × Option Callback) (q : List Bytes) (s : TunCtx) : Prop :=
  Along .proxy m s ∧ sendAll q (s.ctx .proxy) = r ∧ s.dangling = m.dangling

/-- The flush has been broken off by an error of `send`. -/
def BrokenOff (r : Ctx × Option Callback) (s : TunCtx) : Prop :=
  (∃ cb, r.2 = some cb) ∧ s.Shut ∧ HttpsProxy.handed s.sys.trace = HttpsProxy.handed r.1.sys.trace

/-- A round sends the next chunk. If that fails, the session and its cache are gone. -/
theorem Sending.round {s : TunCtx} {r : Ctx × Option Callback} {d : Bytes} {q : List Bytes}
    (h : Sending m r (d :: q) s) (hh : m.Heard .proxy) :
    cacheHost.Answers (Sending m r) (fun _ _ _ => False) (BrokenOff r) d q s := by
  obtain ⟨ha, hr, hd⟩ := h
  have hs := ha.tidy
  have hspec := Ctx.send_spec d (s.ctx .proxy)
  have hheard := ha.toGoes.heard hh
  have hfunc : cacheHost.func d s =
      (true, (errorOwner .proxy onErrorProxy).run ((s.ctx .proxy).send d) s) := rfl
  rw [sendAll] at hr
  generalize (s.ctx .proxy).send d = sent at hspec hfunc hr
  obtain ⟨y, cb⟩ := sent
  have hlink : SameLink (s.conn .proxy) y.conn := hspec.link
  -- taken or queued: the next chunk is sent from where this one leaves the connection
  have htook : ∀ {z : Ctx}, cb = none → z = y → Keeps .proxy s (s.put .proxy z) →
      cacheHost.Answers (Sending m r) (fun _ _ _ => False) (BrokenOff r) d q s := by
    rintro z rfl rfl hk
    have hf : cacheHost.func d s = (true, s.put .proxy z) := hfunc
    refine .took (by rw [hf]; rfl) (by rw [hf]) ?_
    rw [hf]
    exact ⟨ha.trans hk.toAlong, hr, hd⟩
  cases hspec with
  | refused why eq => exact htook rfl eq.symm (log_keeps .proxy _ hs)
  | kept bs fd status link _ _ => exact htook rfl rfl (put_keeps hs link fd)
  | unheard bs fd status handler link _ _ => exact htook rfl rfl (put_keeps hs link fd)
  | failed z bs fd =>
    have hp := put_goes hs hlink fd
    obtain ⟨htouched, hfile⟩ := onErrorProxy_cleared hp.tidy
    have hcl := onErrorProxy_closes hp.tidy
    have hf : cacheHost.func d s = (true, onErrorProxy (s.put .proxy y)) := hfunc
    have hr' : r = (y, some .onError) := hr.symm
    refine .emptied (by rw [hf]; exact htouched.ne') (by rw [hf]; exact hfile) (by rw [hf]) ?_
    rw [hf]
    exact ⟨⟨_, by rw [hr']⟩, hcl.shut, by rw [hcl.noted.handed, hr']; rfl⟩

theorem BrokenOff.congr {r : Ctx × Option Callback} {s k : TunCtx} (h : BrokenOff r s)
    (conn : ∀ side, k.conn side = s.conn side)
    (log : HttpsProxy.handed k.sys.trace = HttpsProxy.handed s.sys.trace) : BrokenOff r k :=
  ⟨h.1, fun side => conn side ▸ h.2.1 side, log.trans h.2.2⟩

theorem flushAll_sends {q : List Bytes} (ht : m.Tidy) (hh : m.Heard .proxy)
    (hheld : m.tun.mLocalCache.Holds q) : FlushSends m q (cacheHost.flushAll m).2 := by
  let r := sendAll q (m.ctx .proxy)
  have hends := cacheHost.flushAll_rule
    (I := Sending m r) (R := fun _ _ _ => False) (J := BrokenOff r)
    (fun _ _ => rfl) ?_ ?_ ?_ ?_ ?_ ?_ q m hheld ⟨Along.refl .proxy ht, rfl, rfl⟩
  · rcases hends with ⟨-, ⟨ha, hr, hd⟩, hk⟩ | ⟨_, _, _, hno, _⟩ | ⟨⟨cb, hcb⟩, hshut, hsame⟩
    · exact .done ha hr.symm hk hd
    · exact hno.elim
    · exact .failed r.1 cb (by rw [← hcb]) hshut hsame
  · rintro q' c s ⟨ha, hr, hd⟩
    exact ⟨⟨ha.toGoes.congr rfl rfl rfl rfl fun side => by cases side <;> rfl, ha.other,
      ha.mProxyStatus, ha.mHttpHeader⟩, hr, hd⟩
  · exact fun _ _ _ _ h => h
  · exact fun c s hb => hb.congr (fun side => by cases side <;> rfl) rfl
  · exact fun s hb => hb.congr (fun side => by cases side <;> rfl) (handed_log _ rfl)
  · exact fun s hb => ⟨hb.congr (fun side => by cases side <;> rfl) (handed_log _ rfl), rfl⟩
  · exact fun d q' s _ hs => hs.round hh

/-- A flush offers the chunks held, wherever they are kept. -/
theorem Twin.flushLocal (h : Twin m n) (ht : m.Tidy) (hh : m.Heard .proxy) :
    Paired m.flushLocal n.flushLocal := by
  unfold TunCtx.flushLocal
  rw [h.mProxyStatus]
  split
  swap
  · exact Or.inl h
  rename_i hst
  have hlog : Twin (m.log (.flushing m.tun.this)) (n.log (.flushing n.tun.this)) := h.log rfl
  have ht' : (m.log (.flushing m.tun.this)).Tidy := fun side => by simpa using ht side
  obtain ⟨q, hm, hn⟩ := hlog.held
  have hcalls := sendAll_twin q (hlog.ctx .proxy)
  have hleft := flushAll_sends ht' hh hm
  have hright := flushAll_sends (hlog.tidy ht') (hlog.heard hh) hn
  generalize (cacheHost.flushAll (m.log (.flushing m.tun.this))).2 = u at hleft ⊢
  generalize (cacheHost.flushAll (n.log (.flushing n.tun.this))).2 = v at hright ⊢
  cases hleft with
  | done along ctx held sound =>
    cases hright with
    | done along' ctx' held' sound' =>
      rw [ctx, ctx'] at hcalls
      refine Or.inl ⟨fun side => ?_, hcalls.twin.sys, along'.key.trans (hlog.key.trans along.key.symm),
        along'.mProxyStatus.trans (hlog.mProxyStatus.trans along.mProxyStatus.symm), ?_,
        ⟨[], held, held'⟩, sound.trans hlog.sound.1, sound'.trans hlog.sound.2⟩
      · cases side
        · exact along'.other.trans ((hlog.conn .loc).trans along.other.symm)
        · exact hcalls.twin.conn
      · intro hst'
        rw [along.mProxyStatus] at hst'
        exact absurd hst (by rw [show m.tun.mProxyStatus = .Connecting from hst']; simp)
    | failed x cb ctx' _ _ =>
      have hcb := hcalls.cb
      rw [ctx, ctx'] at hcb
      cases hcb
  | failed x cb ctx shut hsame =>
    cases hright with
    | done along' ctx' _ _ =>
      have hcb := hcalls.cb
      rw [ctx, ctx'] at hcb
      cases hcb
    | failed x' cb' ctx' shut' hsame' =>
      rw [ctx, ctx'] at hcalls
      exact Or.inr ⟨shut, shut', by rw [hsame, hsame', hcalls.twin.sys.handed]⟩

theorem Twin.onError (h : Twin m n) (side : Side) (hm : m.Sane) (hn : n.Sane) :
    Over (m.onError side) (n.onError side) := by
  have em := onError_ended side hm.tidy (hm.heard .proxy) hm.mHandler
  have en := onError_ended side hn.tidy (hn.heard .proxy) hn.mHandler
  refine ⟨em.shut, en.shut, ?_⟩
  cases side with
  | proxy =>
    change HttpsProxy.handed n.onErrorProxy.sys.trace = HttpsProxy.handed m.onErrorProxy.sys.trace
    rw [(onErrorProxy_closes hm.tidy).noted.handed, (onErrorProxy_closes hn.tidy).noted.handed,
      h.sys.handed]
  | loc =>
    obtain ⟨-, ht, hh, hq⟩ := onErrorLocal_flushed hm.tidy (hm.heard .proxy) hm.mHandler
    obtain ⟨-, -, -, hq'⟩ := onErrorLocal_flushed hn.tidy (hn.heard .proxy) hn.mHandler
    change HttpsProxy.handed n.onErrorLocal.sys.trace = HttpsProxy.handed m.onErrorLocal.sys.trace
    rw [hq.noted.handed, hq'.noted.handed, ((h.shutdown .loc).flushLocal ht hh).handed]

theorem Twin.onDisconnected (h : Twin m n) (side : Side) (hm : m.Sane) (hn : n.Sane) :
    Over (m.onDisconnected side) (n.onDisconnected side) := by
  have em := onDisconnected_ended side hm.tidy (hm.heard .proxy) hm.mHandler
  have en := onDisconnected_ended side hn.tidy (hn.heard .proxy) hn.mHandler
  refine ⟨em.shut, en.shut, ?_⟩
  cases side with
  | proxy =>
    rw [(onDisconnected_proxy_closes hm.tidy hm.mHandler).noted.handed,
      (onDisconnected_proxy_closes hn.tidy hn.mHandler).noted.handed, h.sys.handed]
  | loc =>
    obtain ⟨-, ht, hh, hq⟩ := onDisconnected_loc_flushed hm.tidy (hm.heard .proxy) hm.mHandler
    obtain ⟨-, -, -, hq'⟩ := onDisconnected_loc_flushed hn.tidy (hn.heard .proxy) hn.mHandler
    rw [hq.noted.handed, hq'.noted.handed, ((h.shutdown .loc).flushLocal ht hh).handed]

theorem Twin.dropProxy (h : Twin m n) (hm : m.Sane) (hn : n.Sane) :
    Over m.dropProxy n.dropProxy := by
  have em := dropProxy_closes hm.tidy hm.mHandler
  have en := dropProxy_closes hn.tidy hn.mHandler
  exact over_of_quiet h.sys.handed em.toQuiet en.toQuiet em.shut en.shut

theorem Twin.sendLocal (h : Twin m n) (data : Bytes) (hm : m.Sane) (hn : n.Sane) :
    Paired (m.sendLocal data) (n.sendLocal data) := by
  obtain ⟨x, y, cb, hx, hy, hput, rfl | ⟨rfl, hfd, hl⟩⟩ := h.sends .loc data
  · simp only [TunCtx.sendLocal, Owner.run, errorOwner, hx, hy]
    exact Or.inl hput
  · simp only [TunCtx.sendLocal, Owner.run, errorOwner, hx, hy]
    have hm' := hm.goes (put_goes hm.tidy hl hfd)
    exact Or.inr (hput.onError .loc hm' (hput.sane hm' hn.mHandler))

/-- A chunk from the client is cached by both, perhaps not in the same place. -/
theorem Twin.cacheLocal (h : Twin m n) {data : Bytes} (hd : Storable data)
    (hm : ∀ w ∈ m.stdio, w = .ok) (hn : ∀ w ∈ n.stdio, w = .ok) :
    Twin (m.cacheLocal data) (n.cacheLocal data) := by
  obtain ⟨q, hq, hq'⟩ := h.held
  refine ⟨fun side => ?_, h.sys, ?_, h.mProxyStatus, h.header,
    ⟨q ++ [data], cacheLocal_holds hq hd hm, cacheLocal_holds hq' hd hn⟩, h.sound⟩
  · cases side
    exacts [h.conn .loc, h.conn .proxy]
  · exact h.key

/-- The buffers may differ behind the text. -/
theorem Twin.setHeader (h : Twin m n) {buf buf' : Bytes} (hb : cstr buf' = cstr buf) :
    Twin { m with tun.mHttpHeader := buf } { n with tun.mHttpHeader := buf' } :=
  ⟨fun side => by cases side; exacts [h.conn .loc, h.conn .proxy], h.sys, h.key, h.mProxyStatus,
    fun _ => hb, h.held, h.sound⟩

theorem Sane.setStatus (h : m.Sane) (st : EProxyStatus) : (m.setStatus st).Sane :=
  ⟨fun side => by simpa using h.fd side, fun side => by simpa using h.handler side, h.mHandler,
    ⟨h.whole.loc, h.whole.proxy⟩⟩

theorem Twin.parseHttpHeader (h : Twin m n) (hm : m.Sane) (hn : n.Sane)
    (hst : m.tun.mProxyStatus = .Connecting) : Paired m.parseHttpHeader n.parseHttpHeader := by
  unfold TunCtx.parseHttpHeader
  rw [h.header hst]
  split
  swap
  · exact Or.inl h
  split
  · have hk : Twin ((m.setStatus .Connected).log (.established m.tun.this))
        ((n.setStatus .Connected).log (.established n.tun.this)) :=
      (h.setStatus (by simp)).log rfl
    refine hk.flushLocal (fun side => ?_) ?_
    · simpa using hm.tidy side
    · exact hm.heard .proxy
  · exact Or.inr ((h.setStatus (by simp)).dropProxy (hm.setStatus .Error) (hn.setStatus .Error))

theorem Twin.onRecv (h : Twin m n) (side : Side) {data : Bytes} (hm : m.Sane) (hn : n.Sane)
    (hd : Storable data) (hwm : ∀ w ∈ m.stdio, w = .ok) (hwn : ∀ w ∈ n.stdio, w = .ok) :
    Paired (m.onRecv side data) (n.onRecv side data) := by
  cases side with
  | loc =>
    simp only [TunCtx.onRecv, h.mProxyStatus]
    split
    · exact h.sendProxy data hm.tidy
    · exact Or.inl (h.cacheLocal hd hwm hwn)
  | proxy =>
    simp only [TunCtx.onRecv, h.mProxyStatus]
    split
    · rename_i hst
      have hlen : strlen n.tun.mHttpHeader = strlen m.tun.mHttpHeader :=
        congrArg List.length (h.header hst)
      rw [hlen]
      split
      · exact Or.inr (h.dropProxy hm hn)
      · have hbuf := header_append n.tun.mHttpHeader data
        rw [hlen, show cstr n.tun.mHttpHeader = cstr m.tun.mHttpHeader from h.header hst,
          ← header_append m.tun.mHttpHeader data] at hbuf
        have hparse := (h.setHeader hbuf).parseHttpHeader (hm.goes (setHeader_goes _ hm.tidy))
          (hn.goes (setHeader_goes _ hn.tidy)) hst
        simpa only [h.mProxyStatus] using hparse
    · rw [show n.tun.mLocalConn = m.tun.mLocalConn from h.conn .loc]
      split
      · exact Or.inr (h.dropProxy hm hn)
      · exact h.sendLocal data hm hn
    · exact Or.inr (h.dropProxy hm hn)

theorem Sane.put (h : m.Sane) {side : Side} {x : Ctx} (this : x.conn.this = (m.conn side).this)
    (fd : x.conn.mFd = (m.conn side).mFd) (handler : x.conn.mHandler = (m.conn side).mHandler) :
    (m.put side x).Sane := by
  refine ⟨fun s => ?_, fun s => ?_, ?_, whole_of_key (m.key_put side x this) h.whole⟩
  · cases side <;> cases s
    exacts [fd ▸ h.fd .loc, h.fd .proxy, h.fd .loc, fd ▸ h.fd .proxy]
  · cases side <;> cases s
    exacts [handler.trans (h.handler .loc), h.handler .proxy, h.handler .loc,
      handler.trans (h.handler .proxy)]
  · cases side <;> exact h.mHandler

/-- The part of `handleInputNotification` behind `onRecv`. -/
theorem Paired.inputFinish (h : Paired m n) (side : Side)
    (hm : (m.conn side).mHandler = true → m.Sane) (hn : n.tun.mHandler = true) :
    Paired ((owner side).run (m.ctx side).inputFinish m)
      ((owner side).run (n.ctx side).inputFinish n) := by
  rcases h with h | h
  swap
  · rw [inputFinish_unheard (h.left side).handler, inputFinish_unheard (h.right side).handler]
    exact Or.inr h
  cases hh : (m.conn side).mHandler with
  | false =>
    rw [inputFinish_unheard hh, inputFinish_unheard (m := n) (by rw [h.conn side]; exact hh)]
    exact Or.inl h
  | true =>
    have hs := hm hh
    obtain ⟨hx, hcb⟩ := (h.ctx side).inputFinish
    unfold Owner.run owner
    rw [hcb]
    have hput := h.put side hx
    -- the two errors drop the registrations and leave the rest of the connection alone
    have hreg : ∀ y : Ctx, y.conn =
        { m.conn side with mbRegForRead := false, mbRegForWrite := false } → (m.put side y).Sane := by
      intro y hy
      exact hs.put (by rw [hy]) (by rw [hy]) (by rw [hy])
    by_cases he : (m.conn side).mConnStatus = .Error
    · have hf := Ctx.inputFinish_of_error (x := m.ctx side) hh he
      obtain ⟨hcb', hc, -⟩ := (m.ctx side).raiseError_spec .input
      rw [hf] at hput ⊢
      rw [hcb']
      have hs' := hreg _ hc
      exact Or.inr (hput.onError side hs' (hput.sane hs' (by cases side <;> exact hn)))
    · by_cases hd : (m.conn side).mConnStatus = .Closed
      · have hf := Ctx.inputFinish_of_closed (x := m.ctx side) hh hd
        rw [hf] at hput ⊢
        have hs' := hreg ((m.ctx side).tryUnregReadEvent.tryUnregWriteEvent.log
          (.onDisconnected (m.conn side).this)) (by simp [Ctx.log, ctx])
        exact Or.inr (hput.onDisconnected side hs' (hput.sane hs' (by cases side <;> exact hn)))
      · have hf := Ctx.inputFinish_of_open (x := m.ctx side) he hd
        rw [hf] at hput ⊢
        exact Or.inl hput

theorem Twin.input (h : Twin m n) (hm : m.Live) (hn : n.Live) (hw : m.tun.Whole) (side : Side)
    (hwm : ∀ w ∈ m.stdio, w = .ok) (hwn : ∀ w ∈ n.stdio, w = .ok) :
    Paired ((owner side).handleInputNotification m) ((owner side).handleInputNotification n) := by
  have hsame : (n.conn side).mConnStatus = (m.conn side).mConnStatus :=
    congrArg Connection.mConnStatus (h.conn side)
  by_cases hst : (m.conn side).mConnStatus = .Connected
  swap
  · rw [input_of_idle hst, input_of_idle (hsame ▸ hst)]
    exact Or.inl h
  rw [input_of_connected hst, input_of_connected (hsame.trans hst)]
  obtain ⟨bs, st, hlt, -, hconn, hcb, -⟩ := (m.ctx side).inputRecv_spec hst (hm.handler side)
  obtain ⟨hx, hcb'⟩ := (h.ctx side).inputRecv
  have hput := h.put side hx
  have hsm : (m.put side (m.ctx side).inputRecv.1).Sane :=
    (hm.sane hw).put (by rw [hconn]; rfl) (by rw [hconn]; rfl) (by rw [hconn]; rfl)
  have hsn := hput.sane hsm (by cases side <;> exact hn.mHandler)
  have hstdio : ∀ k x, (TunCtx.put side x k).stdio = k.stdio := fun k x => by cases side <;> rfl
  have hr : ∀ k : TunCtx, (k.ctx side).inputRecv.2 = (if bs = [] then none else some (.onRecv bs)) →
      (owner side).run (k.ctx side).inputRecv k = if bs = [] then k.put side (k.ctx side).inputRecv.1
        else (k.put side (k.ctx side).inputRecv.1).onRecv side bs := by
    intro k hk
    simp only [Owner.run, owner, hk]
    by_cases hb : bs = []
    · simp [hb]
    · simp only [if_neg hb]
      rfl
  have hpaired : Paired ((owner side).run (m.ctx side).inputRecv m)
      ((owner side).run (n.ctx side).inputRecv n) := by
    rw [hr m hcb, hr n (hcb'.trans hcb)]
    by_cases hb : bs = []
    · rw [if_pos hb, if_pos hb]
      exact Or.inl hput
    · rw [if_neg hb, if_neg hb]
      exact hput.onRecv side hsm hsn (storable_of_read hb hlt) (by rw [hstdio]; exact hwm)
        (by rw [hstdio]; exact hwn)
  have hcont : ∀ k : TunCtx, (k.put side (k.ctx side).inputRecv.1).Sane →
      Continues (k.put side (k.ctx side).inputRecv.1)
        (if bs = [] then k.put side (k.ctx side).inputRecv.1
          else (k.put side (k.ctx side).inputRecv.1).onRecv side bs) := by
    intro k hk
    split
    · exact Or.inl (Goes.refl hk.tidy)
    · exact onRecv_continues side bs hk.tidy hk.heard hk.mHandler
  refine hpaired.inputFinish side (fun hh => ?_) ?_
  · rw [hr m hcb] at hh ⊢
    rcases hcont m hsm with hg | he
    · exact hsm.goes hg
    · rw [(he.shut side).handler] at hh
      cases hh
  · rw [hr n (hcb'.trans hcb)]
    rcases hcont n hsn with hg | he
    · exact hg.mHandler.trans hsn.mHandler
    · exact he.mHandler.trans hsn.mHandler

/-- The request is the same, and the text of the answer begins anew. -/
theorem Twin.onConnected (h : Twin m n) (ht : m.Tidy) :
    Paired (m.onConnected .proxy) (n.onConnected .proxy) := by
  have hreq : n.tun.connectRequest = m.tun.connectRequest := congrArg TunKey.request h.key
  let u : TunCtx := { m.setStatus .Connecting with tun.mHttpHeader := memcpy m.tun.mHttpHeader 0 [0] }
  let v : TunCtx := { n.setStatus .Connecting with tun.mHttpHeader := memcpy n.tun.mHttpHeader 0 [0] }
  have huv : Twin u v := ⟨fun side => by cases side; exacts [h.conn .loc, h.conn .proxy], h.sys,
    h.key, rfl, fun _ => rfl, h.held, h.sound⟩
  have hu : u.tun.connectRequest = m.tun.connectRequest := rfl
  change Paired (u.sendProxy u.tun.connectRequest) (v.sendProxy v.tun.connectRequest)
  rw [show v.tun.connectRequest = u.tun.connectRequest from hreq]
  exact huv.sendProxy _ fun side => by cases side; exacts [ht .loc, ht .proxy]

theorem Twin.output (h : Twin m n) (hm : m.Live) (hn : n.Live) (hw : m.tun.Whole) (side : Side) :
    Paired ((owner side).handleOutputNotification m) ((owner side).handleOutputNotification n) := by
  have hspec := (m.ctx side).handleOutputNotification_spec (hm.handler side)
  obtain ⟨hx, hcb⟩ := (h.ctx side).handleOutputNotification
  change Paired ((owner side).run (m.ctx side).handleOutputNotification m)
    ((owner side).run (n.ctx side).handleOutputNotification n)
  unfold Owner.run owner
  rw [hcb]
  generalize (m.ctx side).handleOutputNotification = r at hspec hx ⊢
  obtain ⟨x, cb⟩ := r
  have hput := h.put side hx
  have hover : ∀ z : Ctx, z.conn.this = (m.conn side).this → z.conn.mFd = (m.conn side).mFd →
      z.conn.mHandler = (m.conn side).mHandler → (x, some Callback.onError) = z.raiseError .output →
      Over ((m.put side x).onError side) ((n.put side (n.ctx side).handleOutputNotification.1).onError side) := by
    intro z hthis hfd hh eq
    obtain ⟨-, hc, -⟩ := z.raiseError_spec .output
    rw [← eq] at hc
    have hc' : x.conn = { z.conn with mbRegForRead := false, mbRegForWrite := false } := hc
    have hs' : (m.put side x).Sane := (hm.sane hw).put (by rw [hc']; exact hthis)
      (by rw [hc']; exact hfd) (by rw [hc']; exact hh)
    exact hput.onError side hs' (hput.sane hs' (by cases side <;> exact hn.mHandler))
  cases hspec with
  | idle => exact Or.inl hput
  | flushed => exact Or.inl hput
  | refused z r status conn trace bad eq =>
    exact Or.inr (hover z (by rw [conn]; rfl) (by rw [conn]; rfl) (by rw [conn]; rfl) eq)
  | failed z bs status link wire bytes stale eq =>
    exact Or.inr (hover z link.this link.fd link.handler eq)
  | connected status conn trace =>
    cases side with
    | loc => exact absurd (hm.loc.symm.trans status) (by simp)
    | proxy =>
      exact hput.onConnected
        ((hm.sane hw).put (by rw [conn]; rfl) (by rw [conn]; rfl) (by rw [conn]; rfl)).tidy

end Twin

end TunCtx

end HttpsProxy
