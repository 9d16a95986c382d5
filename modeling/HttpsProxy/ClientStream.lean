import HttpsProxy.Ledger

/-! The stream from the client to the proxy server over a whole session, and
when its bytes may first be sent. -/
namespace HttpsProxy

theorem passed_mono {c : ConnId} {pre tr : List Ev} (h : pre <+: tr) :
    passed c pre <+: passed c tr := by
  obtain ⟨post, rfl⟩ := h
  rw [passed_append]
  exact List.prefix_append _ _

/-- Up to the first `established` entry, nothing but the request is passed to
`send` of the proxy connection `c`. -/
def Reserved (c : ConnId) (request : Bytes) (tr : List Ev) : Prop :=
  ∀ pre, pre <+: tr → (∀ t, .established t ∉ pre) → passed c pre <+: request

namespace Reserved

theorem of_passed {c : ConnId} {request : Bytes} {tr : List Ev} (h : passed c tr <+: request) :
    Reserved c request tr :=
  fun _ hpre _ => (passed_mono hpre).trans h

/-- What follows an `established` entry does not matter. -/
theorem append_of_established {c : ConnId} {request : Bytes} {tr : List Ev} {t : TunId}
    (h : Reserved c request tr) (ht : .established t ∈ tr) (evs : List Ev) :
    Reserved c request (tr ++ evs) := by
  intro pre hpre hno
  rcases List.prefix_or_prefix_of_prefix hpre (List.prefix_append tr evs) with hp | hp
  · exact h pre hp hno
  · exact absurd (hp.subset ht) (hno t)

theorem append_of_silent {c : ConnId} {request : Bytes} {tr evs : List Ev}
    (h : Reserved c request tr) (hs : passed c evs = []) : Reserved c request (tr ++ evs) := by
  intro pre hpre hno
  rcases List.prefix_or_prefix_of_prefix hpre (List.prefix_append tr evs) with hp | ⟨mid, rfl⟩
  · exact h pre hp hno
  · have hmid : mid <+: evs := (List.prefix_append_right_inj tr).mp hpre
    have htr : passed c tr <+: request :=
      h tr (List.prefix_refl tr) fun t ht => hno t (List.mem_append_left _ ht)
    have hnil : passed c mid = [] := List.prefix_nil.mp (by rw [← hs]; exact passed_mono hmid)
    rw [passed_append, hnil, List.append_nil]
    exact htr

end Reserved

namespace TunCtx

/-- A tunnel that is established is marked so in its log, and no byte of the
client was passed on before that. -/
structure Prompt (m : TunCtx) : Prop where
  reserved : Reserved (m.conn .proxy).this m.key.request m.sys.trace
  established : m.tun.mProxyStatus = .Connected → 0 ≤ (m.conn .proxy).mFd →
    ∃ t, .established t ∈ m.sys.trace

/-- From `m` to `n` the log grew. -/
structure Grows (m n : TunCtx) : Prop where
  key : n.key = m.key
  log : m.sys.trace <+: n.sys.trace

theorem Grows.trans {m n k : TunCtx} (h : Grows m n) (l : Grows n k) : Grows m k :=
  ⟨l.key.trans h.key, h.log.trans l.log⟩

theorem Outward.grows {side : Side} {m n : TunCtx} (h : Outward side m n) : Grows m n := by
  obtain ⟨hk, evs, ht, -⟩ := h
  exact ⟨hk, evs, ht.symm⟩

theorem InputSpec.grows {side : Side} {m n r : TunCtx} {bs : Bytes}
    (h : InputSpec side m n bs r) : Grows m n := by
  obtain ⟨evs, ht, -⟩ := h.log
  exact ⟨h.toRead.key, evs, ht.symm⟩

/-- Steps that pass nothing on, of a tunnel that is not established by them. -/
theorem Prompt.silent {m n : TunCtx} (h : m.Prompt) (hg : Grows m n)
    (hp : n.passes .proxy = m.passes .proxy)
    (hs : n.tun.mProxyStatus = .Connected → 0 ≤ (n.conn .proxy).mFd →
      m.tun.mProxyStatus = .Connected ∧ 0 ≤ (m.conn .proxy).mFd) : n.Prompt := by
  obtain ⟨hk, evs, ht⟩ := hg
  have hsilent : passed (m.conn .proxy).this evs = [] := by
    simp only [passes, this_of_key hk, ← ht, passed_append] at hp
    simpa using hp
  refine ⟨?_, fun hc hfd => ?_⟩
  · rw [this_of_key hk, hk, ← ht]
    exact h.reserved.append_of_silent hsilent
  · obtain ⟨t, hm⟩ := h.established (hs hc hfd).1 (hs hc hfd).2
    exact ⟨t, ht ▸ List.mem_append_left _ hm⟩

/-- A tunnel that has given up the session has nothing to mark. -/
theorem Prompt.over {m n : TunCtx} (h : m.Prompt) (hq : Quiet m n) (hshut : n.Shut) : n.Prompt :=
  h.silent (hq.outward .proxy).grows (hq.takes .proxy).2 fun _ hfd =>
    absurd (hshut .proxy).fd (not_lt.mpr hfd)

/-- Any steps of a tunnel that has been established. -/
theorem Prompt.grows {m n : TunCtx} (h : m.Prompt) (hm : ∃ t, .established t ∈ m.sys.trace)
    (hg : Grows m n) : n.Prompt := by
  obtain ⟨hk, evs, ht⟩ := hg
  obtain ⟨t, hm⟩ := hm
  refine ⟨?_, fun _ _ => ⟨t, ht ▸ List.mem_append_left _ hm⟩⟩
  rw [this_of_key hk, hk, ← ht]
  exact h.reserved.append_of_established hm evs

/-- Before the tunnel is established the cache stays where it is, and giving up
sends nothing. -/
theorem Sane.onError_quiet (side : Side) {m : TunCtx} (hs : m.Sane)
    (hst : m.tun.mProxyStatus ≠ .Connected) : Quiet m (m.onError side) := by
  cases side with
  | loc =>
    obtain ⟨hq, -, -, hq'⟩ := onErrorLocal_flushed hs.tidy (hs.heard .proxy) hs.mHandler
    obtain ⟨-, ht, -⟩ := m.shutdown_spec .loc (hs.tidy .loc)
    rw [flushLocal, if_neg (ht.mProxyStatus ▸ hst)] at hq'
    exact hq.trans hq'
  | proxy => exact (onErrorProxy_closes hs.tidy).toQuiet

theorem Sane.onDisconnected_quiet (side : Side) {m : TunCtx} (hs : m.Sane)
    (hst : m.tun.mProxyStatus ≠ .Connected) : Quiet m (m.onDisconnected side) := by
  cases side with
  | loc =>
    obtain ⟨hq, -, -, hq'⟩ := onDisconnected_loc_flushed hs.tidy (hs.heard .proxy) hs.mHandler
    obtain ⟨-, ht, -⟩ := m.shutdown_spec .loc (hs.tidy .loc)
    rw [flushLocal, if_neg (ht.mProxyStatus ▸ hst)] at hq'
    exact hq.trans hq'
  | proxy => exact (onDisconnected_proxy_closes hs.tidy hs.mHandler).toQuiet

theorem Sane.onError_prompt (side : Side) {m : TunCtx} (hs : m.Sane) (h : m.Prompt) :
    (m.onError side).Prompt := by
  by_cases hst : m.tun.mProxyStatus = .Connected
  · exact h.grows (h.established hst (hs.fd .proxy))
      (onError_outward side hs.tidy (hs.heard .proxy) hs.mHandler).grows
  · exact h.over (hs.onError_quiet side hst)
      (onError_ended side hs.tidy (hs.heard .proxy) hs.mHandler).shut

theorem Sane.onDisconnected_prompt (side : Side) {m : TunCtx} (hs : m.Sane) (h : m.Prompt) :
    (m.onDisconnected side).Prompt := by
  by_cases hst : m.tun.mProxyStatus = .Connected
  · exact h.grows (h.established hst (hs.fd .proxy))
      (onDisconnected_outward side hs.tidy (hs.heard .proxy) hs.mHandler).grows
  · exact h.over (hs.onDisconnected_quiet side hst)
      (onDisconnected_ended side hs.tidy (hs.heard .proxy) hs.mHandler).shut

theorem sendLocal_grows (data : Bytes) {m : TunCtx} (hs : m.Sane) : Grows m (m.sendLocal data) := by
  obtain ⟨k, hk, ho, -, hn | hn⟩ := (sendLocal_spec data (hs.heard .loc)).sent hs.tidy <;> rw [hn]
  · exact ho.grows
  · have hks := hs.goes hk.toGoes
    exact ho.grows.trans (onError_outward .loc hks.tidy (hks.heard .proxy) hks.mHandler).grows

theorem sendProxy_passes (data : Bytes) {m : TunCtx} (ht : m.Tidy) (hh : m.Heard .proxy) :
    (m.sendProxy data).passes .proxy = m.passes .proxy ++ data := by
  obtain ⟨k, hk, -, hp, hn | hn⟩ := (sendProxy_spec data hh).sent ht <;> rw [hn]
  · exact hp
  · rw [((onErrorProxy_closes hk.tidy).toQuiet.takes .proxy).2]
    exact hp

/-- The header decides, and the mark comes before the cache is sent on. -/
theorem Sane.parseHttpHeader_prompt {m : TunCtx} (hs : m.Sane) (h : m.Prompt) :
    m.parseHttpHeader.Prompt := by
  unfold parseHttpHeader
  split
  swap
  · exact h
  split
  · let n := (m.setStatus .Connected).log (.established m.tun.this)
    have hn : n.Sane := ⟨fun s => by cases s; exacts [hs.fd .loc, hs.fd .proxy],
      fun s => by cases s; exacts [hs.handler .loc, hs.handler .proxy], hs.mHandler,
      ⟨hs.whole.loc, hs.whole.proxy⟩⟩
    have hmark : ∃ t, .established t ∈ n.sys.trace :=
      ⟨m.tun.this, List.mem_append_right _ (List.mem_singleton.mpr rfl)⟩
    have hreserved : Reserved (n.conn .proxy).this n.key.request n.sys.trace :=
      h.reserved.append_of_silent rfl
    have hprompt : n.Prompt := ⟨hreserved, fun _ _ => hmark⟩
    exact hprompt.grows hmark (flushLocal_outward hn.tidy (hn.heard .proxy)).grows
  · have hc := dropProxy_closes (m := m.setStatus .Error)
      (fun s => by simpa using hs.tidy s) hs.mHandler
    exact h.over ((setStatus_quiet m .Error).trans hc.toQuiet) hc.shut

theorem Sane.onRecv_prompt (side : Side) (bs : Bytes) {m : TunCtx} (hs : m.Sane) (h : m.Prompt) :
    (m.onRecv side bs).Prompt := by
  have hdrop : m.dropProxy.Prompt :=
    have hc := dropProxy_closes hs.tidy hs.mHandler
    h.over hc.toQuiet hc.shut
  cases side with
  | loc =>
    simp only [onRecv]
    split
    · rename_i hst
      exact h.grows (h.established hst (hs.fd .proxy))
        (sendProxy_outward bs hs.tidy (hs.heard .proxy)).grows
    · exact h.silent ⟨rfl, List.prefix_refl _⟩ rfl fun hc hfd => ⟨hc, hfd⟩
  | proxy =>
    simp only [onRecv]
    split
    · split
      · exact hdrop
      · refine (hs.goes (setHeader_goes _ hs.tidy)).parseHttpHeader_prompt ?_
        exact h.silent ⟨rfl, List.prefix_refl _⟩ rfl fun hc hfd => ⟨hc, hfd⟩
    · rename_i hst
      split
      · exact hdrop
      · exact h.grows (h.established hst (hs.fd .proxy)) (sendLocal_grows bs hs)
    · exact hdrop

theorem Live.input_prompt {m : TunCtx} (hm : m.Live) (hw : m.tun.Whole) (h : m.Prompt)
    (side : Side) : ((owner side).handleInputNotification m).Prompt := by
  rcases hm.input_inv hw side with ⟨-, hk⟩ | ⟨hst, n, bs, r, hin, hn, hend⟩
  · rwa [hk]
  have hnp : n.Prompt := h.silent hin.grows ((hin.accounts hw).2.2.2.2 .proxy).2
    fun hc _ => ⟨hin.toRead.mProxyStatus ▸ hc, hm.fd .proxy⟩
  have hr : r.Prompt := by
    rw [hin.result]
    split
    · exact hnp
    · exact hn.onRecv_prompt side bs hnp
  have hnote : ∀ {e y}, r.Sane → Noting side e r y → e.isNote → y.Prompt := fun hs hy he =>
    hr.silent ⟨hy.key, _, hy.log.symm⟩ (hy.accounts he .proxy).2.1
      fun hc _ => ⟨hy.mProxyStatus ▸ hc, hs.fd .proxy⟩
  generalize (owner side).handleInputNotification m = k at hend ⊢
  cases hend with
  | stays => exact hr
  | fails y hs _ hy => exact (hs.goes hy.toGoes).onError_prompt side (hnote hs hy trivial)
  | leaves y hs _ hy => exact (hs.goes hy.toGoes).onDisconnected_prompt side (hnote hs hy trivial)

/-- The request is the first thing passed on. -/
theorem asked_prompt {m : TunCtx} (hm : m.Linked) (hp : m.passes .proxy = [])
    (hs : m.tun.mProxyStatus ≠ .Connected) : (m.sendProxy m.key.request).Prompt := by
  have hpass := sendProxy_passes m.key.request hm.tidy (hm.heard .proxy)
  have hkeeps := sendProxy_keeps m.key.request hm.tidy (hm.heard .proxy)
  rw [hp, List.nil_append] at hpass
  generalize m.sendProxy m.key.request = n at hpass hkeeps ⊢
  rcases hkeeps with hk | he
  · refine ⟨.of_passed (by rw [← passes, hpass, hk.key]), fun hc _ => ?_⟩
    exact absurd (hk.mProxyStatus ▸ hc) hs
  · refine ⟨.of_passed (by rw [← passes, hpass, he.key]), fun _ hfd => ?_⟩
    exact absurd (he.shut .proxy).fd (not_lt.mpr hfd)

theorem Live.output_prompt {qs : List Bytes} {m : TunCtx} (hm : m.Live) (hw : m.tun.Whole)
    (hb : m.Books qs) (h : m.Prompt) (side : Side) :
    ((owner side).handleOutputNotification m).Prompt := by
  have hs := hm.sane hw
  have hstep := hm.outputStep side
  generalize (owner side).handleOutputNotification m = k at hstep ⊢
  have hput : ∀ (x : Ctx) (s : Sys) (bs : Bytes) (tail : List Ev), SameLink (m.conn side) x.conn →
      Wire (m.conn side).this m.sys s bs → x.sys.trace = s.trace ++ tail →
      (∀ e ∈ tail, e.isNote) → (m.put side x).Sane ∧ (m.put side x).Prompt := by
    intro x s bs tail hl wire ht he
    obtain ⟨-, -, h3⟩ := put_wire hw hl wire ht he
    have hk := put_keeps hs.tidy hl (hs.fd side)
    obtain ⟨evs, hlog, -⟩ := wire
    have htrace : m.sys.trace <+: (m.put side x).sys.trace :=
      ⟨evs ++ tail, by rw [← List.append_assoc, ← hlog, ← ht]; cases side <;> rfl⟩
    exact ⟨hs.goes hk.toGoes, h.silent ⟨hk.key, htrace⟩ (h3 .proxy).1
      fun hc _ => ⟨hk.mProxyStatus ▸ hc, hs.fd .proxy⟩⟩
  cases hstep with
  | idle => exact h
  | flushed _ x bs hst hl wire _ =>
    exact (hput x x.sys bs [] hl wire (List.append_nil _).symm (by simp)).2
  | failed _ x s bs hst hl wire _ ht =>
    obtain ⟨hxs, hxp⟩ := hput x s bs _ hl wire ht (by simp [Ev.isNote])
    exact hxs.onError_prompt side hxp
  | refused x r hst hfd hthis ht =>
    have hkey := m.key_put .proxy x hthis
    have hacc := notes_accounts (n := m.put .proxy x) hkey ht (by simp [Ev.isNote])
    have htidy := hs.tidy.put_open .proxy (hfd ▸ hs.fd .proxy)
    have hp : (m.put .proxy x).Prompt := h.silent ⟨hkey, _, ht.symm⟩ (hacc .proxy).2.1
      fun hc _ => ⟨hc, hs.fd .proxy⟩
    have hc := onErrorProxy_closes htidy
    exact hp.over hc.toQuiet hc.shut
  | connected x hst hc ht =>
    obtain ⟨hlive, hkey⟩ := hm.asking hc
    have hacc := notes_accounts (n := m.asking x) hkey ht (by simp [Ev.isNote])
    rw [← hkey]
    refine asked_prompt hlive.toLinked ?_ (fun h => by cases h)
    rw [(hacc .proxy).2.1]
    exact (hb.waiting hst).2.2.1

theorem Prompt.setHandler {m : TunCtx} (h : m.Prompt) (b : Bool) :
    Prompt { m with tun.mHandler := b } := ⟨h.reserved, h.established⟩

theorem onAccept_prompt (cfg : Config) (connfd : ℕ) {m : TunCtx} (h : m.tun.Idle)
    (ht : m.sys.trace = []) : (m.onAccept cfg connfd).2.Prompt := by
  obtain ⟨hshut, -⟩ := (idle_iff m).mp h
  have hnotes : ∀ n : TunCtx, Noted m.sys n.sys →
      (n.tun.mProxyStatus = .Connected → (n.conn .proxy).mFd < 0) → n.Prompt := by
    intro n hn hdown
    refine ⟨.of_passed ?_, fun hst hfd => absurd (hdown hst) (not_lt.mpr hfd)⟩
    rw [← passes, (accounts_nil (hn.fresh ht) .proxy).2.1]
    exact List.nil_prefix
  have ho := onAccept_spec cfg connfd hshut
  generalize m.onAccept cfg connfd = r at ho
  cases ho with
  | refused _ n key shut cache log => exact hnotes n log fun _ => (shut .proxy).fd
  | waiting n key broken linked status cache queue log =>
    refine (hnotes n log fun hst => ?_).setHandler true
    rw [status] at hst
    cases hst
  | asked n key broken linked status header cache queue log =>
    have hp : n.passes .proxy = [] := (accounts_nil (log.fresh ht) .proxy).2.1
    exact (asked_prompt linked hp (by rw [status]; simp)).setHandler true

/-- The books of a session and what they say of the mark, whatever arrives. -/
structure Kept (m : TunCtx) : Prop where
  shaped : m.Shaped
  whole : m.tun.Whole
  books : ∃ qs, m.Books qs
  prompt : m.Prompt

theorem Books.enter {qs : List Bytes} {m : TunCtx} (h : m.Books qs) (e : Entry) :
    (m.enter e).Books qs :=
  ⟨h.flow.congr rfl rfl, h.held, h.relaying, h.waiting, h.back.congr rfl rfl⟩

theorem Prompt.enter {m : TunCtx} (h : m.Prompt) (e : Entry) : (m.enter e).Prompt :=
  ⟨h.reserved, h.established⟩

theorem Kept.enter {m : TunCtx} (h : m.Kept) (e : Entry) : (m.enter e).Kept := by
  obtain ⟨qs, hb⟩ := h.books
  exact ⟨h.shaped.imp (fun hl => hl.enter e) fun hs => ⟨hs.1.enter e, hs.2⟩,
    ⟨h.whole.loc, h.whole.proxy⟩, ⟨qs, hb.enter e⟩, h.prompt.enter e⟩

theorem Kept.notify {m : TunCtx} (h : m.Kept) (n : Notice) (hd : ∀ w ∈ m.stdio, w = .ok) :
    (m.notify n).Kept := by
  obtain ⟨hkey, -, hs⟩ := notify_shaped n h.shaped
  obtain ⟨qs, hb⟩ := h.books
  refine ⟨hs.imp (fun hl => hl.2.1) id, whole_of_key hkey h.whole, ?_, ?_⟩
  · rcases h.shaped with hl | ⟨hshut, -⟩
    · cases n with
      | input side => exact hl.input_books h.whole hb hd side
      | output side => exact hl.output_books h.whole hb side
    · exact ⟨qs, by rwa [hshut.notify n]⟩
  · rcases h.shaped with hl | ⟨hshut, -⟩
    · cases n with
      | input side => exact hl.input_prompt h.whole h.prompt side
      | output side => exact hl.output_prompt h.whole hb h.prompt side
    · rw [hshut.notify n]
      exact h.prompt

theorem Kept.step {m : TunCtx} (h : m.Kept) (a : Entry × Notice) (hd : ∀ w ∈ a.1.stdio, w = .ok) :
    (m.step a).Kept := by
  unfold TunCtx.step
  split
  · exact h
  · exact (h.enter a.1).notify a.2 hd

end TunCtx

/-- The request a tunnel will send for `cfg`. -/
def Config.request (cfg : Config) (t : ProxyTunnel) : Bytes :=
  ProxyTunnel.connectRequest { t with
    mDestSvrHost := snprintf ADDR_SIZE cfg.mDestHost
    mDestSvrPort := cfg.mDestPort }

namespace TunCtx

theorem configured_key (cfg : Config) (m : TunCtx) : (m.configured cfg).key =
    ⟨m.tun.this, (m.conn .loc).this, (m.conn .proxy).this, cfg.request m.tun⟩ := by
  unfold configured setProxyServer
  cases cfg.pton cfg.mProxyIp <;> rfl

/-- A session starts with the request of its configuration. -/
theorem onAccept_key (cfg : Config) (connfd : ℕ) {m : TunCtx} (h : m.tun.Idle) :
    (m.onAccept cfg connfd).2.key = (m.configured cfg).key :=
  (onAccept_spec cfg connfd ((idle_iff m).mp h).1).key

end TunCtx

namespace Session

theorem accept_kept (cfg : Config) (s : Session) {t : ProxyTunnel} (h : Recycled cfg t) :
    (s.accept cfg t).2.Kept := by
  obtain ⟨hidle, hwhole⟩ := h.idle
  let m : TunCtx :=
    ⟨t, ⟨s.entry.errno, s.entry.env, s.entry.poller, [], false⟩, s.entry.stdio, [], false⟩
  obtain ⟨hthis, haddr, hshape⟩ := m.onAccept_shaped cfg s.connfd hidle
  have hthis' : (s.accept cfg t).2.tun.this = t.this := hthis
  exact ⟨hshape.imp (fun hl => hl.2.1) id,
    ⟨(haddr .loc).trans (by rw [hthis']; exact hwhole.loc),
      (haddr .proxy).trans (by rw [hthis']; exact hwhole.proxy)⟩,
    m.onAccept_books cfg s.connfd hidle hwhole rfl, m.onAccept_prompt cfg s.connfd hidle rfl⟩

theorem run_kept (cfg : Config) (s : Session) {t : ProxyTunnel} (h : Recycled cfg t)
    (hd : s.DiskOk) : (s.run cfg t).Kept := by
  have hstart := s.accept_kept cfg h
  unfold DiskOk at hd
  unfold run
  generalize (s.accept cfg t).2 = m at hstart
  generalize s.arrivals = arrivals at hd
  induction arrivals using List.reverseRecOn with
  | nil => exact hstart
  | append_singleton as a ih =>
    rw [List.foldl_append, List.foldl_cons, List.foldl_nil]
    exact (ih fun b hb => hd b (List.mem_append_left _ hb)).step a
      (hd a (List.mem_append_right _ (List.mem_singleton.mpr rfl)))

theorem run_key (cfg : Config) (s : Session) {t : ProxyTunnel} (h : Recycled cfg t) :
    (s.run cfg t).key =
      ⟨t.this, t.mLocalConn.this, t.mProxyConn.this, cfg.request t⟩ := by
  have hstart := s.accept_kept cfg h
  have hkey : (s.accept cfg t).2.key = _ :=
    (TunCtx.onAccept_key cfg s.connfd h.idle.1).trans (TunCtx.configured_key cfg _)
  unfold run
  rw [show TunKey.mk t.this t.mLocalConn.this t.mProxyConn.this (cfg.request t) =
    (s.accept cfg t).2.key from hkey.symm]
  generalize (s.accept cfg t).2 = m at hstart
  clear hkey
  suffices (s.arrivals.foldl TunCtx.step m).Shaped ∧ (s.arrivals.foldl TunCtx.step m).key = m.key
    from this.2
  induction s.arrivals using List.reverseRecOn with
  | nil => exact ⟨hstart.shaped, rfl⟩
  | append_singleton as a ih =>
    rw [List.foldl_append, List.foldl_cons, List.foldl_nil]
    obtain ⟨hk, hs⟩ := TunCtx.step_shaped a ih.1
    exact ⟨hs.imp (fun hl => hl.2.1) id, hk.trans ih.2⟩

/-- What the socket to the proxy server has taken is the beginning of the
request and of what the client sent, and nothing of the latter was passed on
before the tunnel was established. -/
theorem proxy_stream_ordered (cfg : Config) (s : Session) {t : ProxyTunnel}
    (h : Recycled cfg t) (hd : s.DiskOk) :
    accepted t.mProxyConn.this (s.run cfg t).sys.trace <+:
        cfg.request t ++ received t.mLocalConn.this (s.run cfg t).sys.trace ∧
      Reserved t.mProxyConn.this (cfg.request t) (s.run cfg t).sys.trace := by
  -- the books of the run say where each byte is: sent, queued or still in the cache
  obtain ⟨-, -, ⟨qs, hb⟩, hp⟩ := s.run_kept cfg h hd
  have hk := s.run_key cfg h
  -- the objects and the request are those the session began with
  have hloc : ((s.run cfg t).conn .loc).this = t.mLocalConn.this := congrArg TunKey.loc hk
  have hproxy : ((s.run cfg t).conn .proxy).this = t.mProxyConn.this := congrArg TunKey.proxy hk
  have hreq : (s.run cfg t).key.request = cfg.request t := congrArg TunKey.request hk
  have hflow := hb.flow.within
  have hres := hp.reserved
  rw [TunCtx.takes, TunCtx.gets, hloc, hproxy, hreq] at hflow
  rw [hproxy, hreq] at hres
  exact ⟨hflow, hres⟩

/-- A client that talks before the proxy server has answered. -/
def earlySession : Session :=
  ⟨3, ⟨.EAGAIN, { sockets := [.fd 4] }, .new, []⟩,
    [(⟨.EAGAIN, { recvs := [.data (ascii "hello")] }, .new, []⟩, .input .loc),
      (⟨.EAGAIN, { sends := [.sent 4096] }, .new, []⟩, .output .proxy),
      (⟨.EAGAIN, { recvs := [.data (ascii "HTTP/1.1 200 Connection established\r\n\r\n")]
                   sends := [.sent 3] }, .new, []⟩, .input .proxy),
      (⟨.EAGAIN, { recvs := [.data (ascii " world")] }, .new, []⟩, .input .loc)]⟩

theorem proxy_stream_early :
    accepted ⟨0, .proxy⟩ (earlySession.run exampleConfig (.new 0)).sys.trace =
        exampleConfig.request (.new 0) ++ ascii "hel" ∧
      accepted ⟨0, .proxy⟩ (earlySession.run exampleConfig (.new 0)).sys.trace <+:
        exampleConfig.request (.new 0) ++
          received ⟨0, .loc⟩ (earlySession.run exampleConfig (.new 0)).sys.trace ∧
      Reserved ⟨0, .proxy⟩ (exampleConfig.request (.new 0))
        (earlySession.run exampleConfig (.new 0)).sys.trace :=
  ⟨by decide +kernel, proxy_stream_ordered exampleConfig earlySession (.new 0)
    (by simp [DiskOk, earlySession])⟩

end Session

end HttpsProxy
