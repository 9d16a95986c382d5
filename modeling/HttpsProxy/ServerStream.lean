import HttpsProxy.AnswerSteps
import HttpsProxy.ClientStream

/-! The stream from the proxy server to the client over a whole session. What
the client is sent is what follows the chunk that completes the header. -/
namespace HttpsProxy

namespace TunCtx

/-- The client has been sent what the answer of the proxy server asks for, and
all that was read has been handed on. -/
structure Attends (m : TunCtx) : Prop where
  relayed : m.passes .loc = (feed (m.hears .proxy)).relayed
  stage : m.Linked → m.tun.mProxyStatus = .Closed ∧ m.hears .proxy = [] ∨ m.Reads (feed (m.hears .proxy))
  heard : ∀ side, Chunking (m.gets side) (m.hears side)

theorem Reads.congr {a : Answer} {m n : TunCtx} (h : m.Reads a)
    (hs : n.tun.mProxyStatus = m.tun.mProxyStatus) (hd : n.tun.mHttpHeader = m.tun.mHttpHeader) :
    n.Reads a := by
  cases a with
  | reading text => exact ⟨hs.trans h.1, by rw [ProxyTunnel.header, hd]; exact h.2⟩
  | relaying sent => exact hs.trans h
  | refused => exact h.elim

theorem Shut.not_linked {m : TunCtx} (h : m.Shut) : ¬m.Linked :=
  fun hl => absurd (h .loc).fd (not_lt.mpr (hl.fd .loc))

/-- Once the session is given up, only what was sent and read counts. -/
theorem Attends.over {m n : TunCtx} (hr : m.passes .loc = (feed (m.hears .proxy)).relayed)
    (hh : ∀ side, Chunking (m.gets side) (m.hears side)) (hw : m.tun.Whole)
    (ho : Outward .proxy m n) (hshut : n.Shut) : n.Attends := by
  obtain ⟨hin, hout⟩ := ho.accounts hw
  refine ⟨?_, fun hl => absurd hl hshut.not_linked, fun s => ?_⟩
  · rw [(hout .loc (by simp)).2, (hin .proxy).2]
    exact hr
  · rw [(hin s).1, (hin s).2]
    exact hh s

theorem Sane.onRecv_loc_along (bs : Bytes) {m : TunCtx} (hs : m.Sane) :
    Outward .proxy m (m.onRecv .loc bs) ∧ ((m.onRecv .loc bs).tun.mProxyStatus = m.tun.mProxyStatus ∧
      (m.onRecv .loc bs).tun.mHttpHeader = m.tun.mHttpHeader ∨ (m.onRecv .loc bs).Shut) := by
  simp only [onRecv]
  split
  · refine ⟨sendProxy_outward bs hs.tidy (hs.heard .proxy), ?_⟩
    exact (sendProxy_keeps bs hs.tidy (hs.heard .proxy)).imp
      (fun hk => ⟨hk.mProxyStatus, hk.mHttpHeader⟩) fun he => he.shut
  · exact ⟨⟨rfl, [], (List.append_nil _).symm, by simp⟩, Or.inl ⟨rfl, rfl⟩⟩

/-- What holds once data has been read and before it is handed on. -/
structure Attended (side : Side) (bs : Bytes) (m n : TunCtx) : Prop where
  passes : n.passes .loc = (feed (m.hears .proxy)).relayed
  hears : n.hears .proxy = m.hears .proxy ++ (if side = .proxy ∧ bs ≠ [] then [bs] else [])
  stage : n.tun.mProxyStatus = .Closed ∧ m.hears .proxy = [] ∨ n.Reads (feed (m.hears .proxy))
  heard : ∀ s, Chunking (n.gets s) (n.hears s)

theorem InputSpec.attended {side : Side} {bs : Bytes} {m n r : TunCtx} (hin : InputSpec side m n bs r)
    (hm : m.Live) (hw : m.tun.Whole) (h : m.Attends) : Attended side bs m n := by
  obtain ⟨hg, hgo, hh, hho, hacc⟩ := hin.accounts hw
  have hread := hin.toRead
  have hside : Chunking (n.gets side) (n.hears side) := by
    rw [hg, hh]
    exact (h.heard side).append bs
  have hother : Chunking (n.gets side.other) (n.hears side.other) := by
    rw [hgo, hho]
    exact h.heard side.other
  refine ⟨(hacc .loc).2.trans h.relayed, ?_, ?_, fun s => ?_⟩
  · cases side with
    | loc =>
      have hp : n.hears .proxy = m.hears .proxy := hho
      simp [hp]
    | proxy =>
      rw [hh]
      by_cases hb : bs = [] <;> simp [hb]
  · rw [hread.mProxyStatus]
    exact (h.stage hm.toLinked).imp id fun hr => hr.congr hread.mProxyStatus hread.mHttpHeader
  · cases side <;> cases s
    exacts [hside, hother, hother, hside]

/-- Nothing of the answer came with it. -/
theorem Attended.attends {side : Side} {bs : Bytes} {m n : TunCtx} (h : Attended side bs m n)
    (hb : side = .loc ∨ bs = []) : n.Attends := by
  have hh : n.hears .proxy = m.hears .proxy := by
    rw [h.hears, if_neg (by rintro ⟨rfl, hne⟩; simp_all), List.append_nil]
  exact ⟨by rw [hh]; exact h.passes, fun _ => by rw [hh]; exact h.stage, h.heard⟩

theorem Attended.onRecv_loc {bs : Bytes} {m n : TunCtx} (h : Attended .loc bs m n) (hs : n.Sane) :
    (n.onRecv .loc bs).Attends := by
  have hn := h.attends (Or.inl rfl)
  have hh : n.hears .proxy = m.hears .proxy := by simp [h.hears]
  obtain ⟨ho, hsame | hshut⟩ := hs.onRecv_loc_along bs
  · obtain ⟨hin, hout⟩ := ho.accounts hs.whole
    refine ⟨?_, fun _ => ?_, fun s => ?_⟩
    · rw [(hout .loc (by simp)).2, (hin .proxy).2]
      exact hn.relayed
    · rw [(hin .proxy).2, hh, hsame.1]
      exact h.stage.imp id fun hr => hr.congr hsame.1 hsame.2
    · rw [(hin s).1, (hin s).2]
      exact h.heard s
  · exact .over hn.relayed h.heard hs.whole ho hshut

/-- A chunk of the answer is followed. -/
theorem Attended.onRecv_proxy {bs : Bytes} {m n : TunCtx} (h : Attended .proxy bs m n) (hs : n.Sane)
    (hl : (n.conn .loc).mConnStatus = .Connected) (hb : bs ≠ [])
    (hst : n.tun.mProxyStatus ≠ .Closed) : (n.onRecv .proxy bs).Attends := by
  have hr : n.Reads (feed (m.hears .proxy)) := h.stage.resolve_left fun hc => hst hc.1
  have hh : n.hears .proxy = m.hears .proxy ++ [bs] := by rw [h.hears, if_pos ⟨rfl, hb⟩]
  have hstep := onRecv_answer bs hr hl
  rw [← feed_append, ← hh] at hstep
  obtain ⟨hpass, hin⟩ := hstep.accounts hs h.passes
  refine ⟨by rw [hpass, (hin .proxy).2], fun hlive => Or.inr ?_, fun s => ?_⟩
  · rw [(hin .proxy).2]
    rcases hstep.result hs hr with ⟨-, hrn⟩ | ⟨he, -⟩
    · exact hrn
    · exact absurd hlive he.shut.not_linked
  · rw [(hin s).1, (hin s).2]
    exact h.heard s

theorem Live.input_attends {m : TunCtx} (hm : m.Live) (hw : m.tun.Whole) (h : m.Attends)
    (side : Side) : ((owner side).handleInputNotification m).Attends := by
  rcases hm.input_inv hw side with ⟨-, hk⟩ | ⟨hst, n, bs, r, hin, hn, hend⟩
  · rwa [hk]
  have hatt := hin.attended hm hw h
  have hread := hin.toRead
  have hr : r.Attends := by
    rw [hin.result]
    split
    · rename_i hb
      exact hatt.attends (Or.inr hb)
    · rename_i hb
      cases side with
      | loc => exact hatt.onRecv_loc hn
      | proxy =>
        refine hatt.onRecv_proxy hn ?_ hb ?_
        · rw [show n.conn .loc = m.conn .loc from hread.other]
          exact hm.loc
        · rw [hread.mProxyStatus]
          rcases hm.phase with ⟨hc, -⟩ | ⟨-, hc | hc⟩
          · rw [hst] at hc; cases hc
          · simp [hc]
          · simp [hc]
  generalize (owner side).handleInputNotification m = k at hend ⊢
  -- a note is neither heard nor passed on
  have hnote : ∀ {e y}, Noting side e r y → e.isNote →
      y.passes .loc = (feed (y.hears .proxy)).relayed ∧ ∀ s, Chunking (y.gets s) (y.hears s) := by
    intro e y hy he
    refine ⟨?_, fun s => ?_⟩
    · rw [(hy.accounts he .loc).2.1, (hy.accounts he .proxy).2.2.2]
      exact hr.relayed
    · rw [(hy.accounts he s).2.2.1, (hy.accounts he s).2.2.2]
      exact hr.heard s
  -- after the chunk the round ends in one of three ways, two of which shut the tunnel down
  cases hend with
  | stays => exact hr
  | fails y hs _ hy =>
    have hys := hs.goes hy.toGoes
    exact .over (hnote hy trivial).1 (hnote hy trivial).2 hys.whole
      (onError_outward side hys.tidy (hys.heard .proxy) hys.mHandler)
      (onError_ended side hys.tidy (hys.heard .proxy) hys.mHandler).shut
  | leaves y hs _ hy =>
    have hys := hs.goes hy.toGoes
    exact .over (hnote hy trivial).1 (hnote hy trivial).2 hys.whole
      (onDisconnected_outward side hys.tidy (hys.heard .proxy) hys.mHandler)
      (onDisconnected_ended side hys.tidy (hys.heard .proxy) hys.mHandler).shut

/-- Steps that read nothing and send nothing to the client. -/
theorem Attends.aside {m n : TunCtx} (h : m.Attends) (hm : m.Live)
    (hacc : n.passes .loc = m.passes .loc ∧ ∀ s, n.gets s = m.gets s ∧ n.hears s = m.hears s)
    (hs : n.tun.mProxyStatus = m.tun.mProxyStatus) (hd : n.tun.mHttpHeader = m.tun.mHttpHeader) :
    n.Attends := by
  obtain ⟨hp, hin⟩ := hacc
  refine ⟨by rw [hp, (hin .proxy).2]; exact h.relayed, fun _ => ?_, fun s => ?_⟩
  · rw [hs, (hin .proxy).2]
    exact (h.stage hm.toLinked).imp id fun hr => hr.congr hs hd
  · rw [(hin s).1, (hin s).2]
    exact h.heard s

/-- The request goes out before anything has come in. -/
theorem asked_attends {m : TunCtx} (hm : m.Linked) (hw : m.tun.Whole) (hp : m.passes .loc = [])
    (hh : m.hears .proxy = []) (hg : ∀ s, Chunking (m.gets s) (m.hears s))
    (hst : m.tun.mProxyStatus = .Connecting) (hd : m.tun.header = []) :
    (m.sendProxy m.key.request).Attends := by
  have hr : m.passes .loc = (feed (m.hears .proxy)).relayed := by rw [hp, hh]; rfl
  have ho := sendProxy_outward m.key.request hm.tidy (hm.heard .proxy)
  rcases sendProxy_keeps m.key.request hm.tidy (hm.heard .proxy) with hk | he
  · obtain ⟨hin, hout⟩ := ho.accounts hw
    refine ⟨?_, fun _ => Or.inr ?_, fun s => ?_⟩
    · rw [(hout .loc (by simp)).2, (hin .proxy).2]
      exact hr
    · rw [(hin .proxy).2, hh]
      exact ⟨hk.mProxyStatus.trans hst, by rw [ProxyTunnel.header, hk.mHttpHeader]; exact hd⟩
    · rw [(hin s).1, (hin s).2]
      exact hg s
  · exact .over hr hg hw ho he.shut

theorem header_cleared (buf : Bytes) : cstr (memcpy buf 0 [0]) = [] := rfl

theorem Live.output_attends {m : TunCtx} (hm : m.Live) (hw : m.tun.Whole) (h : m.Attends)
    (side : Side) : ((owner side).handleOutputNotification m).Attends := by
  have hs := hm.sane hw
  have hstep := hm.outputStep side
  generalize (owner side).handleOutputNotification m = k at hstep ⊢
  -- writing reads nothing, so what has been heard stays as it was
  cases hstep with
  | idle => exact h
  | flushed _ x bs hst hl wire _ =>
    obtain ⟨-, -, h3⟩ := put_wire hw hl wire (List.append_nil _).symm (by simp)
    have hk := put_keeps hs.tidy hl (hs.fd side)
    exact h.aside hm ⟨(h3 .loc).1, fun s => (h3 s).2⟩ hk.mProxyStatus hk.mHttpHeader
  | failed _ x s bs hst hl wire _ ht =>
    obtain ⟨-, -, h3⟩ := put_wire hw hl wire ht (by simp [Ev.isNote])
    have hk := put_keeps hs.tidy hl (hs.fd side)
    have hx := h.aside hm ⟨(h3 .loc).1, fun s => (h3 s).2⟩ hk.mProxyStatus hk.mHttpHeader
    have hks := hs.goes hk.toGoes
    exact .over hx.relayed hx.heard hks.whole
      (onError_outward side hks.tidy (hks.heard .proxy) hks.mHandler)
      (onError_ended side hks.tidy (hks.heard .proxy) hks.mHandler).shut
  | refused x r hst hfd hthis ht =>
    have hkey := m.key_put .proxy x hthis
    have hacc := notes_accounts (n := m.put .proxy x) hkey ht (by simp [Ev.isNote])
    have htidy := hs.tidy.put_open .proxy (hfd ▸ hs.fd .proxy)
    have hx : (m.put .proxy x).Attends :=
      h.aside hm ⟨(hacc .loc).2.1, fun s => (hacc s).2.2⟩ rfl rfl
    have hc := onErrorProxy_closes htidy
    exact .over hx.relayed hx.heard (whole_of_key hkey hw) (hc.toQuiet.outward .proxy) hc.shut
  | connected x hst hc ht =>
    obtain ⟨hlive, hkey⟩ := hm.asking hc
    have hacc := notes_accounts (n := m.asking x) hkey ht (by simp [Ev.isNote])
    -- before the connection nothing can have been heard, so the automaton starts afresh
    have hidle : m.hears .proxy = [] := by
      rcases hm.phase with ⟨-, hcl⟩ | ⟨hc', -⟩
      · rcases h.stage hm.toLinked with hh | hh
        · exact hh.2
        · cases hf : feed (m.hears .proxy) with
          | reading text => rw [hf] at hh; rw [hh.1] at hcl; cases hcl
          | relaying sent =>
            rw [hf] at hh
            rw [show m.tun.mProxyStatus = .Connected from hh] at hcl
            cases hcl
          | refused => rw [hf] at hh; exact hh.elim
      · rw [hst] at hc'; cases hc'
    rw [← hkey]
    refine asked_attends hlive.toLinked (whole_of_key hkey hw) ?_ ?_ (fun s => ?_) rfl (header_cleared _)
    · rw [(hacc .loc).2.1, h.relayed, hidle]
      rfl
    · rw [(hacc .proxy).2.2.2, hidle]
    · rw [(hacc s).2.2.1, (hacc s).2.2.2]
      exact h.heard s

theorem Attends.setHandler {m : TunCtx} (h : m.Attends) (b : Bool) :
    Attends { m with tun.mHandler := b } := by
  refine ⟨h.relayed, fun hl => ?_, fun s => by cases s; exacts [h.heard .loc, h.heard .proxy]⟩
  have hm : m.Linked := ⟨fun s => by cases s; exacts [hl.fd .loc, hl.fd .proxy],
    fun s => by cases s; exacts [hl.handler .loc, hl.handler .proxy], hl.loc, hl.phase⟩
  exact (h.stage hm).imp id fun hr => hr.congr rfl rfl

theorem onAccept_attends (cfg : Config) (connfd : ℕ) {m : TunCtx} (h : m.tun.Idle)
    (hw : m.tun.Whole) (ht : m.sys.trace = []) : (m.onAccept cfg connfd).2.Attends := by
  obtain ⟨hshut, -⟩ := (idle_iff m).mp h
  have hnotes : ∀ n : TunCtx, Noted m.sys n.sys →
      (n.Linked → n.tun.mProxyStatus = .Closed) → n.Attends := by
    intro n hn hst
    have hacc := accounts_nil (hn.fresh ht)
    refine ⟨?_, fun hl => Or.inl ⟨hst hl, (hacc .proxy).2.2.2⟩, fun s => ?_⟩
    · rw [(hacc .loc).2.1, (hacc .proxy).2.2.2]
      rfl
    · rw [(hacc s).2.2.1, (hacc s).2.2.2]
      exact chunking_nil
  have ho := onAccept_spec cfg connfd hshut
  generalize m.onAccept cfg connfd = r at ho
  cases ho with
  | refused _ n key shut cache log =>
    exact hnotes n log fun hl => absurd (hl.fd .loc) (not_le.mpr (shut .loc).fd)
  | waiting n key broken linked status cache queue log =>
    exact (hnotes n log fun _ => status).setHandler true
  | asked n key broken linked status header cache queue log =>
    have hacc := accounts_nil (log.fresh ht)
    refine (asked_attends linked (whole_of_key key (configured_whole cfg hw)) (hacc .loc).2.1
      (hacc .proxy).2.2.2 (fun s => ?_) status ?_).setHandler true
    · rw [(hacc s).2.2.1, (hacc s).2.2.2]
      exact chunking_nil
    · rw [ProxyTunnel.header, header]
      exact header_cleared _

theorem Attends.enter {m : TunCtx} (h : m.Attends) (e : Entry) : (m.enter e).Attends := by
  refine ⟨h.relayed, fun hl => ?_, fun s => by cases s; exacts [h.heard .loc, h.heard .proxy]⟩
  have hm : m.Linked := ⟨fun s => by cases s; exacts [hl.fd .loc, hl.fd .proxy],
    fun s => by cases s; exacts [hl.handler .loc, hl.handler .proxy], hl.loc, hl.phase⟩
  exact (h.stage hm).imp id fun hr => hr.congr rfl rfl

theorem Attends.step {m : TunCtx} (h : m.Attends) (hs : m.Shaped) (hw : m.tun.Whole)
    (a : Entry × Notice) : (m.step a).Attends := by
  unfold TunCtx.step
  split
  · exact h
  rcases hs with hl | ⟨hshut, -⟩
  · cases a.2 with
    | input side => exact (hl.enter a.1).input_attends hw (h.enter a.1) side
    | output side => exact (hl.enter a.1).output_attends hw (h.enter a.1) side
  · rw [(hshut.enter a.1).notify a.2]
    exact h.enter a.1

end TunCtx

namespace Session

/-- An invariant of the tunnels in and out of session holds after every session. -/
theorem run_rule {cfg : Config} (s : Session) {t : ProxyTunnel} (h : Recycled cfg t)
    {P : TunCtx → Prop} (start : P (s.accept cfg t).2)
    (step : ∀ m a, m.Shaped → m.tun.Whole → P m → P (m.step a)) : P (s.run cfg t) := by
  have hkept := s.accept_kept cfg h
  unfold run
  generalize (s.accept cfg t).2 = m at hkept start
  suffices (s.arrivals.foldl TunCtx.step m).Shaped ∧ (s.arrivals.foldl TunCtx.step m).tun.Whole ∧
    P (s.arrivals.foldl TunCtx.step m) from this.2.2
  induction s.arrivals using List.reverseRecOn with
  | nil => exact ⟨hkept.shaped, hkept.whole, start⟩
  | append_singleton as a ih =>
    rw [List.foldl_append, List.foldl_cons, List.foldl_nil]
    obtain ⟨hs, hw, hp⟩ := ih
    obtain ⟨hk, hs'⟩ := TunCtx.step_shaped a hs
    exact ⟨hs'.imp (fun hl => hl.2.1) id, TunCtx.whole_of_key hk hw, step _ a hs hw hp⟩

theorem run_attends (cfg : Config) (s : Session) {t : ProxyTunnel} (h : Recycled cfg t) :
    (s.run cfg t).Attends :=
  s.run_rule h (TunCtx.onAccept_attends cfg s.connfd h.idle.1 h.idle.2 rfl)
    fun _ a hs hw hm => hm.step hs hw a

/-- The client gets exactly what follows the header if there is nothing, or if a
chunk ends where the header ends. -/
theorem payload_relayed_iff (cfg : Config) (s : Session) {t : ProxyTunnel} (h : Recycled cfg t)
    {H P : Bytes} (hH : AcceptedHeader H)
    (hs : (chunks t.mProxyConn.this (s.run cfg t).sys.trace).flatten = H ++ P) :
    passed t.mLocalConn.this (s.run cfg t).sys.trace = P ↔
      P = [] ∨ ∃ i, ((chunks t.mProxyConn.this (s.run cfg t).sys.trace).take i).flatten = H := by
  -- all that is relayed is what the answer automaton passes on of the chunks heard
  have hatt := s.run_attends cfg h
  have hk := s.run_key cfg h
  have hloc : ((s.run cfg t).conn .loc).this = t.mLocalConn.this := congrArg TunKey.loc hk
  have hproxy : ((s.run cfg t).conn .proxy).this = t.mProxyConn.this := congrArg TunKey.proxy hk
  have hp := hatt.relayed
  have hheard := hatt.heard .proxy
  rw [TunCtx.passes, TunCtx.hears, hloc, hproxy] at hp
  rw [TunCtx.hears, hproxy] at hheard
  rw [hp]
  -- the rest is about chunks alone
  exact hH.relayed_iff ⟨hs, hheard.2⟩

/-- The answer comes in two segments, the first of which ends with the header. -/
def tidySession : Session :=
  ⟨3, ⟨.EAGAIN, { sockets := [.fd 4], connects := [.ok], sends := [.sent 4096] }, .new, []⟩,
    [(⟨.EAGAIN, { recvs := [.data (ascii "HTTP/1.1 200 Connection established\r\n\r\n")] },
        .new, []⟩, .input .proxy),
      (⟨.EAGAIN, { recvs := [.data (ascii "hello")], sends := [.sent 5] }, .new, []⟩, .input .proxy)]⟩

/-- The same bytes in one segment. -/
def hastySession : Session :=
  ⟨3, ⟨.EAGAIN, { sockets := [.fd 4], connects := [.ok], sends := [.sent 4096] }, .new, []⟩,
    [(⟨.EAGAIN, { recvs := [.data (ascii "HTTP/1.1 200 Connection established\r\n\r\nhello")] },
      .new, []⟩, .input .proxy)]⟩

theorem plain_header : AcceptedHeader (ascii "HTTP/1.1 200 Connection established\r\n\r\n") where
  text := by decide +kernel
  short := by decide +kernel
  line := by decide +kernel
  ends := by decide +kernel
  first j hj := by
    have hlt : j < 40 := by
      have hle := hj.length_le
      rw [List.length_drop] at hle
      have hlen : (ascii "HTTP/1.1 200 Connection established\r\n\r\n").length = 39 := by decide +kernel
      simp [CRLF] at hle
      omega
    revert hj
    revert j
    decide +kernel
  phrase := by decide +kernel

theorem payload_relayed_tidy : passed ⟨0, .loc⟩ (tidySession.run exampleConfig (.new 0)).sys.trace =
    ascii "hello" :=
  (payload_relayed_iff exampleConfig tidySession (.new 0) plain_header (by decide +kernel)).mpr
    (Or.inr ⟨1, by decide +kernel⟩)

/-- What comes with the end of the header is lost. -/
theorem payload_lost : ¬∀ (cfg : Config) (s : Session) (t : ProxyTunnel), Recycled cfg t →
    (∀ c by_, Ev.onError c by_ ∉ (s.run cfg t).sys.trace) →
      ∀ H P : Bytes, AcceptedHeader H →
        (chunks t.mProxyConn.this (s.run cfg t).sys.trace).flatten = H ++ P →
        passed t.mLocalConn.this (s.run cfg t).sys.trace = P := by
  intro h
  have hall : ((hastySession.run exampleConfig (.new 0)).sys.trace.all fun e =>
      match e with
      | .onError .. => false
      | _ => true) = true := by decide +kernel
  have hp := h exampleConfig hastySession (.new 0) (.new 0)
    (fun c by_ hin => Bool.false_ne_true (List.all_eq_true.mp hall _ hin)) _ (ascii "hello") plain_header
    (by decide +kernel)
  revert hp
  decide +kernel

end Session

end HttpsProxy
