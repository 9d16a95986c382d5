import HttpsProxy.TunnelTraffic

/-! The books of a session: three buffers lie between the client and the socket
to the proxy server, and what they hold and what the socket has taken make up
the request and the bytes received, in order. -/
namespace HttpsProxy

theorem sockRecv_accounts {c : ConnId} (d : ConnId) {evs : List Ev}
    (h : ∀ e ∈ evs, e.isSockRecv c) :
    accepted d evs = [] ∧ passed d evs = [] ∧ chunks d evs = [] ∧
      (d ≠ c → received d evs = []) := by
  induction evs with
  | nil => exact ⟨rfl, rfl, rfl, fun _ => rfl⟩
  | cons e es ih =>
    obtain ⟨h1, h2, h3, h4⟩ := ih fun e he => h e (List.mem_cons_of_mem _ he)
    have he := h e List.mem_cons_self
    cases e with
    | sockRecv b room r =>
      refine ⟨by simpa [Ev.taken] using h1, by simpa [Ev.passed] using h2,
        by simpa [Ev.chunk] using h3, fun hd => ?_⟩
      have hb : b ≠ d := fun hbd => hd (hbd.symm.trans he)
      cases r <;> simp [Ev.read, hb, h4 hd]
    | _ => exact he.elim

/-- The log of reading on `c`, with the call of `onRecv`. -/
theorem readLog_accounts {c : ConnId} {bs : Bytes} (d : ConnId) {evs : List Ev}
    (h : ∀ e ∈ evs, e.isSockRecv c ∨ e = .onRecv c bs) :
    accepted d evs = [] ∧ passed d evs = [] ∧ (d ≠ c → received d evs = [] ∧ chunks d evs = []) := by
  induction evs with
  | nil => exact ⟨rfl, rfl, fun _ => ⟨rfl, rfl⟩⟩
  | cons e es ih =>
    obtain ⟨h1, h2, h3⟩ := ih fun e hm => h e (List.mem_cons_of_mem _ hm)
    rcases h e List.mem_cons_self with hx | hx
    · have hrecv : ∀ f ∈ [e], f.isSockRecv c := by simpa using hx
      obtain ⟨k1, k2, k3, k4⟩ := sockRecv_accounts d hrecv
      simp only [accepted_cons, passed_cons, received_cons, chunks_cons, accepted_nil, passed_nil,
        received_nil, chunks_nil, List.append_nil] at k1 k2 k3 k4 ⊢
      exact ⟨by simp [k1, h1], by simp [k2, h2], fun hd => ⟨by simp [k4 hd, (h3 hd).1],
        by simp [k3, (h3 hd).2]⟩⟩
    · subst hx
      refine ⟨by simp [Ev.taken, h1], by simp [Ev.passed, h2], fun hd => ?_⟩
      simp [Ev.read, Ev.chunk, Ne.symm hd, h3 hd]

namespace TunCtx

/-- What reading adds to the log. -/
theorem InputSpec.log {side : Side} {m n r : TunCtx} {bs : Bytes}
    (h : InputSpec side m n bs r) :
    ∃ evs, n.sys.trace = m.sys.trace ++ evs ∧
      (∀ e ∈ evs, e.isSockRecv (m.conn side).this ∨ e = .onRecv (m.conn side).this bs) ∧
      received (m.conn side).this evs = bs ∧
      chunks (m.conn side).this evs = if bs = [] then [] else [bs] := by
  obtain ⟨x, st, s, rfl, -, -, ⟨evs, ht, he, hb⟩, hsys⟩ := h.read
  have hp : (m.put side x).sys = x.sys := by cases side <;> rfl
  obtain ⟨-, -, hc, -⟩ := sockRecv_accounts (m.conn side).this he
  rw [hp, hsys]
  by_cases hbs : bs = []
  · simp only [if_pos hbs]
    exact ⟨evs, ht, fun e hm => Or.inl (he e hm), hb, hc⟩
  · simp only [if_neg hbs]
    refine ⟨evs ++ [.onRecv (m.conn side).this bs], by simp [Sys.log, ht], ?_, ?_, ?_⟩
    · intro e hm
      rcases List.mem_append.mp hm with hm | hm
      · exact Or.inl (he e hm)
      · exact Or.inr (List.mem_singleton.mp hm)
    · simp [hb, Ev.read]
    · simp [hc, Ev.chunk]

/-- Reading changes what was read and heard, and no other account. -/
theorem InputSpec.accounts {side : Side} {m n r : TunCtx} {bs : Bytes}
    (h : InputSpec side m n bs r) (hw : m.tun.Whole) :
    n.gets side = m.gets side ++ bs ∧ n.gets side.other = m.gets side.other ∧
      n.hears side = m.hears side ++ (if bs = [] then [] else [bs]) ∧
      n.hears side.other = m.hears side.other ∧
      ∀ s, n.takes s = m.takes s ∧ n.passes s = m.passes s := by
  obtain ⟨evs, ht, he, hb, hc⟩ := h.log
  have hk := this_of_key h.toRead.key
  have hne : (m.conn side.other).this ≠ (m.conn side).this :=
    whole_ne hw side.other_ne
  have hquiet := fun d => readLog_accounts d he
  refine ⟨?_, ?_, ?_, ?_, fun s => ⟨?_, ?_⟩⟩
  · simp [gets, hk, ht, hb]
  · simp [gets, hk, ht, ((hquiet _).2.2 hne).1]
  · simp [hears, hk, ht, hc]
  · simp [hears, hk, ht, ((hquiet _).2.2 hne).2]
  · simp [takes, hk, ht, (hquiet _).1]
  · simp [passes, hk, ht, (hquiet _).2.1]

/-- The books of a session, with `qs` in the cache. -/
structure Books (m : TunCtx) (qs : List Bytes) : Prop where
  flow : Flow .proxy (m.key.request ++ m.gets .loc) qs.flatten m
  held : m.tun.mLocalCache.Holds qs
  relaying : m.tun.mProxyStatus = .Connected → qs = []
  waiting : (m.conn .proxy).mConnStatus = .Connecting →
    m.tun.mProxyStatus = .Closed ∧ m.takes .proxy = [] ∧ m.passes .proxy = [] ∧
      (m.conn .proxy).pending = [] ∧ qs.flatten = m.gets .loc
  back : Flow .loc (m.passes .loc) [] m

/-- Once the session is given up, only what was sent counts. -/
theorem Books.of_shut {m : TunCtx} (h : m.Shut) (he : m.tun.mLocalCache.Emptied)
    (flow : m.takes .proxy <+: m.key.request ++ m.gets .loc)
    (back : m.takes .loc <+: m.passes .loc) : m.Books [] := by
  refine ⟨.cut (Or.inl (h .proxy).fd) flow, he.holds, fun _ => rfl, ?_,
    .cut (Or.inl (h .loc).fd) back⟩
  intro hc
  rw [(h .proxy).status] at hc
  cases hc

/-- A tunnel in session, of which a peer may be gone. -/
structure Sane (m : TunCtx) : Prop where
  fd : ∀ side, 0 ≤ (m.conn side).mFd
  handler : ∀ side, (m.conn side).mHandler = true
  mHandler : m.tun.mHandler = true
  whole : m.tun.Whole

theorem Sane.tidy {m : TunCtx} (h : m.Sane) : m.Tidy :=
  fun side => Connection.clean_of_open (h.fd side)

theorem Sane.heard {m : TunCtx} (h : m.Sane) (side : Side) : m.Heard side := Or.inl (h.handler side)

theorem Live.sane {m : TunCtx} (h : m.Live) (hw : m.tun.Whole) : m.Sane :=
  ⟨h.fd, h.handler, h.mHandler, hw⟩

theorem Sane.goes {m n : TunCtx} (h : m.Sane) (hg : Goes m n) : n.Sane :=
  ⟨fun side => (hg.link side).fd ▸ h.fd side,
    fun side => (hg.link side).handler.trans (h.handler side),
    hg.mHandler.trans h.mHandler, whole_of_key hg.key h.whole⟩

theorem Read.sane {side : Side} {m n : TunCtx} (hm : m.Live) (hw : m.tun.Whole)
    (h : Read side m n) : n.Sane := by
  obtain ⟨st, -, hc⟩ := h.conn
  have ho := h.other
  refine ⟨fun s => ?_, fun s => ?_, h.mHandler.trans hm.mHandler, whole_of_key h.key hw⟩
  · cases side <;> cases s
    exacts [hc ▸ hm.fd .loc, ho ▸ hm.fd .proxy, ho ▸ hm.fd .loc, hc ▸ hm.fd .proxy]
  · cases side <;> cases s
    exacts [hc ▸ hm.handler .loc, ho ▸ hm.handler .proxy, ho ▸ hm.handler .loc,
      hc ▸ hm.handler .proxy]

/-- Closing the client's side sends the cache on, as far as it goes. -/
theorem flushed_prefix {S : Bytes} {qs : List Bytes} {m : TunCtx} (hs : m.Sane)
    (flow : Flow .proxy S qs.flatten m) (held : m.tun.mLocalCache.Holds qs) :
    (m.shutdown .loc).flushLocal.takes .proxy <+: S := by
  obtain ⟨-, ht, -⟩ := m.shutdown_spec .loc (hs.tidy .loc)
  obtain ⟨hq, ht', hh', -⟩ := onErrorLocal_flushed hs.tidy (hs.heard .proxy) hs.mHandler
  have hflow : Flow .proxy S qs.flatten (m.shutdown .loc) :=
    flow.congr ht.other (hq.takes .proxy).1
  by_cases hst : (m.shutdown .loc).tun.mProxyStatus = .Connected
  · exact (flushLocal_flow ht' hh' hst (ht.mLocalCache ▸ held) hflow).1.within
  · rw [flushLocal, if_neg hst]
    exact hflow.within

theorem Sane.onError_books (side : Side) {qs : List Bytes} {m : TunCtx} (hs : m.Sane)
    (flow : Flow .proxy (m.key.request ++ m.gets .loc) qs.flatten m)
    (held : m.tun.mLocalCache.Holds qs) (back : m.takes .loc <+: m.passes .loc) :
    (m.onError side).Books [] := by
  have he := onError_ended side hs.tidy (hs.heard .proxy) hs.mHandler
  obtain ⟨hin, hout⟩ :=
    (onError_outward side hs.tidy (hs.heard .proxy) hs.mHandler).accounts hs.whole
  obtain ⟨htl, hpl⟩ := hout .loc (by simp)
  refine .of_shut he.shut he.emptied ?_ (htl ▸ hpl ▸ back)
  rw [he.key, (hin .loc).1]
  cases side with
  | loc =>
    obtain ⟨-, -, -, hq⟩ := onErrorLocal_flushed hs.tidy (hs.heard .proxy) hs.mHandler
    rw [show (m.onError .loc).takes .proxy = _ from (hq.takes .proxy).1]
    exact flushed_prefix hs flow held
  | proxy =>
    have hq := (onErrorProxy_closes hs.tidy).toQuiet
    rw [show (m.onError .proxy).takes .proxy = _ from (hq.takes .proxy).1]
    exact flow.within

theorem Sane.onDisconnected_books (side : Side) {qs : List Bytes} {m : TunCtx} (hs : m.Sane)
    (flow : Flow .proxy (m.key.request ++ m.gets .loc) qs.flatten m)
    (held : m.tun.mLocalCache.Holds qs) (back : m.takes .loc <+: m.passes .loc) :
    (m.onDisconnected side).Books [] := by
  have he := onDisconnected_ended side hs.tidy (hs.heard .proxy) hs.mHandler
  obtain ⟨hin, hout⟩ :=
    (onDisconnected_outward side hs.tidy (hs.heard .proxy) hs.mHandler).accounts hs.whole
  obtain ⟨htl, hpl⟩ := hout .loc (by simp)
  refine .of_shut he.shut he.emptied ?_ (htl ▸ hpl ▸ back)
  rw [he.key, (hin .loc).1]
  cases side with
  | loc =>
    obtain ⟨-, -, -, hq⟩ := onDisconnected_loc_flushed hs.tidy (hs.heard .proxy) hs.mHandler
    rw [(hq.takes .proxy).1]
    exact flushed_prefix hs flow held
  | proxy =>
    have hq := (onDisconnected_proxy_closes hs.tidy hs.mHandler).toQuiet
    rw [(hq.takes .proxy).1]
    exact flow.within

/-- Giving up quietly closes the books as they are. -/
theorem books_of_quiet {m n : TunCtx} (hw : m.tun.Whole) (hq : Quiet m n) (hshut : n.Shut)
    (he : n.tun.mLocalCache.Emptied) (flow : m.takes .proxy <+: m.key.request ++ m.gets .loc)
    (back : m.takes .loc <+: m.passes .loc) : n.Books [] := by
  obtain ⟨hin, -⟩ := (hq.outward .proxy).accounts hw
  refine .of_shut hshut he ?_ ?_
  · rw [hq.key, (hin .loc).1, (hq.takes .proxy).1]
    exact flow
  · rw [(hq.takes .loc).1, (hq.takes .loc).2]
    exact back

theorem Books.quiet {qs : List Bytes} {m n : TunCtx} (h : m.Books qs) (hw : m.tun.Whole)
    (hq : Quiet m n) (hshut : n.Shut) (he : n.tun.mLocalCache.Emptied) : n.Books [] :=
  books_of_quiet hw hq hshut he h.flow.within h.back.within

theorem Sane.dropProxy_books {qs : List Bytes} {m : TunCtx} (hs : m.Sane) (h : m.Books qs) :
    m.dropProxy.Books [] :=
  have hc := dropProxy_closes hs.tidy hs.mHandler
  h.quiet hs.whole hc.toQuiet hc.shut hc.emptied

/-- More to send on the same way. -/
theorem Flow.extend {side : Side} {S q : Bytes} {m : TunCtx} (h : Flow side S q m) (d : Bytes) :
    Flow side (S ++ d) (q ++ d) m := by
  cases h with
  | going fd status bytes => exact .going fd status (by rw [← bytes]; simp)
  | cut down bytes => exact .cut down (bytes.trans (List.prefix_append _ _))

/-- A connection that has stopped being connected cuts the way. -/
theorem Flow.read {side : Side} {S q : Bytes} {m n : TunCtx} (h : Flow side S q m)
    (fd : 0 ≤ (m.conn side).mFd) (status : (m.conn side).mConnStatus = .Connected)
    (hr : ∃ st, st ≠ .Connecting ∧ n.conn side = { m.conn side with mConnStatus := st })
    (takes : n.takes side = m.takes side) : Flow side S q n := by
  obtain ⟨st, -, hc⟩ := hr
  by_cases hst : st = .Connected
  · cases h with
    | going fd status bytes =>
      refine .going (by rw [hc]; exact fd) (by rw [hc]; exact hst) ?_
      rw [takes, hc]
      exact bytes
    | cut down _ => exact absurd down (by simp [not_lt.mpr fd, status])
  · exact .cut (Or.inr (by rw [hc]; exact hst)) (takes ▸ h.within)

/-- Reading from the proxy server changes no account of the books. -/
theorem Books.read_proxy {qs : List Bytes} {m n r : TunCtx} {bs : Bytes} (h : m.Books qs)
    (hm : m.Live) (hw : m.tun.Whole) (hst : (m.conn .proxy).mConnStatus = .Connected)
    (hin : InputSpec .proxy m n bs r) : n.Books qs := by
  have hr := hin.toRead
  obtain ⟨-, hg, -, -, hacc⟩ := hin.accounts hw
  change n.gets .loc = m.gets .loc at hg
  have hl : n.conn .loc = m.conn .loc := hr.other
  refine ⟨?_, hr.mLocalCache ▸ h.held, hr.mProxyStatus ▸ h.relaying, ?_, ?_⟩
  · rw [hr.key, hg]
    exact h.flow.read (hm.fd .proxy) hst hr.conn (hacc .proxy).1
  · obtain ⟨st, hne, hc⟩ := hr.conn
    intro hconn
    rw [hc] at hconn
    exact absurd hconn hne
  · rw [(hacc .loc).2]
    exact h.back.congr hl (hacc .loc).1

/-- The bytes read from the client are still to be sent. -/
theorem Books.read_loc {qs : List Bytes} {m n r : TunCtx} {bs : Bytes} (h : m.Books qs)
    (hm : m.Live) (hw : m.tun.Whole) (hin : InputSpec .loc m n bs r) :
    Flow .proxy (n.key.request ++ n.gets .loc) (qs.flatten ++ bs) n ∧
      n.tun.mLocalCache.Holds qs ∧ (n.tun.mProxyStatus = .Connected → qs = []) ∧
      ((n.conn .proxy).mConnStatus = .Connecting → n.tun.mProxyStatus = .Closed ∧
        n.takes .proxy = [] ∧ n.passes .proxy = [] ∧ (n.conn .proxy).pending = [] ∧
        qs.flatten ++ bs = n.gets .loc) ∧
      Flow .loc (n.passes .loc) [] n := by
  have hr := hin.toRead
  obtain ⟨hg, -, -, -, hacc⟩ := hin.accounts hw
  have hp : n.conn .proxy = m.conn .proxy := hr.other
  refine ⟨?_, hr.mLocalCache ▸ h.held, hr.mProxyStatus ▸ h.relaying, ?_, ?_⟩
  · rw [hr.key, hg, ← List.append_assoc]
    exact (h.flow.extend bs).congr hp (hacc .proxy).1
  · intro hc
    rw [hp] at hc ⊢
    obtain ⟨h1, h2, h3, h4, h5⟩ := h.waiting hc
    exact ⟨hr.mProxyStatus.trans h1, (hacc .proxy).1.trans h2, (hacc .proxy).2.trans h3, h4,
      by rw [hg, h5]⟩
  · rw [(hacc .loc).2]
    exact h.back.read (hm.fd .loc) hm.loc hr.conn (hacc .loc).1

/-- Nothing was read from the client. -/
theorem Books.read_loc_nil {qs : List Bytes} {m n r : TunCtx} (h : m.Books qs)
    (hm : m.Live) (hw : m.tun.Whole) (hin : InputSpec .loc m n [] r) : n.Books qs := by
  obtain ⟨h1, h2, h3, h4, h5⟩ := h.read_loc hm hw hin
  simp only [List.append_nil] at h1 h4
  exact ⟨h1, h2, h3, h4, h5⟩

/-- `send` to the proxy server with nothing in the cache. -/
theorem sendProxy_books {qs : List Bytes} {data : Bytes} {m : TunCtx} (ht : m.Tidy)
    (hh : m.Heard .proxy) (hw : m.tun.Whole)
    (flow : Flow .proxy (m.key.request ++ m.gets .loc) (data ++ qs.flatten) m)
    (held : m.tun.mLocalCache.Holds qs) (relaying : m.tun.mProxyStatus = .Connected → qs = [])
    (asked : (m.conn .proxy).mConnStatus ≠ .Connecting)
    (back : Flow .loc (m.passes .loc) [] m) :
    ∃ qs', (m.sendProxy data).Books qs' := by
  have hflow := sendProxy_flow data ht hh flow
  obtain ⟨hin, hout⟩ := (sendProxy_outward data ht hh).accounts hw
  obtain ⟨htl, hpl⟩ := hout .loc (by simp)
  rcases sendProxy_keeps data ht hh with hk | he
  · refine ⟨qs, ?_, hk.mLocalCache ▸ held, hk.mProxyStatus ▸ relaying, ?_, ?_⟩
    · rw [hk.key, (hin .loc).1]
      exact hflow
    · rw [(hk.link .proxy).status]
      exact fun hc => absurd hc asked
    · rw [hpl]
      exact back.congr hk.other htl
  · refine ⟨[], .of_shut he.shut he.emptied ?_ (htl ▸ hpl ▸ back.within)⟩
    rw [he.key, (hin .loc).1]
    exact hflow.within

/-- The cache takes the chunk behind all it holds. -/
theorem cacheLocal_holds {qs : List Bytes} {bs : Bytes} {m : TunCtx}
    (held : m.tun.mLocalCache.Holds qs) (hb : Storable bs) (hw : ∀ w ∈ m.stdio, w = .ok) :
    (m.cacheLocal bs).tun.mLocalCache.Holds (qs ++ [bs]) :=
  (Cache.cache_holds MAX_LEN_CACHE_IN_MEM held hb hw).1

theorem storable_of_read {bs : Bytes} (hb : bs ≠ [])
    (h : bs.length < Connection.LIMIT_LEN + Connection.MAXLEN) : Storable bs := by
  refine ⟨hb, ?_⟩
  unfold Connection.LIMIT_LEN Connection.MAXLEN at h
  unfold SSIZE_MAX
  omega

/-- A chunk from the client is sent on or goes into the cache. -/
theorem Sane.onRecv_loc_books {qs : List Bytes} {bs : Bytes} {m : TunCtx} (hs : m.Sane)
    (flow : Flow .proxy (m.key.request ++ m.gets .loc) (qs.flatten ++ bs) m)
    (held : m.tun.mLocalCache.Holds qs) (relaying : m.tun.mProxyStatus = .Connected → qs = [])
    (waiting : (m.conn .proxy).mConnStatus = .Connecting → m.tun.mProxyStatus = .Closed ∧
      m.takes .proxy = [] ∧ m.passes .proxy = [] ∧ (m.conn .proxy).pending = [] ∧
      qs.flatten ++ bs = m.gets .loc)
    (back : Flow .loc (m.passes .loc) [] m) (hb : Storable bs) (hw : ∀ w ∈ m.stdio, w = .ok) :
    ∃ qs', (m.onRecv .loc bs).Books qs' := by
  simp only [onRecv]
  split
  · rename_i hst
    have hq := relaying hst
    subst hq
    refine sendProxy_books hs.tidy (hs.heard .proxy) hs.whole (by simpa using flow) held (fun _ => rfl) ?_ back
    intro hc
    rw [(waiting hc).1] at hst
    cases hst
  · rename_i hst
    have hf : (qs ++ [bs]).flatten = qs.flatten ++ bs := by simp
    refine ⟨qs ++ [bs], ?_, cacheLocal_holds held hb hw, fun h => absurd h hst, ?_, ?_⟩
    · rw [hf]
      exact flow.congr rfl rfl
    · rw [hf]
      exact waiting
    · exact back.congr rfl rfl

/-- A chunk for the client is sent on. -/
theorem Sane.sendLocal_books {qs : List Bytes} {data : Bytes} {m : TunCtx} (hs : m.Sane)
    (h : m.Books qs) : ∃ qs', (m.sendLocal data).Books qs' := by
  have hspec := sendLocal_spec data (hs.heard .loc)
  have herr : ∀ k, Goes m k → ((onErrorLocal k).conn .loc).mFd < 0 ∧
      (onErrorLocal k).takes .loc = k.takes .loc ∧ (onErrorLocal k).passes .loc = k.passes .loc := by
    intro k hg
    have hk := hs.goes hg
    have he := onErrorLocal_ended hk.tidy (hk.heard .proxy) hk.mHandler
    obtain ⟨-, hout⟩ :=
      (onError_outward .loc hk.tidy (hk.heard .proxy) hk.mHandler).accounts hk.whole
    exact ⟨(he.shut .loc).fd, hout .loc (by simp)⟩
  have hback := hspec.flow (q := []) hs.tidy (fun k hg => ⟨(herr k hg).1, (herr k hg).2.1⟩)
    (by simpa using h.back.extend data)
  obtain ⟨k, hk, ho, hpass, hn⟩ := hspec.sent hs.tidy
  obtain ⟨hin, hout⟩ := ho.accounts hs.whole
  obtain ⟨htp, hpp⟩ := hout .proxy (by simp)
  have hp : k.conn .proxy = m.conn .proxy := hk.other
  have hflow : Flow .proxy (k.key.request ++ k.gets .loc) qs.flatten k := by
    rw [hk.key, (hin .loc).1]
    exact h.flow.congr hp htp
  rcases hn with hn | hn
  · rw [hn] at hback ⊢
    refine ⟨qs, hflow, hk.mLocalCache ▸ h.held, hk.mProxyStatus ▸ h.relaying, ?_, by rw [hpass]; exact hback⟩
    rw [hp, hk.mProxyStatus, htp, hpp, (hin .loc).1]
    exact h.waiting
  · have hks := hs.goes hk.toGoes
    refine ⟨[], ?_⟩
    rw [hn] at hback ⊢
    refine hks.onError_books .loc hflow (hk.mLocalCache ▸ h.held) ?_
    rw [← (herr k hk.toGoes).2.1, hpass]
    exact hback.within

/-- The header decides; if the tunnel is established, the cache is sent on. -/
theorem Sane.parseHttpHeader_books {qs : List Bytes} {m : TunCtx} (hs : m.Sane) (h : m.Books qs)
    (hst : m.tun.mProxyStatus = .Connecting) : ∃ qs', m.parseHttpHeader.Books qs' := by
  have hconn : (m.conn .proxy).mConnStatus ≠ .Connecting := by
    intro hc
    rw [(h.waiting hc).1] at hst
    cases hst
  unfold parseHttpHeader
  -- as long as the header is incomplete nothing moves
  split
  swap
  · exact ⟨qs, h⟩
  split
  · let n := (m.setStatus .Connected).log (.established m.tun.this)
    have hp : n.conn .proxy = m.conn .proxy := by simp [n]
    have hl : n.conn .loc = m.conn .loc := by simp [n]
    have hn : n.Sane := ⟨fun s => by cases s; exacts [hs.fd .loc, hs.fd .proxy],
      fun s => by cases s; exacts [hs.handler .loc, hs.handler .proxy], hs.mHandler,
      ⟨hs.whole.loc, hs.whole.proxy⟩⟩
    have htakes : ∀ s, n.takes s = m.takes s ∧ n.passes s = m.passes s ∧ n.gets s = m.gets s := by
      intro s
      have hthis : (n.conn s).this = (m.conn s).this := by cases s; exacts [by rw [hl], by rw [hp]]
      have htrace : n.sys.trace = m.sys.trace ++ [.established m.tun.this] := rfl
      simp [takes, passes, gets, hthis, htrace, Ev.taken, Ev.passed, Ev.read]
    have hflow : Flow .proxy (n.key.request ++ n.gets .loc) qs.flatten n := by
      rw [(htakes .loc).2.2]
      exact h.flow.congr hp (htakes .proxy).1
    obtain ⟨hf, hheld⟩ := flushLocal_flow hn.tidy (hn.heard .proxy) rfl h.held hflow
    obtain ⟨hin, hout⟩ := (flushLocal_outward hn.tidy (hn.heard .proxy)).accounts hn.whole
    obtain ⟨htl, hpl⟩ := hout .loc (by simp)
    refine ⟨[], ?_⟩
    change n.flushLocal.Books []
    -- with the tunnel established the cache goes to the server, whole or up to an error
    rcases flushLocal_along hn.tidy (hn.heard .proxy) with ha | he
    · have hheld' := hheld.resolve_right fun hshut =>
        absurd (hshut .proxy).fd (not_lt.mpr ((ha.link .proxy).fd ▸ hn.fd .proxy))
      refine ⟨?_, hheld', fun _ => rfl, ?_, ?_⟩
      · rw [ha.key, (hin .loc).1]
        exact hf
      · rw [(ha.link .proxy).status, hp]
        exact fun hc => absurd hc hconn
      · rw [hpl, (htakes .loc).2.1]
        exact h.back.congr (ha.other.trans hl) (htl.trans (htakes .loc).1)
    · refine .of_shut he.shut he.emptied ?_ ?_
      · rw [he.key, (hin .loc).1]
        exact hf.within
      · rw [htl, hpl, (htakes .loc).1, (htakes .loc).2.1]
        exact h.back.within
  · have hc := dropProxy_closes (m := m.setStatus .Error)
      (fun s => by simpa using hs.tidy s) hs.mHandler
    exact ⟨[], h.quiet hs.whole ((setStatus_quiet m .Error).trans hc.toQuiet) hc.shut hc.emptied⟩

theorem Books.setHeader {qs : List Bytes} {m : TunCtx} (h : m.Books qs) (buf : Bytes) :
    Books { m with tun.mHttpHeader := buf } qs :=
  ⟨h.flow.congr rfl rfl, h.held, h.relaying, h.waiting, h.back.congr rfl rfl⟩

theorem Sane.onRecv_proxy_books {qs : List Bytes} {bs : Bytes} {m : TunCtx} (hs : m.Sane)
    (h : m.Books qs) : ∃ qs', (m.onRecv .proxy bs).Books qs' := by
  simp only [onRecv]
  split
  · rename_i hst
    split
    · exact ⟨[], hs.dropProxy_books h⟩
    · exact (hs.goes (setHeader_goes _ hs.tidy)).parseHttpHeader_books (h.setHeader _) hst
  · split
    · exact ⟨[], hs.dropProxy_books h⟩
    · exact hs.sendLocal_books h
  · exact ⟨[], hs.dropProxy_books h⟩

/-- Notes in the log change no account. -/
theorem notes_accounts {m n : TunCtx} {evs : List Ev} (hk : n.key = m.key)
    (ht : n.sys.trace = m.sys.trace ++ evs) (he : ∀ e ∈ evs, e.isNote) (s : Side) :
    n.takes s = m.takes s ∧ n.passes s = m.passes s ∧ n.gets s = m.gets s ∧
      n.hears s = m.hears s := by
  obtain ⟨h1, h2, h3, h4⟩ := note_traffic (m.conn s).this he
  simp [takes, passes, gets, hears, this_of_key hk, ht, h1, h2, h3, h4]

/-- From `r` to `y` the connection has dropped its registrations and the entry
`e` was made. -/
structure Noting (side : Side) (e : Ev) (r y : TunCtx) : Prop extends Keeps side r y where
  queue : (y.conn side).mTcpPacketList = (r.conn side).mTcpPacketList
  log : y.sys.trace = r.sys.trace ++ [e]

theorem Sane.noting {side : Side} {e : Ev} {r : TunCtx} {x : Ctx} (h : r.Sane)
    (hl : SameLink (r.conn side) x.conn)
    (hq : x.conn.mTcpPacketList = (r.conn side).mTcpPacketList)
    (ht : x.sys.trace = r.sys.trace ++ [e]) : Noting side e r (r.put side x) :=
  ⟨put_keeps h.tidy hl (h.fd side), by rw [conn_put, hq],
    by rw [← ht]; cases side <;> rfl⟩

theorem Noting.accounts {side : Side} {e : Ev} {r y : TunCtx} (h : Noting side e r y)
    (he : e.isNote) (s : Side) : y.takes s = r.takes s ∧ y.passes s = r.passes s ∧
      y.gets s = r.gets s ∧ y.hears s = r.hears s :=
  notes_accounts h.key h.log (by simpa using he) s

theorem Noting.flow {side : Side} {e : Ev} {r y : TunCtx} (h : Noting side e r y)
    (he : e.isNote) {s : Side} {S q : Bytes} (hf : Flow s S q r) : Flow s S q y := by
  have hq : (y.conn s).mTcpPacketList = (r.conn s).mTcpPacketList := by
    have hq := h.queue
    have ho := h.other
    cases side <;> cases s
    exacts [hq, by rw [show y.conn .proxy = r.conn .proxy from ho],
      by rw [show y.conn .loc = r.conn .loc from ho], hq]
  have hp : (y.conn s).pending = (r.conn s).pending := by simp only [Connection.pending, hq]
  cases hf with
  | going fd status bytes =>
    refine .going ((h.link s).fd ▸ fd) ((h.link s).status ▸ status) ?_
    rw [hp, (h.accounts he s).1]
    exact bytes
  | cut down bytes =>
    exact .cut (by rw [(h.link s).fd, (h.link s).status]; exact down) ((h.accounts he s).1 ▸ bytes)

/-- How `handleInputNotification` ends, once the data has been handed on. -/
inductive InputEnd (side : Side) (r : TunCtx) : TunCtx → Prop where
  | stays : InputEnd side r r
  | fails (y : TunCtx) (sane : r.Sane) (status : (r.conn side).mConnStatus = .Error)
      (noting : Noting side (.onError (r.conn side).this .input) r y) :
      InputEnd side r (onError side y)
  | leaves (y : TunCtx) (sane : r.Sane) (status : (r.conn side).mConnStatus = .Closed)
      (noting : Noting side (.onDisconnected (r.conn side).this) r y) :
      InputEnd side r (onDisconnected side y)

/-- What `handleInputNotification` does to a tunnel in session: nothing unless
the socket is connected; else it reads, hands on what it has read, and then
looks what the last read has said. -/
theorem Live.input_inv {m : TunCtx} (hm : m.Live) (hw : m.tun.Whole) (side : Side) :
    (m.conn side).mConnStatus ≠ .Connected ∧ (owner side).handleInputNotification m = m ∨
    (m.conn side).mConnStatus = .Connected ∧ ∃ n bs r, InputSpec side m n bs r ∧ n.Sane ∧
      InputEnd side r ((owner side).handleInputNotification m) := by
  by_cases hst : (m.conn side).mConnStatus = .Connected
  swap
  · exact Or.inl ⟨hst, input_of_idle hst⟩
  rw [input_of_connected hst]
  obtain ⟨n, bs, hin⟩ := inputRecv_input side m hst (hm.handler side)
  refine Or.inr ⟨hst, n, bs, _, hin, hin.toRead.sane hm hw, ?_⟩
  generalize (owner side).run (m.ctx side).inputRecv m = r at hin ⊢
  have hn : n.Sane := hin.toRead.sane hm hw
  have hgoes : (r.conn side).mHandler = true → r.Sane := fun hh =>
    (hin.continues hm).elim (fun hg => hn.goes hg) fun he => by
      rw [(he.shut side).handler] at hh
      cases hh
  have hfin := inputFinish_spec side r
  generalize (owner side).run (r.ctx side).inputFinish r = k at hfin ⊢
  cases hfin with
  | unheard => exact .stays
  | «open» => exact .stays
  | error x hh hst hl hq ht => exact .fails _ (hgoes hh) hst ((hgoes hh).noting hl hq ht)
  | disconnected x hh hst hl hq ht => exact .leaves _ (hgoes hh) hst ((hgoes hh).noting hl hq ht)

theorem Live.input_books {qs : List Bytes} {m : TunCtx} (hm : m.Live) (hw : m.tun.Whole)
    (h : m.Books qs) (hd : ∀ w ∈ m.stdio, w = .ok) (side : Side) :
    ∃ qs', ((owner side).handleInputNotification m).Books qs' := by
  rcases hm.input_inv hw side with ⟨-, hk⟩ | ⟨hst, n, bs, r, hin, hn, hend⟩
  · exact ⟨qs, by rwa [hk]⟩
  have hr : ∃ qs', r.Books qs' := by
    rw [hin.result]
    cases side with
    | loc =>
      split
      · rename_i hb
        exact ⟨qs, h.read_loc_nil hm hw (hb ▸ hin)⟩
      · rename_i hb
        obtain ⟨h1, h2, h3, h4, h5⟩ := h.read_loc hm hw hin
        exact hn.onRecv_loc_books h1 h2 h3 h4 h5 (storable_of_read hb hin.size)
          (hin.toRead.stdio ▸ hd)
    | proxy =>
      have hbooks := h.read_proxy hm hw hst hin
      split
      · exact ⟨qs, hbooks⟩
      · exact hn.onRecv_proxy_books hbooks
  obtain ⟨qs', hbooks⟩ := hr
  have hnote : ∀ {e y}, Noting side e r y → e.isNote →
      Flow .proxy (y.key.request ++ y.gets .loc) qs'.flatten y ∧ y.tun.mLocalCache.Holds qs' ∧
        y.takes .loc <+: y.passes .loc := by
    intro e y hy he
    refine ⟨?_, hy.mLocalCache ▸ hbooks.held, ?_⟩
    · rw [hy.key, (hy.accounts he .loc).2.2.1]
      exact hy.flow he hbooks.flow
    · rw [(hy.accounts he .loc).1, (hy.accounts he .loc).2.1]
      exact hbooks.back.within
  generalize (owner side).handleInputNotification m = k at hend ⊢
  cases hend with
  | stays => exact ⟨qs', hbooks⟩
  | fails y hs _ hy =>
    obtain ⟨h1, h2, h3⟩ := hnote hy trivial
    exact ⟨[], (hs.goes hy.toGoes).onError_books side h1 h2 h3⟩
  | leaves y hs _ hy =>
    obtain ⟨h1, h2, h3⟩ := hnote hy trivial
    exact ⟨[], (hs.goes hy.toGoes).onDisconnected_books side h1 h2 h3⟩

/-- Queued bytes leave for the socket of `side`. -/
theorem put_wire {side : Side} {m : TunCtx} {x : Ctx} {s : Sys} {bs : Bytes} {tail : List Ev}
    (hw : m.tun.Whole) (hl : SameLink (m.conn side) x.conn)
    (wire : Wire (m.conn side).this m.sys s bs) (ht : x.sys.trace = s.trace ++ tail)
    (hq : ∀ e ∈ tail, e.isNote) :
    (m.put side x).takes side = m.takes side ++ bs ∧
      (∀ d, d ≠ side → (m.put side x).takes d = m.takes d) ∧
      ∀ d, (m.put side x).passes d = m.passes d ∧ (m.put side x).gets d = m.gets d ∧
        (m.put side x).hears d = m.hears d := by
  obtain ⟨evs, hs, he, hb⟩ := wire
  have hk := m.key_put side x hl.this
  have hsys : (m.put side x).sys.trace = m.sys.trace ++ evs ++ tail := by
    rw [← hs, ← ht]; cases side <;> rfl
  have hsend : ∀ d, passed d evs = [] ∧ (d ≠ (m.conn side).this → accepted d evs = []) := by
    intro d
    clear hs hb hsys
    induction evs with
    | nil => exact ⟨rfl, fun _ => rfl⟩
    | cons e es ih =>
      obtain ⟨h1, h2⟩ := ih fun e hm => he e (List.mem_cons_of_mem _ hm)
      have hx := he e List.mem_cons_self
      cases e with
      | sockSend c data r err =>
        refine ⟨by simp [Ev.passed, h1], fun hd => ?_⟩
        have hc : c ≠ d := fun h => hd (h ▸ hx)
        cases r <;> simp [Ev.taken, hc, h2 hd]
      | _ => exact hx.elim
  have hin : ∀ d, received d evs = [] ∧ chunks d evs = [] := fun d =>
    outward_inputs d fun e hm => (he e hm).isOutward
  have hnote := fun d => note_traffic d hq
  refine ⟨?_, fun d hd => ?_, fun d => ⟨?_, ?_, ?_⟩⟩
  · simp [takes, hl.this, hsys, hb, (hnote _).1]
  · simp [takes, this_of_key hk, hsys, (hsend _).2 (whole_ne hw hd), (hnote _).1]
  · simp [passes, this_of_key hk, hsys, (hsend _).1, (hnote _).2.2.1]
  · simp [gets, this_of_key hk, hsys, (hin _).1, (hnote _).2.1]
  · simp [hears, this_of_key hk, hsys, (hin _).2, (hnote _).2.2.2]

section Flush

variable {side : Side} {m : TunCtx} {qs : List Bytes} {x : Ctx} {bs : Bytes}

/-- The socket has taken `bs` from the queue. -/
theorem Flow.flushed {S q : Bytes} (h : Flow side S q m) (link : SameLink (m.conn side) x.conn)
    (hst : (m.conn side).mConnStatus = .Connected) (hfd : 0 ≤ (m.conn side).mFd)
    (htakes : (m.put side x).takes side = m.takes side ++ bs)
    (bytes : bs ++ x.conn.pending = (m.conn side).pending) : Flow side S q (m.put side x) := by
  cases h with
  | going fd status whole =>
    refine .going ?_ ?_ ?_
    · rw [conn_put, link.fd]
      exact fd
    · rw [conn_put, link.status]
      exact status
    · rw [htakes, conn_put, List.append_assoc (m.takes side), bytes]
      exact whole
  | cut down _ => exact absurd down (by simp [not_lt.mpr hfd, hst])

/-- The socket has taken `bs` from the queue and no more. -/
theorem Flow.reaches {S q : Bytes} (h : Flow side S q m)
    (hst : (m.conn side).mConnStatus = .Connected) (hfd : 0 ≤ (m.conn side).mFd)
    (bytes : bs <+: (m.conn side).pending) : m.takes side ++ bs <+: S := by
  cases h with
  | going fd status whole =>
    obtain ⟨r, hr⟩ := bytes
    rw [← whole, ← hr]
    exact ⟨r ++ q, by simp⟩
  | cut down _ => exact absurd down (by simp [not_lt.mpr hfd, hst])

theorem Live.flushed_books (hm : m.Live) (hw : m.tun.Whole) (h : m.Books qs)
    (hst : (m.conn side).mConnStatus = .Connected) (hl : SameLink (m.conn side) x.conn)
    (wire : Wire (m.conn side).this m.sys x.sys bs)
    (hb : bs ++ x.conn.pending = (m.conn side).pending) : (m.put side x).Books qs := by
  obtain ⟨h1, h2, h3⟩ := put_wire hw hl wire (List.append_nil _).symm (by simp)
  have hk := put_keeps hm.tidy hl (hm.fd side)
  refine ⟨?_, hk.mLocalCache ▸ h.held, hk.mProxyStatus ▸ h.relaying, ?_, ?_⟩
  · rw [hk.key, (h3 .loc).2.1]
    cases side with
    | loc => exact h.flow.congr hk.other (h2 .proxy (by simp))
    | proxy => exact h.flow.flushed hl hst (hm.fd .proxy) h1 hb
  · rw [(hk.link .proxy).status, hk.mProxyStatus, (h3 .loc).2.1]
    intro hc
    cases side with
    | loc =>
      have ho : (m.put .loc x).conn .proxy = m.conn .proxy := hk.other
      rw [h2 .proxy (by simp), (h3 .proxy).1, ho]
      exact h.waiting hc
    | proxy => rw [hst] at hc; cases hc
  · rw [(h3 .loc).1]
    cases side with
    | loc => exact h.back.flushed hl hst (hm.fd .loc) h1 hb
    | proxy => exact h.back.congr hk.other (h2 .loc (by simp))

/-- The tunnel gives up on the error of a flush; what the socket has taken by
then is where the stream begins. -/
theorem Live.failed_books {s : Sys} (hm : m.Live) (hw : m.tun.Whole) (h : m.Books qs)
    (hst : (m.conn side).mConnStatus = .Connected) (hl : SameLink (m.conn side) x.conn)
    (wire : Wire (m.conn side).this m.sys s bs) (hb : bs <+: (m.conn side).pending)
    (ht : x.sys.trace = s.trace ++ [.onError (m.conn side).this .output]) :
    (onError side (m.put side x)).Books [] := by
  have hs := hm.sane hw
  obtain ⟨h1, h2, h3⟩ := put_wire hw hl wire ht (by simp [Ev.isNote])
  have hk := put_keeps hs.tidy hl (hs.fd side)
  cases side with
  | loc =>
    have held : (m.put .loc x).tun.mLocalCache.Holds qs := hk.mLocalCache ▸ h.held
    refine (hs.goes hk.toGoes).onError_books .loc ?_ held ?_
    · rw [hk.key, (h3 .loc).2.1]
      exact h.flow.congr hk.other (h2 .proxy (by simp))
    · rw [(h3 .loc).1, h1]
      exact h.back.reaches hst (hm.fd .loc) hb
  | proxy =>
    have hc := onErrorProxy_closes hk.tidy
    refine books_of_quiet (whole_of_key hk.key hw) hc.toQuiet hc.shut hc.emptied ?_ ?_
    · rw [hk.key, (h3 .loc).2.1, h1]
      exact h.flow.reaches hst (hm.fd .proxy) hb
    · rw [h2 .loc (by simp), (h3 .loc).1]
      exact h.back.within

end Flush

theorem Live.output_books {qs : List Bytes} {m : TunCtx} (hm : m.Live) (hw : m.tun.Whole)
    (h : m.Books qs) (side : Side) :
    ∃ qs', ((owner side).handleOutputNotification m).Books qs' := by
  have hs := hm.sane hw
  have hstep := hm.outputStep side
  generalize (owner side).handleOutputNotification m = k at hstep ⊢
  cases hstep with
  | idle => exact ⟨qs, h⟩
  | flushed _ x bs hst hl wire hb => exact ⟨qs, hm.flushed_books hw h hst hl wire hb⟩
  | failed _ x s bs hst hl wire hb ht => exact ⟨[], hm.failed_books hw h hst hl wire hb ht⟩
  | refused x r hst hfd hthis ht =>
    have hkey := m.key_put .proxy x hthis
    have hacc := notes_accounts (n := m.put .proxy x) hkey ht (by simp [Ev.isNote])
    have htidy := hs.tidy.put_open .proxy (hfd ▸ hs.fd .proxy)
    have hc := onErrorProxy_closes htidy
    refine ⟨[], books_of_quiet (whole_of_key hkey hw) hc.toQuiet hc.shut hc.emptied ?_ ?_⟩
    · rw [hkey, (hacc .loc).2.2.1, (hacc .proxy).1]
      exact h.flow.within
    · rw [(hacc .loc).1, (hacc .loc).2.1]
      exact h.back.within
  | connected x hst hc ht =>
    obtain ⟨hlive, hkey⟩ := hm.asking hc
    have hacc := notes_accounts (n := m.asking x) hkey ht (by simp [Ev.isNote])
    obtain ⟨-, h2, -, h3, h4⟩ := h.waiting hst
    have hp : (m.asking x).conn .proxy = x.conn := rfl
    refine sendProxy_books hlive.tidy (hlive.heard .proxy) (whole_of_key hkey hw) ?_ h.held
      (fun h => by cases h) (by rw [hp, hc]; simp) ?_
    · refine .going (hlive.fd .proxy) (by rw [hp, hc]) ?_
      have hpend : x.conn.pending = (m.conn .proxy).pending := by rw [hc]; rfl
      rw [(hacc .proxy).1, (hacc .loc).2.2.1, hkey, hp, hpend, h2, h3, h4]
      rfl
    · rw [(hacc .loc).2.1]
      exact h.back.congr rfl (hacc .loc).1

theorem Books.setHandler {qs : List Bytes} {m : TunCtx} (h : m.Books qs) (b : Bool) :
    Books { m with tun.mHandler := b } qs :=
  ⟨h.flow.congr rfl rfl, h.held, h.relaying, h.waiting, h.back.congr rfl rfl⟩

theorem accounts_nil {m : TunCtx} (h : ∀ e ∈ m.sys.trace, e.isNote) (s : Side) :
    m.takes s = [] ∧ m.passes s = [] ∧ m.gets s = [] ∧ m.hears s = [] := by
  obtain ⟨h1, h2, h3, h4⟩ := note_traffic (m.conn s).this h
  simp [takes, passes, gets, hears, h1, h2, h3, h4]

/-- The books are opened empty. -/
theorem onAccept_books (cfg : Config) (connfd : ℕ) {m : TunCtx} (h : m.tun.Idle)
    (hw : m.tun.Whole) (ht : m.sys.trace = []) :
    ∃ qs, (m.onAccept cfg connfd).2.Books qs := by
  obtain ⟨hshut, hempty⟩ := (idle_iff m).mp h
  have ho := onAccept_spec cfg connfd hshut
  generalize m.onAccept cfg connfd = r at ho
  cases ho with
  | refused _ n key shut cache log =>
    have hacc := accounts_nil (log.fresh ht)
    refine ⟨[], .of_shut shut (cache ▸ hempty) ?_ ?_⟩
    · rw [(hacc .proxy).1]
      exact List.nil_prefix
    · rw [(hacc .loc).1]
      exact List.nil_prefix
  | waiting n key broken linked status cache queue log =>
    have hacc := accounts_nil (log.fresh ht)
    have hpend : ∀ side, (n.conn side).pending = [] := fun side => by
      simp [Connection.pending, queue side]
    have hconn : (n.conn .proxy).mConnStatus = .Connecting := by
      rcases linked.phase with hp | hp
      · exact hp.1
      · rw [status] at hp
        simp at hp
    have held : n.tun.mLocalCache.Holds [] := cache ▸ hempty.holds
    refine ⟨[], Books.setHandler ⟨.cut (Or.inr ?_) ?_, held, fun _ => rfl, ?_, ?_⟩ true⟩
    · rw [hconn]
      simp
    · rw [(hacc .proxy).1]
      exact List.nil_prefix
    · exact fun _ => ⟨status, (hacc .proxy).1, (hacc .proxy).2.1, hpend .proxy,
        ((hacc .loc).2.2.1).symm⟩
    · refine .going (linked.fd .loc) linked.loc ?_
      rw [(hacc .loc).1, (hacc .loc).2.1, hpend .loc]
      rfl
  | asked n key broken linked status header cache queue log =>
    have hacc := accounts_nil (log.fresh ht)
    have hpend : ∀ side, (n.conn side).pending = [] := fun side => by
      simp [Connection.pending, queue side]
    have hconn : (n.conn .proxy).mConnStatus = .Connected :=
      linked.joined (by rw [status]; simp) .proxy
    have held : n.tun.mLocalCache.Holds [] := cache ▸ hempty.holds
    obtain ⟨qs, hbooks⟩ : ∃ qs, (n.sendProxy n.key.request).Books qs :=
      sendProxy_books linked.tidy (linked.heard .proxy) (whole_of_key key (configured_whole cfg hw))
        (.going (linked.fd .proxy) hconn (by
          rw [(hacc .proxy).1, (hacc .loc).2.2.1, hpend .proxy]; simp))
        held (fun _ => rfl) (by rw [hconn]; simp)
        (.going (linked.fd .loc) linked.loc (by
          rw [(hacc .loc).1, (hacc .loc).2.1, hpend .loc]; rfl))
    exact ⟨qs, hbooks.setHandler true⟩

end TunCtx

end HttpsProxy
