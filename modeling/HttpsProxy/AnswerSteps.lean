import HttpsProxy.HeaderChunks
import HttpsProxy.Establishment
import HttpsProxy.Ledger

/-! `onRecv` of the proxy connection follows the answer chunk by chunk, so how
the answer ends depends on the bytes and on how they are cut, and on nothing else. -/
namespace HttpsProxy

/-- What has come in is followed in the buffer by what comes next. -/
theorem header_append (buf data : Bytes) :
    cstr (memcpy (memcpy buf (strlen buf) data) (strlen buf + data.length) [0]) =
      cstr buf ++ cstr data := by
  have htake : buf.take (strlen buf) = cstr buf := List.prefix_iff_eq_take.mp (cstr_initial buf) |>.symm
  have hlen : strlen buf + data.length = (cstr buf ++ data).length := List.length_append.symm
  have hinner : (memcpy buf (strlen buf) data).take (strlen buf + data.length) = cstr buf ++ data := by
    rw [memcpy, htake, hlen]
    exact List.take_left
  generalize memcpy buf (strlen buf) data = inner at hinner ⊢
  rw [memcpy, hinner, List.append_assoc, List.append_assoc, cstr_append _ _ (zero_notMem_cstr buf)]
  exact congrArg _ (cstr_before_zero data _)

namespace TunCtx

/-- The tunnel is where it should be with the answer. -/
def Reads (m : TunCtx) : Answer → Prop
  | .reading text => m.tun.mProxyStatus = .Connecting ∧ m.tun.header = text
  | .relaying _ => m.tun.mProxyStatus = .Connected
  | .refused => False

/-- What a chunk of the answer makes of a tunnel. -/
inductive AnswerStep (m : TunCtx) (data : Bytes) : Answer → Answer → TunCtx → Prop where
  | overflows (text : Bytes) : AnswerStep m data (.reading text) .refused m.dropProxy
  | collects (text buf : Bytes) (header : cstr buf = text ++ cstr data) :
      AnswerStep m data (.reading text) (.reading (text ++ cstr data)) { m with tun.mHttpHeader := buf }
  | opens (text buf : Bytes) : AnswerStep m data (.reading text) (.relaying [])
      (((setStatus .Connected { m with tun.mHttpHeader := buf }).log (.established m.tun.this)).flushLocal)
  | refuses (text buf : Bytes) : AnswerStep m data (.reading text) .refused
      (setStatus .Error { m with tun.mHttpHeader := buf }).dropProxy
  | relays (sent : Bytes) :
      AnswerStep m data (.relaying sent) (.relaying (sent ++ data)) (m.sendLocal data)

/-- A chunk that fits is appended to the text, which is then judged. -/
theorem onRecv_fits {m : TunCtx} {data : Bytes} (hst : m.tun.mProxyStatus = .Connecting)
    (hfit : ¬HEADER_MAX - m.tun.header.length < data.length) :
    ∃ buf, cstr buf = m.tun.header ++ cstr data ∧
      m.onRecv .proxy data = parseHttpHeader { m with tun.mHttpHeader := buf } := by
  refine ⟨_, header_append m.tun.mHttpHeader data, ?_⟩
  simp only [onRecv]
  split
  · rw [if_neg (show ¬HTTP_HEADER_SIZE - 1 - strlen m.tun.mHttpHeader < data.length from hfit)]
  · rename_i hc
    rw [hst] at hc
    cases hc
  · rename_i hne _
    exact absurd hst hne

theorem onRecv_overflows {m : TunCtx} {data : Bytes} (hst : m.tun.mProxyStatus = .Connecting)
    (hfit : HEADER_MAX - m.tun.header.length < data.length) : m.onRecv .proxy data = m.dropProxy := by
  simp only [onRecv]
  split
  · rw [if_pos (show HTTP_HEADER_SIZE - 1 - strlen m.tun.mHttpHeader < data.length from hfit)]
  · rename_i hc
    rw [hst] at hc
    cases hc
  · rename_i hne _
    exact absurd hst hne

theorem onRecv_answer {a : Answer} {m : TunCtx} (data : Bytes) (h : m.Reads a)
    (hl : (m.conn .loc).mConnStatus = .Connected) :
    AnswerStep m data a (a.hear data) (m.onRecv .proxy data) := by
  cases a with
  | refused => exact h.elim
  | relaying sent =>
    have hst : m.tun.mProxyStatus = .Connected := h
    have hc : m.tun.mLocalConn.isConnected = true := decide_eq_true hl
    simp only [onRecv, hst, hc, Bool.not_true, Bool.false_eq_true, if_false]
    exact .relays sent
  | reading text =>
    obtain ⟨hst, rfl⟩ := h
    rw [Answer.hear]
    by_cases hfit : HEADER_MAX - m.tun.header.length < data.length
    · rw [if_pos hfit, onRecv_overflows hst hfit]
      exact .overflows m.tun.header
    · obtain ⟨buf, hbuf, hn⟩ := onRecv_fits hst hfit
      have hheader : ProxyTunnel.header { m.tun with mHttpHeader := buf } =
        m.tun.header ++ cstr data := hbuf
      rw [if_neg hfit, hn, parseHttpHeader, Answer.judge, hheader]
      by_cases hfull : fullHeader (m.tun.header ++ cstr data) = true
      · by_cases hacc : acceptsHeader (m.tun.header ++ cstr data) = true
        · rw [if_pos hfull, if_pos hacc, if_pos hfull, if_pos hacc]
          exact .opens m.tun.header buf
        · rw [if_pos hfull, if_neg hacc, if_pos hfull, if_neg hacc]
          exact .refuses m.tun.header buf
      · rw [if_neg hfull, if_neg hfull]
        exact .collects m.tun.header buf hbuf

/-- The tunnel goes on where the answer is then, or it has given up. -/
theorem AnswerStep.result {a b : Answer} {data : Bytes} {m n : TunCtx}
    (h : AnswerStep m data a b n) (hs : m.Sane) (hr : m.Reads a) :
    Goes m n ∧ n.Reads b ∨ Ended m n ∧ b.outcome ≠ .incomplete := by
  cases h with
  | overflows => exact Or.inr ⟨dropProxy_ended hs.tidy hs.mHandler, by simp [Answer.outcome]⟩
  | collects text buf header => exact Or.inl ⟨setHeader_goes buf hs.tidy, hr.1, header⟩
  | opens text buf =>
    let k := (setStatus .Connected { m with tun.mHttpHeader := buf }).log (.established m.tun.this)
    have hg : Goes m k := ⟨rfl, rfl, rfl, fun side => by cases side; exacts [hs.tidy .loc, hs.tidy .proxy],
      Or.inr ⟨hr.1, rfl⟩, fun side => by cases side <;> exact SameLink.refl _⟩
    rcases flushLocal_along hg.tidy (hg.heard (hs.heard .proxy)) with ha | he
    · exact Or.inl ⟨hg.trans ha.toGoes, ha.mProxyStatus⟩
    · exact Or.inr ⟨hg.ended he, by simp [Answer.outcome]⟩
  | refuses text buf =>
    have he := dropProxy_ended (m := setStatus .Error { m with tun.mHttpHeader := buf })
      (fun side => by cases side; exacts [hs.tidy .loc, hs.tidy .proxy]) hs.mHandler
    exact Or.inr ⟨⟨he.key, he.mHandler, he.shut, he.emptied⟩, by simp [Answer.outcome]⟩
  | relays sent =>
    exact (sendLocal_keeps data hs.tidy hs.heard hs.mHandler).imp
      (fun hk => ⟨hk.toGoes, hk.mProxyStatus.trans hr⟩) fun he => ⟨he, by simp [Answer.outcome]⟩

/-- The client is sent what is relayed, and nothing is read meanwhile. -/
theorem AnswerStep.accounts {a b : Answer} {data : Bytes} {m n : TunCtx}
    (h : AnswerStep m data a b n) (hs : m.Sane) (hp : m.passes .loc = a.relayed) :
    n.passes .loc = b.relayed ∧ ∀ s, n.gets s = m.gets s ∧ n.hears s = m.hears s := by
  cases h with
  | overflows =>
    have hq := dropProxy_quiet m
    exact ⟨(hq.takes .loc).2.trans hp, ((hq.outward .proxy).accounts hs.whole).1⟩
  | collects => exact ⟨hp, fun s => by cases s <;> exact ⟨rfl, rfl⟩⟩
  | opens text buf =>
    let k := (setStatus .Connected { m with tun.mHttpHeader := buf }).log (.established m.tun.this)
    have hk : Outward .proxy k k.flushLocal := flushLocal_outward
      (fun side => by cases side; exacts [hs.tidy .loc, hs.tidy .proxy]) (hs.heard .proxy)
    obtain ⟨hin, hout⟩ := hk.accounts ⟨hs.whole.loc, hs.whole.proxy⟩
    have hacc := notes_accounts (m := m) (n := k) rfl
      (show k.sys.trace = m.sys.trace ++ [.established m.tun.this] from rfl)
      (by simp [Ev.isNote])
    exact ⟨(hout .loc (by simp)).2.trans ((hacc .loc).2.1.trans hp), fun s =>
      ⟨(hin s).1.trans (hacc s).2.2.1, (hin s).2.trans (hacc s).2.2.2⟩⟩
  | refuses text buf =>
    have hq := dropProxy_quiet (setStatus .Error { m with tun.mHttpHeader := buf })
    obtain ⟨hin, -⟩ := (hq.outward .proxy).accounts ⟨hs.whole.loc, hs.whole.proxy⟩
    exact ⟨(hq.takes .loc).2.trans hp, fun s => by cases s; exacts [hin .loc, hin .proxy]⟩
  | relays sent =>
    obtain ⟨k, hk, ho, hpass, hn⟩ := (sendLocal_spec data (hs.heard .loc)).sent hs.tidy
    obtain ⟨hin, -⟩ := ho.accounts hs.whole
    have hpass' : k.passes .loc = sent ++ data := by rw [hpass, hp]; rfl
    rcases hn with hn | hn
    · rw [hn]
      exact ⟨hpass', hin⟩
    · have hks := hs.goes hk.toGoes
      obtain ⟨kin, kout⟩ :=
        (onError_outward .loc hks.tidy (hks.heard .proxy) hks.mHandler).accounts hks.whole
      rw [hn]
      exact ⟨(kout .loc (by simp)).2.trans hpass', fun s =>
        ⟨(kin s).1.trans (hin s).1, (kin s).2.trans (hin s).2⟩⟩

/-- The tunnel has been established in this session. -/
def Marked (m : TunCtx) : Prop := .established m.tun.this ∈ m.sys.trace

instance (m : TunCtx) : Decidable m.Marked := inferInstanceAs (Decidable (_ ∈ _))

theorem marked_of_quiet {m n : TunCtx} (h : Quiet m n) : n.Marked ↔ m.Marked := by
  obtain ⟨hk, evs, ht, hq⟩ := h
  have hthis : n.tun.this = m.tun.this := congrArg TunKey.this hk
  rw [Marked, Marked, hthis, ht, List.mem_append]
  exact ⟨fun h => h.resolve_right fun hm => hq _ hm, Or.inl⟩

theorem Marked.of_extends {m n : TunCtx} (h : m.Marked) (hk : n.key = m.key)
    (ht : m.sys.trace <+: n.sys.trace) : n.Marked := by
  have hthis : n.tun.this = m.tun.this := congrArg TunKey.this hk
  rw [Marked, hthis]
  exact ht.subset h

/-- The mark is set when the answer starts to be relayed, and only then. -/
theorem AnswerStep.marked {a b : Answer} {data : Bytes} {m n : TunCtx}
    (h : AnswerStep m data a b n) (hs : m.Sane) (hm : m.Marked ↔ a.outcome = .established) :
    n.Marked ↔ b.outcome = .established := by
  have hrefused : ∀ text, a = .reading text → (m.Marked ↔ Answer.refused.outcome = .established) := by
    rintro text rfl
    exact iff_of_false (fun h => by cases hm.mp h) (by simp [Answer.outcome])
  cases h with
  | overflows text => rw [marked_of_quiet (dropProxy_quiet m)]; exact hrefused text rfl
  | collects => exact hm
  | opens text buf =>
    let k := (setStatus .Connected { m with tun.mHttpHeader := buf }).log (.established m.tun.this)
    have hk : k.Marked := List.mem_append_right _ (List.mem_singleton.mpr rfl)
    have ho : Outward .proxy k k.flushLocal := flushLocal_outward
      (fun side => by cases side; exacts [hs.tidy .loc, hs.tidy .proxy]) (hs.heard .proxy)
    exact iff_of_true (hk.of_extends ho.key (flushLocal_extends k)) rfl
  | refuses text buf => rw [marked_of_quiet (dropProxy_quiet _)]; exact hrefused text rfl
  | relays sent =>
    have hmark : m.Marked := hm.mpr rfl
    obtain ⟨k, hk, ⟨-, evs, ht, -⟩, -, hn⟩ := (sendLocal_spec data (hs.heard .loc)).sent hs.tidy
    have hkm : k.Marked := hmark.of_extends hk.key ⟨evs, ht.symm⟩
    rcases hn with hn | hn
    · rw [hn]
      exact iff_of_true hkm rfl
    · have hks := hs.goes hk.toGoes
      obtain ⟨hkey, es, het, -⟩ := onError_outward .loc hks.tidy (hks.heard .proxy) hks.mHandler
      rw [hn]
      exact iff_of_true (hkm.of_extends hkey ⟨es, het.symm⟩) rfl

/-- A chunk that `recv` has read is given to `onRecv`; nothing is read from a
connection that is closed. -/
def deliver (m : TunCtx) (a : Entry × Bytes) : TunCtx :=
  if (m.conn .proxy).mConnStatus = .Connected then (m.enter a.1).onRecv .proxy a.2 else m

/-- What has become of the tunnel. -/
def outcome (m : TunCtx) : Outcome :=
  if m.Marked then .established
  else if m.tun.mProxyStatus = .Connecting then .incomplete
  else .failed

/-- The request is sent and nothing of the answer has come in. -/
structure Awaiting (m : TunCtx) : Prop where
  live : m.Live
  whole : m.tun.Whole
  status : m.tun.mProxyStatus = .Connecting
  header : m.tun.header = []
  unmarked : ¬m.Marked

/-- The tunnel after the part `a` of the answer. -/
structure Stage (a : Answer) (m : TunCtx) : Prop where
  whole : m.tun.Whole
  marked : m.Marked ↔ a.outcome = .established
  here : m.Live ∧ m.Reads a ∨
    m.Shut ∧ a.outcome ≠ .incomplete ∧ (a.outcome = .failed → m.tun.mProxyStatus ≠ .Connecting)

theorem Awaiting.stage {m : TunCtx} (h : m.Awaiting) : m.Stage (.reading []) :=
  ⟨h.whole, iff_of_false h.unmarked (by simp [Answer.outcome]), Or.inl ⟨h.live, h.status, h.header⟩⟩

theorem Stage.outcome {a : Answer} {m : TunCtx} (h : m.Stage a) : m.outcome = a.outcome := by
  unfold TunCtx.outcome
  split
  · rename_i hm
    exact (h.marked.mp hm).symm
  · rename_i hm
    have hne : a.outcome ≠ .established := fun he => hm (h.marked.mpr he)
    rcases h.here with ⟨-, hr⟩ | ⟨-, hinc, hst⟩
    · cases a with
      | reading text => rw [if_pos hr.1]; rfl
      | relaying sent => exact absurd rfl hne
      | refused => exact hr.elim
    · cases hout : a.outcome with
      | established => exact absurd hout hne
      | incomplete => exact absurd hout hinc
      | failed => rw [if_neg (hst hout)]

theorem dropProxy_status {m : TunCtx} (hm : m.tun.mHandler = true) :
    m.dropProxy.tun.mProxyStatus = .Closed := by
  have hh : (m.setEventHandler .proxy false).tun.mHandler = true := hm
  rw [dropProxy, _onError, if_pos hh]
  rfl

theorem AnswerStep.refused {a b : Answer} {data : Bytes} {m n : TunCtx}
    (h : AnswerStep m data a b n) (hm : m.tun.mHandler = true) (hb : b.outcome = .failed) :
    n.tun.mProxyStatus ≠ .Connecting := by
  cases h with
  | overflows => rw [dropProxy_status hm]; simp
  | refuses text buf => rw [dropProxy_status (m := setStatus .Error { m with tun.mHttpHeader := buf }) hm]; simp
  | collects => cases hb
  | opens => cases hb
  | relays => cases hb

theorem Answer.hear_outcome {a : Answer} (h : a.outcome ≠ .incomplete) (data : Bytes) :
    (a.hear data).outcome = a.outcome := by
  cases a with
  | reading => exact absurd rfl h
  | relaying => rfl
  | refused => rfl

theorem Stage.deliver {a : Answer} {m : TunCtx} (h : m.Stage a) (c : Entry × Bytes) :
    (m.deliver c).Stage (a.hear c.2) := by
  unfold TunCtx.deliver
  rcases h.here with ⟨hl, hr⟩ | ⟨hshut, hinc, hst⟩
  · have hle := hl.enter c.1
    have hse : (m.enter c.1).Sane := hle.sane ⟨h.whole.loc, h.whole.proxy⟩
    have hre : (m.enter c.1).Reads a := by cases a <;> exact hr
    have hconn : (m.conn .proxy).mConnStatus = .Connected := by
      refine hl.joined (fun hc => ?_) .proxy
      cases a with
      | reading => rw [hr.1] at hc; cases hc
      | relaying => rw [show m.tun.mProxyStatus = .Connected from hr] at hc; cases hc
      | refused => exact hr.elim
    rw [if_pos hconn]
    have hstep := onRecv_answer c.2 hre hle.loc
    have hmark : (m.enter c.1).Marked ↔ a.outcome = .established := h.marked
    rcases hstep.result hse hre with ⟨hg, hrn⟩ | ⟨he, hinc⟩
    · exact ⟨whole_of_key hg.key hse.whole, hstep.marked hse hmark, Or.inl ⟨hle.goes hg, hrn⟩⟩
    · exact ⟨whole_of_key he.key hse.whole, hstep.marked hse hmark,
        Or.inr ⟨he.shut, hinc, hstep.refused hse.mHandler⟩⟩
  · rw [if_neg (by rw [(hshut .proxy).status]; simp)]
    have ho := Answer.hear_outcome hinc c.2
    exact ⟨h.whole, by rw [ho]; exact h.marked,
      Or.inr ⟨hshut, by rw [ho]; exact hinc, by rw [ho]; exact hst⟩⟩

theorem Stage.deliver_all {a : Answer} {m : TunCtx} (h : m.Stage a) (cs : List (Entry × Bytes)) :
    (cs.foldl TunCtx.deliver m).Stage ((cs.map Prod.snd).foldl Answer.hear a) := by
  induction cs generalizing a m with
  | nil => exact h
  | cons c cs ih => exact ih (h.deliver c)

/-- How the answer ends is the same for all ways of cutting it exactly if its
bytes settle it. -/
theorem segmentation_irrelevant_iff {m : TunCtx} (h : m.Awaiting) (s : Bytes) :
    (∀ as bs : List (Entry × Bytes), Chunking s (as.map Prod.snd) → Chunking s (bs.map Prod.snd) →
      (as.foldl deliver m).outcome = (bs.foldl deliver m).outcome) ↔ ∃ o, Settles o [] s := by
  have hnil : ¬fullHeader [] = true := by decide
  -- the tunnel comes out as the automaton does, whatever the surroundings
  have hout : ∀ as : List (Entry × Bytes), (as.foldl deliver m).outcome =
      ((as.map Prod.snd).foldl Answer.hear (.reading [])).outcome :=
    fun as => (h.stage.deliver_all as).outcome
  constructor
  · intro hall
    obtain ⟨ds, hds⟩ := exists_chunking s
    -- any surroundings will do, as the chunks alone decide
    let e : Entry := ⟨.EAGAIN, {}, .new, []⟩
    have hmap : ∀ cs : List Bytes, (cs.map fun d => (e, d)).map Prod.snd = cs := fun cs => by
      rw [List.map_map]
      exact List.map_id' cs
    refine ⟨(ds.foldl Answer.hear (.reading [])).outcome,
      (Answer.always_iff_settles _ (Nat.zero_le _) hnil).mp fun cs hcs => ?_⟩
    have heq := hall (cs.map fun d => (e, d)) (ds.map fun d => (e, d)) (by rwa [hmap]) (by rwa [hmap])
    rw [hout, hout, hmap, hmap] at heq
    exact heq
  · rintro ⟨o, ho⟩ as bs has hbs
    have hal := (Answer.always_iff_settles o (Nat.zero_le _) hnil).mpr ho
    rw [hout, hout, hal _ has, hal _ hbs]

/-- A tunnel that has just sent its request. -/
def askingSession : Session :=
  ⟨3, ⟨.EAGAIN, { sockets := [.fd 4], connects := [.ok], sends := [.sent 4096] }, .new, []⟩, []⟩

theorem asking_awaits : (askingSession.run exampleConfig (.new 0)).Awaiting where
  live := ⟨⟨fun side => by cases side <;> decide +kernel, fun side => by cases side <;> decide +kernel,
    by decide +kernel, by decide +kernel⟩, by decide +kernel⟩
  whole := ⟨by decide +kernel, by decide +kernel⟩
  status := by decide +kernel
  header := by decide +kernel
  unmarked := by decide +kernel

theorem acceptance_settles :
    Settles .established [] (ascii "HTTP/1.1 200 Connection established\r\n\r\n") :=
  .accepted 39 ⟨by decide +kernel, by decide +kernel⟩ (by decide) (by decide +kernel)
    (by decide +kernel) rfl

/-- The acceptance in one segment, and in two. -/
theorem segmentation_of_acceptance :
    ([(⟨.EAGAIN, {}, .new, []⟩, ascii "HTTP/1.1 200 Connection established\r\n\r\n")].foldl deliver
      (askingSession.run exampleConfig (.new 0))).outcome =
    ([(⟨.EAGAIN, {}, .new, []⟩, ascii "HTTP/1.1 200 Connection "),
      (⟨.EAGAIN, {}, .new, []⟩, ascii "established\r\n\r\n")].foldl deliver
      (askingSession.run exampleConfig (.new 0))).outcome :=
  (segmentation_irrelevant_iff asking_awaits
      (ascii "HTTP/1.1 200 Connection established\r\n\r\n")).mpr ⟨.established, acceptance_settles⟩ _ _
    ⟨by decide +kernel, by decide +kernel⟩ ⟨by decide +kernel, by decide +kernel⟩

/-- The same bytes establish the tunnel or do not, as the first segment is cut. -/
theorem segmentation_matters : ¬∀ m : TunCtx, m.Awaiting → ∀ (s : Bytes) (as bs : List (Entry × Bytes)),
    Chunking s (as.map Prod.snd) → Chunking s (bs.map Prod.snd) →
      (as.foldl deliver m).outcome = (bs.foldl deliver m).outcome := by
  intro h
  let header := ascii "HTTP/1.1 200 Connection established\r\n\r\n"
  let payload : Bytes := List.replicate 1000 0x16
  let e : Entry := ⟨.EAGAIN, {}, .new, []⟩
  have heq := h _ asking_awaits (header ++ payload) [(e, header), (e, payload)]
    [(e, header ++ payload)] ⟨by simp, by decide +kernel⟩ ⟨by simp, by decide +kernel⟩
  rw [(asking_awaits.stage.deliver_all _).outcome, (asking_awaits.stage.deliver_all _).outcome] at heq
  revert heq
  decide +kernel

end TunCtx

end HttpsProxy
