import HttpsProxy.PacketQueues

/-! Closing one side of an established tunnel closes the other one at once. The
bytes read before are safe only if none of them waits in the queue by then. -/
namespace HttpsProxy

/-- The end of a peer's stream. -/
def Ev.isEnd : Ev → Prop
  | .onDisconnected _ => True
  | _ => False

theorem Ev.isOutward.not_end {c : ConnId} {e : Ev} (h : e.isOutward c) : ¬e.isEnd := by
  cases e <;> first | exact id | exact h.elim

theorem not_end_of_traffic {e : Ev} (h : ¬e.isNote) : ¬e.isEnd := by
  cases e <;> first | exact id | exact absurd trivial h

namespace TunCtx

/-- If the notification meets the end of one peer's stream, nothing waits for the
other peer, and `::send` takes all that is read along with the end. -/
def Drained (m : TunCtx) (a : Entry × Notice) : Prop :=
  match a.2 with
  | .output _ => True
  | .input side =>
    (Connection.inbound a.1.env.recvs 0).2 = true → (m.conn side).mConnStatus = .Connected →
      if (Connection.inbound a.1.env.recvs 0).1 = [] then (m.conn side.other).mTcpPacketList = []
      else firstShort ((m.ctx side.other).queued ++ [(Connection.inbound a.1.env.recvs 0).1])
        a.1.env.sends = none

instance (m : TunCtx) (a : Entry × Notice) : Decidable (m.Drained a) := by
  unfold Drained
  split <;> infer_instance

/-- Every notification of the run finds the tunnel so. -/
def DrainedRun : TunCtx → List (Entry × Notice) → Prop
  | _, [] => True
  | m, a :: as => m.Drained a ∧ DrainedRun (m.step a) as

/-- When `onDisconnected` is called for one side, the socket of the other side
has taken all that was queued in `m` and all that was read since, and no socket
has been closed yet. -/
def Delivered (m n : TunCtx) : Prop :=
  ∀ side a b, news m.sys n.sys = a ++ .onDisconnected (m.conn side).this :: b →
    accepted (m.conn side.other).this a =
        (m.conn side.other).pending ++ received (m.conn side).this a ∧
      ∀ fd, .close fd ∉ a

/-- An established tunnel in session that has logged `evs` since it was `m`:
what was read from one peer is taken by the socket of the other or waits. -/
structure Relaying (m n : TunCtx) (evs : List Ev) : Prop where
  key : n.key = m.key
  log : n.sys.trace = m.sys.trace ++ evs
  traffic : ∀ e ∈ evs, ¬e.isNote
  established : n.tun.mProxyStatus = .Connected
  bytes : ∀ side, accepted (m.conn side).this evs ++ (n.conn side).pending =
    (m.conn side).pending ++ received (m.conn side.other).this evs

theorem delivered_of_endless {m n : TunCtx} (evs : List Ev)
    (log : n.sys.trace = m.sys.trace ++ evs) (h : ∀ e ∈ evs, ¬e.isEnd) : Delivered m n := by
  intro side a b heq
  rw [news_eq log] at heq
  exact absurd trivial (h (.onDisconnected (m.conn side).this)
    (heq ▸ List.mem_append_right _ List.mem_cons_self))

theorem Relaying.endless {m n : TunCtx} {evs : List Ev} (h : Relaying m n evs) :
    ∀ e ∈ evs, ¬e.isEnd := fun e he => not_end_of_traffic (h.traffic e he)

theorem Relaying.delivered {m n : TunCtx} {evs : List Ev} (h : Relaying m n evs) : Delivered m n :=
  delivered_of_endless evs h.log h.endless

/-- Nothing was left for the other side when the peer closed. -/
theorem Relaying.delivers {m n k : TunCtx} {evs out : List Ev} (h : Relaying m n evs)
    (side : Side) (hq : (n.conn side.other).pending = [])
    (log : k.sys.trace = m.sys.trace ++ (evs ++ .onDisconnected (m.conn side).this :: out))
    (hout : ∀ e ∈ out, ¬e.isEnd) (hne : (m.conn side.other).this ≠ (m.conn side).this) :
    Delivered m k := by
  intro s a b heq
  rw [news_eq log] at heq
  obtain ⟨rfl, hs, -⟩ := split_unique h.endless hout
    (show (Ev.onDisconnected (m.conn s).this).isEnd from trivial) heq
  have hs' : (m.conn s).this = (m.conn side).this := Ev.onDisconnected.inj hs
  have hside : s = side := by
    cases s <;> cases side
    exacts [rfl, absurd hs' hne, absurd hs' hne, rfl]
  subst hside
  have hb := h.bytes s.other
  rw [hq, List.append_nil] at hb
  refine ⟨by rw [hb]; cases s <;> rfl, fun fd hfd => h.traffic _ hfd trivial⟩

/-- Reading from the other side, and then calls of `::send` on the socket of
`side`, which take `bs`. -/
theorem Relaying.extend {m n k : TunCtx} {evs : List Ev} (h : Relaying m n evs)
    (pre out : List Ev) (bs : Bytes) (hw : n.tun.Whole) (side : Side) (key : k.key = n.key)
    (status : k.tun.mProxyStatus = n.tun.mProxyStatus)
    (other : (k.conn side.other).pending = (n.conn side.other).pending)
    (log : k.sys.trace = n.sys.trace ++ (pre ++ out)) (hpre : ∀ e ∈ pre, ¬e.isNote)
    (hout : ∀ e ∈ out, e.isSockSend (n.conn side).this) (hbs : accepted (n.conn side).this out = bs)
    (quiet : ∀ s, accepted (n.conn s).this pre = [])
    (inputs : received (n.conn side).this pre = [])
    (bytes : bs ++ (k.conn side).pending =
      (n.conn side).pending ++ received (n.conn side.other).this pre) :
    Relaying m k (evs ++ (pre ++ out)) := by
  have hthis := this_of_key h.key
  have hne : (n.conn side.other).this ≠ (n.conn side).this :=
    whole_ne hw side.other_ne
  have hin : ∀ d, received d out = [] := fun d =>
    (outward_inputs d fun e hm => (hout e hm).isOutward).1
  have hno : accepted (n.conn side.other).this out = [] :=
    (outward_outputs hne fun e hm => (hout e hm).isOutward).1
  refine ⟨key.trans h.key, by rw [log, h.log, List.append_assoc], ?_, status.trans h.established,
    fun s => ?_⟩
  · intro e hm
    rcases List.mem_append.mp hm with hm | hm
    · exact h.traffic e hm
    rcases List.mem_append.mp hm with hm | hm
    · exact hpre e hm
    · have hs := hout e hm
      cases e <;> first | exact id | exact hs.elim
  · have hb := h.bytes s
    rw [← hthis s, ← hthis s.other] at hb ⊢
    simp only [accepted_append, received_append, quiet, hin, List.nil_append, List.append_nil]
    -- the side that sends has what its peer has read; of the other side nothing is sent
    by_cases hs : s = side
    · subst hs
      rw [hbs, List.append_assoc, bytes, ← List.append_assoc, hb, List.append_assoc]
    · have hs' : s = side.other := Side.eq_other hs
      have hss : s.other = side := by rw [hs', Side.other_other]
      rw [hss, inputs, List.append_nil, ← hss, ← hb, hs', hno, List.append_nil, other]

/-- What is passed to `send` is taken at once if all answers are full. -/
theorem errorOwner_drained (side : Side) (onError : TunCtx → TunCtx) {data : Bytes} {m : TunCtx}
    (hfd : 0 ≤ (m.conn side).mFd) (hst : (m.conn side).mConnStatus = .Connected)
    (hf : Unspent (m.conn side).mTcpPacketList)
    (h : firstShort ((m.ctx side).queued ++ [data]) m.sys.env.sends = none) :
    (((errorOwner side onError).run ((m.ctx side).send data) m).conn side).pending = [] := by
  obtain ⟨z, rest, -, -, -, -, hempty, -, hs⟩ := (m.ctx side).send_answered data hfd hst hf
  have h' : firstShort ((m.ctx side).queued ++ [data]) (m.ctx side).sys.env.sends = none := h
  rw [if_pos h'] at hs
  rw [hs]
  change ((m.put side z).conn side).pending = []
  rw [conn_put, Connection.pending, hempty h']
  rfl

/-- An established tunnel passes on what it reads. -/
theorem onRecv_established (side : Side) (bs : Bytes) {m : TunCtx}
    (hst : m.tun.mProxyStatus = .Connected) (hl : (m.conn side.other).mConnStatus = .Connected) :
    m.onRecv side bs = (errorOwner side.other (onError side.other)).run
      ((m.ctx side.other).send bs) m := by
  cases side with
  | loc =>
    simp only [onRecv, hst, if_true]
    rfl
  | proxy =>
    have hl' : m.tun.mLocalConn.isConnected = true := by
      have : m.tun.mLocalConn.mConnStatus = .Connected := hl
      simp [Connection.isConnected, this]
    simp only [onRecv, hst, hl', Bool.not_true, Bool.false_eq_true, if_false]
    rfl

/-- How far an established tunnel has come when the data read has been handed
on: it still relays, with nothing waiting if the run asks for it, or it has
given up for an error. -/
inductive Handed (side : Side) (m p r : TunCtx) (empty : Prop) : Prop where
  | relays (evs : List Ev) (relaying : Relaying m r evs)
      (status : (r.conn side).mConnStatus = (p.conn side).mConnStatus)
      (drained : empty → (r.conn side.other).pending = [])
  | ended (evs : List Ev) (shut : r.Shut) (log : r.sys.trace = m.sys.trace ++ evs)
      (endless : ∀ e ∈ evs, ¬e.isEnd)

/-- What `log` says of reading one side: no socket is closed, none takes
anything, and the bytes come from that side alone. -/
structure ReadLog (side : Side) (n p : TunCtx) (bs : Bytes) (log : List Ev) : Prop where
  trace : p.sys.trace = n.sys.trace ++ log
  traffic : ∀ e ∈ log, ¬e.isNote
  quiet : ∀ d, accepted d log = []
  other : received (n.conn side.other).this log = []
  bytes : received (n.conn side).this log = bs

theorem InputSpec.readLog {side : Side} {n p r : TunCtx} {bs : Bytes}
    (h : InputSpec side n p bs r) (hw : n.tun.Whole) : ∃ log, ReadLog side n p bs log := by
  obtain ⟨log, ht, he, hb, -⟩ := h.log
  have hquiet := fun d => readLog_accounts d he
  refine ⟨log, ht, ?_, fun d => (hquiet d).1, ((hquiet _).2.2 (whole_ne hw side.other_ne)).1, hb⟩
  intro e hm
  rcases he e hm with hx | rfl
  · cases e <;> first | exact id | exact hx.elim
  · exact id

theorem Read.pending {side : Side} {n p : TunCtx} (h : Read side n p) :
    (p.conn side).pending = (n.conn side).pending := by
  obtain ⟨st, -, hc⟩ := h.conn
  rw [hc]
  rfl

theorem Relaying.connected {m n : TunCtx} {evs : List Ev} (h : Relaying m n evs) (hl : n.Live)
    (side : Side) : (n.conn side).mConnStatus = .Connected :=
  hl.joined (by rw [h.established]; simp) side

section Handing

variable {m n p : TunCtx} {evs log : List Ev} {bs : Bytes} {side : Side}

/-- A notification that reads nothing. -/
theorem Relaying.read_nothing (h : Relaying m n evs) (hw : n.tun.Whole) (hread : Read side n p)
    (hlog : ReadLog side n p [] log) : Relaying m p (evs ++ (log ++ [])) := by
  refine h.extend log [] [] hw side.other hread.key hread.mProxyStatus
    (by rw [Side.other_other, hread.pending]) (by rw [List.append_nil]; exact hlog.trace) hlog.traffic
    (by simp) rfl (fun s => hlog.quiet _) hlog.other ?_
  rw [hread.other, Side.other_other, hlog.bytes, List.append_nil]
  rfl

/-- The log of reading `bs` and of the call of `::send` that hands it on. -/
theorem ReadLog.sent (hlog : ReadLog side n p bs log) (hother : p.conn side.other = n.conn side.other)
    {s : Sys} {bs' : Bytes} (hwire : Wire (p.conn side.other).this
      (p.sys.log (.sendCall (p.conn side.other).this bs)) s bs') :
    ∃ out, s.trace = n.sys.trace ++ ((log ++ [.sendCall (n.conn side.other).this bs]) ++ out) ∧
      (∀ e ∈ out, e.isSockSend (n.conn side.other).this) ∧
      accepted (n.conn side.other).this out = bs' := by
  obtain ⟨out, ht, hout, hacc⟩ := hwire
  rw [hother] at ht hout hacc
  refine ⟨out, ?_, hout, hacc⟩
  rw [ht]
  simp [Sys.log, hlog.trace]

/-- What was read is kept by the other side: its socket takes it or it is queued. -/
theorem Relaying.passes_on (h : Relaying m n evs) (hw : n.tun.Whole) (hp : p.Sane)
    (hread : Read side n p) (hlog : ReadLog side n p bs log) {x : Ctx} {bs' : Bytes}
    (link : SameLink (p.conn side.other) x.conn)
    (wire : Wire (p.conn side.other).this
      (p.sys.log (.sendCall (p.conn side.other).this bs)) x.sys bs')
    (bytes : bs' ++ x.conn.pending = (p.conn side.other).pending ++ bs) :
    ∃ evs', Relaying m (p.put side.other x) evs' := by
  obtain ⟨out, ht, hout, hacc⟩ := hlog.sent hread.other wire
  have hk := put_keeps hp.tidy link (hp.fd _)
  have hsame : (p.put side.other x).conn side = p.conn side := by
    cases side <;> rfl
  have hpre : ∀ e ∈ log ++ [Ev.sendCall (n.conn side.other).this bs], ¬e.isNote := by
    intro e hm
    rcases List.mem_append.mp hm with hm | hm
    · exact hlog.traffic e hm
    · rw [List.mem_singleton.mp hm]; exact id
  refine ⟨_, h.extend _ _ _ hw side.other (hk.key.trans hread.key)
    (hk.mProxyStatus.trans hread.mProxyStatus) ?_ ?_ hpre hout hacc ?_ ?_ ?_⟩
  · rw [Side.other_other, hsame, hread.pending]
  · rw [← ht]; cases side <;> rfl
  · intro s
    rw [accepted_append, hlog.quiet]
    rfl
  · rw [received_append, hlog.other]
    rfl
  · rw [conn_put, bytes, hread.other, Side.other_other, received_append, hlog.bytes]
    simp [Ev.read]

/-- The other side's socket refuses with an error and the tunnel gives up, before
any end of a stream has been reported. -/
theorem Relaying.gives_up (h : Relaying m n evs) (hp : p.Sane) (hread : Read side n p)
    (hlog : ReadLog side n p bs log) {x : Ctx} {s : Sys} {bs' : Bytes}
    (link : SameLink (p.conn side.other) x.conn)
    (wire : Wire (p.conn side.other).this
      (p.sys.log (.sendCall (p.conn side.other).this bs)) s bs')
    (trace : x.sys.trace = s.trace ++ [.onError (p.conn side.other).this .send]) :
    ∃ evs', (onError side.other (p.put side.other x)).Shut ∧
      (onError side.other (p.put side.other x)).sys.trace = m.sys.trace ++ evs' ∧
      ∀ e ∈ evs', ¬e.isEnd := by
  obtain ⟨out, ht, hout, -⟩ := hlog.sent hread.other wire
  have hk := put_keeps hp.tidy link (hp.fd _)
  have hks := hp.goes hk.toGoes
  obtain ⟨-, after, ht', hafter⟩ :=
    onError_outward side.other hks.tidy (hks.heard .proxy) hks.mHandler
  refine ⟨evs ++ (log ++ [.sendCall (n.conn side.other).this bs] ++ out ++
    [.onError (p.conn side.other).this .send] ++ after),
    (onError_ended side.other hks.tidy (hks.heard .proxy) hks.mHandler).shut, ?_, ?_⟩
  · have hx : (p.put side.other x).sys.trace = x.sys.trace := by cases side <;> rfl
    rw [ht', hx, trace, ht, h.log]
    simp
  · intro e hm
    simp only [List.mem_append, List.mem_singleton] at hm
    rcases hm with hm | (((hm | rfl) | hm) | rfl) | hm
    · exact h.endless e hm
    · exact not_end_of_traffic (hlog.traffic e hm)
    · exact id
    · exact (hout e hm).isOutward.not_end
    · exact id
    · exact (hafter e hm).not_end

end Handing

theorem Relaying.handed {m n p r : TunCtx} {evs : List Ev} {bs : Bytes} (h : Relaying m n evs)
    (hl : n.Live) (hw : n.tun.Whole) (hf : n.Fit) {side : Side} (hin : InputSpec side n p bs r)
    (hp : p.Sane) :
    Handed side m p r (if bs = [] then (n.conn side.other).mTcpPacketList = []
      else firstShort ((n.ctx side.other).queued ++ [bs]) n.sys.env.sends = none) := by
  have hread := hin.toRead
  have hother : p.conn side.other = n.conn side.other := hread.other
  obtain ⟨log, hlog⟩ := hin.readLog hw
  by_cases hnil : bs = []
  · have hr : r = p := by rw [hin.result, if_pos hnil]
    subst hr
    rw [if_pos hnil]
    refine .relays _ (h.read_nothing hw hread (hnil ▸ hlog)) rfl fun hq => ?_
    rw [hother, Connection.pending, hq]
    rfl
  rw [if_neg hnil]
  have hconn : (p.conn side.other).mConnStatus = .Connected := hother ▸ h.connected hl side.other
  have hr : r = (errorOwner side.other (onError side.other)).run ((p.ctx side.other).send bs) p := by
    rw [hin.result, if_neg hnil]
    exact onRecv_established side bs (hread.mProxyStatus.trans h.established) hconn
  have hdrain : firstShort ((n.ctx side.other).queued ++ [bs]) n.sys.env.sends = none →
      (r.conn side.other).pending = [] := by
    intro hfull
    have hq : (p.ctx side.other).queued = (n.ctx side.other).queued := by
      simp only [Ctx.queued, ctx, hother]
    rw [hr]
    refine errorOwner_drained side.other _ (hp.fd _) hconn (hother ▸ hf.queue _) ?_
    rw [hin.sends, hq]
    exact hfull
  have hspec := sideSend_spec side.other (onError side.other) bs p (hp.heard _)
  rw [← hr] at hspec
  clear hr
  -- an open connected side never refuses, so the call keeps the bytes or fails
  cases hspec with
  | refused why =>
    rcases why with hfd | hno
    · exact absurd hfd (not_lt.mpr (hp.fd _))
    · exact absurd hconn hno
  | kept x bs' fd status link wire bytes =>
    obtain ⟨evs', hrel⟩ := h.passes_on hw hp hread hlog link wire bytes
    have hsame : (p.put side.other x).conn side = p.conn side := by
      cases side <;> rfl
    exact .relays evs' hrel (by rw [hsame]) hdrain
  | failed x s bs' fd status link wire bytes trace =>
    obtain ⟨evs', hshut, ht, hno⟩ := h.gives_up hp hread hlog link wire trace
    exact .ended evs' hshut ht hno

theorem Relaying.input {m n : TunCtx} {evs : List Ev} (h : Relaying m n evs) (hl : n.Live)
    (hw : n.tun.Whole) (hf : n.Fit) (side : Side) (e : Entry) (he : n.sys.env = e.env)
    (hd : n.Drained (e, .input side)) :
    (∃ evs', Relaying m ((owner side).handleInputNotification n) evs') ∨
      ((owner side).handleInputNotification n).Shut ∧
        Delivered m ((owner side).handleInputNotification n) := by
  rcases hl.input_inv hw side with ⟨-, hk⟩ | ⟨hst, p, bs, r, hin, hp, hend⟩
  · rw [hk]
    exact Or.inl ⟨evs, h⟩
  have hhanded := h.handed hl hw hf hin hp
  have hkey : r.Sane → (r.conn side).this = (m.conn side).this := fun hs => by
    cases hhanded with
    | relays evs' hr => exact this_of_key hr.key side
    | ended evs' hshut => exact absurd (hshut side).fd (not_lt.mpr (hs.fd side))
  have hne : (m.conn side.other).this ≠ (m.conn side).this := by
    rw [← this_of_key h.key, ← this_of_key h.key]
    exact whole_ne hw side.other_ne
  generalize (owner side).handleInputNotification n = k at hend ⊢
  cases hend with
  | stays =>
    cases hhanded with
    | relays evs' hr => exact Or.inl ⟨evs', hr⟩
    | ended evs' hshut hlog hno => exact Or.inr ⟨hshut, delivered_of_endless evs' hlog hno⟩
  | fails y hs _ hy =>
    have hys := hs.goes hy.toGoes
    obtain ⟨-, out, hout, hno⟩ := onError_outward side hys.tidy (hys.heard .proxy) hys.mHandler
    refine Or.inr ⟨(onError_ended side hys.tidy (hys.heard .proxy) hys.mHandler).shut, ?_⟩
    cases hhanded with
    | ended evs' hshut => exact absurd (hshut side).fd (not_lt.mpr (hs.fd side))
    | relays evs' hr =>
      refine delivered_of_endless (evs' ++ .onError (r.conn side).this .input :: out)
        (by rw [hout, hy.log, hr.log]; simp) fun x hx => ?_
      rcases List.mem_append.mp hx with hx | hx
      · exact hr.endless x hx
      · rcases List.mem_cons.mp hx with rfl | hx
        · exact id
        · exact (hno x hx).not_end
  | leaves y hs hclosed hy =>
    have hys := hs.goes hy.toGoes
    obtain ⟨-, out, hout, hno⟩ := onDisconnected_outward side hys.tidy (hys.heard .proxy) hys.mHandler
    refine Or.inr ⟨(onDisconnected_ended side hys.tidy (hys.heard .proxy) hys.mHandler).shut, ?_⟩
    cases hhanded with
    | ended evs' hshut => exact absurd (hshut side).fd (not_lt.mpr (hs.fd side))
    | relays evs' hr hstatus hempty =>
      -- the stream ended, so the run asks for nothing to be left
      have heof : (Connection.inbound e.env.recvs 0).2 = true := by
        rw [← he, ← hin.eof, ← hstatus]
        exact hclosed
      have hall := hd heof hst
      rw [← he, ← hin.bytes] at hall
      exact hr.delivers side (hempty hall) (by rw [hout, hy.log, hr.log, hkey hs]; simp)
        (fun x hx => (hno x hx).not_end) hne

theorem Relaying.output {m n : TunCtx} {evs : List Ev} (h : Relaying m n evs) (hl : n.Live)
    (hw : n.tun.Whole) (side : Side) :
    (∃ evs', Relaying m ((owner side).handleOutputNotification n) evs') ∨
      ((owner side).handleOutputNotification n).Shut ∧
        Delivered m ((owner side).handleOutputNotification n) := by
  have hs := hl.sane hw
  have hconn : (n.conn .proxy).mConnStatus ≠ .Connecting := by
    rw [h.connected hl .proxy]
    simp
  have hstep := hl.outputStep side
  generalize (owner side).handleOutputNotification n = k at hstep ⊢
  cases hstep with
  | idle => exact Or.inl ⟨evs, h⟩
  -- bytes move from the queue to the socket, nothing is lost
  | flushed _ x bs hst link wire bytes =>
    obtain ⟨out, ht, hout, hacc⟩ := wire
    have hk := put_keeps hs.tidy link (hs.fd side)
    refine Or.inl ⟨_, h.extend [] out bs hw side hk.key hk.mProxyStatus (by rw [hk.other])
      ?_ (by simp) hout hacc (fun s => rfl) rfl ?_⟩
    · rw [List.nil_append, ← ht]
      cases side <;> rfl
    · rw [conn_put, bytes]
      exact (List.append_nil _).symm
  -- the error shuts the tunnel down, but it is no disconnect: there is no end to account for
  | failed _ x s bs hst link wire bytes trace =>
    obtain ⟨out, ht, hout, -⟩ := wire
    have hk := put_keeps hs.tidy link (hs.fd side)
    have hks := hs.goes hk.toGoes
    obtain ⟨-, out', hlog, hno⟩ := onError_outward side hks.tidy (hks.heard .proxy) hks.mHandler
    refine Or.inr ⟨(onError_ended side hks.tidy (hks.heard .proxy) hks.mHandler).shut, ?_⟩
    refine delivered_of_endless
      (evs ++ (out ++ .onError (n.conn side).this .output :: out')) ?_ fun e hm => ?_
    · have hx : (n.put side x).sys.trace = x.sys.trace := by cases side <;> rfl
      rw [hlog, hx, trace, ht, h.log]
      simp
    · simp only [List.mem_append, List.mem_cons] at hm
      rcases hm with hm | hm | rfl | hm
      · exact h.endless e hm
      · exact (hout e hm).isOutward.not_end
      · exact id
      · exact (hno e hm).not_end
  -- an established tunnel is not being connected
  | refused x r hst => exact absurd hst hconn
  | connected x hst => exact absurd hst hconn

/-- An established tunnel while it relays, and once it has given up. -/
structure Serving (m n : TunCtx) : Prop where
  shaped : n.Shaped
  whole : n.tun.Whole
  fit : n.Fit
  serves : (∃ evs, Relaying m n evs) ∨ n.Shut ∧ Delivered m n

theorem Serving.delivered {m n : TunCtx} (h : Serving m n) : Delivered m n :=
  h.serves.elim (fun ⟨_, hr⟩ => hr.delivered) And.right

theorem Serving.step {m n : TunCtx} (h : Serving m n) (a : Entry × Notice) (hd : n.Drained a) :
    Serving m (n.step a) := by
  obtain ⟨hk, hs⟩ := step_shaped a h.shaped
  refine ⟨hs.imp (fun hl => hl.2.1) id, whole_of_key hk h.whole, h.fit.step a, ?_⟩
  unfold TunCtx.step
  split
  · exact h.serves
  rcases h.shaped with hl | ⟨hshut, -⟩
  · rcases h.serves with ⟨evs, hr⟩ | ⟨hshut, -⟩
    · have hle := hl.enter a.1
      have hfe : (n.enter a.1).Fit := h.fit.congr (fun s => by cases s <;> rfl) rfl
      have hre : Relaying m (n.enter a.1) evs :=
        ⟨hr.key, hr.log, hr.traffic, hr.established, fun s => by cases s; exacts [hr.bytes .loc, hr.bytes .proxy]⟩
      obtain ⟨e, nt⟩ := a
      cases nt with
      | input side => exact hre.input hle ⟨h.whole.loc, h.whole.proxy⟩ hfe side e rfl (by cases side <;> exact hd)
      | output side => exact hre.output hle ⟨h.whole.loc, h.whole.proxy⟩ side
    · exact absurd (hshut .loc).fd (not_lt.mpr (hl.fd .loc))
  · rw [(hshut.enter a.1).notify a.2]
    rcases h.serves with ⟨evs, hr⟩ | ⟨-, hdel⟩
    · exact Or.inr ⟨hshut.enter a.1, hr.delivered⟩
    · exact Or.inr ⟨hshut.enter a.1, hdel⟩

theorem Serving.run {m n : TunCtx} (h : Serving m n) (as : List (Entry × Notice))
    (hd : n.DrainedRun as) : Serving m (as.foldl TunCtx.step n) := by
  induction as generalizing n with
  | nil => exact h
  | cons a as ih => exact ih (h.step a hd.1) hd.2

theorem Serving.start {m : TunCtx} (hs : m.Shaped) (hw : m.tun.Whole) (hf : m.Fit)
    (established : m.tun.mProxyStatus = .Connected) : Serving m m :=
  ⟨hs, hw, hf, Or.inl ⟨[], rfl, (List.append_nil _).symm, by simp, established, fun _ =>
    (List.append_nil _).symm⟩⟩

/-- With nothing in the cache, what the client has sent is taken or queued. -/
theorem Books.settled {m : TunCtx} {qs : List Bytes} (h : m.Books qs) (hl : m.Live)
    (established : m.tun.mProxyStatus = .Connected) :
    m.takes .proxy ++ (m.conn .proxy).pending = m.key.request ++ m.gets .loc := by
  have hconn : (m.conn .proxy).mConnStatus = .Connected :=
    hl.joined (by rw [established]; simp) .proxy
  have hflow := h.flow
  rw [h.relaying established] at hflow
  cases hflow with
  | going _ _ bytes => simpa using bytes
  | cut down _ => exact absurd down (by simp [not_lt.mpr (hl.fd .proxy), hconn])

end TunCtx

/-- No call of `send` or `recv` fails with an error other than `EAGAIN`. -/
def Env.Benign (env : Env) : Prop :=
  (∀ e, .fail e ∈ env.sends → e = .EAGAIN) ∧ ∀ e, .fail e ∈ env.recvs → e = .EAGAIN

namespace Session

/-- From the state in which a session is established, every run that drains what
it closes delivers what it has read; if the disk works, this is all that the
client has sent since it connected. -/
theorem delivered_before_close (cfg : Config) (s : Session) {t : ProxyTunnel} (h : Recycled cfg t)
    (established : (s.run cfg t).tun.mProxyStatus = .Connected) (as : List (Entry × Notice))
    (drained : (s.run cfg t).DrainedRun as) :
    TunCtx.Delivered (s.run cfg t) (as.foldl TunCtx.step (s.run cfg t)) ∧
      (s.DiskOk → ∀ a b, news (s.run cfg t).sys (as.foldl TunCtx.step (s.run cfg t)).sys =
          a ++ .onDisconnected t.mLocalConn.this :: b →
        accepted t.mProxyConn.this ((s.run cfg t).sys.trace ++ a) =
          cfg.request t ++ received t.mLocalConn.this ((s.run cfg t).sys.trace ++ a)) := by
  obtain ⟨-, hw, hshape⟩ := s.run_shaped cfg h.idle.1 h.idle.2
  have hshaped : (s.run cfg t).Shaped := hshape.imp And.left id
  have hdel := ((TunCtx.Serving.start hshaped hw (s.run_fit cfg h) established).run as drained).delivered
  refine ⟨hdel, fun hd a b heq => ?_⟩
  have hk := s.run_key cfg h
  have hloc : ((s.run cfg t).conn .loc).this = t.mLocalConn.this := congrArg TunKey.loc hk
  have hproxy : ((s.run cfg t).conn .proxy).this = t.mProxyConn.this := congrArg TunKey.proxy hk
  have hreq : (s.run cfg t).key.request = cfg.request t := congrArg TunKey.request hk
  -- a tunnel that has shut down disconnects nobody any more
  rcases hshaped with hl | ⟨hshut, -⟩
  · obtain ⟨qs, hb⟩ := (s.run_kept cfg h hd).books
    have hbooks := hb.settled hl established
    have hbytes := (hdel .loc a b (by rw [hloc]; exact heq)).1
    rw [TunCtx.takes, TunCtx.gets, hloc, hproxy, hreq] at hbooks
    rw [show Side.loc.other = .proxy from rfl, hloc, hproxy] at hbytes
    -- at the disconnect nothing is queued for the server, so what it got is what there was
    calc accepted t.mProxyConn.this ((s.run cfg t).sys.trace ++ a)
        = accepted t.mProxyConn.this (s.run cfg t).sys.trace ++
            (((s.run cfg t).conn .proxy).pending ++ received t.mLocalConn.this a) := by
          rw [accepted_append, hbytes]
      _ = cfg.request t ++ received t.mLocalConn.this (s.run cfg t).sys.trace ++
            received t.mLocalConn.this a := by rw [← List.append_assoc, hbooks]
      _ = cfg.request t ++ received t.mLocalConn.this ((s.run cfg t).sys.trace ++ a) := by
          rw [received_append, List.append_assoc]
  · have hsame : (as.foldl TunCtx.step (s.run cfg t)).sys.trace = (s.run cfg t).sys.trace ++ [] := by
      rw [hshut.run_trace as, List.append_nil]
    have hnil := news_eq hsame
    rw [hnil] at heq
    simp at heq

/-- A session up to the moment in which the tunnel is established. -/
def openedSession : Session :=
  ⟨3, ⟨.EAGAIN, { sockets := [.fd 4], connects := [.ok], sends := [.sent 4096] }, .new, []⟩,
    [(⟨.EAGAIN, { recvs := [.data (ascii "HTTP/1.1 200 Connection established\r\n\r\n")] },
      .new, []⟩, .input .proxy)]⟩

/-- The proxy server takes two bytes, and the rest before the client closes. -/
def slowArrivals : List (Entry × Notice) :=
  [(⟨.EAGAIN, { recvs := [.data (ascii "hello")], sends := [.sent 2] }, .new, []⟩, .input .loc),
    (⟨.EAGAIN, { sends := [.sent 3] }, .new, []⟩, .output .proxy),
    (⟨.EAGAIN, { recvs := [.data []] }, .new, []⟩, .input .loc)]

theorem delivered_slowly : TunCtx.Delivered (openedSession.run exampleConfig (.new 0))
    (slowArrivals.foldl TunCtx.step (openedSession.run exampleConfig (.new 0))) :=
  (delivered_before_close exampleConfig openedSession (.new 0) (by decide +kernel) slowArrivals
    ⟨by decide +kernel, by decide +kernel, by decide +kernel, trivial⟩).1

/-- What waits for the proxy server is dropped when the client closes. -/
theorem close_drops_queue : ¬∀ (cfg : Config) (s : Session) (t : ProxyTunnel), Recycled cfg t →
    (s.run cfg t).tun.mProxyStatus = .Connected → ∀ as : List (Entry × Notice),
      (∀ a ∈ as, a.1.env.Benign) →
      TunCtx.Delivered (s.run cfg t) (as.foldl TunCtx.step (s.run cfg t)) := by
  intro h
  let as : List (Entry × Notice) :=
    [(⟨.EAGAIN, { recvs := [.data (ascii "hello")], sends := [.fail .EAGAIN] }, .new, []⟩, .input .loc),
      (⟨.EAGAIN, { recvs := [.data []] }, .new, []⟩, .input .loc)]
  have hbenign : ∀ a ∈ as, a.1.env.Benign := by simp [as, Env.Benign]
  let evs := news (openedSession.run exampleConfig (.new 0)).sys
    (as.foldl TunCtx.step (openedSession.run exampleConfig (.new 0))).sys
  have hdel := h exampleConfig openedSession (.new 0) (.new 0) (by decide +kernel) as hbenign .loc
    (evs.take 5) (evs.drop 6) (by decide +kernel)
  have hlost := hdel.1
  revert hlost
  decide +kernel

end Session

end HttpsProxy
