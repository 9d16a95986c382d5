import HttpsProxy.Traffic

/-! What the methods of `Connection` do to the connection and to the log, one
theorem for each. Sending conserves bytes: what the socket has taken and what
is queued make up what was passed. -/
namespace HttpsProxy

/-- The bytes of a packet list still to be sent. -/
def restOf (ps : List TcpPacket) : Bytes := ps.flatMap TcpPacket.rest

theorem Sys.send_cases (c : ConnId) (data : Bytes) (s : Sys) :
    (∃ k e, k ≤ data.length ∧ (s.send c data).1 = some k ∧
      (s.send c data).2.trace = s.trace ++ [.sockSend c data (.sent k) e]) ∨
    (∃ e, (s.send c data).1 = none ∧ (s.send c data).2.errno = e ∧
      (s.send c data).2.trace = s.trace ++ [.sockSend c data (.fail e) e]) := by
  unfold Sys.send
  cases s.env.sends.headD (.fail .EAGAIN) with
  | sent n => exact Or.inl ⟨min n data.length, s.errno, Nat.min_le_right _ _, rfl, rfl⟩
  | fail e => exact Or.inr ⟨e, rfl, rfl, rfl⟩

theorem Sys.send_wire (c : ConnId) (data : Bytes) (s : Sys) :
    Wire c s (s.send c data).2 (data.take ((s.send c data).1.getD 0)) := by
  rcases Sys.send_cases c data s with ⟨k, e, _, hk, ht⟩ | ⟨e, hk, _, ht⟩
  · exact ⟨_, ht, by simp [Ev.isSockSend], by simp [Ev.taken, hk]⟩
  · exact ⟨_, ht, by simp [Ev.isSockSend], by simp [Ev.taken, hk]⟩

namespace Ctx

open Connection

section Registration

variable (x : Ctx)

@[simp] theorem tryRegReadEvent_conn :
    x.tryRegReadEvent.conn = { x.conn with mbRegForRead := true } := by
  unfold tryRegReadEvent
  split
  · rename_i h; rw [← h]
  · rfl

@[simp] theorem tryUnregReadEvent_conn :
    x.tryUnregReadEvent.conn = { x.conn with mbRegForRead := false } := by
  unfold tryUnregReadEvent
  split
  · rfl
  · rename_i h; rw [← Bool.eq_false_iff.mpr h]

@[simp] theorem tryRegWriteEvent_conn :
    x.tryRegWriteEvent.conn = { x.conn with mbRegForWrite := true } := by
  unfold tryRegWriteEvent
  split
  · rename_i h; rw [← h]
  · rfl

@[simp] theorem tryUnregWriteEvent_conn :
    x.tryUnregWriteEvent.conn = { x.conn with mbRegForWrite := false } := by
  unfold tryUnregWriteEvent
  split
  · rfl
  · rename_i h; rw [← Bool.eq_false_iff.mpr h]

/-! Registration touches the poller and nothing else of the process. -/

@[simp] theorem tryRegReadEvent_sys :
    x.tryRegReadEvent.sys.errno = x.sys.errno ∧ x.tryRegReadEvent.sys.env = x.sys.env ∧
      x.tryRegReadEvent.sys.trace = x.sys.trace ∧ x.tryRegReadEvent.sys.aborted = x.sys.aborted := by
  unfold tryRegReadEvent; split <;> simp

@[simp] theorem tryUnregReadEvent_sys :
    x.tryUnregReadEvent.sys.errno = x.sys.errno ∧ x.tryUnregReadEvent.sys.env = x.sys.env ∧
      x.tryUnregReadEvent.sys.trace = x.sys.trace ∧ x.tryUnregReadEvent.sys.aborted = x.sys.aborted := by
  unfold tryUnregReadEvent; split <;> simp

@[simp] theorem tryRegWriteEvent_sys :
    x.tryRegWriteEvent.sys.errno = x.sys.errno ∧ x.tryRegWriteEvent.sys.env = x.sys.env ∧
      x.tryRegWriteEvent.sys.trace = x.sys.trace ∧ x.tryRegWriteEvent.sys.aborted = x.sys.aborted := by
  unfold tryRegWriteEvent; split <;> simp

@[simp] theorem tryUnregWriteEvent_sys :
    x.tryUnregWriteEvent.sys.errno = x.sys.errno ∧ x.tryUnregWriteEvent.sys.env = x.sys.env ∧
      x.tryUnregWriteEvent.sys.trace = x.sys.trace ∧ x.tryUnregWriteEvent.sys.aborted = x.sys.aborted := by
  unfold tryUnregWriteEvent; split <;> simp

end Registration

end Ctx

theorem flushPackets_wire (c : ConnId) (ps : List TcpPacket) (s : Sys) :
    ∃ bs, Wire c s (Ctx.flushPackets c ps s).2 bs ∧
      bs ++ restOf (Ctx.flushPackets c ps s).1 = restOf ps := by
  induction ps generalizing s with
  | nil => exact ⟨[], Wire.refl c s, rfl⟩
  | cons p ps ih =>
    unfold Ctx.flushPackets
    by_cases hp : p.buf.length ≤ p.sentlen
    · rw [if_pos hp]
      exact ⟨[], (Wire.refl c s).congr rfl rfl, rfl⟩
    · rw [if_neg hp]
      have hw := Sys.send_wire c p.rest s
      cases hs : s.send c p.rest with
      | mk sentlen t =>
        rw [hs] at hw
        by_cases hfull : sentlen = some p.rest.length
        · obtain ⟨bs, hb, hr⟩ := ih t
          simp only [if_pos hfull]
          refine ⟨p.rest ++ bs, ?_, ?_⟩
          · simpa [hfull] using hw.trans hb
          · simp only [restOf, List.flatMap_cons, List.append_assoc] at hr ⊢
            rw [hr]
        · simp only [if_neg hfull]
          refine ⟨_, hw, ?_⟩
          simp only [restOf, List.flatMap_cons, TcpPacket.rest]
          rw [← List.append_assoc, ← List.drop_drop, List.take_append_drop]

namespace Ctx

open Connection

variable (x : Ctx)

/-- Flushing conserves the queued bytes and changes only the queue and the
write registration. -/
theorem tryFlushRemainPacket_spec :
    ∃ bs, Wire x.conn.this x.sys x.tryFlushRemainPacket.2.sys bs ∧
      bs ++ x.tryFlushRemainPacket.2.conn.pending = x.conn.pending ∧
      (x.tryFlushRemainPacket.1 = true → x.tryFlushRemainPacket.2.conn.mTcpPacketList = []) ∧
      x.tryFlushRemainPacket.2.conn = { x.conn with
        mbRegForWrite := x.tryFlushRemainPacket.2.conn.mbRegForWrite
        mTcpPacketList := x.tryFlushRemainPacket.2.conn.mTcpPacketList } := by
  unfold tryFlushRemainPacket
  by_cases he : x.conn.mTcpPacketList = []
  · rw [if_pos he]
    exact ⟨[], Wire.refl _ _, by simp, fun _ => he, by simp⟩
  · rw [if_neg he]
    obtain ⟨bs, hw, hr⟩ := flushPackets_wire x.conn.this x.conn.mTcpPacketList x.sys
    cases hf : flushPackets x.conn.this x.conn.mTcpPacketList x.sys with
    | mk ps s =>
      rw [hf] at hw hr
      by_cases hps : ps = []
      · simp only [if_pos hps]
        exact ⟨bs, hw.congr rfl (by simp), by simpa [pending, restOf] using hr, by simp [hps],
          by simp⟩
      · simp only [if_neg hps]
        refine ⟨bs, hw, hr, ?_⟩
        simp

theorem shutdown_of_closed (h : x.conn.mFd < 0) : x.shutdown = x := if_pos h

theorem shutdown_conn (h : 0 ≤ x.conn.mFd) :
    x.shutdown.conn = { x.conn with
      mFd := -1, mConnStatus := .Closed, mbRegForRead := false, mbRegForWrite := false,
      mTcpPacketList := [] } := by
  simp [shutdown, not_lt.mpr h, setStatus, closeFd]

theorem shutdown_sys (h : 0 ≤ x.conn.mFd) :
    x.shutdown.sys.errno = x.sys.errno ∧ x.shutdown.sys.env = x.sys.env ∧
      x.shutdown.sys.trace = x.sys.trace ++ [.close x.conn.mFd] ∧
      x.shutdown.sys.aborted = x.sys.aborted := by
  simp [shutdown, not_lt.mpr h, setStatus, closeFd, Sys.log]

theorem raiseError_spec (b : Caller) :
    (x.raiseError b).2 = some .onError ∧
      (x.raiseError b).1.conn =
        { x.conn with mbRegForRead := false, mbRegForWrite := false } ∧
      (x.raiseError b).1.sys.errno = x.sys.errno ∧
      (x.raiseError b).1.sys.env = x.sys.env ∧
      (x.raiseError b).1.sys.trace = x.sys.trace ++ [.onError x.conn.this b] ∧
      (x.raiseError b).1.sys.aborted = x.sys.aborted := by
  simp [raiseError, log, Sys.log]

variable {x}

theorem inputFinish_of_unheard (hh : x.conn.mHandler = false) : x.inputFinish = (x, none) := by
  simp [inputFinish, hh]

theorem inputFinish_of_error (hh : x.conn.mHandler = true) (he : x.conn.mConnStatus = .Error) :
    x.inputFinish = x.raiseError .input := by
  rw [inputFinish, if_pos hh, if_pos he]

theorem inputFinish_of_closed (hh : x.conn.mHandler = true) (hd : x.conn.mConnStatus = .Closed) :
    x.inputFinish = (x.tryUnregReadEvent.tryUnregWriteEvent.log (.onDisconnected x.conn.this),
      some .onDisconnected) := by
  have he : x.conn.mConnStatus ≠ .Error := by simp [hd]
  rw [inputFinish, if_pos hh, if_neg he, if_pos hd]

theorem inputFinish_of_open (he : x.conn.mConnStatus ≠ .Error) (hd : x.conn.mConnStatus ≠ .Closed) :
    x.inputFinish = (x, none) := by
  rw [inputFinish, if_neg he, if_neg hd, ite_self]

end Ctx

/-- The same object on the same descriptor, up to registrations and queue. -/
structure SameLink (c d : Connection) : Prop where
  this : d.this = c.this
  fd : d.mFd = c.mFd
  status : d.mConnStatus = c.mConnStatus
  handler : d.mHandler = c.mHandler

theorem SameLink.refl (c : Connection) : SameLink c c := ⟨rfl, rfl, rfl, rfl⟩

theorem SameLink.trans {c d e : Connection} (h : SameLink c d) (k : SameLink d e) : SameLink c e :=
  ⟨k.this.trans h.this, k.fd.trans h.fd, k.status.trans h.status, k.handler.trans h.handler⟩

/-- What `Connection::send` can do. It refuses; or it keeps the data, taken by
the socket or queued in order; or the check of `errno` fails and the data that
the socket has not taken is left behind. -/
inductive SendSpec (data : Bytes) (x y : Ctx) : Option Callback → Prop where
  | refused (why : x.conn.mFd < 0 ∨ x.conn.mConnStatus ≠ .Connected)
      (eq : y = x.log (.sendCall x.conn.this data)) : SendSpec data x y none
  | kept (bs : Bytes) (fd : 0 ≤ x.conn.mFd) (status : x.conn.mConnStatus = .Connected)
      (link : SameLink x.conn y.conn)
      (wire : Wire x.conn.this (x.sys.log (.sendCall x.conn.this data)) y.sys bs)
      (bytes : bs ++ y.conn.pending = x.conn.pending ++ data) : SendSpec data x y none
  | failed (z : Ctx) (bs : Bytes) (fd : 0 ≤ x.conn.mFd) (status : x.conn.mConnStatus = .Connected)
      (link : SameLink x.conn z.conn)
      (wire : Wire x.conn.this (x.sys.log (.sendCall x.conn.this data)) z.sys bs)
      (bytes : bs <+: x.conn.pending ++ data) (stale : ¬z.sys.errno.again)
      (eq : (y, some .onError) = z.raiseError .send) : SendSpec data x y (some .onError)
  | unheard (bs : Bytes) (fd : 0 ≤ x.conn.mFd) (status : x.conn.mConnStatus = .Connected)
      (handler : x.conn.mHandler = false) (link : SameLink x.conn y.conn)
      (wire : Wire x.conn.this (x.sys.log (.sendCall x.conn.this data)) y.sys bs)
      (bytes : bs <+: x.conn.pending ++ data) : SendSpec data x y none

theorem SendSpec.link {data : Bytes} {x y : Ctx} {cb : Option Callback} (h : SendSpec data x y cb) :
    SameLink x.conn y.conn := by
  cases h with
  | refused _ eq => rw [eq]; exact SameLink.refl _
  | kept _ _ _ link => exact link
  | failed z _ _ _ link _ _ _ eq =>
    obtain ⟨-, hc, -⟩ := z.raiseError_spec .send
    rw [← eq] at hc
    rw [hc]
    exact ⟨link.this, link.fd, link.status, link.handler⟩
  | unheard _ _ _ _ link => exact link

namespace Ctx

open Connection

theorem checkSocketErrors_cases (x : Ctx) (b : Caller) :
    (x.sys.errno.again ∧ x.checkSocketErrors b = (false, x, none)) ∨
    (¬x.sys.errno.again ∧ x.conn.mHandler = true ∧
      x.checkSocketErrors b = (true, x.raiseError b)) ∨
    (¬x.sys.errno.again ∧ x.conn.mHandler = false ∧
      x.checkSocketErrors b = (true, x, none)) := by
  unfold checkSocketErrors
  by_cases ha : x.sys.errno.again
  · exact Or.inl ⟨ha, if_pos ha⟩
  · cases hh : x.conn.mHandler
    · exact Or.inr (Or.inr ⟨ha, rfl, by simp [ha]⟩)
    · exact Or.inr (Or.inl ⟨ha, rfl, by simp [ha]⟩)

/-- From a state `z` in which the socket has taken `bs` and `rest` of the data
is neither taken nor queued. -/
theorem sendRest_spec {data rest bs : Bytes} {x z : Ctx} (fd : 0 ≤ x.conn.mFd)
    (status : x.conn.mConnStatus = .Connected) (link : SameLink x.conn z.conn)
    (wire : Wire x.conn.this (x.sys.log (.sendCall x.conn.this data)) z.sys bs)
    (bytes : bs ++ z.conn.pending ++ rest = x.conn.pending ++ data) :
    SendSpec data x (z.sendRest rest).1 (z.sendRest rest).2 := by
  have hpre : bs <+: x.conn.pending ++ data := by
    rw [← bytes, List.append_assoc]
    exact List.prefix_append _ _
  rcases checkSocketErrors_cases z .send with ⟨ha, hc⟩ | ⟨ha, hh, hc⟩ | ⟨ha, hh, hc⟩
  · simp only [sendRest, hc, Bool.false_eq_true, ↓reduceIte]
    refine .kept bs fd status ⟨?_, ?_, ?_, ?_⟩ (wire.congr rfl (by simp [cachePacket])) ?_
    · simpa [cachePacket] using link.this
    · simpa [cachePacket] using link.fd
    · simpa [cachePacket] using link.status
    · simpa [cachePacket] using link.handler
    · simpa [cachePacket, pending, TcpPacket.rest] using bytes
  · simp only [sendRest, hc, ↓reduceIte]
    exact .failed z bs fd status link wire hpre ha rfl
  · simp only [sendRest, hc, ↓reduceIte]
    exact .unheard bs fd status (link.handler ▸ hh) link wire hpre

section Send

variable (data : Bytes) {x z : Ctx}

theorem send_of_refused (h : x.conn.mFd < 0 ∨ x.conn.mConnStatus ≠ .Connected) :
    x.send data = (x.log (.sendCall x.conn.this data), none) := by
  rcases h with h | h <;> simp [send, log, h]

/-- Packets are left in the queue, so the data joins them. -/
theorem send_of_queued (hfd : 0 ≤ x.conn.mFd) (hst : x.conn.mConnStatus = .Connected)
    (hf : (x.log (.sendCall x.conn.this data)).tryFlushRemainPacket = (false, z)) :
    x.send data = z.sendRest data := by
  simp [send, log, not_lt.mpr hfd, hst] at hf ⊢
  simp [hf]

/-- The queue is empty, so the socket is offered the data. -/
theorem send_of_flushed (hfd : 0 ≤ x.conn.mFd) (hst : x.conn.mConnStatus = .Connected)
    (hf : (x.log (.sendCall x.conn.this data)).tryFlushRemainPacket = (true, z)) :
    x.send data =
      if (z.sendDirect data).1 = some data.length then ((z.sendDirect data).2, none)
      else (z.sendDirect data).2.sendRest (data.drop ((z.sendDirect data).1.getD 0)) := by
  simp [send, log, not_lt.mpr hfd, hst] at hf ⊢
  simp [hf]

end Send

theorem send_spec (data : Bytes) (x : Ctx) : SendSpec data x (x.send data).1 (x.send data).2 := by
  let x₀ := x.log (.sendCall x.conn.this data)
  by_cases hopen : x.conn.mFd < 0 ∨ x.conn.mConnStatus ≠ .Connected
  · rw [send_of_refused data hopen]
    exact .refused hopen rfl
  obtain ⟨hfd, hst⟩ := not_or.mp hopen
  rw [not_not] at hst
  obtain ⟨bs, hw, hb, hempty, hconn⟩ := x₀.tryFlushRemainPacket_spec
  have hlink : SameLink x.conn x₀.tryFlushRemainPacket.2.conn := by
    rw [hconn]
    exact ⟨rfl, rfl, rfl, rfl⟩
  cases hf : x₀.tryFlushRemainPacket with
  | mk flushed z =>
    rw [hf] at hw hb hempty hlink
    cases flushed with
    | false =>
      rw [send_of_queued data (not_lt.mp hfd) hst hf]
      exact sendRest_spec (not_lt.mp hfd) hst hlink hw (by rw [hb]; rfl)
    | true =>
      have hq : z.conn.mTcpPacketList = [] := hempty rfl
      have hz : z.conn.pending = [] := by simp [pending, hq]
      have hdw := Sys.send_wire z.conn.this data z.sys
      rw [hlink.this] at hdw
      have hbs : bs = x.conn.pending := by
        have : bs ++ z.conn.pending = x.conn.pending := hb
        rwa [hz, List.append_nil] at this
      have hwire := hw.trans hdw
      rw [send_of_flushed data (not_lt.mp hfd) hst hf]
      by_cases hfull : (z.sendDirect data).1 = some data.length
      · rw [if_pos hfull]
        have hfull' : (z.sys.send x.conn.this data).1 = some data.length := by
          rw [← hlink.this]; exact hfull
        rw [hfull', Option.getD_some, List.take_length] at hwire
        refine .kept _ (not_lt.mp hfd) hst ⟨hlink.this, hlink.fd, hlink.status, hlink.handler⟩
          (hwire.congr rfl (by rw [← hlink.this]; rfl)) ?_
        change bs ++ data ++ z.conn.pending = _
        rw [hz, List.append_nil, hbs]
      · rw [if_neg hfull]
        refine sendRest_spec (not_lt.mp hfd) hst
          ⟨hlink.this, hlink.fd, hlink.status, hlink.handler⟩
          (hwire.congr rfl (by rw [← hlink.this]; rfl)) ?_
        change bs ++ _ ++ z.conn.pending ++ _ = _
        rw [hz, List.append_nil, hbs, List.append_assoc, ← hlink.this]
        exact congrArg _ (List.take_append_drop _ _)

end Ctx

/-- What `handleOutputNotification` can do while a handler is installed. -/
inductive OutputSpec (x y : Ctx) : Option Callback → Prop where
  | idle (status : x.conn.mConnStatus ≠ .Connecting ∧ x.conn.mConnStatus ≠ .Connected)
      (eq : y = x) : OutputSpec x y none
  | refused (z : Ctx) (r : SockoptRes) (status : x.conn.mConnStatus = .Connecting)
      (conn : z.conn = { x.conn with mbRegForWrite := false, mConnStatus := .Error })
      (trace : z.sys.trace = x.sys.trace ++ [.sockopt x.conn.this r]) (bad : r ≠ .ok)
      (eq : (y, some .onError) = z.raiseError .output) : OutputSpec x y (some .onError)
  | connected (status : x.conn.mConnStatus = .Connecting)
      (conn : y.conn =
        { x.conn with mbRegForRead := true, mbRegForWrite := false, mConnStatus := .Connected })
      (trace : y.sys.trace =
        x.sys.trace ++ [.sockopt x.conn.this .ok, .onConnected x.conn.this]) :
      OutputSpec x y (some .onConnected)
  | flushed (bs : Bytes) (status : x.conn.mConnStatus = .Connected)
      (link : SameLink x.conn y.conn) (wire : Wire x.conn.this x.sys y.sys bs)
      (bytes : bs ++ y.conn.pending = x.conn.pending) : OutputSpec x y none
  | failed (z : Ctx) (bs : Bytes) (status : x.conn.mConnStatus = .Connected)
      (link : SameLink x.conn z.conn) (wire : Wire x.conn.this x.sys z.sys bs)
      (bytes : bs ++ z.conn.pending = x.conn.pending) (stale : ¬z.sys.errno.again)
      (eq : (y, some .onError) = z.raiseError .output) : OutputSpec x y (some .onError)

theorem Sys.sockError_log (c : ConnId) (s : Sys) :
    (s.sockError c).1 = decide (s.env.sockopts.headD .ok ≠ .ok) ∧
      (s.sockError c).2.trace = s.trace ++ [.sockopt c (s.env.sockopts.headD .ok)] := by
  unfold Sys.sockError
  cases s.env.sockopts.headD .ok <;> exact ⟨rfl, rfl⟩

theorem Sys.sockError_cases (c : ConnId) (s : Sys) :
    ((s.sockError c).1 = false ∧ (s.sockError c).2.trace = s.trace ++ [.sockopt c .ok]) ∨
    ∃ r, r ≠ .ok ∧ (s.sockError c).1 = true ∧
      (s.sockError c).2.trace = s.trace ++ [.sockopt c r] := by
  obtain ⟨herr, htrace⟩ := Sys.sockError_log c s
  by_cases hr : s.env.sockopts.headD .ok = .ok
  · exact Or.inl ⟨by rw [herr]; simpa using hr, by rw [htrace, hr]⟩
  · exact Or.inr ⟨_, hr, by rw [herr]; simpa using hr, htrace⟩

namespace Ctx

open Connection

/-- While connecting, `getsockopt` tells how the attempt has ended. -/
theorem output_connecting {x : Ctx} (hh : x.conn.mHandler = true)
    (hc : x.conn.mConnStatus = .Connecting) :
    OutputSpec x x.handleOutputNotification.1 x.handleOutputNotification.2 := by
  have hs := Sys.sockError_cases x.conn.this x.tryUnregWriteEvent.sys
  cases he : x.tryUnregWriteEvent.sys.sockError x.conn.this with
  | mk err s =>
    rw [he] at hs
    rcases hs with ⟨h1, h2⟩ | ⟨r, hr, h1, h2⟩
    · let y := ((Ctx.mk x.tryUnregWriteEvent.conn s).tryRegReadEvent.setStatus .Connected).log
        (.onConnected x.conn.this)
      have ho : x.handleOutputNotification = (y, some .onConnected) := by
        simp only at h1
        subst h1
        simp [handleOutputNotification, hc, he, setStatus, hh, y]
      rw [ho]
      refine .connected hc (by simp [y, setStatus, log]) ?_
      simp only [tryUnregWriteEvent_sys] at h2
      simp [y, setStatus, log, Sys.log, h2]
    · let z := (Ctx.mk x.tryUnregWriteEvent.conn s).setStatus .Error
      have ho : x.handleOutputNotification = z.raiseError .output := by
        simp only at h1
        subst h1
        simp [handleOutputNotification, hc, he, setStatus, hh, z]
      have hcb := (raiseError_spec z .output).1
      rw [ho, hcb]
      refine .refused z r hc (by simp [z, setStatus]) ?_ hr (by rw [← hcb])
      simp only [tryUnregWriteEvent_sys] at h2
      simpa [z, setStatus] using h2

/-- Once connected, the queue is flushed, and `errno` tells whether that failed. -/
theorem output_connected {x : Ctx} (hh : x.conn.mHandler = true)
    (hst : x.conn.mConnStatus = .Connected) :
    OutputSpec x x.handleOutputNotification.1 x.handleOutputNotification.2 := by
  obtain ⟨bs, hw, hb, -, hconn⟩ := x.tryFlushRemainPacket_spec
  have hlink : SameLink x.conn x.tryFlushRemainPacket.2.conn := by
    rw [hconn]
    exact ⟨rfl, rfl, rfl, rfl⟩
  have ho : x.handleOutputNotification =
      (x.tryFlushRemainPacket.2.checkSocketErrors .output).2 := by
    simp [handleOutputNotification, hst]
  rw [ho]
  rcases checkSocketErrors_cases x.tryFlushRemainPacket.2 .output with
    ⟨ha, hk⟩ | ⟨ha, -, hk⟩ | ⟨-, hn, -⟩
  · rw [hk]
    exact .flushed bs hst hlink hw hb
  · have hcb := (raiseError_spec x.tryFlushRemainPacket.2 .output).1
    rw [hk]
    simp only [hcb]
    exact .failed _ bs hst hlink hw hb ha (by rw [← hcb])
  · rw [hlink.handler, hh] at hn
    cases hn

theorem handleOutputNotification_spec (x : Ctx) (hh : x.conn.mHandler = true) :
    OutputSpec x x.handleOutputNotification.1 x.handleOutputNotification.2 := by
  by_cases hc : x.conn.mConnStatus = .Connecting
  · exact output_connecting hh hc
  by_cases hst : x.conn.mConnStatus = .Connected
  · exact output_connected hh hst
  have ho : x.handleOutputNotification = (x, none) := by
    simp [handleOutputNotification, hc, hst]
  rw [ho]
  exact .idle ⟨hc, hst⟩ rfl

end Ctx

namespace Connection

/-- What the `recv` loop reads, given the answers still to come and the number
of bytes read so far, and whether it meets the end of the stream. -/
def inbound : List RecvRes → ℕ → Bytes × Bool
  | [], _ => ([], false)
  | .fail _ :: _, _ => ([], false)
  | .data bs :: rs, len =>
    let bs := bs.take MAXLEN
    if MAXLEN ≤ bs.length then
      if LIMIT_LEN ≤ len + bs.length then (bs, false)
      else
        let (more, eof) := inbound rs (len + bs.length)
        (bs ++ more, eof)
    else (bs, bs = [])

/-- The status the last read of the loop asks for, and what `errno` reads then. -/
def readEnd : List RecvRes → ℕ → Errno → Option EConnStatus × Errno
  | [], _, _ => (none, .EAGAIN)
  | .fail e :: _, _, _ => (if e.again then none else some .Error, e)
  | .data bs :: rs, len, e =>
    let bs := bs.take MAXLEN
    if MAXLEN ≤ bs.length then
      if LIMIT_LEN ≤ len + bs.length then (none, e) else readEnd rs (len + bs.length) e
    else (if bs = [] then some .Closed else none, e)

/-- A connection stays open unless the last read says otherwise. -/
theorem readEnd_open (rs : List RecvRes) (len : ℕ) (e : Errno) :
    (readEnd rs len e).1.getD .Connected = .Connected ↔ (readEnd rs len e).1 = none := by
  induction rs generalizing len with
  | nil => simp [readEnd]
  | cons r rs ih =>
    cases r with
    | fail f =>
      unfold readEnd
      split <;> simp
    | data bs =>
      simp only [readEnd]
      split
      · split
        · simp
        · exact ih _
      · split <;> simp

end Connection

namespace Ctx

open Connection

/-- The loop hands on exactly what it read, in pieces of at most `MAXLEN`, and
stops once `LIMIT_LEN` is reached. -/
theorem recvLoop_spec (c : ConnId) (rs : List RecvRes) (buf : Bytes) (cap : ℕ) (s : Sys)
    (hrs : s.env.recvs = rs) (hlen : buf.length < LIMIT_LEN) :
    ReadWire c s (recvLoop c rs buf cap s).2.2 (inbound rs buf.length).1 ∧
      (recvLoop c rs buf cap s).1 = buf ++ (inbound rs buf.length).1 ∧
      (buf ++ (inbound rs buf.length).1).length < LIMIT_LEN + MAXLEN ∧
      (recvLoop c rs buf cap s).2.1 ≠ some .Connecting ∧
      (recvLoop c rs buf cap s).2.1 ≠ some .Connected ∧
      ((recvLoop c rs buf cap s).2.1 = some .Closed ↔ (inbound rs buf.length).2 = true) ∧
      (recvLoop c rs buf cap s).2.2.env.sends = s.env.sends := by
  induction rs generalizing buf cap s with
  | nil =>
    have hs : s.recv c MAXLEN (cap - buf.length) =
        (none, (({ s with env.recvs := [] } : Sys).setErrno .EAGAIN).log
          (.sockRecv c (cap - buf.length) (.fail .EAGAIN))) := by
      simp [Sys.recv, hrs]
    simp only [recvLoop, hs, inbound, List.append_nil]
    refine ⟨⟨_, rfl, by simp [Ev.isSockRecv], rfl⟩, trivial, by omega, by simp, by simp, by simp, rfl⟩
  | cons r rs ih =>
    cases r with
    | fail e =>
      have hs : s.recv c MAXLEN (cap - buf.length) =
          (none, (({ s with env.recvs := rs } : Sys).setErrno e).log
            (.sockRecv c (cap - buf.length) (.fail e))) := by
        simp [Sys.recv, hrs]
      simp only [recvLoop, hs, inbound, List.append_nil]
      refine ⟨⟨_, rfl, by simp [Ev.isSockRecv], rfl⟩, trivial, by omega, ?_, ?_, ?_, rfl⟩ <;>
        split <;> simp
    | data d =>
      let bs := d.take MAXLEN
      let t : Sys := ({ s with env.recvs := rs } : Sys).log
        (.sockRecv c (cap - buf.length) (.data bs))
      have hs : s.recv c MAXLEN (cap - buf.length) = (some bs, t) := by
        simp [Sys.recv, hrs, bs, t]
      have hwire : ReadWire c s t bs := ⟨_, rfl, by simp [Ev.isSockRecv], by simp [Ev.read]⟩
      have hbl : bs.length ≤ MAXLEN := List.length_take_le _ _
      have hbound : (buf ++ bs).length < LIMIT_LEN + MAXLEN := by
        rw [List.length_append]; omega
      -- the loop goes on only after a full read that stays under the limit
      by_cases hfull : MAXLEN ≤ bs.length
      · by_cases hlim : LIMIT_LEN ≤ (buf ++ bs).length
        · have heq : recvLoop c (.data d :: rs) buf cap s = (buf ++ bs, none, t) := by
            simp only [recvLoop, hs, if_pos hfull, if_pos hlim]
          rw [List.length_append] at hlim
          have hin : inbound (.data d :: rs) buf.length = (bs, false) := by
            simp only [inbound, bs, if_pos hfull, if_pos hlim]
          rw [heq, hin]
          exact ⟨hwire, rfl, hbound, by simp, by simp, by simp, rfl⟩
        · have heq : recvLoop c (.data d :: rs) buf cap s =
              recvLoop c rs (buf ++ bs) ((buf ++ bs).length + MAXLEN) t := by
            simp only [recvLoop, hs, if_pos hfull, if_neg hlim]
          have hin : inbound (.data d :: rs) buf.length =
              (bs ++ (inbound rs (buf ++ bs).length).1, (inbound rs (buf ++ bs).length).2) := by
            rw [List.length_append] at hlim ⊢
            simp only [inbound, bs, if_pos hfull, if_neg hlim]
          obtain ⟨hw, hbuf, hlt, h1, h2, heof, hsends⟩ :=
            ih (buf ++ bs) ((buf ++ bs).length + MAXLEN) t rfl (not_le.mp hlim)
          rw [heq, hin]
          exact ⟨hwire.trans hw, by rw [hbuf, List.append_assoc],
            by rw [← List.append_assoc]; exact hlt, h1, h2, heof, hsends⟩
      · -- a short read is the last one, and an empty one is the end of the stream
        have heq : recvLoop c (.data d :: rs) buf cap s =
            (buf ++ bs, if bs = [] then some .Closed else none, t) := by
          simp only [recvLoop, hs, if_neg hfull]
        have hin : inbound (.data d :: rs) buf.length = (bs, decide (bs = [])) := by
          simp only [inbound, bs, if_neg hfull]
        rw [heq, hin]
        refine ⟨hwire, rfl, hbound, ?_, ?_, ?_, rfl⟩ <;> by_cases hb : bs = [] <;> simp [hb]

theorem recvLoop_end (c : ConnId) (rs : List RecvRes) (buf : Bytes) (cap : ℕ) (s : Sys)
    (hrs : s.env.recvs = rs) :
    (recvLoop c rs buf cap s).2.1 = (readEnd rs buf.length s.errno).1 ∧
      (recvLoop c rs buf cap s).2.2.errno = (readEnd rs buf.length s.errno).2 := by
  induction rs generalizing buf cap s with
  | nil => simp [recvLoop, Sys.recv, hrs, readEnd, Sys.setErrno, Sys.log]
  | cons r rs ih =>
    cases r with
    | fail e => simp [recvLoop, Sys.recv, hrs, readEnd, Sys.setErrno, Sys.log]
    | data d =>
      let t : Sys := ({ s with env.recvs := rs } : Sys).log
        (.sockRecv c (cap - buf.length) (.data (d.take MAXLEN)))
      have hs : s.recv c MAXLEN (cap - buf.length) = (some (d.take MAXLEN), t) := by
        simp [Sys.recv, hrs, t]
      simp only [recvLoop, hs, readEnd]
      -- as in the loop: a full read under the limit is followed by another one
      by_cases hfull : MAXLEN ≤ (d.take MAXLEN).length
      · rw [if_pos hfull, if_pos hfull, List.length_append]
        by_cases hlim : LIMIT_LEN ≤ buf.length + (d.take MAXLEN).length
        · rw [if_pos hlim, if_pos hlim]
          exact ⟨rfl, rfl⟩
        · rw [if_neg hlim, if_neg hlim, ← List.length_append]
          exact ih _ _ t rfl
      · rw [if_neg hfull, if_neg hfull]
        exact ⟨rfl, rfl⟩

/-- What `handleInputNotification` has done when it calls `onRecv`: the bytes
`bs` are read and handed on, and the status is the one the last read asks for. -/
theorem inputRecv_spec (x : Ctx) (hst : x.conn.mConnStatus = .Connected)
    (hh : x.conn.mHandler = true) :
    ∃ bs st, bs.length < LIMIT_LEN + MAXLEN ∧ st ≠ .Connecting ∧
      x.inputRecv.1.conn = { x.conn with mConnStatus := st } ∧
      x.inputRecv.2 = (if bs = [] then none else some (.onRecv bs)) ∧
      (∃ s, ReadWire x.conn.this x.sys s bs ∧ x.inputRecv.1.sys =
        if bs = [] then s else s.log (.onRecv x.conn.this bs)) ∧
      bs = (inbound x.sys.env.recvs 0).1 ∧ (st = .Closed ↔ (inbound x.sys.env.recvs 0).2 = true) ∧
      x.inputRecv.1.sys.env.sends = x.sys.env.sends := by
  have hloop := recvLoop_spec x.conn.this x.sys.env.recvs [] MAXLEN x.sys rfl (by decide)
  rw [List.nil_append, List.length_nil] at hloop
  obtain ⟨hw, hbuf, hlt, hno, -, heof, hsends⟩ := hloop
  cases hl : recvLoop x.conn.this x.sys.env.recvs [] MAXLEN x.sys with
  | mk buf r =>
    obtain ⟨st, s⟩ := r
    rw [hl] at hw hbuf hno heof hsends
    simp only at hw hbuf hno heof hsends
    rw [← hbuf] at hw hlt
    have hstatus : st.getD x.conn.mConnStatus ≠ .Connecting := by
      cases st with
      | none => simp [hst]
      | some st => simpa using hno
    have hclosed : st.getD x.conn.mConnStatus = .Closed ↔ st = some .Closed := by
      cases st with
      | none => simp [hst]
      | some st => simp
    refine ⟨buf, _, hlt, hstatus, ?_, ?_, ⟨s, hw, ?_⟩, hbuf, hclosed.trans heof, ?_⟩ <;>
      by_cases hb : buf = [] <;> simp [inputRecv, hl, hb, hh, log, hsends, Sys.log]

theorem inputRecv_end (x : Ctx) (hst : x.conn.mConnStatus = .Connected) :
    x.inputRecv.1.conn.mConnStatus = (readEnd x.sys.env.recvs 0 x.sys.errno).1.getD .Connected ∧
      x.inputRecv.1.sys.errno = (readEnd x.sys.env.recvs 0 x.sys.errno).2 := by
  obtain ⟨hend, herrno⟩ := recvLoop_end x.conn.this x.sys.env.recvs [] MAXLEN x.sys rfl
  rw [List.length_nil] at hend herrno
  rw [← hend, ← herrno, ← hst, inputRecv]
  simp only
  split
  · exact ⟨rfl, rfl⟩
  · exact ⟨rfl, rfl⟩

end Ctx

end HttpsProxy
