import HttpsProxy.TunnelClosing
import HttpsProxy.Transmission

/-! The invariant of a connection. A handler that is called back makes its own
calls right behind the call that called it, so that a list of calls in any order
covers whatever the handlers do. -/
namespace HttpsProxy

namespace Sys

/-! No call outside the objects fails an `assert`. -/

@[simp] theorem recv_aborted (c : ConnId) (maxlen room : ℕ) (s : Sys) :
    (s.recv c maxlen room).2.aborted = s.aborted := by
  unfold recv
  cases s.env.recvs.headD (.fail .EAGAIN) <;> rfl

@[simp] theorem sockError_aborted (c : ConnId) (s : Sys) : (s.sockError c).2.aborted = s.aborted := by
  unfold sockError
  cases s.env.sockopts.headD .ok <;> rfl

@[simp] theorem setNonblocking_aborted (s : Sys) : s.setNonblocking.2.aborted = s.aborted := by
  have hf : ∀ u : Sys, u.fcntl.2.aborted = u.aborted := fun u => by
    unfold fcntl
    cases u.env.fcntls.headD .ok <;> rfl
  unfold setNonblocking
  simp only
  split
  · exact hf s
  · split <;> exact (hf _).trans (hf s)

@[simp] theorem socket_aborted (s : Sys) : s.socket.2.aborted = s.aborted := by
  unfold socket
  cases s.env.sockets.headD (.fail (.other 0)) <;> rfl

@[simp] theorem connect_aborted (c : ConnId) (sa : SockAddr) (s : Sys) :
    (s.connect c sa).2.aborted = s.aborted := by
  unfold connect
  cases s.env.connects.headD (.fail .EINPROGRESS) <;> rfl

end Sys

namespace Connection

/-- Write interest exactly while something is queued. -/
def Balanced (c : Connection) : Prop := c.mbRegForWrite = true ↔ c.mTcpPacketList ≠ []

/-- As far as it is connected. -/
def Interested (c : Connection) : Prop := c.mConnStatus = .Connected → c.Balanced

/-- What holds of a connection whatever happens to it. -/
structure Regular (c : Connection) : Prop where
  clean : c.Clean
  connecting : c.mConnStatus = .Connecting → c.mTcpPacketList = []
  unspent : Unspent c.mTcpPacketList

theorem new_regular (this : ConnId) : (new this).Regular :=
  ⟨(new_down this).toDead.clean, fun _ => rfl, by simp [new, Unspent]⟩

theorem Regular.dead {c : Connection} (h : c.Regular) (hfd : c.mFd < 0) : c.Dead := by
  obtain ⟨h1, h2, h3, h4⟩ := h.clean hfd
  exact ⟨hfd, h1, h2, h3, h4⟩

/-- A closed connection stays as it is but for its descriptor and handler. -/
theorem Dead.regular {c d : Connection} (h : c.Dead) (status : d.mConnStatus = c.mConnStatus)
    (read : d.mbRegForRead = c.mbRegForRead) (write : d.mbRegForWrite = c.mbRegForWrite)
    (queue : d.mTcpPacketList = c.mTcpPacketList) : d.Regular ∧ d.Interested := by
  have hst : d.mConnStatus = .Closed := status.trans h.status
  refine ⟨⟨fun _ => ⟨hst, read.trans h.read, write.trans h.write, queue.trans h.queue⟩,
    fun _ => queue.trans h.queue, ?_⟩, fun hc => absurd (hst.symm.trans hc) (by simp)⟩
  rw [queue, h.queue]
  simp [Unspent]

/-- With a descriptor, the rest is the queue. -/
theorem regular_of_open {c : Connection} (fd : 0 ≤ c.mFd)
    (connecting : c.mConnStatus = .Connecting → c.mTcpPacketList = [])
    (unspent : Unspent c.mTcpPacketList) : c.Regular :=
  ⟨clean_of_open fd, connecting, unspent⟩

end Connection

open Connection

/-- The descriptor given to `acceptConnection` is one that `accept` returned. -/
def ConnCall.Valid : ConnCall → Prop
  | .acceptConnection connfd => 0 ≤ connfd
  | _ => True

def ThreadStep.Valid : ThreadStep → Prop
  | .call _ m _ => m.Valid
  | .elsewhere _ => True

/-- The call makes `x` connected, or connects it anew. -/
def ConnCall.Establishes (m : ConnCall) (x : Ctx) : Prop :=
  (m.run x).1.conn.mConnStatus = .Connected ∧ (x.conn.mConnStatus ≠ .Connected ∨ ∃ sa, m = .connect sa)

namespace Ctx

/-- Only an error reported on a connected connection sets write interest and
queue apart. -/
def Keeps (x y : Ctx) : Prop :=
  x.conn.Interested → (x.conn.mConnStatus = .Connected → ¬Reports x.conn.this (news x.sys y.sys)) →
    y.conn.Interested

theorem keeps_of_idle {x y : Ctx} (h : y.conn.mConnStatus ≠ .Connected) : Keeps x y :=
  fun _ _ hc => absurd hc h

/-- Flushing ends the write interest together with the queue. -/
theorem tryFlushRemainPacket_balanced (x : Ctx) (h : x.conn.Balanced) :
    x.tryFlushRemainPacket.2.conn.Balanced ∧
      (x.tryFlushRemainPacket.1 = true ↔ x.tryFlushRemainPacket.2.conn.mTcpPacketList = []) := by
  unfold tryFlushRemainPacket
  split
  · rename_i he
    exact ⟨h, by simp [he]⟩
  · rename_i he
    simp only
    split
    · rename_i hps
      exact ⟨by simp [Connection.Balanced, hps], by simp [hps]⟩
    · rename_i hps
      exact ⟨⟨fun _ => hps, fun _ => h.mpr he⟩, by simpa using hps⟩

/-- The check of `errno` leaves the connection alone, or reports an error. -/
theorem checkSocketErrors_keeps (x : Ctx) (b : Caller) :
    Reports x.conn.this (news x.sys (x.checkSocketErrors b).2.1.sys) ∨ (x.checkSocketErrors b).2.1 = x := by
  rcases x.checkSocketErrors_cases b with ⟨-, h⟩ | ⟨-, -, h⟩ | ⟨-, -, h⟩
  · exact Or.inr (by rw [h])
  · refine Or.inl ⟨b, ?_⟩
    rw [h, news_eq (x.raiseError_spec b).2.2.2.2.1]
    exact List.mem_singleton.mpr rfl
  · exact Or.inr (by rw [h])

theorem sendRest_balanced (x : Ctx) (rest : Bytes) (h : x.conn.Balanced) :
    Reports x.conn.this (news x.sys (x.sendRest rest).1.sys) ∨ (x.sendRest rest).1.conn.Balanced := by
  unfold sendRest
  rcases x.checkSocketErrors_cases .send with ⟨-, hk⟩ | ⟨-, -, hk⟩ | ⟨-, -, hk⟩
  · rw [hk]
    refine Or.inr ?_
    simp [Connection.Balanced, cachePacket]
  · refine Or.inl ⟨.send, ?_⟩
    rw [hk]
    simp only [if_true]
    rw [news_eq (x.raiseError_spec .send).2.2.2.2.1]
    exact List.mem_singleton.mpr rfl
  · rw [hk]
    exact Or.inr h

/-- A report at the end of a call is one of the whole call. -/
theorem reports_of_tail {c : ConnId} {s t u : Sys} (h : s.trace <+: t.trace) (k : t.trace <+: u.trace)
    (hr : Reports c (news t u)) : Reports c (news s u) := by
  obtain ⟨b, hb⟩ := hr
  exact ⟨b, by rw [news_trans h k]; exact List.mem_append_right _ hb⟩

theorem send_keeps (data : Bytes) (x : Ctx) : Keeps x (x.send data).1 := by
  intro hx hno
  let x₀ := x.log (.sendCall x.conn.this data)
  by_cases hopen : x.conn.mFd < 0 ∨ x.conn.mConnStatus ≠ .Connected
  · rw [send_of_refused data hopen]
    exact hx
  obtain ⟨hfd, hst⟩ := not_or.mp hopen
  have hb : x₀.conn.Balanced := hx (not_not.mp hst)
  replace hno := hno (not_not.mp hst)
  obtain ⟨hflush, hempty⟩ := x₀.tryFlushRemainPacket_balanced hb
  obtain ⟨-, -, -, -, hconn⟩ := x₀.tryFlushRemainPacket_spec
  have hthis : x₀.tryFlushRemainPacket.2.conn.this = x.conn.this := by rw [hconn]; rfl
  have hext : x.sys.trace <+: x₀.tryFlushRemainPacket.2.sys.trace :=
    (List.prefix_append _ _).trans (extends_rule.tryFlushRemainPacket x₀)
  -- the end of `send`, from a state `z` in which the rest of the data is left
  have hrest : ∀ (z : Ctx) (rest : Bytes), x.send data = z.sendRest rest → z.conn.Balanced →
      z.conn.this = x.conn.this → x.sys.trace <+: z.sys.trace → (x.send data).1.conn.Interested := by
    intro z rest hs hz hzthis hzext
    rw [hs] at hno ⊢
    refine fun _ => (z.sendRest_balanced rest hz).resolve_left fun hr => hno ?_
    exact reports_of_tail hzext (extends_rule.sendRest rest z) (hzthis ▸ hr)
  cases hf : x₀.tryFlushRemainPacket with
  | mk flushed z =>
    rw [hf] at hflush hempty hthis hext
    cases flushed with
    | false =>
      exact hrest z data (send_of_queued data (not_lt.mp hfd) (not_not.mp hst) hf) hflush hthis hext
    | true =>
      have hs := send_of_flushed data (not_lt.mp hfd) (not_not.mp hst) hf
      have hsent : (z.sendDirect data).2.conn.Balanced := hflush
      have hzext : x.sys.trace <+: (z.sendDirect data).2.sys.trace :=
        hext.trans (extends_rule.sysSend z.conn.this data z)
      by_cases hfull : (z.sendDirect data).1 = some data.length
      · rw [hs, if_pos hfull]
        exact fun _ => hsent
      · rw [if_neg hfull] at hs
        exact hrest _ _ hs hsent hthis hzext

theorem send_regular (data : { d : Bytes // d ≠ [] }) (x : Ctx) (h : x.conn.Regular) :
    (x.send data).1.conn.Regular ∧ (x.send data).1.sys.aborted = x.sys.aborted := by
  have hun := (x.send_unspent data h.unspent).2
  have hlink := (send_spec data.1 x).link
  by_cases hopen : x.conn.mFd < 0 ∨ x.conn.mConnStatus ≠ .Connected
  · rw [send_of_refused _ hopen]
    exact ⟨h, rfl⟩
  obtain ⟨hfd, hst⟩ := not_or.mp hopen
  obtain ⟨z, rest, -, -, -, hab, -, -, hs⟩ := x.send_answered data (not_lt.mp hfd) (not_not.mp hst) h.unspent
  have habort : (x.send data).1.sys.aborted = x.sys.aborted := by
    rw [hs]
    split
    · exact hab
    · unfold sendRest
      rcases z.checkSocketErrors_cases .send with ⟨-, hk⟩ | ⟨-, -, hk⟩ | ⟨-, -, hk⟩
      · simpa [hk, cachePacket] using hab
      · simpa [hk, (z.raiseError_spec .send).2.2.2.2.2] using hab
      · simpa [hk] using hab
  refine ⟨regular_of_open (hlink.fd ▸ not_lt.mp hfd) (fun hc => ?_) hun, habort⟩
  exact absurd ((hlink.status.trans (not_not.mp hst)).symm.trans hc) (by simp)

theorem shutdown_regular (x : Ctx) (h : x.conn.Regular) :
    x.shutdown.conn.Dead ∧ x.shutdown.sys.aborted = x.sys.aborted := by
  by_cases hfd : x.conn.mFd < 0
  · rw [x.shutdown_of_closed hfd]
    exact ⟨h.dead hfd, rfl⟩
  · rw [x.shutdown_conn (not_lt.mp hfd)]
    exact ⟨⟨by simp, rfl, rfl, rfl, rfl⟩, (x.shutdown_sys (not_lt.mp hfd)).2.2.2⟩

theorem acceptConnection_aborted (connfd : ℤ) (x : Ctx) :
    (x.acceptConnection connfd).2.sys.aborted = x.sys.aborted := by
  unfold acceptConnection
  split
  · rfl
  · simp only
    split <;> simp [closeFd, log, Sys.log, setStatus]

theorem connect_closed_aborted (sa : SockAddr) (x : Ctx) (hx : x.conn.mFd < 0) :
    (x.connect sa).2.1.sys.aborted = x.sys.aborted := by
  rw [connect_closed sa x hx]
  simp only
  split
  · simp
  split
  · simp [closeFd, log, Sys.log]
  unfold dial
  simp only
  split
  · unfold established
    simp only
    split <;> simp [log, Sys.log, setStatus]
  split <;> simp [log, Sys.log, setStatus, closeFd]

theorem recvLoop_aborted (c : ConnId) (rs : List RecvRes) (buf : Bytes) (cap : ℕ) (s : Sys) :
    (recvLoop c rs buf cap s).2.2.aborted = s.aborted := by
  induction rs generalizing buf cap s with
  | nil => simp [recvLoop]
  | cons r rs ih =>
    have hr := s.recv_aborted c MAXLEN (cap - buf.length)
    unfold recvLoop
    cases hs : s.recv c MAXLEN (cap - buf.length) with
    | mk got t =>
      rw [hs] at hr
      cases got with
      | none => exact hr
      | some bs =>
        simp only
        split
        · split
          · exact hr
          · exact (ih _ _ _).trans hr
        · exact hr

theorem inputRecv_regular (x : Ctx) (h : x.conn.Regular) (hst : x.conn.mConnStatus = .Connected) :
    x.inputRecv.1.conn.Regular ∧ x.inputRecv.1.sys.aborted = x.sys.aborted ∧ Keeps x x.inputRecv.1 := by
  have hfd : 0 ≤ x.conn.mFd := by
    by_contra hneg
    exact absurd ((h.clean (not_le.mp hneg)).1.symm.trans hst) (by simp)
  obtain ⟨-, -, -, hno, -, -, -⟩ :=
    recvLoop_spec x.conn.this x.sys.env.recvs [] MAXLEN x.sys rfl (by decide)
  have hab := recvLoop_aborted x.conn.this x.sys.env.recvs [] MAXLEN x.sys
  obtain ⟨st, hne, hconn⟩ : ∃ st, st ≠ .Connecting ∧
      x.inputRecv.1.conn = { x.conn with mConnStatus := st } := by
    refine ⟨(recvLoop x.conn.this x.sys.env.recvs [] MAXLEN x.sys).2.1.getD x.conn.mConnStatus, ?_, ?_⟩
    · cases hr : (recvLoop x.conn.this x.sys.env.recvs [] MAXLEN x.sys).2.1 with
      | none => simp [hst]
      | some st => simpa [hr] using hno
    · unfold inputRecv
      simp only
      split <;> rfl
  have habort : x.inputRecv.1.sys.aborted = x.sys.aborted := by
    unfold inputRecv
    simp only
    split <;> exact hab
  refine ⟨?_, habort, fun hx _ _ => ?_⟩
  · rw [hconn]
    exact regular_of_open hfd (fun hc => absurd hc hne) h.unspent
  · rw [hconn]
    exact hx hst

theorem inputFinish_regular (x : Ctx) (h : x.conn.Regular) :
    x.inputFinish.1.conn.Regular ∧ x.inputFinish.1.sys.aborted = x.sys.aborted ∧
      Keeps x x.inputFinish.1 := by
  have hdrop : ∀ y : Ctx, y.conn = { x.conn with mbRegForRead := false, mbRegForWrite := false } →
      y.conn.Regular := fun y hy => by
    rw [hy]
    exact ⟨fun hfd => ⟨(h.clean hfd).1, rfl, rfl, (h.clean hfd).2.2.2⟩, h.connecting, h.unspent⟩
  unfold inputFinish
  split
  · split
    · rename_i he
      obtain ⟨-, hc, -, -, -, hab⟩ := x.raiseError_spec .input
      exact ⟨hdrop _ hc, hab, keeps_of_idle (by rw [hc, he]; simp)⟩
    · split
      · rename_i hd
        refine ⟨hdrop _ (by simp [log]), by simp [log, Sys.log], keeps_of_idle ?_⟩
        simp [log, hd]
      · exact ⟨h, rfl, fun hx _ => hx⟩
  · exact ⟨h, rfl, fun hx _ => hx⟩

theorem handleOutputNotification_regular (x : Ctx) (h : x.conn.Regular) :
    x.handleOutputNotification.1.conn.Regular ∧
      x.handleOutputNotification.1.sys.aborted = x.sys.aborted ∧
      Keeps x x.handleOutputNotification.1 := by
  have hun := (x.handleOutputNotification_unspent h.unspent).2
  have hfd : x.conn.mConnStatus ≠ .Closed → 0 ≤ x.conn.mFd := fun hne => by
    by_contra hneg
    exact hne (h.clean (not_le.mp hneg)).1
  by_cases hc : x.conn.mConnStatus = .Connecting
  · -- nothing is queued yet, and the write interest of `connect` ends
    obtain ⟨r, w, st, hne, hw, hconn⟩ : ∃ r w st, st ≠ .Connecting ∧ w = false ∧
        x.handleOutputNotification.1.conn =
          { x.conn with mbRegForRead := r, mbRegForWrite := w, mConnStatus := st } := by
      simp only [handleOutputNotification, hc, if_true]
      split
      · split
        · exact ⟨false, false, .Error, by simp, rfl, by simp [raiseError, log, setStatus]⟩
        · exact ⟨x.conn.mbRegForRead, false, .Error, by simp, rfl, by simp [setStatus]⟩
      · split <;> exact ⟨true, false, .Connected, by simp, rfl, by simp [setStatus, log]⟩
    have habort : x.handleOutputNotification.1.sys.aborted = x.sys.aborted := by
      simp only [handleOutputNotification, hc, if_true]
      split
      · split <;> simp [setStatus, raiseError, log, Sys.log]
      · split <;> simp [setStatus, log, Sys.log]
    refine ⟨?_, habort, fun _ _ _ => ?_⟩
    · rw [hconn]
      exact regular_of_open (hfd (by rw [hc]; simp)) (fun hk => absurd hk hne) (by rw [hconn] at hun; exact hun)
    · rw [hconn]
      simp [Connection.Balanced, hw, h.connecting hc]
  by_cases hst : x.conn.mConnStatus = .Connected
  · have ho : x.handleOutputNotification = (x.tryFlushRemainPacket.2.checkSocketErrors .output).2 := by
      simp [handleOutputNotification, hst]
    obtain ⟨-, -, -, hab, -⟩ := x.tryFlushRemainPacket_answered h.unspent
    obtain ⟨-, -, -, -, hconn⟩ := x.tryFlushRemainPacket_spec
    have hthis : x.tryFlushRemainPacket.2.conn.this = x.conn.this := by rw [hconn]
    have hfd' : 0 ≤ x.tryFlushRemainPacket.2.conn.mFd := by rw [hconn]; exact hfd (by rw [hst]; simp)
    have hst' : x.tryFlushRemainPacket.2.conn.mConnStatus = .Connected := by rw [hconn]; exact hst
    have hext := extends_rule.tryFlushRemainPacket x
    have hcheck := x.tryFlushRemainPacket.2.checkSocketErrors_keeps .output
    rw [ho] at hun ⊢
    refine ⟨regular_of_open ?_ ?_ hun, ?_, fun hx hno => ?_⟩
    · rcases x.tryFlushRemainPacket.2.checkSocketErrors_cases .output with ⟨-, hk⟩ | ⟨-, -, hk⟩ | ⟨-, -, hk⟩ <;>
        simp [hk, (x.tryFlushRemainPacket.2.raiseError_spec .output).2.1, hfd']
    · rcases x.tryFlushRemainPacket.2.checkSocketErrors_cases .output with ⟨-, hk⟩ | ⟨-, -, hk⟩ | ⟨-, -, hk⟩ <;>
        simp [hk, (x.tryFlushRemainPacket.2.raiseError_spec .output).2.1, hst']
    · rcases x.tryFlushRemainPacket.2.checkSocketErrors_cases .output with ⟨-, hk⟩ | ⟨-, -, hk⟩ | ⟨-, -, hk⟩ <;>
        simp [hk, (x.tryFlushRemainPacket.2.raiseError_spec .output).2.2.2.2.2, hab]
    · rcases hcheck with hr | he
      · refine absurd (reports_of_tail hext (extends_rule.checkSocketErrors .output _) ?_) (hno hst)
        rw [← hthis]
        exact hr
      · rw [he]
        exact fun _ => (x.tryFlushRemainPacket_balanced (hx hst)).1
  · have ho : x.handleOutputNotification = (x, none) := by simp [handleOutputNotification, hc, hst]
    rw [ho]
    exact ⟨h, rfl, fun hx _ => hx⟩

theorem acceptConnection_regular {connfd : ℤ} (hfd : 0 ≤ connfd) (x : Ctx) (h : x.conn.Regular) :
    (x.acceptConnection connfd).2.conn.Regular ∧ Keeps x (x.acceptConnection connfd).2 := by
  have hs := x.acceptConnection_spec connfd
  generalize x.acceptConnection connfd = r at hs
  cases hs with
  | inUse => exact ⟨h, fun hx _ => hx⟩
  | failed y hneg hc _ =>
    obtain ⟨hr, hi⟩ := (h.dead hneg).regular (d := y.conn) (by rw [hc]) (by rw [hc]) (by rw [hc]) (by rw [hc])
    exact ⟨hr, fun _ _ => hi⟩
  | opened y hneg hc _ =>
    have hd := h.dead hneg
    refine ⟨regular_of_open (by rw [hc]; exact hfd) (by rw [hc]; simp) (by rw [hc]; exact h.unspent),
      fun _ _ _ => ?_⟩
    rw [hc]
    simp [Connection.Balanced, hd.write, hd.queue]

/-- However `connect` ends, the connection is balanced. -/
theorem connect_regular (sa : SockAddr) (x : Ctx) (h : x.conn.Regular) :
    (x.connect sa).2.1.conn.Regular ∧ (x.connect sa).2.1.conn.Interested ∧
      (x.connect sa).2.1.sys.aborted = x.sys.aborted := by
  have hclosed : ∀ y : Ctx, y.conn.Dead → (y.connect sa).2.1.conn.Regular ∧
      (y.connect sa).2.1.conn.Interested := by
    intro y hd
    have hs := y.connect_spec sa hd.fd
    generalize y.connect sa = r at hs
    cases hs with
    | failed z hc _ => exact hd.regular (by rw [hc]) (by rw [hc]) (by rw [hc]) (by rw [hc])
    | connecting z fd hfd hc _ =>
      refine ⟨regular_of_open (by rw [hc]; exact hfd) (fun _ => by rw [hc]; exact hd.queue)
        (by rw [hc]; change Unspent y.conn.mTcpPacketList; rw [hd.queue]; simp [Unspent]), ?_⟩
      intro hk
      rw [hc] at hk
      cases hk
    | connected z fd hfd hc _ =>
      have hz : (if y.conn.mHandler then z.log (.onConnected y.conn.this) else z).conn = z.conn := by
        split <;> rfl
      simp only
      rw [hz, hc]
      refine ⟨regular_of_open hfd (by simp) ?_, fun _ => by simp [Connection.Balanced, hd.write, hd.queue]⟩
      change Unspent y.conn.mTcpPacketList
      rw [hd.queue]
      simp [Unspent]
  by_cases hfd : x.conn.mFd < 0
  · obtain ⟨hr, hi⟩ := hclosed x (h.dead hfd)
    exact ⟨hr, hi, x.connect_closed_aborted sa hfd⟩
  · obtain ⟨hc, he⟩ := x.connect_of_open sa (not_lt.mp hfd)
    obtain ⟨hd, hab⟩ := x.shutdown_regular h
    obtain ⟨hr, hi⟩ := hclosed x.shutdown hd
    rw [he]
    exact ⟨hr, hi, (x.shutdown.connect_closed_aborted sa hc).trans hab⟩

end Ctx

namespace ConnCall

open Ctx

/-- Every call keeps the invariant and fails no `assert`, and only an error it
reports can leave write interest and queue apart. -/
theorem run_regular (m : ConnCall) (hm : m.Valid) (x : Ctx) (h : x.conn.Regular) :
    (m.run x).1.conn.Regular ∧ (m.run x).1.sys.aborted = x.sys.aborted ∧ Keeps x (m.run x).1 := by
  cases m with
  | setEventHandler b => exact ⟨⟨h.clean, h.connecting, h.unspent⟩, rfl, fun hx _ => hx⟩
  | acceptConnection connfd =>
    obtain ⟨hr, hk⟩ := x.acceptConnection_regular hm h
    exact ⟨hr, x.acceptConnection_aborted connfd, hk⟩
  | connect sa =>
    obtain ⟨hr, hi, hab⟩ := x.connect_regular sa h
    exact ⟨hr, hab, fun _ _ => hi⟩
  | shutdown =>
    obtain ⟨hd, hab⟩ := x.shutdown_regular h
    obtain ⟨hr, hi⟩ := hd.regular (d := x.shutdown.conn) rfl rfl rfl rfl
    exact ⟨hr, hab, fun _ _ => hi⟩
  | send data =>
    obtain ⟨hr, hab⟩ := x.send_regular data h
    exact ⟨hr, hab, x.send_keeps data⟩
  | inputRecv =>
    simp only [run]
    split
    · exact ⟨h, rfl, fun hx _ => hx⟩
    · rename_i hst
      exact x.inputRecv_regular h (not_not.mp hst)
  | inputFinish => exact x.inputFinish_regular h
  | handleOutputNotification => exact x.handleOutputNotification_regular h

/-- A connection that is just connected is balanced. -/
theorem establishes_interested (m : ConnCall) (hm : m.Valid) (x : Ctx) (h : x.conn.Regular)
    (he : m.Establishes x) : (m.run x).1.conn.Interested := by
  obtain ⟨-, hnew | ⟨sa, rfl⟩⟩ := he
  · exact (m.run_regular hm x h).2.2 (fun hc => absurd hc hnew) fun hc => absurd hc hnew
  · exact (x.connect_regular sa h).2.1

/-- The descriptors a call may take over. -/
def Takes (m : ConnCall) (x : Ctx) : ℤ → Prop :=
  match m with
  | .acceptConnection connfd => (· = connfd)
  | .connect _ => (· = x.sys.socket.1)
  | _ => fun _ => False

theorem run_moves (m : ConnCall) (hm : m.Valid) (x : Ctx) (h : x.conn.Regular) :
    Moves (m.Takes x) x (m.run x).1 := by
  cases m with
  | setEventHandler b => exact moves_aside ⟨rfl, rfl, rfl, rfl⟩ (.refl _)
  | acceptConnection connfd =>
    obtain ⟨n, rfl⟩ := Int.eq_ofNat_of_zero_le hm
    exact acceptConnection_moves n x fun hfd => ⟨(h.dead hfd).read, (h.dead hfd).write⟩
  | connect sa =>
    by_cases hfd : x.conn.mFd < 0
    · exact connect_moves sa x hfd (h.dead hfd).read (h.dead hfd).write
    · obtain ⟨hc, he⟩ := x.connect_of_open sa (not_lt.mp hfd)
      have hsock : x.shutdown.sys.socket.1 = x.sys.socket.1 :=
        Sys.socket_congr (congrArg Env.sockets (x.shutdown_sys (not_lt.mp hfd)).2.1)
      have hd := (x.shutdown_regular h).1
      have hm := connect_moves sa x.shutdown hc hd.read hd.write
      rw [hsock] at hm
      simp only [run, he]
      exact x.shutdown_moves.trans hm
  | shutdown => exact x.shutdown_moves
  | send data => exact moves_rule.send data x
  | inputRecv =>
    simp only [run]
    split
    · exact .refl x
    · exact moves_rule.inputRecv x
  | inputFinish => exact moves_rule.inputFinish x
  | handleOutputNotification => exact moves_rule.handleOutputNotification x

end ConnCall

namespace Connections

open Ctx

/-- Every object is at its address and regular, and no `assert` has failed. -/
structure Regular (s : Connections) : Prop where
  this : ∀ c, (s.conn c).this = c
  conn : ∀ c, (s.conn c).Regular
  aborted : s.sys.aborted = false

theorem new_regular (e : Errno) : (new e).Regular :=
  ⟨fun _ => rfl, Connection.new_regular, rfl⟩

theorem step_regular {s : Connections} (h : s.Regular) {a : ThreadStep} (ha : a.Valid) :
    (s.step a).Regular := by
  cases a with
  | elsewhere e => exact ⟨h.this, h.conn, h.aborted⟩
  | call c m env =>
    obtain ⟨hr, hab, -⟩ := m.run_regular ha (s.ctx c env) (h.conn c)
    have ht := (m.run_unspent (s.ctx c env) (h.conn c).unspent).1
    refine ⟨fun d => ?_, fun d => ?_, hab.trans h.aborted⟩
    · by_cases hd : d = c
      · subst hd
        simp only [step, if_true]
        exact ht.trans (h.this d)
      · simp only [step, if_neg hd]
        exact h.this d
    · by_cases hd : d = c
      · subst hd
        simp only [step, if_true]
        exact hr
      · simp only [step, if_neg hd]
        exact h.conn d

theorem foldl_step_regular {s : Connections} (h : s.Regular) {steps : List ThreadStep}
    (hv : ∀ a ∈ steps, a.Valid) : (steps.foldl step s).Regular :=
  List.foldlRecOn steps step h fun _ hs a ha => step_regular hs (hv a ha)

theorem step_extends {s : Connections} (h : s.Regular) {a : ThreadStep} (ha : a.Valid) :
    s.sys.trace <+: (s.step a).sys.trace := by
  cases a with
  | call c m env => exact (m.run_moves ha (s.ctx c env) (h.conn c)).extends
  | elsewhere e => exact List.prefix_refl _

theorem foldl_step_extends {s : Connections} (h : s.Regular) {steps : List ThreadStep}
    (hv : ∀ a ∈ steps, a.Valid) : s.sys.trace <+: (steps.foldl step s).sys.trace := by
  induction steps generalizing s with
  | nil => exact List.prefix_refl _
  | cons a steps ih =>
    have ha := hv a List.mem_cons_self
    exact (step_extends h ha).trans
      (ih (step_regular h ha) fun b hb => hv b (List.mem_cons_of_mem a hb))

theorem step_interested {s : Connections} (h : s.Regular) {a : ThreadStep} (ha : a.Valid) {c : ConnId}
    (hi : (s.conn c).Interested) (hno : ¬Reports c (news s.sys (s.step a).sys)) :
    ((s.step a).conn c).Interested := by
  cases a with
  | elsewhere e => exact hi
  | call d m env =>
    by_cases hd : c = d
    · subst hd
      simp only [step, if_true]
      refine (m.run_regular ha (s.ctx c env) (h.conn c)).2.2 hi fun _ hr => hno ?_
      have hthis : (s.ctx c env).conn.this = c := h.this c
      rw [hthis] at hr
      exact hr
    · simp only [step, if_neg hd]
      exact hi

/-- Without a report the balance lasts. -/
theorem foldl_step_interested {s : Connections} (h : s.Regular) {steps : List ThreadStep}
    (hv : ∀ a ∈ steps, a.Valid) {c : ConnId} (hi : (s.conn c).Interested)
    (hno : ¬Reports c (news s.sys (steps.foldl step s).sys)) :
    ((steps.foldl step s).conn c).Interested := by
  induction steps generalizing s with
  | nil => exact hi
  | cons a steps ih =>
    have ha := hv a List.mem_cons_self
    have hrest : ∀ b ∈ steps, b.Valid := fun b hb => hv b (List.mem_cons_of_mem a hb)
    rw [List.foldl_cons] at hno ⊢
    rw [news_trans (step_extends h ha) (foldl_step_extends (step_regular h ha) hrest)] at hno
    refine ih (step_regular h ha) hrest (step_interested h ha hi fun ⟨b, hb⟩ => hno ?_)
      fun ⟨b, hb⟩ => hno ?_
    · exact ⟨b, List.mem_append_left _ hb⟩
    · exact ⟨b, List.mem_append_right _ hb⟩

/-- Whatever is done with a connection: without descriptor it is closed,
unregistered and empty; as long as no error has been reported since it became
connected, it is registered for write exactly while packets are queued; and no
packet in the queue is spent. -/
theorem representation_invariant (e : Errno) (steps : List ThreadStep) (valid : ∀ a ∈ steps, a.Valid)
    (c : ConnId) :
    let s := run e steps
    ((s.conn c).mFd < 0 → (s.conn c).mConnStatus = .Closed ∧ (s.conn c).mbRegForRead = false ∧
        (s.conn c).mbRegForWrite = false ∧ (s.conn c).mTcpPacketList = []) ∧
      (∀ pre m env post, steps = pre ++ .call c m env :: post → m.Establishes ((run e pre).ctx c env) →
        ¬Reports c (news ((run e pre).step (.call c m env)).sys s.sys) →
        (s.conn c).mConnStatus = .Connected →
        ((s.conn c).mbRegForWrite = true ↔ (s.conn c).mTcpPacketList ≠ [])) ∧
      (∀ p ∈ (s.conn c).mTcpPacketList, p.sentlen < p.buf.length) ∧ s.sys.aborted = false := by
  intro s
  have h : s.Regular := foldl_step_regular (new_regular e) valid
  refine ⟨(h.conn c).clean, ?_, (h.conn c).unspent, h.aborted⟩
  rintro pre m env post rfl hest hno
  have hvpre : ∀ a ∈ pre, a.Valid := fun a ha => valid a (List.mem_append_left _ ha)
  have hvcall : (ThreadStep.call c m env).Valid :=
    valid _ (List.mem_append_right _ List.mem_cons_self)
  -- the invariant gives the start, and interest lasts until the connection reports
  have hpre : (run e pre).Regular := foldl_step_regular (new_regular e) hvpre
  have hstart : (((run e pre).step (.call c m env)).conn c).Interested := by
    simp only [step, if_true]
    exact m.establishes_interested hvcall _ (hpre.conn c) hest
  have hs : s = post.foldl step ((run e pre).step (.call c m env)) := by
    simp only [s, run, List.foldl_append, List.foldl_cons]
  rw [hs] at hno ⊢
  exact foldl_step_interested (step_regular hpre hvcall)
    (fun a ha => valid a (List.mem_append_right _ (List.mem_cons_of_mem _ ha))) hstart hno

/-- A connection whose socket takes a part of what it is given. -/
def busyRun : List ThreadStep :=
  let a : ConnId := ⟨0, .loc⟩
  [.call a (.acceptConnection 5) {}, .call a (.setEventHandler true) {}, .elsewhere .EAGAIN,
    .call a (.send ⟨[1, 2, 3], by decide⟩) { sends := [.sent 2] }]

theorem representation_invariant_busy :
    ((run (.other 0) busyRun).conn ⟨0, .loc⟩).mTcpPacketList = [⟨[3], 0⟩] ∧
      (((run (.other 0) busyRun).conn ⟨0, .loc⟩).mbRegForWrite = true ↔
        ((run (.other 0) busyRun).conn ⟨0, .loc⟩).mTcpPacketList ≠ []) := by
  have hvalid : ∀ a ∈ busyRun, a.Valid := by
    simp [busyRun, ThreadStep.Valid, ConnCall.Valid]
  have hquiet : ¬Reports ⟨0, .loc⟩ (news ((run (.other 0) []).step
      (.call ⟨0, .loc⟩ (.acceptConnection 5) {})).sys (run (.other 0) busyRun).sys) := by
    rintro ⟨b, hb⟩
    cases b <;> exact absurd hb (by decide +kernel)
  exact ⟨by rfl, (representation_invariant (.other 0) busyRun hvalid ⟨0, .loc⟩).2.1 []
    (.acceptConnection 5) {} _ rfl ⟨by rfl, Or.inl (by decide +kernel)⟩ hquiet (by rfl)⟩

end Connections

end HttpsProxy
