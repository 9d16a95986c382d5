import HttpsProxy.ConnectionOpen

/-! Two runs of the same method side by side. What a method does depends on the
connection, on `errno` and on the answers its calls get; the poller and the log
are written and never read. -/
namespace HttpsProxy

/-- What is handed to a socket, and how the socket answered. -/
def Ev.handed : Ev → Option (ConnId × Bytes × SendRes)
  | .sockSend c data r _ => some (c, data, r)
  | _ => none

/-- All that has been handed to sockets, call by call. -/
def handed (tr : List Ev) : List (ConnId × Bytes × SendRes) := tr.filterMap Ev.handed

@[simp] theorem handed_append (s t : List Ev) : handed (s ++ t) = handed s ++ handed t :=
  List.filterMap_append

theorem handed_log {e : Ev} (tr : List Ev) (he : e.handed = none) : handed (tr ++ [e]) = handed tr := by
  rw [handed_append]
  simp [handed, he]

theorem handed_of_notes {evs : List Ev} (h : ∀ e ∈ evs, e.isNote) : handed evs = [] := by
  apply List.filterMap_eq_nil_iff.mpr
  intro e he
  have hn := h e he
  cases e <;> first | rfl | exact hn.elim

theorem Noted.handed {s t : Sys} (h : Noted s t) : handed t.trace = handed s.trace := by
  obtain ⟨evs, ht, he⟩ := h
  rw [ht, handed_append, handed_of_notes he, List.append_nil]

/-- The same but for the poller, and for the log but for what was handed over. -/
structure Sys.Twin (s t : Sys) : Prop where
  errno : t.errno = s.errno
  env : t.env = s.env
  aborted : t.aborted = s.aborted
  handed : handed t.trace = handed s.trace

/-- Two answers of a method that agree. -/
structure Agree {α β : Type} (R : β → β → Prop) (r r' : α × β) : Prop where
  res : r'.1 = r.1
  rel : R r.2 r'.2

namespace Sys

section Twin

variable {s t : Sys}

theorem Twin.of_same {s' t' : Sys} (h : Twin s t)
    (hs : s'.errno = s.errno ∧ s'.env = s.env ∧ s'.trace = s.trace ∧ s'.aborted = s.aborted)
    (ht : t'.errno = t.errno ∧ t'.env = t.env ∧ t'.trace = t.trace ∧ t'.aborted = t.aborted) :
    Twin s' t' := by
  obtain ⟨s1, s2, s3, s4⟩ := hs
  obtain ⟨t1, t2, t3, t4⟩ := ht
  exact ⟨by rw [s1, t1, h.errno], by rw [s2, t2, h.env], by rw [s4, t4, h.aborted],
    by rw [s3, t3, h.handed]⟩

/-- The two logs may get entries that differ, as long as the same is handed over. -/
theorem Twin.log (h : Twin s t) {e e' : Ev} (he : e'.handed = e.handed) :
    Twin (s.log e) (t.log e') := by
  refine ⟨h.errno, h.env, h.aborted, ?_⟩
  simp only [Sys.log, handed_append, h.handed]
  simp [HttpsProxy.handed, List.filterMap_cons, he]

theorem Twin.setErrno (h : Twin s t) (e : Errno) : Twin (s.setErrno e) (t.setErrno e) :=
  ⟨rfl, h.env, h.aborted, h.handed⟩

/-- Taking an answer out of the script. -/
theorem Twin.setEnv (h : Twin s t) (env : Env) : Twin { s with env := env } { t with env := env } :=
  ⟨h.errno, rfl, h.aborted, h.handed⟩

theorem Twin.send (h : Twin s t) (c : ConnId) (data : Bytes) :
    Agree Twin (s.send c data) (t.send c data) := by
  have henv := h.setEnv { s.env with sends := s.env.sends.tail }
  simp only [Sys.send, h.env]
  cases s.env.sends.headD (.fail .EAGAIN) with
  | sent n => exact ⟨rfl, henv.log rfl⟩
  | fail e => exact ⟨rfl, (henv.setErrno e).log rfl⟩

theorem Twin.recv (h : Twin s t) (c : ConnId) (maxlen room : ℕ) :
    Agree Twin (s.recv c maxlen room) (t.recv c maxlen room) := by
  have henv := h.setEnv { s.env with recvs := s.env.recvs.tail }
  simp only [Sys.recv, h.env]
  cases s.env.recvs.headD (.fail .EAGAIN) with
  | data bs => exact ⟨rfl, henv.log rfl⟩
  | fail e => exact ⟨rfl, (henv.setErrno e).log rfl⟩

theorem Twin.sockError (h : Twin s t) (c : ConnId) :
    Agree Twin (s.sockError c) (t.sockError c) := by
  have henv := h.setEnv { s.env with sockopts := s.env.sockopts.tail }
  simp only [Sys.sockError, h.env]
  cases s.env.sockopts.headD .ok with
  | ok => exact ⟨rfl, henv.log rfl⟩
  | pending e => exact ⟨rfl, (henv.log rfl).setErrno e⟩
  | fail e => exact ⟨rfl, (henv.log rfl).setErrno e⟩

theorem Twin.fcntl (h : Twin s t) : Agree Twin s.fcntl t.fcntl := by
  have henv := h.setEnv { s.env with fcntls := s.env.fcntls.tail }
  simp only [Sys.fcntl, h.env]
  cases s.env.fcntls.headD .ok with
  | ok => exact ⟨rfl, henv⟩
  | fail e => exact ⟨rfl, henv.setErrno e⟩

theorem Twin.socket (h : Twin s t) : Agree Twin s.socket t.socket := by
  have henv := h.setEnv { s.env with sockets := s.env.sockets.tail }
  simp only [Sys.socket, h.env]
  cases s.env.sockets.headD (.fail (.other 0)) with
  | fd n => exact ⟨rfl, henv⟩
  | fail e => exact ⟨rfl, henv.setErrno e⟩

/-- The address is only logged. -/
theorem Twin.connect (h : Twin s t) (c : ConnId) (sa sa' : SockAddr) :
    Agree Twin (s.connect c sa) (t.connect c sa') := by
  have hlog : ∀ r : CallRes, Twin
      (Sys.log (.connect c sa r) { s with env.connects := s.env.connects.tail })
      (Sys.log (.connect c sa' r) { t with env.connects := t.env.connects.tail }) := fun r => by
    rw [h.env]
    exact (h.setEnv _).log rfl
  unfold Sys.connect
  rw [h.env] at hlog ⊢
  cases s.env.connects.headD (.fail .EINPROGRESS) with
  | ok => exact ⟨rfl, hlog .ok⟩
  | fail e => exact ⟨rfl, (hlog (.fail e)).setErrno e⟩

theorem Twin.setNonblocking (h : Twin s t) : Agree Twin s.setNonblocking t.setNonblocking := by
  obtain ⟨hget, hs⟩ := h.fcntl
  obtain ⟨hset, hs'⟩ := hs.fcntl
  simp only [Sys.setNonblocking, hget, hset]
  split
  · exact ⟨rfl, hs⟩
  · split <;> exact ⟨rfl, hs'⟩

end Twin

end Sys

/-- The same connection, with twin surroundings. -/
structure Ctx.Twin (x y : Ctx) : Prop where
  conn : y.conn = x.conn
  sys : Sys.Twin x.sys y.sys

/-- The same callback, or none, on twins. -/
structure Calls (r r' : Ctx × Option Callback) : Prop where
  twin : Ctx.Twin r.1 r'.1
  cb : r'.2 = r.2

theorem Sys.Twin.ctx {s t : Sys} (h : Sys.Twin s t) (c : Connection) : Ctx.Twin ⟨c, s⟩ ⟨c, t⟩ :=
  ⟨rfl, h⟩

namespace Ctx

open Connection

section Twin

variable {x y : Ctx}

theorem Twin.setSys (h : Twin x y) {s t : Sys} (hs : Sys.Twin s t) :
    Twin { x with sys := s } { y with sys := t } :=
  ⟨h.conn, hs⟩

theorem Twin.log (h : Twin x y) (e : Ev) : Twin (x.log e) (y.log e) := ⟨h.conn, h.sys.log rfl⟩

theorem Twin.setStatus (h : Twin x y) (st : EConnStatus) : Twin (x.setStatus st) (y.setStatus st) :=
  ⟨by simp only [Ctx.setStatus, h.conn], h.sys⟩

theorem Twin.tryRegReadEvent (h : Twin x y) : Twin x.tryRegReadEvent y.tryRegReadEvent :=
  ⟨by simp only [tryRegReadEvent_conn, h.conn], h.sys.of_same x.tryRegReadEvent_sys y.tryRegReadEvent_sys⟩

theorem Twin.tryUnregReadEvent (h : Twin x y) : Twin x.tryUnregReadEvent y.tryUnregReadEvent :=
  ⟨by simp only [tryUnregReadEvent_conn, h.conn],
    h.sys.of_same x.tryUnregReadEvent_sys y.tryUnregReadEvent_sys⟩

theorem Twin.tryRegWriteEvent (h : Twin x y) : Twin x.tryRegWriteEvent y.tryRegWriteEvent :=
  ⟨by simp only [tryRegWriteEvent_conn, h.conn],
    h.sys.of_same x.tryRegWriteEvent_sys y.tryRegWriteEvent_sys⟩

theorem Twin.tryUnregWriteEvent (h : Twin x y) : Twin x.tryUnregWriteEvent y.tryUnregWriteEvent :=
  ⟨by simp only [tryUnregWriteEvent_conn, h.conn],
    h.sys.of_same x.tryUnregWriteEvent_sys y.tryUnregWriteEvent_sys⟩

theorem Twin.closeFd (h : Twin x y) : Twin x.closeFd y.closeFd :=
  ⟨by simp only [Ctx.closeFd, h.conn], h.sys.log rfl⟩

theorem Twin.shutdown (h : Twin x y) : Twin x.shutdown y.shutdown := by
  by_cases hfd : x.conn.mFd < 0
  · rw [shutdown_of_closed x hfd, shutdown_of_closed y (h.conn ▸ hfd)]
    exact h
  · have hx := not_lt.mp hfd
    have hy : 0 ≤ y.conn.mFd := h.conn ▸ hx
    refine ⟨by rw [shutdown_conn x hx, shutdown_conn y hy, h.conn], ?_⟩
    have hlog := h.tryUnregWriteEvent.tryUnregReadEvent.closeFd
    simp only [Ctx.shutdown, if_neg hfd, if_neg (not_lt.mpr hy)]
    exact hlog.sys

theorem flushPackets_twin (c : ConnId) (ps : List TcpPacket) {s t : Sys} (h : Sys.Twin s t) :
    Agree Sys.Twin (flushPackets c ps s) (flushPackets c ps t) := by
  induction ps generalizing s t with
  | nil => exact ⟨rfl, h⟩
  | cons p ps ih =>
    obtain ⟨hres, hsys⟩ := h.send c p.rest
    unfold flushPackets
    by_cases hp : p.buf.length ≤ p.sentlen
    · simp only [if_pos hp]
      exact ⟨rfl, h.errno, h.env, rfl, h.handed⟩
    · simp only [if_neg hp, hres]
      split
      · exact ih hsys
      · exact ⟨rfl, hsys⟩

theorem Twin.tryFlushRemainPacket (h : Twin x y) :
    Agree Twin x.tryFlushRemainPacket y.tryFlushRemainPacket := by
  obtain ⟨hps, hs⟩ := flushPackets_twin x.conn.this x.conn.mTcpPacketList h.sys
  simp only [Ctx.tryFlushRemainPacket, h.conn]
  split
  · exact ⟨rfl, h⟩
  · have hk := hs.ctx { x.conn with
      mTcpPacketList := (flushPackets x.conn.this x.conn.mTcpPacketList x.sys).1 }
    simp only [hps]
    split
    · exact ⟨rfl, hk.tryUnregWriteEvent⟩
    · exact ⟨rfl, hk⟩

theorem Twin.cachePacket (h : Twin x y) (data : Bytes) :
    Twin (x.cachePacket data) (y.cachePacket data) :=
  ⟨by simp only [Ctx.cachePacket, h.conn], h.sys⟩

theorem Twin.raiseError (h : Twin x y) (b : Caller) : Calls (x.raiseError b) (y.raiseError b) := by
  simp only [Ctx.raiseError, h.conn]
  exact ⟨h.tryUnregReadEvent.tryUnregWriteEvent.log _, rfl⟩

theorem Twin.checkSocketErrors (h : Twin x y) (b : Caller) :
    (y.checkSocketErrors b).1 = (x.checkSocketErrors b).1 ∧
      Calls (x.checkSocketErrors b).2 (y.checkSocketErrors b).2 := by
  simp only [Ctx.checkSocketErrors, h.conn, h.sys.errno]
  split
  · exact ⟨rfl, h, rfl⟩
  · split
    · exact ⟨rfl, h.raiseError b⟩
    · exact ⟨rfl, h, rfl⟩

theorem Twin.sendRest (h : Twin x y) (rest : Bytes) : Calls (x.sendRest rest) (y.sendRest rest) := by
  obtain ⟨herr, hx, hcb⟩ := h.checkSocketErrors .send
  simp only [Ctx.sendRest, herr]
  split
  · exact ⟨hx, hcb⟩
  · exact ⟨(hx.cachePacket rest).tryRegWriteEvent, rfl⟩

theorem Twin.sendDirect (h : Twin x y) (data : Bytes) :
    Agree Twin (x.sendDirect data) (y.sendDirect data) := by
  obtain ⟨hsent, hsys⟩ := h.sys.send x.conn.this data
  simp only [Ctx.sendDirect, h.conn]
  exact ⟨hsent, rfl, hsys⟩

/-- `Connection::send` hands the same to the socket of twins. -/
theorem Twin.send (h : Twin x y) (data : Bytes) : Calls (x.send data) (y.send data) := by
  have hlog := h.log (.sendCall x.conn.this data)
  simp only [Ctx.send, h.conn]
  obtain ⟨hflushed, hk⟩ := hlog.tryFlushRemainPacket
  generalize x.log (.sendCall x.conn.this data) = u at hlog hk hflushed ⊢
  generalize y.log (.sendCall x.conn.this data) = v at hlog hk hflushed ⊢
  rw [hlog.conn, hflushed]
  split
  · exact ⟨hlog, rfl⟩
  split
  · exact ⟨hlog, rfl⟩
  split
  · obtain ⟨hsent, hd⟩ := hk.sendDirect data
    rw [hsent]
    split
    · exact ⟨hd, rfl⟩
    · exact hd.sendRest _
  · exact hk.sendRest data

theorem recvLoop_twin (c : ConnId) (rs : List RecvRes) (buf : Bytes) (cap : ℕ) {s t : Sys}
    (h : Sys.Twin s t) :
    (recvLoop c rs buf cap t).1 = (recvLoop c rs buf cap s).1 ∧
      Agree Sys.Twin (recvLoop c rs buf cap s).2 (recvLoop c rs buf cap t).2 := by
  induction rs generalizing buf cap s t with
  | nil => exact ⟨rfl, rfl, (h.recv c MAXLEN (cap - buf.length)).rel⟩
  | cons r rs ih =>
    obtain ⟨hres, hsys⟩ := h.recv c MAXLEN (cap - buf.length)
    unfold recvLoop
    cases hs : s.recv c MAXLEN (cap - buf.length) with
    | mk got s' =>
      cases ht : t.recv c MAXLEN (cap - buf.length) with
      | mk got' t' =>
        rw [hs, ht] at hres hsys
        simp only at hres hsys
        subst hres
        cases got' with
        | none => exact ⟨rfl, by simp only [hsys.errno], hsys⟩
        | some bs =>
          simp only
          split
          · split
            · exact ⟨rfl, rfl, hsys⟩
            · exact ih _ _ hsys
          · exact ⟨rfl, rfl, hsys⟩

theorem Twin.inputRecv (h : Twin x y) : Calls x.inputRecv y.inputRecv := by
  obtain ⟨hbuf, hst, hsys⟩ := recvLoop_twin x.conn.this x.sys.env.recvs [] MAXLEN h.sys
  simp only [Ctx.inputRecv, h.conn, h.sys.env, hbuf, hst]
  split
  · exact ⟨⟨rfl, hsys.log rfl⟩, rfl⟩
  · exact ⟨⟨rfl, hsys⟩, rfl⟩

theorem Twin.inputFinish (h : Twin x y) : Calls x.inputFinish y.inputFinish := by
  simp only [Ctx.inputFinish, h.conn]
  split
  · split
    · exact h.raiseError .input
    · split
      · exact ⟨h.tryUnregReadEvent.tryUnregWriteEvent.log _, rfl⟩
      · exact ⟨h, rfl⟩
  · exact ⟨h, rfl⟩

theorem Twin.handleOutputNotification (h : Twin x y) :
    Calls x.handleOutputNotification y.handleOutputNotification := by
  simp only [Ctx.handleOutputNotification, h.conn]
  split
  · have hw := h.tryUnregWriteEvent
    rw [hw.conn]
    obtain ⟨herr, hsys⟩ := hw.sys.sockError x.tryUnregWriteEvent.conn.this
    rw [herr]
    have hs := hsys.ctx x.tryUnregWriteEvent.conn
    split
    · have he := hs.setStatus .Error
      rw [he.conn]
      split
      · exact he.raiseError .output
      · exact ⟨he, rfl⟩
    · have hc := hs.tryRegReadEvent.setStatus .Connected
      rw [hc.conn]
      split
      · exact ⟨hc.log _, rfl⟩
      · exact ⟨hc, rfl⟩
  · split
    · exact (h.tryFlushRemainPacket.rel.checkSocketErrors .output).2
    · exact ⟨h, rfl⟩

theorem Twin.established (h : Twin x y) :
    y.established.1 = x.established.1 ∧ Calls x.established.2 y.established.2 := by
  have hc := h.tryRegReadEvent.setStatus .Connected
  simp only [Ctx.established]
  rw [hc.conn]
  split
  · exact ⟨rfl, hc.log _, rfl⟩
  · exact ⟨rfl, hc, rfl⟩

theorem Twin.dial (h : Twin x y) (sa sa' : SockAddr) :
    (y.dial sa').1 = (x.dial sa).1 ∧ Calls (x.dial sa).2 (y.dial sa').2 := by
  obtain ⟨hok, hsys⟩ := h.sys.connect x.conn.this sa sa'
  have hk := h.setSys hsys
  simp only [Ctx.dial, h.conn]
  rw [hok, hsys.errno]
  rw [h.conn] at hk
  split
  · exact hk.established
  split
  · exact ⟨rfl, (hk.setStatus .Connecting).tryRegWriteEvent, rfl⟩
  · exact ⟨rfl, hk.closeFd, rfl⟩

/-- The old descriptor of a closed connection does not matter to what follows. -/
def Reopens (x y : Ctx) : Prop :=
  x.conn.mFd < 0 ∧ y.conn.mFd < 0 ∧ (∀ fd, { y.conn with mFd := fd } = { x.conn with mFd := fd }) ∧
    Sys.Twin x.sys y.sys

theorem acceptConnection_twin (connfd : ℤ) (h : Reopens x y) :
    Agree Twin (x.acceptConnection connfd) (y.acceptConnection connfd) := by
  obtain ⟨hx, hy, hconn, hs⟩ := h
  have hthis : y.conn.this = x.conn.this := by simpa using congrArg Connection.this (hconn 0)
  have hopen := (hs.ctx { x.conn with mFd := connfd }).log (.opened x.conn.this connfd)
  unfold Ctx.acceptConnection
  rw [if_neg (not_le.mpr hx), if_neg (not_le.mpr hy), hconn connfd, hthis]
  simp only
  obtain ⟨hok, hsys⟩ := hopen.sys.setNonblocking
  have hk := hopen.setSys hsys
  rw [hok]
  split
  · exact ⟨rfl, hk.closeFd⟩
  · exact ⟨rfl, hk.tryRegReadEvent.setStatus .Connected⟩

theorem connect_twin (sa sa' : SockAddr) (h : Reopens x y) :
    (y.connect sa').1 = (x.connect sa).1 ∧ Calls (x.connect sa).2 (y.connect sa').2 := by
  obtain ⟨hx, hy, hconn, hs⟩ := h
  have hthis : y.conn.this = x.conn.this := by simpa using congrArg Connection.this (hconn 0)
  obtain ⟨hfd, hsock⟩ := hs.socket
  have hopen := hsock.ctx { x.conn with mFd := x.sys.socket.1 }
  rw [connect_closed sa x hx, connect_closed sa' y hy]
  simp only
  rw [hfd, hconn x.sys.socket.1, hthis]
  split
  · exact ⟨rfl, hopen, rfl⟩
  have hlog := hopen.log (.opened x.conn.this x.sys.socket.1)
  obtain ⟨hok, hsys⟩ := hlog.sys.setNonblocking
  have hk := hsys.ctx { x.conn with mFd := x.sys.socket.1 }
  rw [hok]
  split
  · exact ⟨rfl, hk.closeFd, rfl⟩
  · exact hk.dial sa sa'

end Twin

end Ctx

end HttpsProxy
