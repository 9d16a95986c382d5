import HttpsProxy.SendAnswers
import HttpsProxy.ConnectionOpen

/-! Any number of connections in one thread, hence over one `errno`: when
`send` and `handleOutputNotification` report an error that is their own. -/
namespace HttpsProxy

/-- A call of a method of `Connection`. A notification of input is two calls,
between which its handler may make others. -/
inductive ConnCall where
  | setEventHandler (h : Bool)
  | acceptConnection (connfd : ℤ)
  | connect (sa : SockAddr)
  | shutdown
  | send (data : { d : Bytes // d ≠ [] })
  | inputRecv
  | inputFinish
  | handleOutputNotification

def ConnCall.run (x : Ctx) : ConnCall → Ctx × Option Callback
  | .setEventHandler h => ({ x with conn := x.conn.setEventHandler h }, none)
  | .acceptConnection connfd => ((x.acceptConnection connfd).2, none)
  | .connect sa => (x.connect sa).2
  | .shutdown => (x.shutdown, none)
  | .send data => x.send data
  | .inputRecv => if x.conn.mConnStatus ≠ .Connected then (x, none) else x.inputRecv
  | .inputFinish => x.inputFinish
  | .handleOutputNotification => x.handleOutputNotification

/-- All connections of the thread. -/
structure Connections where
  conn : ConnId → Connection
  sys : Sys

/-- A call on one connection, or a failing call anywhere else in the thread. -/
inductive ThreadStep where
  | call (c : ConnId) (m : ConnCall) (env : Env)
  | elsewhere (e : Errno)

namespace Connections

def new (e : Errno) : Connections := ⟨Connection.new, ⟨e, {}, .new, [], false⟩⟩

def ctx (c : ConnId) (env : Env) (s : Connections) : Ctx :=
  ⟨s.conn c, { s.sys with env := env }⟩

def step (s : Connections) : ThreadStep → Connections
  | .call c m env =>
    let x := (m.run (s.ctx c env)).1
    ⟨fun d => if d = c then x.conn else s.conn d, x.sys⟩
  | .elsewhere e => { s with sys := s.sys.setErrno e }

def run (e : Errno) (steps : List ThreadStep) : Connections := steps.foldl step (new e)

end Connections

/-- `onError` is reported by `send` or `handleOutputNotification` only next to
a failure on the connection's own socket. -/
def Genuine (evs : List Ev) : Prop :=
  ∀ c b, .onError c b ∈ evs → b ≠ .input → ∃ e ∈ evs, e.isFailure c

/-- What the log has gained from `s` to `t`. -/
def news (s t : Sys) : List Ev := t.trace.drop s.trace.length

theorem news_eq {s t : Sys} {evs : List Ev} (h : t.trace = s.trace ++ evs) : news s t = evs := by
  rw [news, h, List.drop_left]

/-- The calls after which the check of `errno` judges by an answer of their
own: none falls short of what was offered without failing while `errno` still
holds an older error, and a pending error of `connect` is no `EAGAIN`. -/
def ConnCall.Settled (x : Ctx) : ConnCall → Prop
  | .send data =>
    x.conn.mFd < 0 ∨ x.conn.mConnStatus ≠ .Connected ∨ x.conn.mHandler = false ∨
      x.sys.errno.again ∨ ∀ n, firstShort (x.queued ++ [data.1]) x.sys.env.sends ≠ some (.sent n)
  | .handleOutputNotification =>
    x.conn.mHandler = false ∨
      (x.conn.mConnStatus = .Connecting →
        ∀ e, x.sys.env.sockopts.headD .ok = .pending e ∨ x.sys.env.sockopts.headD .ok = .fail e →
          ¬e.again) ∧
      (x.conn.mConnStatus = .Connected →
        x.sys.errno.again ∨ ∃ e, firstShort x.queued x.sys.env.sends = some (.fail e))
  | _ => True

def ThreadStep.Settled (s : Connections) : ThreadStep → Prop
  | .call c m env => m.Settled (s.ctx c env)
  | .elsewhere _ => True

/-- No entry is an error reported by `send` or `handleOutputNotification`. -/
def Calm (evs : List Ev) : Prop := ∀ c b, .onError c b ∈ evs → b = .input

theorem Calm.genuine {evs : List Ev} (h : Calm evs) : Genuine evs :=
  fun c b hm hb => absurd (h c b hm) hb

theorem Calm.append {es fs : List Ev} (h : Calm es) (k : Calm fs) : Calm (es ++ fs) := by
  intro c b hm
  rcases List.mem_append.mp hm with hm | hm
  · exact h c b hm
  · exact k c b hm

theorem calm_of_sends {c : ConnId} {evs : List Ev} (h : ∀ e ∈ evs, e.isSockSend c) : Calm evs := by
  intro d b hm
  exact (h _ hm).elim

/-- The log of a call that made some calls of `::send` and then reported an
error. -/
theorem genuine_of_sends {c : ConnId} {pre evs : List Ev} {b : Caller} (hb : b ≠ .input)
    (hpre : Calm pre) (hfail : ∀ e ∈ pre, ¬e.isFailure c) (h : ∀ e ∈ evs, e.isSockSend c) :
    Genuine (pre ++ evs ++ [.onError c b]) ↔ ∃ e ∈ evs, e.isFailure c := by
  constructor
  · intro hg
    obtain ⟨e, hm, hx⟩ := hg c b (by simp) hb
    rcases List.mem_append.mp hm with hm | hm
    · rcases List.mem_append.mp hm with hm | hm
      · exact absurd hx (hfail e hm)
      · exact ⟨e, hm, hx⟩
    · rw [List.mem_singleton.mp hm] at hx
      exact hx.elim
  · rintro ⟨e, hm, hx⟩ d b' hd hb'
    have hcalm := hpre.append (calm_of_sends h)
    rcases List.mem_append.mp hd with hd | hd
    · exact absurd (hcalm d b' hd) hb'
    · have hdc : d = c := by
        have := List.mem_singleton.mp hd
        injection this
      exact ⟨e, by simp [hm], hdc ▸ hx⟩

/-- The check of `errno` behind some calls of `::send`. -/
theorem checked_genuine {c : ConnId} {r : Option SendRes} {s : Sys} {z : Ctx} {b : Caller}
    (hb : b ≠ .input) (hc : z.conn.this = c) (h : Answered c r s z.sys) (pre : List Ev)
    {t : Sys} (ht : s.trace = t.trace ++ pre) (hpre : Calm pre)
    (hfail : ∀ e ∈ pre, ¬e.isFailure c) :
    Genuine (news t (z.checkSocketErrors b).2.1.sys) ↔
      z.conn.mHandler = false ∨ (errnoAfter r s.errno).again ∨ isHard r := by
  obtain ⟨herr, evs, hz, hs, hf⟩ := h
  rw [← herr]
  have hcalm : Genuine (pre ++ evs) := (hpre.append (calm_of_sends hs)).genuine
  have hzt : z.sys.trace = t.trace ++ (pre ++ evs) := by rw [hz, ht, List.append_assoc]
  rcases z.checkSocketErrors_cases b with ⟨ha, hk⟩ | ⟨ha, hh, hk⟩ | ⟨ha, hh, hk⟩
  · rw [hk, news_eq hzt]
    exact ⟨fun _ => Or.inr (Or.inl ha), fun _ => hcalm⟩
  · have hlog : (z.raiseError b).1.sys.trace = t.trace ++ (pre ++ evs ++ [.onError c b]) := by
      rw [(Ctx.raiseError_spec z b).2.2.2.2.1, hzt, hc, List.append_assoc]
    simp only [hk, news_eq hlog, genuine_of_sends hb hpre hfail hs, hf, hh, ha]
    simp
  · rw [hk, news_eq hzt]
    exact ⟨fun _ => Or.inl hh, fun _ => hcalm⟩

namespace Ctx

/-- For `send`, whether its report is genuine depends on the first short answer. -/
theorem send_genuine (data : { d : Bytes // d ≠ [] }) (x : Ctx)
    (hx : Unspent x.conn.mTcpPacketList) :
    Genuine (news x.sys (x.send data).1.sys) ↔ ConnCall.Settled x (.send data) := by
  let x₀ := x.log (.sendCall x.conn.this data)
  have hcall : Calm [.sendCall x.conn.this data] := by intro c b hm; simp at hm
  by_cases hopen : x.conn.mFd < 0 ∨ x.conn.mConnStatus ≠ .Connected
  · rw [send_of_refused _ hopen, news_eq (show x₀.sys.trace = x.sys.trace ++ [.sendCall x.conn.this data] from rfl)]
    exact ⟨fun _ => hopen.elim Or.inl fun h => Or.inr (Or.inl h), fun _ => hcall.genuine⟩
  obtain ⟨hfd, hst⟩ := not_or.mp hopen
  rw [not_not] at hst
  obtain ⟨z, rest, ha, hlink, -, -, -, -, hs⟩ := x.send_answered data (not_lt.mp hfd) hst hx
  have hsettled : ConnCall.Settled x (.send data) ↔ x.conn.mHandler = false ∨
      x.sys.errno.again ∨
        ∀ n, firstShort (x.queued ++ [data.1]) x.sys.env.sends ≠ some (.sent n) := by
    simp [ConnCall.Settled, hfd, hst]
  rw [hsettled, hs]
  by_cases hnone : firstShort (x.queued ++ [data.1]) x.sys.env.sends = none
  · obtain ⟨-, evs, hz, hsend, -⟩ := ha
    have hlog : z.sys.trace = x.sys.trace ++ ([.sendCall x.conn.this data] ++ evs) := by
      rw [hz, ← List.append_assoc]; rfl
    rw [if_pos hnone, news_eq hlog]
    exact ⟨fun _ => Or.inr (Or.inr (by simp [hnone])),
      fun _ => (hcall.append (calm_of_sends hsend)).genuine⟩
  · have hrest : news x.sys (z.sendRest rest).1.sys =
        news x.sys (z.checkSocketErrors .send).2.1.sys := by
      rcases z.checkSocketErrors_cases .send with ⟨-, hk⟩ | ⟨-, -, hk⟩ | ⟨-, -, hk⟩ <;>
        simp [sendRest, hk, cachePacket, news]
    rw [if_neg hnone, hrest, checked_genuine (by simp) hlink.this ha
      [.sendCall x.conn.this data] rfl hcall (by simp [Ev.isFailure]), hlink.handler]
    obtain ⟨r, hr⟩ := Option.ne_none_iff_exists'.mp hnone
    rw [hr]
    cases r with
    | sent n => simp [errnoAfter, isHard, Sys.log]
    | fail e => simp [errnoAfter, isHard, em]

/-- The log of `handleOutputNotification` in the connecting branch. -/
theorem connecting_log (x : Ctx) (hc : x.conn.mConnStatus = .Connecting) :
    ∃ evs, x.handleOutputNotification.1.sys.trace = x.sys.trace ++
        .sockopt x.conn.this (x.sys.env.sockopts.headD .ok) :: evs ∧
      evs = if x.conn.mHandler = false then [] else
        if x.sys.env.sockopts.headD .ok = .ok then [.onConnected x.conn.this]
        else [.onError x.conn.this .output] := by
  have hs := Sys.sockError_log x.conn.this x.tryUnregWriteEvent.sys
  simp only [tryUnregWriteEvent_sys] at hs
  generalize x.sys.env.sockopts.headD .ok = r at hs ⊢
  obtain ⟨herr, htrace⟩ := hs
  refine ⟨_, ?_, rfl⟩
  cases he : x.tryUnregWriteEvent.sys.sockError x.conn.this with
  | mk err s =>
    rw [he] at herr htrace
    simp only at herr htrace
    subst herr
    by_cases hr : r = .ok <;> cases hh : x.conn.mHandler <;>
      simp [handleOutputNotification, hc, he, hr, hh, setStatus, log, Sys.log, raiseError, htrace]

/-- In the connected branch a genuine report takes a call that failed. -/
theorem handleOutputNotification_genuine (x : Ctx) (hx : Unspent x.conn.mTcpPacketList) :
    Genuine (news x.sys x.handleOutputNotification.1.sys) ↔
      ConnCall.Settled x .handleOutputNotification := by
  cases hst : x.conn.mConnStatus with
  | Connected =>
    obtain ⟨ha, -, -, -, -⟩ := x.tryFlushRemainPacket_answered hx
    obtain ⟨-, -, -, -, hconn⟩ := x.tryFlushRemainPacket_spec
    have ho : x.handleOutputNotification =
        (x.tryFlushRemainPacket.2.checkSocketErrors .output).2 := by
      simp [handleOutputNotification, hst]
    rw [ho, checked_genuine (by simp) (by rw [hconn]) ha [] (by simp)
      (by simp [Calm]) (by simp), hconn]
    simp only [ConnCall.Settled, hst]
    cases firstShort x.queued x.sys.env.sends with
    | none => simp [errnoAfter, isHard]
    | some r =>
      cases r with
      | sent n => simp [errnoAfter, isHard]
      | fail e => simp [errnoAfter, isHard, em]
  | Connecting =>
    obtain ⟨evs, hlog, hevs⟩ := x.connecting_log hst
    rw [news_eq hlog, hevs]
    simp only [ConnCall.Settled, hst]
    cases x.conn.mHandler <;> cases x.sys.env.sockopts.headD .ok <;>
      simp [Genuine, Ev.isFailure]
  | Closed =>
    have ho : x.handleOutputNotification = (x, none) := by simp [handleOutputNotification, hst]
    simp [ho, news, ConnCall.Settled, hst, Genuine]
  | Error =>
    have ho : x.handleOutputNotification = (x, none) := by simp [handleOutputNotification, hst]
    simp [ho, news, ConnCall.Settled, hst, Genuine]

end Ctx

/-- From `s` to `t` the log grew by calm entries. -/
def CalmTo (s t : Sys) : Prop := ∃ evs, t.trace = s.trace ++ evs ∧ Calm evs

namespace CalmTo

theorem of_eq {s t : Sys} (h : t.trace = s.trace) : CalmTo s t :=
  ⟨[], by rw [h, List.append_nil], by simp [Calm]⟩

theorem trans {s t u : Sys} (h : CalmTo s t) (k : CalmTo t u) : CalmTo s u := by
  obtain ⟨es, ht, he⟩ := h
  obtain ⟨fs, hu, hf⟩ := k
  exact ⟨es ++ fs, by rw [hu, ht, List.append_assoc], he.append hf⟩

theorem entry {s t : Sys} {e : Ev} (h : t.trace = s.trace ++ [e])
    (he : ∀ c b, e = .onError c b → b = .input) : CalmTo s t :=
  ⟨[e], h, fun c b hm => he c b (List.mem_singleton.mp hm).symm⟩

theorem genuine {s t : Sys} (h : CalmTo s t) : Genuine (news s t) := by
  obtain ⟨evs, ht, he⟩ := h
  rw [news_eq ht]
  exact he.genuine

end CalmTo

theorem Setup.calmTo {s t : Sys} (h : Setup s t) : CalmTo s t := by
  obtain ⟨evs, ht, he⟩ := h
  exact ⟨evs, ht, fun c b hm => (he _ hm).elim⟩

namespace Ctx

theorem shutdown_calm (x : Ctx) : CalmTo x.sys x.shutdown.sys := by
  by_cases h : x.conn.mFd < 0
  · exact .of_eq (by rw [x.shutdown_of_closed h])
  · exact .entry (x.shutdown_sys (not_lt.mp h)).2.2.1 (by simp)

theorem shutdown_unspent (x : Ctx) (hx : Unspent x.conn.mTcpPacketList) :
    x.shutdown.conn.this = x.conn.this ∧ Unspent x.shutdown.conn.mTcpPacketList := by
  by_cases h : x.conn.mFd < 0
  · rw [x.shutdown_of_closed h]
    exact ⟨rfl, hx⟩
  · rw [x.shutdown_conn (not_lt.mp h)]
    exact ⟨rfl, by simp [Unspent]⟩

theorem connect_closed_calm (sa : SockAddr) (x : Ctx) (hfd : x.conn.mFd < 0) :
    CalmTo x.sys (x.connect sa).2.1.sys ∧ (x.connect sa).2.1.conn.this = x.conn.this ∧
      (x.connect sa).2.1.conn.mTcpPacketList = x.conn.mTcpPacketList := by
  have hs := x.connect_spec sa hfd
  generalize x.connect sa = r at hs
  cases hs with
  | failed y hc hl => exact ⟨hl.calmTo, by rw [hc], by rw [hc]⟩
  | connecting y fd _ hc hl => exact ⟨hl.calmTo, by rw [hc], by rw [hc]⟩
  | connected y fd _ hc hl =>
    cases x.conn.mHandler with
    | false => exact ⟨hl.calmTo, by simp [hc], by simp [hc]⟩
    | true =>
      refine ⟨hl.calmTo.trans (.entry (e := .onConnected x.conn.this) rfl (by simp)), ?_, ?_⟩ <;>
        simp [log, hc]

theorem inputRecv_calm (x : Ctx) :
    CalmTo x.sys x.inputRecv.1.sys ∧ x.inputRecv.1.conn.this = x.conn.this ∧
      x.inputRecv.1.conn.mTcpPacketList = x.conn.mTcpPacketList := by
  obtain ⟨⟨evs, ht, hev, -⟩, -⟩ :=
    recvLoop_spec x.conn.this x.sys.env.recvs [] Connection.MAXLEN x.sys rfl (by decide)
  have hcalm : CalmTo x.sys (recvLoop x.conn.this x.sys.env.recvs [] Connection.MAXLEN x.sys).2.2 :=
    ⟨evs, ht, fun c b hm => (hev _ hm).elim⟩
  unfold inputRecv
  simp only
  split
  · exact ⟨hcalm.trans (.entry (e := .onRecv x.conn.this _) rfl (by simp)), rfl, rfl⟩
  · exact ⟨hcalm, rfl, rfl⟩

theorem inputFinish_calm (x : Ctx) :
    CalmTo x.sys x.inputFinish.1.sys ∧ x.inputFinish.1.conn.this = x.conn.this ∧
      x.inputFinish.1.conn.mTcpPacketList = x.conn.mTcpPacketList := by
  unfold inputFinish
  split
  · split
    · obtain ⟨-, hc, -, -, ht, -⟩ := x.raiseError_spec .input
      exact ⟨.entry ht (by simp), by rw [hc], by rw [hc]⟩
    · split
      · exact ⟨.entry (e := .onDisconnected x.conn.this) (by simp [log, Sys.log]) (by simp),
          by simp [log], by simp [log]⟩
      · exact ⟨.of_eq rfl, rfl, rfl⟩
  · exact ⟨.of_eq rfl, rfl, rfl⟩

theorem checkSocketErrors_conn (x : Ctx) (b : Caller) :
    (x.checkSocketErrors b).2.1.conn.this = x.conn.this ∧
      (x.checkSocketErrors b).2.1.conn.mTcpPacketList = x.conn.mTcpPacketList := by
  rcases x.checkSocketErrors_cases b with ⟨-, h⟩ | ⟨-, -, h⟩ | ⟨-, -, h⟩ <;>
    simp [h, (x.raiseError_spec b).2.1]

theorem send_unspent (data : { d : Bytes // d ≠ [] }) (x : Ctx)
    (hx : Unspent x.conn.mTcpPacketList) :
    (x.send data).1.conn.this = x.conn.this ∧ Unspent (x.send data).1.conn.mTcpPacketList := by
  by_cases hopen : x.conn.mFd < 0 ∨ x.conn.mConnStatus ≠ .Connected
  · rw [send_of_refused _ hopen]
    exact ⟨rfl, hx⟩
  obtain ⟨hfd, hst⟩ := not_or.mp hopen
  obtain ⟨z, rest, -, hlink, hun, -, -, hrest, hs⟩ :=
    x.send_answered data (not_lt.mp hfd) (not_not.mp hst) hx
  rw [hs]
  split
  · exact ⟨hlink.this, hun⟩
  · rename_i hshort
    obtain ⟨hc, hq⟩ := z.checkSocketErrors_conn .send
    unfold sendRest
    simp only
    split
    · exact ⟨hc.trans hlink.this, hq ▸ hun⟩
    · refine ⟨by simpa [cachePacket] using hc.trans hlink.this, ?_⟩
      intro p hp
      simp only [cachePacket, tryRegWriteEvent_conn, hq] at hp
      rcases List.mem_append.mp hp with hp | hp
      · exact hun p hp
      · rw [List.mem_singleton.mp hp]
        exact List.length_pos_iff.mpr (hrest hshort data.2)

theorem handleOutputNotification_unspent (x : Ctx) (hx : Unspent x.conn.mTcpPacketList) :
    x.handleOutputNotification.1.conn.this = x.conn.this ∧
      Unspent x.handleOutputNotification.1.conn.mTcpPacketList := by
  by_cases hst : x.conn.mConnStatus = .Connected
  · obtain ⟨-, -, -, -, hun⟩ := x.tryFlushRemainPacket_answered hx
    obtain ⟨-, -, -, -, hconn⟩ := x.tryFlushRemainPacket_spec
    have ho : x.handleOutputNotification =
        (x.tryFlushRemainPacket.2.checkSocketErrors .output).2 := by
      simp [handleOutputNotification, hst]
    obtain ⟨hc, hq⟩ := x.tryFlushRemainPacket.2.checkSocketErrors_conn .output
    rw [ho]
    exact ⟨hc.trans (by rw [hconn]), hq ▸ hun⟩
  · have hsame : x.handleOutputNotification.1.conn.this = x.conn.this ∧
        x.handleOutputNotification.1.conn.mTcpPacketList = x.conn.mTcpPacketList := by
      unfold handleOutputNotification
      simp only [hst, if_false]
      split
      · split
        · split <;> simp [setStatus, raiseError, log]
        · split <;> simp [setStatus, log]
      · exact ⟨rfl, rfl⟩
    exact ⟨hsame.1, hsame.2 ▸ hx⟩

end Ctx

namespace ConnCall

/-- No packet is ever spent, and an object keeps its address. -/
theorem run_unspent (m : ConnCall) (x : Ctx) (hx : Unspent x.conn.mTcpPacketList) :
    (m.run x).1.conn.this = x.conn.this ∧ Unspent (m.run x).1.conn.mTcpPacketList := by
  cases m with
  | send data => exact x.send_unspent data hx
  | handleOutputNotification => exact x.handleOutputNotification_unspent hx
  | setEventHandler h => exact ⟨rfl, hx⟩
  | shutdown => exact x.shutdown_unspent hx
  | acceptConnection connfd =>
    have hs := x.acceptConnection_spec connfd
    simp only [run]
    generalize x.acceptConnection connfd = r at hs
    cases hs with
    | inUse => exact ⟨rfl, hx⟩
    | failed y _ hc _ => exact ⟨by simp [hc], by simpa [hc] using hx⟩
    | opened y _ hc _ => exact ⟨by simp [hc], by simpa [hc] using hx⟩
  | connect sa =>
    by_cases hfd : x.conn.mFd < 0
    · obtain ⟨-, ht, hq⟩ := x.connect_closed_calm sa hfd
      exact ⟨ht, by simp only [run, hq]; exact hx⟩
    · obtain ⟨hc, he⟩ := x.connect_of_open sa (not_lt.mp hfd)
      obtain ⟨-, ht, hq⟩ := x.shutdown.connect_closed_calm sa hc
      obtain ⟨hst, hun⟩ := x.shutdown_unspent hx
      exact ⟨by simp only [run, he]; exact ht.trans hst, by simp only [run, he, hq]; exact hun⟩
  | inputRecv =>
    simp only [run]
    split
    · exact ⟨rfl, hx⟩
    · obtain ⟨-, ht, hq⟩ := x.inputRecv_calm
      exact ⟨ht, hq ▸ hx⟩
  | inputFinish =>
    obtain ⟨-, ht, hq⟩ := x.inputFinish_calm
    exact ⟨ht, hq ▸ hx⟩

theorem run_genuine (m : ConnCall) (x : Ctx) (hx : Unspent x.conn.mTcpPacketList) :
    Genuine (news x.sys (m.run x).1.sys) ↔ m.Settled x := by
  cases m with
  | send data => exact x.send_genuine data hx
  | handleOutputNotification => exact x.handleOutputNotification_genuine hx
  | setEventHandler h => exact iff_of_true (CalmTo.of_eq rfl).genuine trivial
  | shutdown => exact iff_of_true x.shutdown_calm.genuine trivial
  | acceptConnection connfd =>
    refine iff_of_true (CalmTo.genuine ?_) trivial
    have hs := x.acceptConnection_spec connfd
    simp only [run]
    generalize x.acceptConnection connfd = r at hs
    cases hs with
    | inUse => exact .of_eq rfl
    | failed y _ _ hl => exact hl.calmTo
    | opened y _ _ hl => exact hl.calmTo
  | connect sa =>
    refine iff_of_true (CalmTo.genuine ?_) trivial
    by_cases hfd : x.conn.mFd < 0
    · exact (x.connect_closed_calm sa hfd).1
    · obtain ⟨hc, he⟩ := x.connect_of_open sa (not_lt.mp hfd)
      simp only [run, he]
      exact x.shutdown_calm.trans (x.shutdown.connect_closed_calm sa hc).1
  | inputRecv =>
    refine iff_of_true (CalmTo.genuine ?_) trivial
    simp only [run]
    split
    · exact .of_eq rfl
    · exact x.inputRecv_calm.1
  | inputFinish => exact iff_of_true x.inputFinish_calm.1.genuine trivial

end ConnCall

namespace Connections

/-- Every object is at its address and none of its packets is spent. -/
def WellFormed (s : Connections) : Prop :=
  ∀ c, (s.conn c).this = c ∧ Unspent (s.conn c).mTcpPacketList

theorem step_wellFormed {s : Connections} (a : ThreadStep) (h : s.WellFormed) :
    (s.step a).WellFormed := by
  cases a with
  | elsewhere e => exact h
  | call c m env =>
    intro d
    by_cases hd : d = c
    · subst hd
      obtain ⟨ht, hu⟩ := m.run_unspent (s.ctx d env) (h d).2
      simp only [step, if_true]
      exact ⟨ht.trans (h d).1, hu⟩
    · simp only [step, if_neg hd]
      exact h d

theorem run_wellFormed (e : Errno) (steps : List ThreadStep) : (run e steps).WellFormed := by
  induction steps using List.reverseRecOn with
  | nil => exact fun c => ⟨rfl, by simp [run, new, Connection.new, Unspent]⟩
  | append_singleton steps a ih =>
    rw [run, List.foldl_append]
    exact step_wellFormed a ih

theorem step_genuine {s : Connections} (a : ThreadStep) (h : s.WellFormed) :
    Genuine (news s.sys (s.step a).sys) ↔ a.Settled s := by
  cases a with
  | elsewhere e => exact iff_of_true (CalmTo.of_eq rfl).genuine trivial
  | call c m env => exact m.run_genuine (s.ctx c env) (h c).2

/-- In a run over any number of connections all errors reported by `send` and
`handleOutputNotification` are genuine exactly if all its calls are settled. -/
theorem errors_genuine_iff_settled (e : Errno) (steps : List ThreadStep) :
    (∀ pre a post, steps = pre ++ a :: post →
      Genuine (news (run e pre).sys ((run e pre).step a).sys)) ↔
    ∀ pre a post, steps = pre ++ a :: post → a.Settled (run e pre) := by
  constructor
  · intro h pre a post hs
    exact (step_genuine a (run_wellFormed e pre)).mp (h pre a post hs)
  · intro h pre a post hs
    exact (step_genuine a (run_wellFormed e pre)).mpr (h pre a post hs)

/-- Two connections `a` and `b`. The socket of `b` is full once and queues its
data, then the peer of `a` resets, then the queue of `b` is sent in full. -/
def resetElsewhere : List ThreadStep :=
  let a : ConnId := ⟨0, .loc⟩
  let b : ConnId := ⟨1, .loc⟩
  [.call a (.acceptConnection 5) {}, .call a (.setEventHandler true) {},
    .call b (.acceptConnection 6) {}, .call b (.setEventHandler true) {},
    .call b (.send ⟨[1, 2], by decide⟩) { sends := [.fail .EAGAIN] },
    .call a (.send ⟨[3], by decide⟩) { sends := [.fail .ECONNRESET] }]

/-- The successful flush of `b` then reports the error of `a`. -/
theorem stale_errno_reported :
    ¬∀ (e : Errno) (steps pre : List ThreadStep) (a : ThreadStep) (post : List ThreadStep),
      steps = pre ++ a :: post → Genuine (news (run e pre).sys ((run e pre).step a).sys) := by
  intro h
  let a : ThreadStep := .call ⟨1, .loc⟩ .handleOutputNotification { sends := [.sent 2] }
  have hlog : news (run (.other 0) resetElsewhere).sys ((run (.other 0) resetElsewhere).step a).sys =
      [.sockSend ⟨1, .loc⟩ [1, 2] (.sent 2) .ECONNRESET, .onError ⟨1, .loc⟩ .output] := by
    rfl
  have hg := h (.other 0) (resetElsewhere ++ [a]) resetElsewhere a [] rfl
  rw [hlog] at hg
  obtain ⟨e, hm, hx⟩ := hg ⟨1, .loc⟩ .output (by simp) (by simp)
  simp only [List.mem_cons, List.not_mem_nil, or_false] at hm
  rcases hm with rfl | rfl <;> exact hx

end Connections

end HttpsProxy
