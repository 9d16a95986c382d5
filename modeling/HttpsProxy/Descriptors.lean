import HttpsProxy.TunnelMoves

/-! How often the descriptor of an accepted client is closed. What has been
closed and what a tunnel still holds make up what it has been given. -/
namespace HttpsProxy

/-- How often `close(fd)` is called. -/
def closes (fd : ℤ) (tr : List Ev) : ℕ := tr.countP (· = .close fd)

@[simp] theorem closes_nil (fd : ℤ) : closes fd [] = 0 := rfl

@[simp] theorem closes_append (fd : ℤ) (l k : List Ev) :
    closes fd (l ++ k) = closes fd l + closes fd k :=
  List.countP_append

@[simp] theorem closes_close (fd x : ℤ) : closes fd [.close x] = if x = fd then 1 else 0 := by
  by_cases h : x = fd <;> simp [closes, h]

theorem closes_of_aside {fd : ℤ} {evs : List Ev} (h : ∀ e ∈ evs, ¬e.isFd) : closes fd evs = 0 :=
  List.countP_eq_zero.mpr fun e he hc => h e he (by simp only [of_decide_eq_true hc]; trivial)

namespace TunCtx

/-- How many of the two connections hold the descriptor. -/
def holding (fd : ℤ) (m : TunCtx) : ℕ :=
  (if (m.conn .loc).mFd = fd then 1 else 0) + if (m.conn .proxy).mFd = fd then 1 else 0

/-- Closed already, or still to be closed. -/
def owed (fd : ℤ) (m : TunCtx) : ℕ := closes fd m.sys.trace + m.holding fd

end TunCtx

/-- A step of a connection, on a descriptor it does not take over. -/
theorem Ctx.Move.owed {F : ℤ → Prop} {x y : Ctx} (h : Ctx.Move F x y) {fd : ℤ} (hfd : 0 ≤ fd)
    (hF : ¬F fd) :
    closes fd y.sys.trace + (if y.conn.mFd = fd then 1 else 0) =
      closes fd x.sys.trace + if x.conn.mFd = fd then 1 else 0 := by
  have hopened : ∀ c g, closes fd [.opened c g] = 0 := fun c g => rfl
  cases h with
  | aside _ reg sys =>
    obtain ⟨evs, ht, he⟩ := sys.log
    rw [ht, reg.fd, closes_append, closes_of_aside he, add_zero]
  | regRead => rw [tryRegReadEvent_conn, (tryRegReadEvent_sys x).2.2.1]
  | unregRead => rw [tryUnregReadEvent_conn, (tryUnregReadEvent_sys x).2.2.1]
  | regWrite => rw [tryRegWriteEvent_conn, (tryRegWriteEvent_sys x).2.2.1]
  | unregWrite => rw [tryUnregWriteEvent_conn, (tryUnregWriteEvent_sys x).2.2.1]
  | closed =>
    -- what was held is closed now
    have hne : ¬(-1 : ℤ) = fd := by omega
    simp only [closeFd, Sys.log, closes_append, closes_close, hne, if_false, add_zero]
  | opened g _ free down =>
    have hg : g ≠ fd := fun he => hF (he ▸ free)
    have hd : x.conn.mFd ≠ fd := by omega
    simp only [log, Sys.log, closes_append, hopened, hg, hd, if_false, add_zero]
  | refused _ down conn _ log =>
    obtain ⟨evs, ht, hr⟩ := log
    have hd : x.conn.mFd ≠ fd := by omega
    have hne : ¬(-1 : ℤ) = fd := by omega
    have hz : closes fd evs = 0 := by
      rcases hr with he | ⟨g, es, _, free, rfl, he⟩
      · exact closes_of_aside he
      · have hg : g ≠ fd := fun he => hF (he ▸ free)
        rw [← List.singleton_append, closes_append, closes_append, hopened, closes_of_aside he,
          closes_close, if_neg hg]
    rw [ht, conn, closes_append, hz, if_neg hne, if_neg hd, add_zero]

namespace TunCtx

variable {F : ℤ → Prop} {fd : ℤ}

/-- Closing a descriptor settles what is owed of it, and nothing else changes that. -/
theorem Moves.owed {m n : TunCtx} (h : Moves F m n) (hfd : 0 ≤ fd) (hF : ¬F fd) :
    n.owed fd = m.owed fd := by
  refine h.keeps (P := fun k => k.owed fd = m.owed fd) (fun u v hstep hu => ?_) rfl
  rw [← hu]
  cases hstep with
  | conn side x step =>
    have hx := step.owed hfd hF
    cases side with
    | loc =>
      change closes fd x.sys.trace + ((if x.conn.mFd = fd then 1 else 0) +
        if (u.conn .proxy).mFd = fd then 1 else 0) = closes fd u.sys.trace +
          ((if (u.conn .loc).mFd = fd then 1 else 0) + if (u.conn .proxy).mFd = fd then 1 else 0)
      rw [← add_assoc, ← add_assoc]
      exact congrArg (· + _) hx
    | proxy =>
      change closes fd x.sys.trace + ((if (u.conn .loc).mFd = fd then 1 else 0) +
        if x.conn.mFd = fd then 1 else 0) = closes fd u.sys.trace +
          ((if (u.conn .loc).mFd = fd then 1 else 0) + if (u.conn .proxy).mFd = fd then 1 else 0)
      have hx' : closes fd x.sys.trace + (if x.conn.mFd = fd then 1 else 0) =
        closes fd u.sys.trace + if (u.conn .proxy).mFd = fd then 1 else 0 := hx
      omega
  | beside _ hb =>
    obtain ⟨evs, ht, he⟩ := hb.sys.log
    simp only [TunCtx.owed, holding, ht, closes_append, closes_of_aside he, (hb.reg .loc).fd,
      (hb.reg .proxy).fd, add_zero]

theorem holding_shut {m : TunCtx} (h : ∀ side, (m.conn side).mFd < 0) (hfd : 0 ≤ fd) :
    m.holding fd = 0 := by
  have hl := h .loc
  have hp := h .proxy
  have h1 : (m.conn .loc).mFd ≠ fd := by omega
  have h2 : (m.conn .proxy).mFd ≠ fd := by omega
  simp only [holding, if_neg h1, if_neg h2]

end TunCtx

namespace Env

/-- Every call that opening a tunnel takes succeeds: both descriptors are made
non-blocking, `socket` returns one, and `::connect` connects or is under way. -/
def Opens (e : Env) : Prop :=
  (∀ r ∈ e.fcntls.take 4, r = .ok) ∧ (∃ n, e.sockets.headD (.fail (.other 0)) = .fd n) ∧
    (e.connects.headD (.fail .EINPROGRESS) = .ok ∨
      e.connects.headD (.fail .EINPROGRESS) = .fail .EINPROGRESS)

end Env

namespace Sys

/-- `setNonblocking` succeeds if its two calls of `fcntl` do. -/
theorem setNonblocking_spec (s : Sys) :
    (s.setNonblocking.1 = true ↔ ∀ r ∈ s.env.fcntls.take 2, r = .ok) ∧
      (s.setNonblocking.1 = true →
        s.setNonblocking.2.env = { s.env with fcntls := s.env.fcntls.drop 2 }) := by
  rcases hfs : s.env.fcntls with _ | ⟨a, _ | ⟨b, l⟩⟩
  · simp [setNonblocking, fcntl, hfs]
  · cases a <;> simp [setNonblocking, fcntl, hfs, setErrno]
  · cases a <;> cases b <;> simp [setNonblocking, fcntl, hfs, setErrno]

theorem setNonblocking_errno (s : Sys) (h : s.setNonblocking.1 = true) :
    s.setNonblocking.2.errno = s.errno := by
  rcases hfs : s.env.fcntls with _ | ⟨a, _ | ⟨b, l⟩⟩
  · simp [setNonblocking, fcntl, hfs]
  · cases a <;> simp_all [setNonblocking, fcntl]
  · cases a <;> cases b <;> simp_all [setNonblocking, fcntl]

end Sys

namespace Ctx

theorem acceptConnection_ok (connfd : ℤ) (x : Ctx) (hx : x.conn.mFd < 0) :
    ((x.acceptConnection connfd).1 = true ↔ ∀ r ∈ x.sys.env.fcntls.take 2, r = .ok) ∧
      ((x.acceptConnection connfd).1 = true →
        (x.acceptConnection connfd).2.sys.env =
          { x.sys.env with fcntls := x.sys.env.fcntls.drop 2 }) := by
  let y := Ctx.log (.opened x.conn.this connfd) { x with conn.mFd := connfd }
  have hy : y.sys.env = x.sys.env := rfl
  obtain ⟨hok, henv⟩ := y.sys.setNonblocking_spec
  rw [hy] at hok henv
  rw [acceptConnection, if_neg (not_le.mpr hx)]
  cases hn : y.sys.setNonblocking with
  | mk ok t =>
    rw [hn] at hok henv
    cases ok with
    | false => simpa [y, hn] using hok
    | true =>
      refine ⟨by simpa [y, hn] using hok, fun _ => ?_⟩
      have he : ((Ctx.mk y.conn t).tryRegReadEvent.setStatus .Connected).sys.env = t.env :=
        (tryRegReadEvent_sys _).2.1
      simpa [y, hn] using he.trans (henv rfl)

/-- The descriptor is held or closed again. -/
theorem acceptConnection_closes (connfd : ℕ) (x : Ctx) (hx : x.conn.mFd < 0) :
    closes connfd (x.acceptConnection connfd).2.sys.trace +
        (if (x.acceptConnection connfd).2.conn.mFd = connfd then 1 else 0) =
      closes connfd x.sys.trace + 1 := by
  let y := Ctx.log (.opened x.conn.this connfd) { x with conn.mFd := (connfd : ℤ) }
  have hy : closes connfd y.sys.setNonblocking.2.trace = closes connfd x.sys.trace := by
    rw [y.sys.setNonblocking_trace]
    exact (closes_append _ _ _).trans (add_zero _)
  cases hn : y.sys.setNonblocking with
  | mk ok t =>
    rw [hn] at hy
    have hres : x.acceptConnection connfd = if !ok then (false, Ctx.closeFd ⟨y.conn, t⟩)
        else (true, (Ctx.mk y.conn t).tryRegReadEvent.setStatus .Connected) := by
      rw [acceptConnection, if_neg (not_le.mpr hx)]
      change (if !y.sys.setNonblocking.1 then (false, Ctx.closeFd ⟨y.conn, y.sys.setNonblocking.2⟩)
        else (true, (Ctx.mk y.conn y.sys.setNonblocking.2).tryRegReadEvent.setStatus .Connected)) = _
      rw [hn]
    rw [hres]
    cases ok with
    | false =>
      change closes connfd (t.trace ++ [.close connfd]) + (if (-1 : ℤ) = connfd then 1 else 0) = _
      have hne : ¬(-1 : ℤ) = connfd := by omega
      rw [closes_append, hy, closes_close, if_pos rfl, if_neg hne]
    | true =>
      have ht := (tryRegReadEvent_sys ⟨y.conn, t⟩).2.2.1
      change closes connfd (Ctx.mk y.conn t).tryRegReadEvent.sys.trace +
        (if (Ctx.mk y.conn t).tryRegReadEvent.conn.mFd = connfd then 1 else 0) = _
      rw [ht, hy, tryRegReadEvent_conn]
      exact congrArg _ (if_pos rfl)

theorem dial_ok (sa : SockAddr) (x : Ctx) : (x.dial sa).1 = true ↔
    x.sys.env.connects.headD (.fail .EINPROGRESS) = .ok ∨
      x.sys.env.connects.headD (.fail .EINPROGRESS) = .fail .EINPROGRESS := by
  unfold dial Sys.connect
  cases x.sys.env.connects.headD (.fail .EINPROGRESS) with
  | ok =>
    simp only [if_true, established]
    split <;> simp
  | fail e =>
    by_cases he : e = .EINPROGRESS <;> simp [Sys.setErrno, Sys.log, he]

/-- `connect` gets as far as `::connect`, or fails without a callback. -/
theorem connect_dials (sa : SockAddr) (x : Ctx) (hx : x.conn.mFd < 0) :
    ((∀ r ∈ x.sys.env.fcntls.take 2, r = .ok) ∧
        (∃ n, x.sys.env.sockets.headD (.fail (.other 0)) = .fd n) ∧
        ∃ y : Ctx, x.connect sa = y.dial sa ∧ y.sys.errno = x.sys.errno ∧ y.sys.env =
          { x.sys.env with sockets := x.sys.env.sockets.tail, fcntls := x.sys.env.fcntls.drop 2 }) ∨
      ¬((∀ r ∈ x.sys.env.fcntls.take 2, r = .ok) ∧
        ∃ n, x.sys.env.sockets.headD (.fail (.other 0)) = .fd n) ∧
        (x.connect sa).1 = false ∧ (x.connect sa).2.2 = none := by
  rw [connect_closed sa x hx]
  cases hs : x.sys.env.sockets.headD (.fail (.other 0)) with
  | fail e =>
    have hfd : x.sys.socket.1 = -1 := by simp only [Sys.socket, hs]
    exact Or.inr ⟨fun h => by simp at h, by simp [hfd], by simp [hfd]⟩
  | fd n =>
    have hsock : x.sys.socket =
        ((n : ℤ), { x.sys with env.sockets := x.sys.env.sockets.tail }) := by simp only [Sys.socket, hs]
    have hpos : ¬(n : ℤ) < 0 := by omega
    let y : Ctx := Ctx.log (.opened x.conn.this n)
      ⟨{ x.conn with mFd := n }, { x.sys with env.sockets := x.sys.env.sockets.tail }⟩
    obtain ⟨hok, henv⟩ := y.sys.setNonblocking_spec
    have herr := y.sys.setNonblocking_errno
    rw [hsock]
    simp only [if_neg hpos]
    change _ ∧ _ ∧ (∃ z : Ctx, (if !y.sys.setNonblocking.1 then _ else _ : Bool × Ctx × Option Callback) = _ ∧ _) ∨
      _ ∧ (if !y.sys.setNonblocking.1 then _ else _ : Bool × Ctx × Option Callback).1 = _ ∧
        (if !y.sys.setNonblocking.1 then _ else _ : Bool × Ctx × Option Callback).2.2 = _
    cases hn : y.sys.setNonblocking.1 with
    | false =>
      rw [hn] at hok
      exact Or.inr ⟨fun h => by simpa using hok.mpr h.1, rfl, rfl⟩
    | true =>
      exact Or.inl ⟨hok.mp hn, ⟨n, rfl⟩, { y with sys := y.sys.setNonblocking.2 }, rfl, herr hn, henv hn⟩

/-- Whether `connect` succeeds is for the kernel to say. -/
theorem connect_ok (sa : SockAddr) (x : Ctx) (hx : x.conn.mFd < 0) :
    (x.connect sa).1 = true ↔ (∀ r ∈ x.sys.env.fcntls.take 2, r = .ok) ∧
      (∃ n, x.sys.env.sockets.headD (.fail (.other 0)) = .fd n) ∧
        (x.sys.env.connects.headD (.fail .EINPROGRESS) = .ok ∨
          x.sys.env.connects.headD (.fail .EINPROGRESS) = .fail .EINPROGRESS) := by
  rcases x.connect_dials sa hx with ⟨hf, hs, y, heq, -, henv⟩ | ⟨hno, hfalse, -⟩
  · have hdial := dial_ok sa y
    rw [henv] at hdial
    rw [heq, hdial]
    exact ⟨fun h => ⟨hf, hs, h⟩, fun h => h.2.2⟩
  · rw [hfalse]
    exact ⟨fun h => (Bool.false_ne_true h).elim, fun h => absurd ⟨h.1, h.2.1⟩ hno⟩

end Ctx

namespace TunCtx

/-- Whether `acceptLocal` succeeds on an idle tunnel. -/
theorem acceptLocal_ok (connfd : ℤ) {m : TunCtx} (h : m.Shut) :
    (m.acceptLocal connfd).1 = true ↔ m.sys.env.Opens := by
  have hl : (m.ctx .loc).conn.mFd < 0 := (h .loc).toDead.fd
  obtain ⟨hok, henv⟩ := (m.ctx .loc).acceptConnection_ok connfd hl
  have hsys : (m.ctx .loc).sys = m.sys := rfl
  rw [hsys] at hok henv
  have htake : (∀ r ∈ m.sys.env.fcntls.take 4, r = CallRes.ok) ↔
      (∀ r ∈ m.sys.env.fcntls.take 2, r = CallRes.ok) ∧
        ∀ r ∈ (m.sys.env.fcntls.drop 2).take 2, r = CallRes.ok := by
    rw [show 4 = 2 + 2 from rfl, List.take_add, List.forall_mem_append]
  cases hr : (m.ctx .loc).acceptConnection connfd with
  | mk ok y =>
    rw [hr] at hok henv
    cases ok with
    | false =>
      have hno : ¬∀ r ∈ m.sys.env.fcntls.take 2, r = CallRes.ok := fun h => by simpa using hok.mpr h
      simp only [acceptLocal_of_failed connfd hr, Bool.false_eq_true, false_iff]
      exact fun ho => hno (htake.mp ho.1).1
    | true =>
      let n := m.dialing y
      have hp : (n.ctx .proxy).conn.mFd < 0 := (h .proxy).toDead.fd
      have hn : (n.ctx .proxy).sys.env = { m.sys.env with fcntls := m.sys.env.fcntls.drop 2 } :=
        henv rfl
      have hc := (n.ctx .proxy).connect_ok n.tun.mProxySvrAddr hp
      rw [hn] at hc
      have hres : (m.acceptLocal connfd).1 = ((n.ctx .proxy).connect n.tun.mProxySvrAddr).1 := by
        rw [acceptLocal_of_opened connfd hr]
        change (if !((n.ctx .proxy).connect n.tun.mProxySvrAddr).1 then _ else _ : Bool × TunCtx).1 = _
        cases ((n.ctx .proxy).connect n.tun.mProxySvrAddr).1 <;> rfl
      rw [hres, hc, Env.Opens, htake]
      exact ⟨fun hx => ⟨⟨hok.mp rfl, hx.1⟩, hx.2⟩, fun hx => ⟨hx.1.2, hx.2⟩⟩

/-- `acceptLocal` takes the descriptor over and gives it back if it fails. -/
theorem acceptLocal_owed (connfd : ℕ) {m : TunCtx} (h : m.Shut)
    (hfresh : m.sys.socket.1 ≠ connfd) :
    (m.acceptLocal connfd).2.owed connfd = closes connfd m.sys.trace + 1 := by
  have hacc := (m.ctx .loc).acceptConnection_closes connfd (h .loc).toDead.fd
  cases hr : (m.ctx .loc).acceptConnection connfd with
  | mk ok y =>
    rw [hr] at hacc
    have hput : (m.put .loc y).owed connfd = closes connfd m.sys.trace + 1 := by
      have hp : ¬(m.conn .proxy).mFd = connfd := by
        have := (h .proxy).toDead.fd
        omega
      refine Eq.trans ?_ hacc
      change closes connfd y.sys.trace + ((if y.conn.mFd = connfd then 1 else 0) +
        if (m.conn .proxy).mFd = connfd then 1 else 0) = _
      rw [if_neg hp, add_zero]
    cases ok with
    | false =>
      rw [acceptLocal_of_failed connfd hr, hput]
    | true =>
      rw [(m.acceptLocal_dials connfd h hr).owed (Int.natCast_nonneg connfd) hfresh.symm, hput]

/-- `onAccept` on an idle tunnel. A failed `acceptLocal` has closed the descriptor
already, and `onAccept` closes it again. -/
theorem onAccept_owed (cfg : Config) (connfd : ℕ) {m : TunCtx} (h : m.Shut)
    (hfresh : m.sys.socket.1 ≠ connfd) (hnew : closes connfd m.sys.trace = 0) :
    ((cfg.pton cfg.mProxyIp = .error ∨ m.sys.env.Opens) →
        (m.onAccept cfg connfd).2.owed connfd = 1) ∧
      (¬(cfg.pton cfg.mProxyIp = .error ∨ m.sys.env.Opens) →
        (m.onAccept cfg connfd).2.owed connfd = 2 ∧ (m.onAccept cfg connfd).2.Shut) := by
  obtain ⟨-, -, -, -, -, hsys⟩ := m.configured_same cfg
  have hshut := configured_shut cfg h
  have hzero : ∀ n : TunCtx, n.Shut → n.owed connfd = closes connfd n.sys.trace := fun n hn => by
    rw [owed, holding_shut (fun side => (hn side).toDead.fd) (Int.natCast_nonneg connfd), add_zero]
  have hok := acceptLocal_ok connfd hshut
  have howed := acceptLocal_owed connfd hshut (hsys ▸ hfresh)
  have hopen := acceptLocal_opening connfd hshut
  rw [hsys] at hok howed
  rw [onAccept_eq]
  by_cases hp : cfg.pton cfg.mProxyIp = .error
  · have hlog : ((m.configured cfg).log (.close connfd)).Shut := fun side => by simpa using hshut side
    have hone : ((m.configured cfg).log (.close connfd)).owed connfd = 1 := by
      rw [hzero _ hlog]
      change closes connfd ((m.configured cfg).sys.trace ++ [.close connfd]) = 1
      rw [closes_append, closes_close, hsys, hnew, if_pos rfl]
    rw [if_pos hp]
    exact ⟨fun _ => hone, fun hno => absurd (Or.inl hp) hno⟩
  · rw [if_neg hp]
    simp only [hp, false_or]
    generalize (m.configured cfg).acceptLocal connfd = r at hok howed hopen
    cases hr : r.1 with
    | true =>
      refine ⟨fun _ => ?_, fun hno => absurd (hok.mp hr) hno⟩
      change r.2.owed connfd = 1
      rw [howed, hnew]
    | false =>
      have hno : ¬m.sys.env.Opens := fun ho => by simpa [hr] using hok.mpr ho
      refine ⟨fun ho => absurd ho hno, fun _ => ?_⟩
      have hdown : r.2.Shut := by
        cases hopen with
        | failed n _ shut _ _ => exact shut
        | waiting => cases hr
        | asked => cases hr
      have hlog : ((r.2.log (.close connfd)).insertBroken).Shut := fun side => by simpa using hdown side
      rw [hzero _ hdown, hnew] at howed
      simp only [Bool.false_eq_true, if_false]
      refine ⟨?_, hlog⟩
      rw [hzero _ hlog]
      change closes connfd (r.2.sys.trace ++ [.close connfd]) = 2
      rw [closes_append, closes_close, howed, if_pos rfl]

/-- Nothing later changes what is owed of it. -/
theorem foldl_step_owed (as : List (Entry × Notice)) (m : TunCtx) (hfd : 0 ≤ fd) :
    (as.foldl TunCtx.step m).owed fd = m.owed fd := by
  induction as generalizing m with
  | nil => rfl
  | cons a as ih =>
    refine (ih (m.step a)).trans ?_
    unfold TunCtx.step
    split
    · rfl
    · have henter : (m.enter a.1).owed fd = m.owed fd := rfl
      rw [((m.enter a.1).notify_moves (F := fun _ => False) a.2).owed hfd id, henter]

end TunCtx

namespace Session

/-- The descriptor `socket` returns is not one that is open. -/
def FreshSocket (s : Session) : Prop := s.entry.env.sockets.headD (.fail (.other 0)) ≠ .fd s.connfd

theorem FreshSocket.ne {s : Session} (h : s.FreshSocket) (t : Sys) (he : t.env = s.entry.env) :
    t.socket.1 ≠ s.connfd := by
  unfold Sys.socket
  rw [he]
  unfold FreshSocket at h
  cases hs : s.entry.env.sockets.headD (.fail (.other 0)) with
  | fd n =>
    rw [hs] at h
    simpa using h
  | fail e =>
    change (-1 : ℤ) ≠ s.connfd
    omega

/-- The descriptor of an accepted client is closed at most once, and exactly
once by the time the tunnel holds no descriptor any more, if and only if the
proxy server is refused or every call that opens the tunnel succeeds. -/
theorem closed_once_iff (cfg : Config) (s : Session) {t : ProxyTunnel} (h : Recycled cfg t)
    (hfresh : s.FreshSocket) :
    (closes s.connfd (s.run cfg t).sys.trace ≤ 1 ∧
        ((∀ side, ((s.run cfg t).conn side).mFd < 0) →
          closes s.connfd (s.run cfg t).sys.trace = 1)) ↔
      cfg.pton cfg.mProxyIp = .error ∨ s.entry.env.Opens := by
  let m : TunCtx :=
    ⟨t, ⟨s.entry.errno, s.entry.env, s.entry.poller, [], false⟩, s.entry.stdio, [], false⟩
  have hfd : (0 : ℤ) ≤ s.connfd := Int.natCast_nonneg s.connfd
  have hshut : m.Shut := ((TunCtx.idle_iff m).mp h.idle.1).1
  obtain ⟨hgood, hbad⟩ := TunCtx.onAccept_owed cfg s.connfd hshut (hfresh.ne m.sys rfl) rfl
  have hrun : (s.run cfg t).owed s.connfd = (m.onAccept cfg s.connfd).2.owed s.connfd :=
    TunCtx.foldl_step_owed s.arrivals _ hfd
  constructor
  · rintro ⟨hle, -⟩
    by_contra hno
    obtain ⟨htwo, hdown⟩ := hbad hno
    have htrace : (s.run cfg t).sys.trace = (m.onAccept cfg s.connfd).2.sys.trace :=
      hdown.run_trace s.arrivals
    rw [TunCtx.owed, TunCtx.holding_shut (fun side => (hdown side).toDead.fd) hfd] at htwo
    rw [htrace] at hle
    omega
  · intro hyes
    have hone := hgood hyes
    rw [← hrun, TunCtx.owed] at hone
    refine ⟨by omega, fun hend => ?_⟩
    rw [TunCtx.holding_shut hend hfd] at hone
    omega

/-- A client that is accepted and leaves again. -/
def briefSession : Session :=
  ⟨5, ⟨.EAGAIN, { sockets := [.fd 6] }, .new, []⟩,
    [(⟨.EAGAIN, { recvs := [.data []] }, .new, []⟩, .input .loc)]⟩

theorem closed_once_brief : closes 5 (briefSession.run exampleConfig (.new 0)).sys.trace = 1 := by
  have hfresh : briefSession.FreshSocket := by simp [FreshSocket, briefSession]
  have hopens : briefSession.entry.env.Opens := ⟨by simp [briefSession], ⟨6, rfl⟩, Or.inr rfl⟩
  refine ((closed_once_iff exampleConfig briefSession (.new 0) hfresh).mpr (Or.inr hopens)).2 ?_
  intro side
  cases side <;> decide +kernel

/-- A proxy server that refuses the connection. -/
def refusedSession : Session :=
  ⟨5, ⟨.EAGAIN, { sockets := [.fd 6], connects := [.fail .ECONNREFUSED] }, .new, []⟩, []⟩

/-- The client's descriptor is closed by `acceptLocal` and again by `onAccept`. -/
theorem closed_twice :
    refusedSession.FreshSocket ∧
      (refusedSession.accept exampleConfig (.new 0)).1 = .failed ∧
      closes 5 (refusedSession.run exampleConfig (.new 0)).sys.trace = 2 :=
  ⟨by simp [FreshSocket, refusedSession], by decide +kernel, by decide +kernel⟩

end Session

end HttpsProxy
