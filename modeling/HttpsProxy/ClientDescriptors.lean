import HttpsProxy.OpenDescriptors
import HttpsProxy.PoolRule

/-! No descriptor of the client leaks or is shared. Between two callbacks the open
ones are the listener's and those of the connections, however the calls that open
tunnels fail. -/
namespace HttpsProxy

namespace TunCtx

variable {o P : Finset ℤ} {t : TunId} {conn : ConnId → Connection} {m n : TunCtx} {side : Side}

/-- The tunnel at `t` among the other connections: as long as the kernel returns
fresh descriptors, those that are open are those of `P` and those held. -/
structure Ledger (o P : Finset ℤ) (t : TunId) (conn : ConnId → Connection) (m : TunCtx) : Prop where
  this : ∀ side, (m.conn side).this = ⟨t, side⟩
  held : FreshFds o m.sys.trace → Holders P (m.among t conn) (openAfter o m.sys.trace)

theorem put_conn (m : TunCtx) (side : Side) (x : Ctx) (s : Side) :
    (m.put side x).conn s = if s = side then x.conn else m.conn s := by
  cases side <;> cases s <;> rfl

theorem put_sys (m : TunCtx) (side : Side) (x : Ctx) : (m.put side x).sys = x.sys := by
  cases side <;> rfl

theorem among_put (m : TunCtx) (side : Side) (x : Ctx) :
    (m.put side x).among t conn = Function.update (m.among t conn) ⟨t, side⟩ x.conn := by
  funext ⟨s, r⟩
  by_cases hs : s = t
  · subst hs
    cases side <;> cases r <;> simp [among, Function.update, put, setConn, TunCtx.conn]
  · simp [among, hs]

theorem among_self (m : TunCtx) (side : Side) : m.among t conn ⟨t, side⟩ = m.conn side := if_pos rfl

/-- What stands for one side's connection knows its place. -/
theorem put_this (h : ∀ side, (m.conn side).this = ⟨t, side⟩) {x : Ctx}
    (hthis : x.conn.this = (m.conn side).this) (s : Side) : ((m.put side x).conn s).this = ⟨t, s⟩ := by
  rw [put_conn]
  split
  · rename_i hs
    subst hs
    exact hthis.trans (h _)
  · exact h s

namespace Ledger

/-- What concerns no descriptor keeps the ledger. -/
theorem beside (h : Ledger o P t conn m)
    (hc : ∀ side, (n.conn side).this = (m.conn side).this ∧ (n.conn side).mFd = (m.conn side).mFd)
    (log : ∃ evs, n.sys.trace = m.sys.trace ++ evs ∧ ∀ e ∈ evs, ¬e.isDesc) : Ledger o P t conn n := by
  refine ⟨fun side => (hc side).1.trans (h.this side), fun hf => ?_⟩
  have hpre : m.sys.trace <+: n.sys.trace := by
    obtain ⟨evs, he, -⟩ := log
    exact ⟨evs, he.symm⟩
  rw [openAfter_extends log]
  refine (h.held (hf.before hpre)).congr fun c _ => ?_
  unfold among
  split
  · exact (hc c.side).2
  · rfl

theorem steady (h : Ledger o P t conn m) {x : Ctx} (hx : Ctx.Steady (m.ctx side) x) :
    Ledger o P t conn (m.put side x) := by
  refine h.beside (fun s => ?_) ?_
  · rw [put_conn]
    split
    · rename_i hs
      subst hs
      exact ⟨hx.this, hx.fd⟩
    · exact ⟨rfl, rfl⟩
  · rw [put_sys]
    exact hx.log

/-- A connection without a descriptor does not get one. -/
theorem down (h : Ledger o P t conn m) (hdown : (m.conn side).mFd < 0) {x : Ctx}
    (hthis : x.conn.this = (m.conn side).this) (hx : x.conn.mFd < 0) (log : x.sys.trace = m.sys.trace) :
    Ledger o P t conn (m.put side x) := by
  refine ⟨put_this h.this hthis, fun hf => ?_⟩
  rw [put_sys, log] at hf ⊢
  refine (h.held hf).congr fun c hc => ?_
  rw [among_put] at hc ⊢
  by_cases hcs : c = ⟨t, side⟩
  · rw [hcs, Function.update_self, among_self] at hc
    omega
  · rw [Function.update_of_ne hcs]

/-- A connection closes its descriptor. -/
theorem close (h : Ledger o P t conn m) {x : Ctx} (hfd : 0 ≤ (m.conn side).mFd)
    (hthis : x.conn.this = (m.conn side).this) (hx : x.conn.mFd < 0)
    (log : x.sys.trace = m.sys.trace ++ [.close (m.conn side).mFd]) : Ledger o P t conn (m.put side x) := by
  refine ⟨put_this h.this hthis, fun hf => ?_⟩
  rw [put_sys, log] at hf
  have hm := h.held (hf.before (List.prefix_append _ _))
  have hself : (m.among t conn ⟨t, side⟩).mFd = (m.conn side).mFd := by rw [among_self]
  rw [among_put, put_sys, log, openAfter_append]
  change Holders P _ ((openAfter o m.sys.trace).erase (m.conn side).mFd)
  rw [← hself]
  exact hm.close (hself ▸ hfd) hx

/-- What has been taken over is kept, or closed again. -/
theorem took {F : ℤ → Prop} {Q : Finset ℤ} {x : Ctx} (hx : Ctx.Took F (m.ctx side) x)
    (htake : ∀ fd, 0 ≤ fd → F fd → Ledger o Q t conn (m.put side ((m.ctx side).take fd))) :
    Ledger o Q t conn (m.put side x) := by
  have hctx : ∀ y : Ctx, (m.put side y).ctx side = y := fun y => by cases side <;> rfl
  have hput : ∀ y z : Ctx, (m.put side y).put side z = m.put side z := fun y z => by cases side <;> rfl
  have hkept : ∀ fd y, 0 ≤ fd → F fd → Ctx.Steady ((m.ctx side).take fd) y →
      Ledger o Q t conn (m.put side y) := by
    intro fd y hfd hF hy
    have hs : Ledger o Q t conn ((m.put side ((m.ctx side).take fd)).put side y) :=
      (htake fd hfd hF).steady (by rw [hctx]; exact hy)
    rwa [hput] at hs
  cases hx with
  | kept fd hfd free _ hy => exact hkept fd _ hfd free hy
  | lost fd hfd free y hy =>
    have hy' := hkept fd y hfd free hy
    have hconn : (m.put side y).conn side = y.conn := by rw [put_conn, if_pos rfl]
    have hpos : 0 ≤ ((m.put side y).conn side).mFd := by
      rw [hconn, hy.fd]
      exact hfd
    have hc : Ledger o Q t conn ((m.put side y).put side y.closeFd) :=
      hy'.close hpos (by rw [hconn]; rfl) (show (-1 : ℤ) < 0 by omega) (by rw [hconn, put_sys]; rfl)
    rwa [hput] at hc

/-- The proxy's side takes over a descriptor that `socket` has returned. -/
theorem take_made (h : Ledger o P t conn m) (hdown : (m.conn .proxy).mFd < 0) {fd : ℤ} (hfd : 0 ≤ fd) :
    Ledger o P t conn (m.put .proxy ((m.ctx .proxy).take fd)) := by
  refine ⟨put_this h.this rfl, fun hf => ?_⟩
  have hthis : (m.ctx .proxy).conn.this = ⟨t, .proxy⟩ := h.this .proxy
  change FreshFds o (m.sys.trace ++ [.opened (m.ctx .proxy).conn.this fd]) at hf
  have hm := h.held (hf.before (List.prefix_append _ _))
  have hnew : fd ∉ openAfter o m.sys.trace := by
    refine hf.entry fd ?_
    rw [hthis]
    rfl
  have hP : fd ∉ P := fun hin => hnew ((hm.mem fd).mpr (Or.inl hin))
  rw [among_put]
  change Holders P _ (openAfter o (m.sys.trace ++ [.opened (m.ctx .proxy).conn.this fd]))
  rw [openAfter_append]
  exact (hm.make hnew).handOver hfd hP (by rwa [among_self]) rfl

/-- The client's side takes over the descriptor that is waiting for it. -/
theorem take_accepted {fd : ℤ} (h : Ledger o (insert fd P) t conn m)
    (hP : FreshFds o m.sys.trace → fd ∉ P) (hdown : (m.conn .loc).mFd < 0) (hfd : 0 ≤ fd) :
    Ledger o P t conn (m.put .loc ((m.ctx .loc).take fd)) := by
  refine ⟨put_this h.this rfl, fun hf => ?_⟩
  change FreshFds o (m.sys.trace ++ [.opened (m.ctx .loc).conn.this fd]) at hf
  have hm := h.held (hf.before (List.prefix_append _ _))
  have hopen : fd ∈ openAfter o m.sys.trace := (hm.mem fd).mpr (Or.inl (Finset.mem_insert_self fd P))
  rw [among_put]
  change Holders P _ (openAfter o (m.sys.trace ++ [.opened (m.ctx .loc).conn.this fd]))
  rw [openAfter_append]
  change Holders P _ (insert fd (openAfter o m.sys.trace))
  rw [Finset.insert_eq_of_mem hopen]
  exact hm.handOver hfd (hP (hf.before (List.prefix_append _ _))) (by rwa [among_self]) rfl

theorem shutdown (h : Ledger o P t conn m) (side : Side) : Ledger o P t conn (m.shutdown side) := by
  by_cases hfd : (m.conn side).mFd < 0
  · have hsame : m.shutdown side = m := by
      change m.put side (m.ctx side).shutdown = m
      rw [Ctx.shutdown_of_closed (m.ctx side) hfd, put_ctx]
    rwa [hsame]
  · have hx : 0 ≤ (m.ctx side).conn.mFd := not_lt.mp hfd
    obtain ⟨-, -, ht, -⟩ := (m.ctx side).shutdown_sys hx
    have hc := (m.ctx side).shutdown_conn hx
    exact h.close (x := (m.ctx side).shutdown) hx (by rw [hc]; rfl) (by rw [hc]; exact neg_one_lt_zero) ht

end Ledger

/-- No method but `acceptLocal` makes a descriptor. -/
theorem ledger_rule : Rule fun m n : TunCtx => Ledger o P t conn m → Ledger o P t conn n where
  refl _ h := h
  trans h l hm := l (h hm)
  shutdown side _ h := h.shutdown side
  send side data m h := h.steady (Ctx.steady_rule.send data (m.ctx side))
  inputRecv side m h := h.steady (Ctx.steady_rule.inputRecv (m.ctx side))
  inputFinish side m h := h.steady (Ctx.steady_rule.inputFinish (m.ctx side))
  output side m h := h.steady (Ctx.steady_rule.handleOutputNotification (m.ctx side))
  setEventHandler side b m h := h.beside
    (fun s => by cases side <;> cases s <;> exact ⟨rfl, rfl⟩) (by cases side <;> exact Extends.of_eq rfl)
  setStatus st m h := h.beside (fun s => by cases s <;> exact ⟨rfl, rfl⟩) (Extends.of_eq rfl)
  cache _ _ m h := h.beside (fun s => by cases s <;> exact ⟨rfl, rfl⟩) (Extends.of_eq rfl)
  restart m h := h.beside (fun s => by cases s <;> exact ⟨rfl, rfl⟩) (Extends.of_eq rfl)
  take _ m _ h := h.beside (fun s => by cases s <;> exact ⟨rfl, rfl⟩) (Extends.of_eq rfl)
  insertBroken m h := h.beside (fun s => by rw [conn_insertBroken]; exact ⟨rfl, rfl⟩) (Extends.of_eq rfl)
  log e he m h := h.beside (fun s => by rw [conn_log]; exact ⟨rfl, rfl⟩) (Extends.entry rfl he.not_isDesc)
  dangling m h := h.beside (fun s => by cases s <;> exact ⟨rfl, rfl⟩) (Extends.of_eq rfl)
  aborted m h := h.beside (fun s => by cases s <;> exact ⟨rfl, rfl⟩) (Extends.of_eq rfl)

/-- The client's side has taken over the descriptor that was waiting. -/
theorem Ledger.accepted {connfd : ℕ} (h : Ledger o (insert (connfd : ℤ) P) t conn m)
    (hP : FreshFds o m.sys.trace → (connfd : ℤ) ∉ P) (hloc : (m.conn .loc).mFd < 0) :
    Ledger o P t conn (m.put .loc ((m.ctx .loc).acceptConnection connfd).2) := by
  refine took ((m.ctx .loc).acceptConnection_took connfd hloc) fun fd hfd hF => ?_
  rw [hF]
  exact h.take_accepted hP hloc (Int.natCast_nonneg connfd)

/-- `acceptLocal` takes over the descriptor that is waiting, or closes it. -/
theorem Ledger.acceptLocal {connfd : ℕ} (h : Ledger o (insert (connfd : ℤ) P) t conn m)
    (hP : FreshFds o m.sys.trace → (connfd : ℤ) ∉ P) (hs : m.Shut) :
    Ledger o P t conn (m.acceptLocal connfd).2 := by
  have hacc := h.accepted hP (hs .loc).fd
  cases hr : (m.ctx .loc).acceptConnection connfd with
  | mk ok y =>
    rw [hr] at hacc
    cases ok with
    | false =>
      rw [acceptLocal_of_failed connfd hr]
      exact hacc
    | true =>
      refine ledger_rule.dials connfd hr (fun hn => ?_) hacc
      have hproxy : ((m.dialing y).conn .proxy).mFd < 0 := (hs .proxy).fd
      rcases ((m.dialing y).ctx .proxy).connect_took (m.dialing y).tun.mProxySvrAddr hproxy with
        ⟨-, hthis, hfd, htr⟩ | htook
      · exact hn.down hproxy hthis hfd htr
      · exact took htook fun fd hfd _ => hn.take_made hproxy hfd

theorem among_log (m : TunCtx) (e : Ev) : (m.log e).among t conn = m.among t conn := by
  funext c
  simp only [among, conn_log]

/-- The descriptor that is waiting is closed, and no tunnel has been told of it. -/
theorem Ledger.drop {fd : ℤ} (h : Ledger o (insert fd P) t conn m)
    (hP : FreshFds o m.sys.trace → fd ∉ P) : Ledger o P t conn (m.log (.close fd)) := by
  refine ⟨fun side => by rw [conn_log]; exact h.this side, fun hf => ?_⟩
  change FreshFds o (m.sys.trace ++ [.close fd]) at hf
  have hm := hf.before (List.prefix_append _ _)
  rw [among_log]
  change Holders P _ (openAfter o (m.sys.trace ++ [.close fd]))
  rw [openAfter_append]
  exact (h.held hm).drop (hP hm)

/-- Closing what is not open changes nothing. -/
theorem Ledger.close_again {fd : ℤ} (h : Ledger o P t conn m)
    (hno : FreshFds o m.sys.trace → fd ∉ openAfter o m.sys.trace) :
    Ledger o P t conn (m.log (.close fd)) := by
  refine ⟨fun side => by rw [conn_log]; exact h.this side, fun hf => ?_⟩
  change FreshFds o (m.sys.trace ++ [.close fd]) at hf
  have hm := hf.before (List.prefix_append _ _)
  rw [among_log]
  change Holders P _ (openAfter o (m.sys.trace ++ [.close fd]))
  rw [openAfter_append]
  change Holders P _ ((openAfter o m.sys.trace).erase fd)
  rw [Finset.erase_eq_of_notMem (hno hm)]
  exact h.held hm

theorem Ledger.configured (cfg : Config) (h : Ledger o P t conn m) : Ledger o P t conn (m.configured cfg) := by
  obtain ⟨hc, -, -, -, -, hsys⟩ := m.configured_same cfg
  exact h.beside (fun side => by rw [hc side]; exact ⟨rfl, rfl⟩) (Extends.of_eq (congrArg Sys.trace hsys))

/-- Whatever `onAccept` comes to, the descriptor is held or closed. -/
theorem Ledger.onAccept (cfg : Config) {connfd : ℕ} (h : Ledger o (insert (connfd : ℤ) P) t conn m)
    (hP : FreshFds o m.sys.trace → (connfd : ℤ) ∉ P) (hi : m.tun.Idle) :
    Ledger o P t conn (m.onAccept cfg connfd).2 := by
  obtain ⟨-, -, -, -, -, hsys⟩ := m.configured_same cfg
  have hconf := h.configured cfg
  have hP' : FreshFds o (m.configured cfg).sys.trace → (connfd : ℤ) ∉ P := by rwa [hsys]
  have hshut := configured_shut cfg ((idle_iff m).mp hi).1
  have hlocal := hconf.acceptLocal hP' hshut
  have ho := acceptLocal_opening connfd hshut
  rw [onAccept_eq]
  split
  · exact hconf.drop hP'
  simp only
  split
  · exact hlocal.beside (fun side => by cases side <;> exact ⟨rfl, rfl⟩) (Extends.of_eq rfl)
  rename_i hf
  refine (hlocal.close_again fun hfresh hopen => ?_).beside
    (fun side => by rw [conn_insertBroken]; exact ⟨rfl, rfl⟩) (Extends.of_eq rfl)
  -- nobody holds the descriptor any more
  generalize (m.configured cfg).acceptLocal connfd = r at ho hf hlocal hfresh hopen
  cases ho with
  | waiting => exact hf rfl
  | asked => exact hf rfl
  | failed n _ shut _ log =>
    obtain ⟨evs, ht, -⟩ := log
    have hbefore : FreshFds o (m.configured cfg).sys.trace := hfresh.before ⟨evs, ht.symm⟩
    have hwas := hconf.held hbefore
    rcases ((hlocal.held hfresh).mem connfd).mp hopen with hin | ⟨c, hpos, hfd⟩
    · exact hP' hbefore hin
    · by_cases hct : c.tun = t
      · rw [among, if_pos hct] at hfd
        have hneg : (n.conn c.side).mFd < 0 := (shut c.side).fd
        have hcfd : (n.conn c.side).mFd = connfd := hfd
        omega
      · rw [among, if_neg hct] at hfd
        have hsame : (m.configured cfg).among t conn c = conn c := if_neg hct
        have hother := hwas.other c (by rw [hsame]; omega)
        rw [hsame, hfd] at hother
        exact hother (Finset.mem_insert_self _ _)

/-- Without a usable address the tunnel stays idle. -/
theorem onAccept_idle {cfg : Config} (connfd : ℤ) (hill : cfg.pton cfg.mProxyIp = .error)
    (hi : m.tun.Idle) : (m.onAccept cfg connfd).2.tun.Idle := by
  have hres : (m.onAccept cfg connfd).2 = (m.configured cfg).log (.close connfd) := by
    rw [onAccept_eq, if_pos hill]
  rw [hres]
  exact configured_idle cfg hi

end TunCtx

namespace ProxyClient

variable {o P : Finset ℤ} {w : ProxyClient} {t : TunId} {tun : ProxyTunnel}

/-- As long as the kernel returns fresh descriptors, those that are open are those
of `P` and those of the connections. -/
def Ledger (o P : Finset ℤ) (w : ProxyClient) : Prop :=
  FreshFds o w.sys.trace → Holders P w.conn (openAfter o w.sys.trace)

theorem Ledger.enter (h : w.Ledger o P) (hp : w.Pooled) (ht : w.tunnels t = some tun) :
    (w.enter tun).Ledger o P t w.conn :=
  ⟨hp.addressed ht, fun hf => by rw [among_conn ht]; exact h hf⟩

theorem leave_conn (w : ProxyClient) (t : TunId) (m : TunCtx) :
    (w.leave t m).conn = m.among t w.conn := by
  have hself : (w.leave t m).tunnels t = some m.tun := Function.update_self ..
  funext ⟨u, side⟩
  by_cases hu : u = t
  · subst hu
    rw [conn_of_some hself, TunCtx.among, if_pos rfl]
    exact TunCtx.conn_congr rfl side
  · rw [TunCtx.among, if_neg hu]
    exact conn_of_same (Function.update_of_ne hu ..) side

theorem leave_ledger {m : TunCtx} (h : m.Ledger o P t w.conn) : (w.leave t m).Ledger o P := by
  intro hf
  rw [leave_conn]
  exact h.held hf

/-- Objects may come and go, as long as they hold nothing. -/
theorem Ledger.objects (h : w.Ledger o P) {v : ProxyClient} (htr : v.sys.trace = w.sys.trace)
    (hc : ∀ c, v.conn c = w.conn c ∨ (v.conn c).mFd < 0 ∧ (w.conn c).mFd < 0) : v.Ledger o P := by
  intro hf
  rw [htr] at hf ⊢
  refine (h hf).congr fun c hpos => ?_
  rcases hc c with he | ⟨h1, h2⟩
  · rw [he]
  · omega

theorem Ledger.outside (h : w.Ledger o P) {v : ProxyClient} (htr : v.sys.trace = w.sys.trace)
    (ht : v.tunnels = w.tunnels) : v.Ledger o P :=
  h.objects htr fun c => Or.inl (congrFun (conn_of_tunnels ht) c)

theorem newTunnel_sys (w : ProxyClient) : w.newTunnel.2.sys = w.sys := by
  unfold newTunnel
  split <;> rfl

/-- A new tunnel holds nothing. -/
theorem newTunnel_conn (hp : w.Pooled) (c : ConnId) :
    w.newTunnel.2.conn c = w.conn c ∨ (w.newTunnel.2.conn c).mFd < 0 ∧ (w.conn c).mFd < 0 := by
  obtain ⟨u, side⟩ := c
  cases hfree : w.mFreeTuns with
  | nil =>
    rw [newTunnel_of_nil hfree]
    by_cases hu : u = w.nextTun
    · right
      rw [hu, conn_of_none (hp.bound _ le_rfl), conn_of_some (Function.update_self ..)]
      cases side <;> exact ⟨neg_one_lt_zero, neg_one_lt_zero⟩
    · exact Or.inl (conn_of_same (Function.update_of_ne hu ..) side)
  | cons u us =>
    rw [newTunnel_of_cons hfree]
    exact Or.inl (congrFun (conn_of_tunnels rfl) _)

theorem newTunnel_ledger (hp : w.Pooled) (h : w.Ledger o P) : w.newTunnel.2.Ledger o P :=
  h.objects (by rw [newTunnel_sys]) (newTunnel_conn hp)

theorem reclaimTunnel_sys (ht : w.tunnels t = some tun) (hi : tun.Idle) : (w.reclaimTunnel t).sys = w.sys := by
  unfold reclaimTunnel
  split
  · rw [deleteTunnel_of_idle ht hi]
  · rfl

theorem reclaimTunnel_conn (ht : w.tunnels t = some tun) (hi : tun.Idle) (c : ConnId) :
    (w.reclaimTunnel t).conn c = w.conn c ∨ ((w.reclaimTunnel t).conn c).mFd < 0 ∧ (w.conn c).mFd < 0 := by
  obtain ⟨u, side⟩ := c
  unfold reclaimTunnel
  split
  · rw [deleteTunnel_of_idle ht hi]
    by_cases hu : u = t
    · right
      subst hu
      rw [conn_of_none (Function.update_self ..), conn_of_some ht]
      refine ⟨neg_one_lt_zero, ?_⟩
      cases side
      exacts [hi.loc.fd, hi.proxy.fd]
    · exact Or.inl (conn_of_same (Function.update_of_ne hu ..) side)
  · exact Or.inl (congrFun (conn_of_tunnels rfl) _)

theorem reclaimTunnel_ledger (ht : w.tunnels t = some tun) (hi : tun.Idle) (h : w.Ledger o P) :
    (w.reclaimTunnel t).Ledger o P :=
  h.objects (by rw [reclaimTunnel_sys ht hi]) (reclaimTunnel_conn ht hi)

/-- A descriptor is waiting in the listener. -/
theorem Ledger.accepted (h : w.Ledger o P) (n : ℕ) {v : ProxyClient}
    (htr : v.sys.trace = w.sys.trace ++ [.accepted n]) (ht : v.tunnels = w.tunnels) :
    v.Ledger o (insert (n : ℤ) P) ∧ (FreshFds o v.sys.trace → (n : ℤ) ∉ P) := by
  have hnew : FreshFds o v.sys.trace → (n : ℤ) ∉ openAfter o w.sys.trace := fun hf =>
    FreshFds.entry (e := .accepted n) (htr ▸ hf) n rfl
  have hheld : FreshFds o v.sys.trace → Holders P w.conn (openAfter o w.sys.trace) := fun hf =>
    h (FreshFds.before (htr ▸ hf) (List.prefix_append _ _))
  refine ⟨fun hf => ?_, fun hf hin => hnew hf (((hheld hf).mem n).mpr (Or.inl hin))⟩
  rw [conn_of_tunnels ht, htr, openAfter_append]
  exact (hheld hf).make (hnew hf)

section Run

variable (cfg : Config)

theorem onAccept_ledger (connfd : ℕ) (hp : w.Pooled) (h : w.Ledger o (insert (connfd : ℤ) P))
    (hP : FreshFds o w.sys.trace → (connfd : ℤ) ∉ P) : (w.onAccept cfg connfd).Ledger o P := by
  have hnew := newTunnel_ledger hp h
  obtain ⟨hv, tun, ht, hi, -, -⟩ := hp.newTunnel
  rw [← w.newTunnel_sys] at hP
  rw [onAccept_eq cfg connfd ht]
  have hm := (hnew.enter hv ht).onAccept cfg hP hi
  simp only
  split
  · rename_i hill
    have hidle := TunCtx.onAccept_idle connfd hill (m := w.newTunnel.2.enter tun) hi
    exact reclaimTunnel_ledger (Function.update_self ..) hidle (leave_ledger hm)
  · exact leave_ledger hm

/-- The ledger is kept by all that the client does. -/
theorem ledger_rule : PoolRule cfg (Ledger o P) where
  resume _ h := h.outside rfl rfl
  refused _ _ log h := h.outside log rfl
  accepted := fun {w} n s _ log hp h => by
    obtain ⟨hl, hP⟩ := h.accepted n (v := { w with sys := s }) log rfl
    exact onAccept_ledger cfg n hp hl hP
  notify n ht _ hp h := leave_ledger (TunCtx.ledger_rule.notify n _ (h.enter hp ht))
  reclaimTunnel ht hi h := reclaimTunnel_ledger ht hi h
  reclaimed h := h.outside rfl rfl

theorem initialise_ledger {mFd : ℤ} (h : initialise mFd = some w) : w.Ledger {mFd} {mFd} := by
  intro _
  unfold initialise at h
  split at h
  · cases h
  rename_i p _
  obtain rfl := Option.some.inj h
  have hneg : ∀ c, ((start p).conn c).mFd < 0 := fun _ => neg_one_lt_zero
  refine ⟨fun fd => ⟨Or.inl, ?_⟩, fun c hc => absurd hc (not_le.mpr (hneg c)),
    fun c d hc => absurd hc (not_le.mpr (hneg c))⟩
  rintro (hfd | ⟨c, hpos, hc⟩)
  · exact hfd
  · exact absurd (hc ▸ hpos) (not_le.mpr (hneg c))

/-- The ledger in every state that `runLoop` comes to. -/
theorem later_ledger {mFd : ℤ} {u : ProxyClient} (h0 : initialise mFd = some u) (h : Later cfg u w) :
    w.Pooled ∧ w.Ledger {mFd} {mFd} :=
  (ledger_rule cfg).later h0 (initialise_ledger h0) h

/-- No descriptor leaks and none is shared, in any run and whatever calls fail: if
the kernel returns none that is still open, the open ones are the listener's and
those of the connections, each of them held by one connection. -/
theorem descriptors_owned {mFd : ℤ} {u : ProxyClient} (h0 : initialise mFd = some u) (h : Later cfg u w)
    (hk : FreshFds {mFd} w.sys.trace) :
    (∀ fd, fd ∈ openAfter {mFd} w.sys.trace ↔ fd = mFd ∨ ∃ c, 0 ≤ fd ∧ (w.conn c).mFd = fd) ∧
      (∀ c, 0 ≤ (w.conn c).mFd → (w.conn c).mFd ≠ mFd) ∧
      ∀ c d, 0 ≤ (w.conn c).mFd → (w.conn d).mFd = (w.conn c).mFd → d = c := by
  have hl := (later_ledger cfg h0 h).2 hk
  refine ⟨fun fd => ?_, fun c hc he => ?_, hl.unique⟩
  · rw [hl.mem fd, Finset.mem_singleton]
  · exact hl.other c hc (Finset.mem_singleton.mpr he)

end Run

theorem serving_later : Later exampleConfig listening serving :=
  Relation.ReflTransGen.single
    ⟨.callback .read 3 ⟨.other 0, { accepts := [.fd 4], sockets := [.fd 5] }, []⟩, rfl, rfl⟩

theorem serving_fresh : FreshFds {3} serving.sys.trace := by decide +kernel

theorem descriptors_owned_serving :
    openAfter {3} serving.sys.trace = {3, 4, 5} ∧
      ∃ c, (serving.conn c).mFd = 4 ∧ ∀ d, (serving.conn d).mFd = 4 → d = c := by
  have h := descriptors_owned exampleConfig (show initialise 3 = some listening from rfl) serving_later serving_fresh
  have hopen : openAfter {3} serving.sys.trace = {3, 4, 5} := by decide +kernel
  have hmem : (4 : ℤ) ∈ openAfter {3} serving.sys.trace := by
    rw [hopen]
    decide
  rcases (h.1 4).mp hmem with he | ⟨c, hpos, hc⟩
  · exact absurd he (by decide)
  · exact ⟨hopen, c, hc, fun d hd => h.2.2 c d (by omega) (hd.trans hc.symm)⟩

/-- `finalise`, with the listener on `mFd`; `mBrokenTuns` is in any order. The
destructor of the listener finds it finalised, and the poller goes last. -/
def finalise (mFd : ℤ) (order : List TunId) (w : ProxyClient) : ProxyClient :=
  let w : ProxyClient := { order.foldl (fun w t => w.deleteTunnel t) w with mBrokenTuns := [] }
  let w : ProxyClient := { w.mFreeTuns.foldl (fun w t => w.deleteTunnel t) w with mFreeTuns := [] }
  { w with sys := Sys.log (.close mFd) { w.sys with poller := (w.sys.poller.deregisterForRead mFd).2 } }

/-- Idle tunnels are deleted one after the other, and nothing else happens. -/
theorem deleteAll_of_idle (l : List TunId) (hnd : l.Nodup)
    (h : ∀ t ∈ l, ∃ tun, w.tunnels t = some tun ∧ tun.Idle) :
    l.foldl (fun w t => w.deleteTunnel t) w =
      { w with
        tunnels := fun u => if u ∈ l then none else w.tunnels u
        deletions := w.deletions ++ l.map fun t => ⟨t, w.sys.poller, w.stack⟩ } := by
  induction l generalizing w with
  | nil => simp
  | cons t l ih =>
    obtain ⟨tun, ht, hi⟩ := h t List.mem_cons_self
    obtain ⟨hnot, hnd⟩ := List.nodup_cons.mp hnd
    rw [List.foldl_cons, deleteTunnel_of_idle ht hi, ih hnd ?_]
    · congr 1
      · funext u
        by_cases hu : u = t
        · rw [hu]
          simp
        · simp [hu]
      · simp
    · intro u hu
      obtain ⟨tun', ht', hi'⟩ := h u (List.mem_cons_of_mem t hu)
      refine ⟨tun', ?_, hi'⟩
      have hne : u ≠ t := by
        rintro rfl
        exact hnot hu
      simp only [Function.update_of_ne hne, ht']

/-- `finalise` deletes the tunnels of the two lists and closes the listener. -/
theorem Pooled.finalise (h : w.Pooled) (mFd : ℤ) {order : List TunId} (ho : order.Perm w.mBrokenTuns) :
    (∀ u, (w.finalise mFd order).tunnels u =
        if u ∈ w.mFreeTuns ∨ u ∈ w.mBrokenTuns then none else w.tunnels u) ∧
      (w.finalise mFd order).sys.trace = w.sys.trace ++ [.close mFd] ∧
      (w.finalise mFd order).deletions.map Deletion.tun =
        w.deletions.map Deletion.tun ++ (order ++ w.mFreeTuns) ∧
      (order ++ w.mFreeTuns).Nodup ∧
      (w.finalise mFd order).mFreeTuns = [] ∧ (w.finalise mFd order).mBrokenTuns = [] ∧
      (w.finalise mFd order).dangling = w.dangling := by
  have hbroken := deleteAll_of_idle (w := w) order (ho.nodup_iff.mpr h.brokenNodup) fun t ht =>
    h.broken t (ho.mem_iff.mp ht)
  have hapart : ∀ t ∈ w.mFreeTuns, t ∉ order := fun t ht hin => h.disjoint ht (ho.mem_iff.mp hin)
  obtain ⟨v, hv⟩ : ∃ v : ProxyClient, v = { w with
    tunnels := fun u => if u ∈ order then none else w.tunnels u
    deletions := w.deletions ++ order.map fun t => ⟨t, w.sys.poller, w.stack⟩
    mBrokenTuns := [] } := ⟨_, rfl⟩
  have hfree := deleteAll_of_idle (w := v) w.mFreeTuns h.nodup fun t ht => by
    obtain ⟨tun, hsome, hi⟩ := h.free t ht
    exact ⟨tun, by rw [hv]; simp only [if_neg (hapart t ht), hsome], hi⟩
  have hmine : w.finalise mFd order =
      { w.mFreeTuns.foldl (fun w t => w.deleteTunnel t) v with
        mFreeTuns := []
        sys := Sys.log (.close mFd) { w.sys with poller := (w.sys.poller.deregisterForRead mFd).2 } } := by
    simp only [ProxyClient.finalise, hbroken]
    rw [← hv, hfree, hv]
  rw [hmine, hfree, hv]
  refine ⟨fun u => ?_, rfl, ?_, ?_, rfl, rfl, rfl⟩
  · by_cases hf : u ∈ w.mFreeTuns
    · simp [hf]
    · simp [hf, ho.mem_iff]
  · simp [Function.comp_def]
  · rw [List.nodup_append]
    refine ⟨ho.nodup_iff.mpr h.brokenNodup, h.nodup, ?_⟩
    rintro t ht u hu rfl
    exact hapart t hu ht

/-- `finalise` deletes the tunnels of the two lists and closes the listener. This
closes whatever the client has open if and only if no tunnel is in service: those
that are in neither list keep their objects and descriptors. -/
theorem finalise_closes_iff (cfg : Config) {mFd : ℤ} {u : ProxyClient} (h0 : initialise mFd = some u)
    (h : Later cfg u w) (hk : FreshFds {mFd} w.sys.trace) {order : List TunId}
    (ho : order.Perm w.mBrokenTuns) :
    (∀ t, (w.finalise mFd order).tunnels t =
        if t ∈ w.mFreeTuns ∨ t ∈ w.mBrokenTuns then none else w.tunnels t) ∧
      (w.finalise mFd order).sys.trace = w.sys.trace ++ [.close mFd] ∧
      (w.finalise mFd order).deletions.map Deletion.tun =
        w.deletions.map Deletion.tun ++ (order ++ w.mFreeTuns) ∧
      (order ++ w.mFreeTuns).Nodup ∧
      (w.finalise mFd order).mFreeTuns = [] ∧ (w.finalise mFd order).mBrokenTuns = [] ∧
      (openAfter {mFd} (w.finalise mFd order).sys.trace = ∅ ↔
        ∀ t tun, w.tunnels t = some tun → tun.mLocalConn.mFd < 0 ∧ tun.mProxyConn.mFd < 0) ∧
      (∀ fd, fd ∈ openAfter {mFd} (w.finalise mFd order).sys.trace ↔
        ∃ c, 0 ≤ fd ∧ ((w.finalise mFd order).conn c).mFd = fd) ∧
      (∀ t tun, w.tunnels t = some tun → 0 ≤ tun.mLocalConn.mFd →
        (w.finalise mFd order).tunnels t = some tun) ∧
      (w.finalise mFd order).dangling = w.dangling := by
  obtain ⟨hp, hl⟩ := later_ledger cfg h0 h
  obtain ⟨htun, htr, hgone, hnd, hnofree, hnobroken, hdang⟩ := hp.finalise mFd ho
  have hlist : ∀ t, t ∈ w.mFreeTuns ∨ t ∈ w.mBrokenTuns → ∃ tun, w.tunnels t = some tun ∧ tun.Idle :=
    fun t ht => ht.elim (hp.free t) (hp.broken t)
  -- the objects that have gone held nothing
  have hconn : ∀ c, ((w.finalise mFd order).conn c).mFd = (w.conn c).mFd ∨
      ((w.finalise mFd order).conn c).mFd < 0 ∧ (w.conn c).mFd < 0 := by
    rintro ⟨t, side⟩
    by_cases ht : t ∈ w.mFreeTuns ∨ t ∈ w.mBrokenTuns
    · right
      obtain ⟨tun, hsome, hi⟩ := hlist t ht
      rw [conn_of_none (by rw [htun t, if_pos ht]), conn_of_some hsome]
      refine ⟨neg_one_lt_zero, ?_⟩
      cases side
      exacts [hi.loc.fd, hi.proxy.fd]
    · left
      have hsame : (w.finalise mFd order).tunnels t = w.tunnels t := by rw [htun t, if_neg ht]
      rw [conn_of_same hsame side]
  -- the ledger holds for what is left, without the listener
  have hopen : Holders ∅ (w.finalise mFd order).conn (openAfter {mFd} (w.finalise mFd order).sys.trace) := by
    have hw : Holders (insert mFd ∅) w.conn (openAfter {mFd} w.sys.trace) := hl hk
    rw [htr, openAfter_append]
    refine (hw.drop (Finset.notMem_empty mFd)).congr fun c hpos => ?_
    rcases hconn c with he | ⟨h1, h2⟩
    · exact he
    · omega
  have hmem : ∀ fd, fd ∈ openAfter {mFd} (w.finalise mFd order).sys.trace ↔
      ∃ c, 0 ≤ fd ∧ ((w.finalise mFd order).conn c).mFd = fd := fun fd => by
    rw [hopen.mem fd]
    simp
  refine ⟨htun, htr, hgone, hnd, hnofree, hnobroken, ?_⟩
  refine ⟨⟨fun hempty t tun ht => ?_, fun hdown => ?_⟩, hmem, fun t tun ht hpos => ?_, hdang⟩
  -- nothing is open, so no connection that is left has a descriptor
  · have hnone : ∀ side, (w.conn ⟨t, side⟩).mFd < 0 := by
      intro side
      by_contra hge
      have hge : 0 ≤ (w.conn ⟨t, side⟩).mFd := not_lt.mp hge
      have hsame : ((w.finalise mFd order).conn ⟨t, side⟩).mFd = (w.conn ⟨t, side⟩).mFd :=
        (hconn ⟨t, side⟩).resolve_right fun hd => absurd hge (not_le.mpr hd.2)
      have hin := (hmem _).mpr ⟨⟨t, side⟩, hge, hsame⟩
      rw [hempty] at hin
      exact absurd hin (Finset.notMem_empty _)
    have hloc := hnone .loc
    have hproxy := hnone .proxy
    rw [conn_of_some ht] at hloc hproxy
    exact ⟨hloc, hproxy⟩
  · apply Finset.eq_empty_of_forall_notMem
    intro fd hfd
    obtain ⟨⟨t, side⟩, hpos, hc⟩ := (hmem fd).mp hfd
    have hlow : (w.conn ⟨t, side⟩).mFd < 0 := by
      cases ht : w.tunnels t with
      | none =>
        rw [conn_of_none ht]
        exact neg_one_lt_zero
      | some tun =>
        obtain ⟨h1, h2⟩ := hdown t tun ht
        rw [conn_of_some ht]
        cases side
        exacts [h1, h2]
    rcases hconn ⟨t, side⟩ with he | ⟨h1, -⟩ <;> omega
  -- a tunnel with a descriptor is not idle, so it is in neither list
  · rw [htun t, if_neg fun hin => ?_]
    · exact ht
    · obtain ⟨tun', ht', hi⟩ := hlist t hin
      obtain rfl := Option.some.inj (ht'.symm.trans ht)
      exact absurd hpos (not_le.mpr hi.loc.fd)

theorem finalise_closes_iff_serving :
    (serving.finalise 3 []).sys.trace = serving.sys.trace ++ [.close 3] ∧
      (∃ tun, (serving.finalise 3 []).tunnels 0 = some tun ∧ tun.mLocalConn.mFd = 4) ∧
      openAfter {3} (serving.finalise 3 []).sys.trace ≠ ∅ := by
  obtain ⟨-, htrace, -, -, -, -, hiff, -, hkept, -⟩ := finalise_closes_iff exampleConfig
    (show initialise 3 = some listening from rfl) serving_later serving_fresh
    (show ([] : List TunId).Perm serving.mBrokenTuns from by decide +kernel)
  have hfd : (serving.tunnels 0).map (fun tun => tun.mLocalConn.mFd) = some 4 := by decide +kernel
  obtain ⟨tun, ht, hfour⟩ := Option.map_eq_some_iff.mp hfd
  refine ⟨htrace, ⟨tun, hkept 0 tun ht (by omega), hfour⟩, fun hempty => ?_⟩
  have hdown := (hiff.mp hempty 0 tun ht).1
  omega

end ProxyClient

end HttpsProxy
