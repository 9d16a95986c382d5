import HttpsProxy.ClientDescriptors

/-! What the poller calls, in every state of a run of the client: the listener, and
each connection for what it takes itself for registered, if its descriptor fits. -/
namespace HttpsProxy

open SelectPoller

/-- Only the connections that have a descriptor matter. -/
theorem Alert.congr {lis : Option ℤ} {conn conn' : ConnId → Connection} {p : SelectPoller Watcher}
    (h : Alert lis conn p) (hc : ∀ c, 0 ≤ (conn c).mFd ∨ 0 ≤ (conn' c).mFd →
      (conn' c).mFd = (conn c).mFd ∧ ∀ i, (conn' c).reg i = (conn c).reg i) : Alert lis conn' p := by
  have hw : Watched conn' p := h.toWatched.congr fun i fd d hd => by
    have hvalid : ¬invalidFd (conn d).mFd := (h.held i fd d hd).1 ▸ valid_of_find h.sound hd
    obtain ⟨h1, h2⟩ := hc d (Or.inl (not_lt.mp fun hn => hvalid (Or.inl hn)))
    exact ⟨h1, h2 i⟩
  refine ⟨hw, fun i d hd hpos hfits => ?_, fun c hpos => ?_, h.listener, h.lone⟩
  · obtain ⟨h1, h2⟩ := hc d (Or.inr hpos)
    rw [h1] at hpos hfits ⊢
    exact h.called i d ((h2 i).symm.trans hd) hpos hfits
  · obtain ⟨h1, -⟩ := hc c (Or.inr hpos)
    rw [h1] at hpos ⊢
    refine ⟨(h.unshared c hpos).1, fun d hd he => ?_⟩
    have hd' := (hc d (Or.inr (he ▸ hpos))).1
    exact (h.unshared c hpos).2 d hd (hd'.symm.trans he)

namespace TunCtx

variable {o : Finset ℤ} {lis : ℤ} {t : TunId} {conn : ConnId → Connection} {m n : TunCtx}

theorem Moves.extends {F : ℤ → Prop} (h : Moves F m n) : m.sys.trace <+: n.sys.trace := by
  refine h.keeps (P := fun k => m.sys.trace <+: k.sys.trace) (fun u v hstep hu => hu.trans ?_)
    (List.prefix_refl _)
  cases hstep with
  | conn side x step =>
    rw [put_sys]
    exact step.extends
  | beside _ hb => exact hb.sys.extends

/-- The tunnel at `t` among the other connections: the poller is right about all. -/
structure Watchful (lis : ℤ) (t : TunId) (conn : ConnId → Connection) (m : TunCtx) : Prop where
  this : ∀ side, (m.conn side).this = ⟨t, side⟩
  alert : Alert (some lis) (m.among t conn) m.sys.poller

namespace Watchful

theorem put (h : Watchful lis t conn m) {side : Side} {x : Ctx} {F : ℤ → Prop}
    (hx : Ctx.Moves F (m.ctx side) x)
    (hF : ∀ fd, F fd → 0 ≤ fd → Unshared (some lis) (m.among t conn) ⟨t, side⟩ fd) :
    Watchful lis t conn (m.put side x) := by
  refine ⟨put_this h.this (Ctx.Moves.this hx), ?_⟩
  rw [among_put, put_sys]
  exact h.alert.moves (x := m.ctx side) (among_self m side) (h.this side) hF hx

/-- Nothing has changed that the poller looks at. -/
theorem beside (h : Watchful lis t conn m) (hb : Beside m n) : Watchful lis t conn n := by
  have hsame : ∀ c, (n.among t conn c).mFd = (m.among t conn c).mFd ∧
      ∀ i, (n.among t conn c).reg i = (m.among t conn c).reg i := by
    intro c
    unfold among
    split
    · refine ⟨(hb.reg _).fd, fun i => ?_⟩
      cases i
      exacts [(hb.reg _).read, (hb.reg _).write]
    · exact ⟨rfl, fun _ => rfl⟩
  refine ⟨fun side => (hb.reg side).this.trans (h.this side), ?_⟩
  rw [hb.sys.poller]
  exact h.alert.congr fun c _ => hsame c

/-- A method that takes over no descriptor. -/
theorem moves (h : Watchful lis t conn m) (hm : Moves (fun _ => False) m n) : Watchful lis t conn n := by
  refine hm.keeps (P := Watchful lis t conn) (fun u v hstep hu => ?_) h
  cases hstep with
  | conn side x step => exact hu.put step.moves fun fd hfd => hfd.elim
  | beside _ hb => exact hu.beside hb

theorem same (h : Watchful lis t conn m) (hp : n.sys.poller = m.sys.poller)
    (hc : ∀ side, n.conn side = m.conn side) : Watchful lis t conn n := by
  have hf : n.among t conn = m.among t conn := by
    funext c
    simp only [among, hc]
  refine ⟨fun side => by rw [hc]; exact h.this side, ?_⟩
  rw [hf, hp]
  exact h.alert

end Watchful

/-- As long as descriptors are fresh, all methods but `acceptLocal` leave the poller right. -/
theorem watchful_rule : Rule fun m n : TunCtx => FreshFds o n.sys.trace →
    FreshFds o m.sys.trace ∧ (Watchful lis t conn m → Watchful lis t conn n) := by
  have follows : ∀ {m n : TunCtx}, Moves (fun _ => False) m n → FreshFds o n.sys.trace →
      FreshFds o m.sys.trace ∧ (Watchful lis t conn m → Watchful lis t conn n) :=
    fun hm hf => ⟨hf.before hm.extends, fun h => h.moves hm⟩
  exact {
    refl := fun _ hf => ⟨hf, id⟩
    trans := fun h k hf => ⟨(h (k hf).1).1, fun hm => (k hf).2 ((h (k hf).1).2 hm)⟩
    shutdown := fun side m => follows (moves_rule.shutdown side m)
    send := fun side data m => follows (moves_rule.send side data m)
    inputRecv := fun side m => follows (moves_rule.inputRecv side m)
    inputFinish := fun side m => follows (moves_rule.inputFinish side m)
    output := fun side m => follows (moves_rule.output side m)
    setEventHandler := fun side b m => follows (moves_rule.setEventHandler side b m)
    setStatus := fun st m => follows (moves_rule.setStatus st m)
    cache := fun c ws m => follows (moves_rule.cache c ws m)
    restart := fun m => follows (moves_rule.restart m)
    take := fun data m h => follows (moves_rule.take data m h)
    insertBroken := fun m => follows (moves_rule.insertBroken m)
    log := fun e he m => follows (moves_rule.log e he m)
    dangling := fun m => follows (moves_rule.dangling m)
    aborted := fun m => follows (moves_rule.aborted m) }

/-- What `socket` returns is fresh, so nobody has it. -/
theorem Ledger.unshared (h : Ledger o {lis} t conn m) {sa : SockAddr} (hdown : (m.conn .proxy).mFd < 0)
    (hf : FreshFds o ((m.ctx .proxy).connect sa).2.1.sys.trace) (hpos : 0 ≤ (m.ctx .proxy).sys.socket.1) :
    Unshared (some lis) (m.among t conn) ⟨t, .proxy⟩ (m.ctx .proxy).sys.socket.1 := by
  rcases (m.ctx .proxy).connect_took sa hdown with ⟨hneg, -⟩ | htook
  · exact absurd hpos (not_le.mpr hneg)
  obtain ⟨fd, rfl, hpre⟩ := htook.opened
  have hnew : FreshFds o (m.sys.trace ++ [.opened (m.ctx .proxy).conn.this (m.ctx .proxy).sys.socket.1]) :=
    hf.before hpre
  have hheld := h.held (hnew.before (List.prefix_append _ _))
  have hclosed : (m.ctx .proxy).sys.socket.1 ∉ openAfter o m.sys.trace := by
    refine hnew.entry _ ?_
    have hthis : (m.ctx .proxy).conn.this = ⟨t, .proxy⟩ := h.this .proxy
    rw [hthis]
    rfl
  refine ⟨fun he => hclosed ?_, fun d _ he => hclosed ?_⟩
  · exact (hheld.mem _).mpr (Or.inl (Finset.mem_singleton.mpr (Option.some.inj he).symm))
  · exact (hheld.mem _).mpr (Or.inr ⟨d, hpos, he⟩)

/-- Both descriptors that `acceptLocal` takes over are nobody's. -/
theorem Watchful.acceptLocal {connfd : ℕ} (h : Watchful lis t conn m)
    (hl : Ledger o (insert (connfd : ℤ) {lis}) t conn m) (hP : (connfd : ℤ) ∉ ({lis} : Finset ℤ)) (hs : m.Shut)
    (hf : FreshFds o (m.acceptLocal connfd).2.sys.trace) : Watchful lis t conn (m.acceptLocal connfd).2 := by
  have hm : FreshFds o m.sys.trace := hf.before (m.acceptLocal_moves connfd hs).extends
  have hacc : Watchful lis t conn (m.put .loc ((m.ctx .loc).acceptConnection connfd).2) := by
    refine h.put ((m.ctx .loc).acceptConnection_moves connfd fun _ => ⟨(hs .loc).read, (hs .loc).write⟩) ?_
    rintro fd rfl hpos
    refine ⟨fun he => hP (Finset.mem_singleton.mpr (Option.some.inj he).symm), fun d _ he => ?_⟩
    exact (hl.held hm).other d (he ▸ hpos) (he ▸ Finset.mem_insert_self _ _)
  have hlacc := hl.accepted (fun _ => hP) (hs .loc).fd
  cases hr : (m.ctx .loc).acceptConnection connfd with
  | mk ok y =>
    rw [hr] at hacc hlacc
    cases ok with
    | false =>
      rw [acceptLocal_of_failed connfd hr]
      exact hacc
    | true =>
      refine (watchful_rule.dials connfd hr (fun hfc => ?_) hf).2 hacc
      have hdial := ledger_rule.dialing y m hlacc
      have hp := (hs .proxy).toDead
      have hmoves := Ctx.connect_moves (m.dialing y).tun.mProxySvrAddr ((m.dialing y).ctx .proxy)
        hp.fd hp.read hp.write
      rw [put_sys] at hfc
      refine ⟨hfc.before hmoves.extends, fun hn => hn.put hmoves ?_⟩
      rintro fd rfl hpos
      exact hdial.unshared hp.fd hfc hpos

/-- Whatever `onAccept` comes to, the poller is right. -/
theorem Watchful.onAccept (cfg : Config) {connfd : ℕ} (h : Watchful lis t conn m)
    (hl : Ledger o (insert (connfd : ℤ) {lis}) t conn m) (hP : (connfd : ℤ) ∉ ({lis} : Finset ℤ))
    (hi : m.tun.Idle) (hf : FreshFds o (m.onAccept cfg connfd).2.sys.trace) :
    Watchful lis t conn (m.onAccept cfg connfd).2 := by
  have hconf := h.moves (m.configured_moves cfg)
  have hshut := configured_shut cfg ((idle_iff m).mp hi).1
  rw [onAccept_eq] at hf ⊢
  split
  · exact hconf.same rfl fun side => conn_log _ side _
  rename_i hill
  rw [if_neg hill] at hf
  simp only at hf ⊢
  have hlocal := fun hfresh => hconf.acceptLocal (hl.configured cfg) hP hshut hfresh
  split
  · rename_i hok
    rw [if_pos hok] at hf
    exact (hlocal hf).same rfl fun side => by cases side <;> rfl
  · rename_i hok
    rw [if_neg hok] at hf
    exact (hlocal (hf.before (List.prefix_append _ _))).same rfl fun side => by rw [conn_insertBroken, conn_log]

theorem onAccept_extends (cfg : Config) (connfd : ℕ) (hi : m.tun.Idle) :
    m.sys.trace <+: (m.onAccept cfg connfd).2.sys.trace := by
  have hconf := (m.configured_moves (F := fun _ => False) cfg).extends
  have hlocal := hconf.trans
    ((m.configured cfg).acceptLocal_moves connfd (configured_shut cfg ((idle_iff m).mp hi).1)).extends
  rw [onAccept_eq]
  split
  · exact hconf.trans (List.prefix_append _ _)
  · simp only
    split
    · exact hlocal
    · exact hlocal.trans (List.prefix_append _ _)

end TunCtx

namespace ProxyClient

variable {o : Finset ℤ} {lis : ℤ} {w : ProxyClient} {t : TunId} {tun : ProxyTunnel}

/-- As long as the kernel returns fresh descriptors, the poller is right. -/
def Attentive (o : Finset ℤ) (lis : ℤ) (w : ProxyClient) : Prop :=
  FreshFds o w.sys.trace → Alert (some lis) w.conn w.sys.poller

theorem Attentive.objects (h : w.Attentive o lis) {v : ProxyClient} (hp : v.sys.poller = w.sys.poller)
    (htr : w.sys.trace <+: v.sys.trace)
    (hc : ∀ c, v.conn c = w.conn c ∨ (v.conn c).mFd < 0 ∧ (w.conn c).mFd < 0) : v.Attentive o lis := by
  intro hf
  rw [hp]
  refine (h (hf.before htr)).congr fun c hpos => ?_
  rcases hc c with he | ⟨h1, h2⟩
  · rw [he]
    exact ⟨rfl, fun _ => rfl⟩
  · omega

theorem Attentive.outside (h : w.Attentive o lis) {v : ProxyClient} (hp : v.sys.poller = w.sys.poller)
    (htr : w.sys.trace <+: v.sys.trace) (ht : v.tunnels = w.tunnels) : v.Attentive o lis :=
  h.objects hp htr fun c => Or.inl (congrFun (conn_of_tunnels ht) c)

theorem enter_watchful (h : Alert (some lis) w.conn w.sys.poller) (hp : w.Pooled) (ht : w.tunnels t = some tun) :
    (w.enter tun).Watchful lis t w.conn :=
  ⟨hp.addressed ht, by rw [among_conn ht]; exact h⟩

theorem leave_attentive {m : TunCtx} (h : FreshFds o m.sys.trace → m.Watchful lis t w.conn) :
    (w.leave t m).Attentive o lis := by
  intro hf
  rw [leave_conn]
  exact (h hf).alert

theorem newTunnel_attentive (hp : w.Pooled) (h : w.Attentive o lis) : w.newTunnel.2.Attentive o lis :=
  h.objects (by rw [newTunnel_sys]) (by rw [newTunnel_sys]) (newTunnel_conn hp)

theorem reclaimTunnel_attentive (ht : w.tunnels t = some tun) (hi : tun.Idle) (h : w.Attentive o lis) :
    (w.reclaimTunnel t).Attentive o lis :=
  h.objects (by rw [reclaimTunnel_sys ht hi]) (by rw [reclaimTunnel_sys ht hi]) (reclaimTunnel_conn ht hi)

section Run

variable (cfg : Config)

theorem onAccept_attentive (connfd : ℕ) (hp : w.Pooled) (hl : w.Ledger o (insert (connfd : ℤ) {lis}))
    (hP : FreshFds o w.sys.trace → (connfd : ℤ) ∉ ({lis} : Finset ℤ)) (h : w.Attentive o lis) :
    (w.onAccept cfg connfd).Attentive o lis := by
  have hlnew := newTunnel_ledger hp hl
  have hnew := newTunnel_attentive hp h
  obtain ⟨hv, tun, ht, hi, -, -⟩ := hp.newTunnel
  rw [← w.newTunnel_sys] at hP
  rw [onAccept_eq cfg connfd ht]
  have hm : FreshFds o ((w.newTunnel.2.enter tun).onAccept cfg connfd).2.sys.trace →
      ((w.newTunnel.2.enter tun).onAccept cfg connfd).2.Watchful lis w.newTunnel.1 w.newTunnel.2.conn := by
    intro hf
    have hbefore : FreshFds o w.newTunnel.2.sys.trace := hf.before
      (TunCtx.onAccept_extends cfg connfd (m := w.newTunnel.2.enter tun) hi)
    exact (enter_watchful (hnew hbefore) hv ht).onAccept cfg (hlnew.enter hv ht) (hP hbefore) hi hf
  simp only
  split
  · rename_i hill
    have hidle := TunCtx.onAccept_idle connfd hill (m := w.newTunnel.2.enter tun) hi
    exact reclaimTunnel_attentive (Function.update_self ..) hidle (leave_attentive hm)
  · exact leave_attentive hm

/-- Besides, the poller is right. -/
theorem attentive_rule : PoolRule cfg fun w => w.Ledger o {lis} ∧ w.Attentive o lis where
  resume _ h := ⟨h.1.outside rfl rfl, h.2.outside rfl (List.prefix_refl _) rfl⟩
  refused _ poller log h := ⟨h.1.outside log rfl, h.2.outside poller (by rw [log]) rfl⟩
  accepted := fun {w} n s poller log hp h => by
    obtain ⟨hl, hP⟩ := h.1.accepted n (v := { w with sys := s }) log rfl
    refine ⟨onAccept_ledger cfg n hp hl hP, onAccept_attentive cfg n hp hl hP ?_⟩
    exact h.2.outside poller (by rw [log]; exact List.prefix_append _ _) rfl
  notify := fun {w} {t} {tun} n ht _ hp h => by
    have hmoves := (w.enter tun).notify_moves (F := fun _ => False) n
    refine ⟨leave_ledger (TunCtx.ledger_rule.notify n _ (h.1.enter hp ht)), leave_attentive fun hf => ?_⟩
    exact (enter_watchful (h.2 (hf.before hmoves.extends)) hp ht).moves hmoves
  reclaimTunnel ht hi h := ⟨reclaimTunnel_ledger ht hi h.1, reclaimTunnel_attentive ht hi h.2⟩
  reclaimed h := ⟨h.1.outside rfl rfl, h.2.outside rfl (List.prefix_refl _) rfl⟩

/-- The poller that `initialise` leaves knows the listener only. -/
theorem initialise_attentive {mFd : ℤ} (h : initialise mFd = some w) : w.Attentive {mFd} mFd := by
  intro _
  have hwatched := (initialise_pooled h).watched
  unfold initialise at h
  split at h
  · cases h
  rename_i p hreg
  obtain rfl := Option.some.inj h
  have hpoll : p = SelectPoller.new.register .read mFd Watcher.listener := (congrArg Prod.snd hreg).symm
  have hvalid : ¬invalidFd mFd := by
    intro hbad
    have hno : (SelectPoller.new.registerForRead mFd Watcher.listener).1 = false := by
      simp [registerForRead, doRegisterForRead, hbad]
    rw [hreg] at hno
    cases hno
  have hnone : ∀ i fd, (SelectPoller.new : SelectPoller Watcher).find i fd = none := fun i fd => by
    cases i <;> rfl
  have hfind : ∀ i fd, p.find i fd = if i = .read ∧ fd = mFd then some .listener else none := by
    intro i fd
    rw [hpoll, register_find new_sound, hnone, hnone]
    simp [hvalid]
  have hneg : ∀ c, ((start p).conn c).mFd < 0 := fun _ => neg_one_lt_zero
  refine ⟨hwatched, fun i d _ hpos => absurd hpos (not_le.mpr (hneg d)),
    fun c hpos => absurd hpos (not_le.mpr (hneg c)), fun fd he => ?_, fun i fd hl => ?_⟩
  · exact (hfind .read fd).trans (if_pos ⟨rfl, (Option.some.inj he).symm⟩)
  · have hl' := (hfind i fd).symm.trans hl
    split at hl'
    · rename_i hown
      exact ⟨hown.1, congrArg some hown.2.symm⟩
    · cases hl'

theorem later_attentive {mFd : ℤ} {u : ProxyClient} (h0 : initialise mFd = some u) (h : Later cfg u w) :
    w.Attentive {mFd} mFd :=
  ((attentive_rule cfg).later h0 ⟨initialise_ledger h0, initialise_attentive h0⟩ h).2.2

/-- In every state of a run the poller calls the listener, and each connection for
what it takes itself for registered if its descriptor fits in an `fd_set`; it calls
nobody else. -/
theorem poller_calls_iff {mFd : ℤ} {u : ProxyClient} (h0 : initialise mFd = some u) (h : Later cfg u w)
    (hk : FreshFds {mFd} w.sys.trace) (i : Interest) (fd : ℤ) (hd : Watcher) :
    w.sys.poller.find i fd = some hd ↔ (hd = .listener ∧ i = .read ∧ fd = mFd) ∨
      ∃ c, hd = .conn c ∧ (w.conn c).mFd = fd ∧ (w.conn c).reg i = true ∧ 0 ≤ fd ∧ fd < FD_SETSIZE := by
  have ha := later_attentive cfg h0 h hk
  constructor
  · intro hf
    cases hd with
    | listener =>
      obtain ⟨hi, hfd⟩ := ha.lone i fd hf
      exact Or.inl ⟨rfl, hi, (Option.some.inj hfd).symm⟩
    | conn c =>
      -- the poller never takes a descriptor that does not fit
      obtain ⟨h1, h2⟩ := ha.held i fd c hf
      have hvalid := not_or.mp (valid_of_find ha.sound hf)
      exact Or.inr ⟨c, rfl, h1, h2, not_lt.mp hvalid.1, not_le.mp hvalid.2⟩
  · rintro (⟨rfl, rfl, rfl⟩ | ⟨c, rfl, rfl, hreg, hpos, hfits⟩)
    · exact ha.listener _ rfl
    · exact ha.called i c hreg hpos hfits

end Run

theorem poller_calls_iff_serving :
    serving.sys.poller.find .read 3 = some .listener ∧
      serving.sys.poller.find .read 4 = some (.conn ⟨0, .loc⟩) := by
  have h := poller_calls_iff exampleConfig (show initialise 3 = some listening from rfl) serving_later serving_fresh
  refine ⟨(h .read 3 _).mpr (Or.inl ⟨rfl, rfl, rfl⟩), (h .read 4 _).mpr (Or.inr ⟨⟨0, .loc⟩, rfl, ?_, ?_, ?_⟩)⟩
  · decide +kernel
  · decide +kernel
  · decide

end ProxyClient

end HttpsProxy
