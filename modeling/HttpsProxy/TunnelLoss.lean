import HttpsProxy.Descriptors
import HttpsProxy.SendAnswers
import HttpsProxy.TunnelPool

/-! Whether the client still has every tunnel it has made. The handler of a tunnel
is installed behind `acceptLocal`, too late for what goes wrong inside it. -/
namespace HttpsProxy

namespace Sys

/-- The first `::send` of `data` is answered in a way that `checkSocketErrors`
takes for an error: -1, or a part only with an old error in `errno`. -/
def Refuses (data : Bytes) (s : Sys) : Prop :=
  firstShort [data] s.env.sends ≠ none ∧ ¬(errnoAfter (firstShort [data] s.env.sends) s.errno).again

/-- The tunnel can be opened, `::connect` succeeds at once, and the request is
refused. -/
def FailsInside (request : Bytes) (s : Sys) : Prop :=
  s.env.Opens ∧ s.env.connects.headD (.fail .EINPROGRESS) = .ok ∧ s.Refuses request

end Sys

namespace Ctx

theorem acceptConnection_errno (connfd : ℤ) {x : Ctx} (h : (x.acceptConnection connfd).1 = true) :
    (x.acceptConnection connfd).2.sys.errno = x.sys.errno := by
  unfold acceptConnection at h ⊢
  split at h
  · cases h
  rename_i hfd
  let y := Ctx.log (.opened x.conn.this connfd) { x with conn.mFd := connfd }
  cases hn : y.sys.setNonblocking with
  | mk ok s =>
    have herr : ok = true → s.errno = x.sys.errno := fun hok => by
      have he := y.sys.setNonblocking_errno
      rw [hn] at he
      exact he hok
    rw [if_neg hfd]
    simp only [y, hn] at h ⊢
    cases ok with
    | false => cases h
    | true => exact (tryRegReadEvent_sys _).1.trans (herr rfl)

theorem dial_asks (sa : SockAddr) {x : Ctx} (h : (x.dial sa).2.2 ≠ none) :
    x.sys.env.connects.headD (.fail .EINPROGRESS) = .ok ∧
      (x.dial sa).2.1.sys.errno = x.sys.errno ∧ (x.dial sa).2.1.sys.env.sends = x.sys.env.sends := by
  unfold dial Sys.connect at h ⊢
  cases hr : x.sys.env.connects.headD (.fail .EINPROGRESS) with
  | ok =>
    simp only [if_true, established]
    split <;> simp [setStatus, log, Sys.log]
  | fail e =>
    rw [hr] at h
    simp only [Bool.false_eq_true, if_false] at h
    split at h <;> exact absurd rfl h

/-- A connection that calls `onConnected` from inside `connect`. -/
theorem connect_asks (sa : SockAddr) {x : Ctx} (hx : x.conn.mFd < 0) (h : (x.connect sa).2.2 ≠ none) :
    x.sys.env.connects.headD (.fail .EINPROGRESS) = .ok ∧
      (x.connect sa).2.1.sys.errno = x.sys.errno ∧ (x.connect sa).2.1.sys.env.sends = x.sys.env.sends := by
  rcases x.connect_dials sa hx with ⟨-, -, y, heq, herr, henv⟩ | ⟨-, -, hnone⟩
  · rw [heq] at h ⊢
    obtain ⟨hc, he, hs⟩ := dial_asks sa h
    rw [henv] at hc hs
    exact ⟨hc, he.trans herr, hs⟩
  · exact absurd hnone h

/-- `send` on a connection with nothing queued. -/
theorem send_refused (data : Bytes) {x : Ctx} (hfd : 0 ≤ x.conn.mFd) (hst : x.conn.mConnStatus = .Connected)
    (hq : x.conn.mTcpPacketList = []) (h : (x.send data).2 ≠ none) : x.sys.Refuses data := by
  obtain ⟨z, rest, ha, -, -, -, -, -, heq⟩ := x.send_answered data hfd hst (by simp [hq, Unspent])
  have hqueued : x.queued ++ [data] = [data] := by simp [queued, hq]
  rw [hqueued] at ha heq
  rw [heq] at h
  split at h
  · exact absurd rfl h
  rename_i hshort
  refine ⟨hshort, fun hagain => h ?_⟩
  have hz : z.sys.errno.again := by
    rw [ha.errno]
    exact hagain
  simp [sendRest, checkSocketErrors, hz]

end Ctx

namespace TunCtx

/-- The first thing sent to the proxy server either leaves the client's side alone,
or gets the tunnel among the broken ones, or there is nobody to tell. -/
theorem sendProxy_kept (data : Bytes) {m : TunCtx} (hfd : ∀ side, 0 ≤ (m.conn side).mFd)
    (hst : (m.conn .proxy).mConnStatus = .Connected) (hq : (m.conn .proxy).mTcpPacketList = []) :
    0 ≤ ((m.sendProxy data).conn .loc).mFd ∨
      (m.sendProxy data).tun.this ∈ (m.sendProxy data).mBrokenTuns ∨
      m.tun.mHandler = false ∧ m.sys.Refuses data := by
  by_cases hcb : ((m.ctx .proxy).send data).2 = none
  · have hput : m.sendProxy data = m.put .proxy ((m.ctx .proxy).send data).1 := by
      unfold sendProxy Owner.run
      simp only [hcb]
      rfl
    rw [hput]
    exact Or.inl (hfd .loc)
  · cases hm : m.tun.mHandler with
    | false => exact Or.inr (Or.inr ⟨rfl, Ctx.send_refused data (x := m.ctx .proxy) (hfd .proxy) hst hq hcb⟩)
    | true =>
      rcases (told_flushing.sendProxy data m).told hm with ht | ht
      · exact Or.inr (Or.inl ht)
      · exact Or.inl ((ht .loc).symm ▸ hfd .loc)

/-- An opened tunnel keeps its client, or tells of the loss, or cannot tell. -/
theorem acceptLocal_kept (connfd : ℕ) {m : TunCtx} (h : m.Shut) (hok : (m.acceptLocal connfd).1 = true) :
    0 ≤ ((m.acceptLocal connfd).2.conn .loc).mFd ∨
      (m.acceptLocal connfd).2.tun.this ∈ (m.acceptLocal connfd).2.mBrokenTuns ∨
      m.tun.mHandler = false ∧ m.sys.FailsInside m.tun.connectRequest := by
  have hopens := (acceptLocal_ok connfd h).mp hok
  have herr := (m.ctx .loc).acceptConnection_errno connfd
  have henv := ((m.ctx .loc).acceptConnection_ok connfd (h .loc).fd).2
  cases hr : (m.ctx .loc).acceptConnection connfd with
  | mk ok y =>
  cases ok with
  | false =>
    rw [acceptLocal_of_failed connfd hr] at hok
    cases hok
  | true =>
    have hd := dialing_spec connfd h hr
    have hspec := ((m.dialing y).ctx .proxy).connect_spec (m.dialing y).tun.mProxySvrAddr hd.dead.fd
    have hasks := Ctx.connect_asks (m.dialing y).tun.mProxySvrAddr (x := (m.dialing y).ctx .proxy) hd.dead.fd
    have hh : ((m.dialing y).ctx .proxy).conn.mHandler = true := rfl
    rw [hr] at herr henv
    have henv' : y.sys.env = { m.sys.env with fcntls := m.sys.env.fcntls.drop 2 } := henv rfl
    rw [acceptLocal_of_opened connfd hr] at hok ⊢
    unfold dial at hok ⊢
    generalize ((m.dialing y).ctx .proxy).connect (m.dialing y).tun.mProxySvrAddr = r at hspec hasks hok ⊢
    cases hspec with
    | failed => cases hok
    | connecting x => exact Or.inl hd.fd
    | connected x fd hfd hx _ =>
      simp only [hh, if_true] at hasks ⊢
      obtain ⟨hcon, herr', hsends⟩ := hasks (by simp)
      -- the request is sent from inside `connect`
      let k := (m.dialing y).asking (x.log (.onConnected ((m.dialing y).conn .proxy).this))
      have hkp : k.conn .proxy = x.conn := rfl
      have hk := sendProxy_kept m.tun.connectRequest (m := k)
        (fun side => by cases side; exacts [hd.fd, by rw [hkp, hx]; exact hfd])
        (by rw [hkp, hx]) (by rw [hkp, hx]; exact hd.dead.queue)
      refine Or.imp id (Or.imp id fun hno => ⟨hno.1, hopens, ?_, ?_⟩) hk
      · have hconn : y.sys.env.connects.headD (.fail .EINPROGRESS) = .ok := hcon
        rwa [show y.sys.env.connects = m.sys.env.connects by rw [henv']] at hconn
      · have herrno : k.sys.errno = m.sys.errno := herr'.trans (herr rfl)
        have hsend : k.sys.env.sends = m.sys.env.sends :=
          hsends.trans (show y.sys.env.sends = _ by rw [henv'])
        have href := hno.2
        rwa [Sys.Refuses, hsend, herrno] at href

theorem onAccept_kept (cfg : Config) (connfd : ℕ) {m : TunCtx} (h : m.Shut)
    (hp : cfg.pton cfg.mProxyIp ≠ .error) :
    0 ≤ ((m.onAccept cfg connfd).2.conn .loc).mFd ∨
      (m.onAccept cfg connfd).2.tun.this ∈ (m.onAccept cfg connfd).2.mBrokenTuns ∨
      m.tun.mHandler = false ∧ m.sys.FailsInside (m.configured cfg).tun.connectRequest := by
  obtain ⟨-, -, -, hhandler, -, hsys⟩ := m.configured_same cfg
  have hshut := configured_shut cfg h
  rw [onAccept_eq, if_neg hp]
  simp only
  split
  · rename_i hok
    have hk := acceptLocal_kept connfd hshut hok
    rw [hhandler, hsys] at hk
    exact hk
  · exact Or.inr (Or.inl (mem_insertBroken _))

end TunCtx

namespace ProxyClient

/-- `onAccept` called now loses the tunnel it gets: one that has no handler yet, and
whose request is refused inside `connect`. -/
def Loses (cfg : Config) (w : ProxyClient) : Prop :=
  let (t, w) := w.newTunnel
  cfg.pton cfg.mProxyIp ≠ .error ∧ ∃ tun, w.tunnels t = some tun ∧ tun.mHandler = false ∧
    w.sys.FailsInside ((w.enter tun).configured cfg).tun.connectRequest

/-- The states in which `acceptLoop` calls `onAccept`. -/
def acceptCalls (cfg : Config) : ℕ → ProxyClient → List ProxyClient
  | 0, _ => []
  | n+1, w =>
    let (connfd, s) := w.sys.accept
    let v := { w with sys := s }
    if connfd < 0 then []
    else
      let u := v.onAccept cfg connfd
      v :: if u.halted then [] else acceptCalls cfg n u

/-- No tunnel is lost in the calls of `onAccept` that this step makes. -/
def Spares (cfg : Config) (w : ProxyClient) : ClientAction → Prop
  | .callback .read fd a =>
    (w.resume a).sys.poller.find .read fd = some .listener →
      ∀ v ∈ (w.resume a).acceptCalls cfg 32, ¬v.Loses cfg
  | _ => True

/-- The client still has the tunnel: it is in session, or in one of the lists. -/
def Kept (w : ProxyClient) (t : TunId) : Prop :=
  ∀ tun, w.tunnels t = some tun → 0 ≤ tun.mLocalConn.mFd ∨ t ∈ w.mFreeTuns ∨ t ∈ w.mBrokenTuns

section Steps

variable {w : ProxyClient} {t : TunId} {tun : ProxyTunnel}

theorem leave_kept_of_ne {m : TunCtx} {u : TunId} (hu : u ≠ t) (h : w.Kept u)
    (hb : w.mBrokenTuns ⊆ m.mBrokenTuns) : (w.leave t m).Kept u := fun tun' hu' =>
  (h tun' ((Function.update_of_ne hu ..).symm.trans hu')).imp id (Or.imp id fun hm => hb hm)

theorem leave_kept {m : TunCtx} (h : ∀ u, u ≠ t → w.Kept u) (hb : w.mBrokenTuns ⊆ m.mBrokenTuns)
    (hm : 0 ≤ (m.conn .loc).mFd ∨ t ∈ w.mFreeTuns ∨ t ∈ m.mBrokenTuns) (u : TunId) :
    (w.leave t m).Kept u := by
  by_cases hut : u = t
  · subst hut
    intro tun' hu
    have hself : (w.leave u m).tunnels u = some m.tun := Function.update_self ..
    obtain rfl := Option.some.inj (hself.symm.trans hu)
    exact hm
  · exact leave_kept_of_ne hut (h u hut) hb

theorem reclaimTunnel_kept (h : ∀ u, u ≠ t → w.Kept u) (ht : w.tunnels t = some tun) (hi : tun.Idle)
    (u : TunId) : (w.reclaimTunnel t).Kept u := by
  unfold reclaimTunnel
  split
  · rw [deleteTunnel_of_idle ht hi]
    intro tun' hu
    have hut : u ≠ t := fun hut => by
      rw [hut] at hu
      cases (Function.update_self ..).symm.trans hu
    exact h u hut tun' ((Function.update_of_ne hut ..).symm.trans hu)
  · intro tun' hu
    by_cases hut : u = t
    · exact Or.inr (Or.inl (hut ▸ List.mem_append_right _ (List.mem_singleton.mpr rfl)))
    · exact (h u hut tun' hu).imp id (Or.imp (fun hm => List.mem_append_left _ hm) id)

/-- Only the tunnel it returns leaves the lists. -/
theorem newTunnel_kept (h : ∀ u, w.Kept u) (u : TunId) (hu : u ≠ w.newTunnel.1) : w.newTunnel.2.Kept u := by
  intro tun hu'
  cases hfree : w.mFreeTuns with
  | nil =>
    rw [newTunnel_of_nil hfree] at hu hu' ⊢
    exact h u tun ((Function.update_of_ne hu ..).symm.trans hu')
  | cons t ts =>
    rw [newTunnel_of_cons hfree] at hu hu' ⊢
    have hk := h u tun hu'
    rw [hfree, List.mem_cons] at hk
    exact hk.imp id (Or.imp (fun hm => hm.resolve_left hu) id)

theorem onAccept_kept (cfg : Config) (connfd : ℕ) (hp : w.Pooled) (h : ∀ u, w.Kept u) (hl : ¬w.Loses cfg)
    (u : TunId) : (w.onAccept cfg connfd).Kept u := by
  obtain ⟨hv, tun, ht, hi, -, -⟩ := hp.newTunnel
  have hrest := newTunnel_kept h
  rw [onAccept_eq cfg connfd ht]
  simp only [Loses] at hl
  generalize w.newTunnel = r at hv ht hrest hl ⊢
  obtain ⟨t, v⟩ := r
  simp only at hv ht hrest hl ⊢
  let m := v.enter tun
  have hbroken : v.mBrokenTuns ⊆ (m.onAccept cfg connfd).2.mBrokenTuns := by
    rcases m.onAccept_grown cfg connfd with hb | hb
    · exact hb ▸ List.Subset.refl _
    · exact hb ▸ m.subset_insertBroken
  split
  · rename_i hill
    have hm : (m.onAccept cfg connfd).2 = (m.configured cfg).log (.close connfd) := by
      rw [TunCtx.onAccept_eq, if_pos hill]
    refine reclaimTunnel_kept (fun u hu => leave_kept_of_ne hu (hrest u hu) hbroken)
      (Function.update_self ..) ?_ u
    rw [hm]
    exact TunCtx.configured_idle cfg hi
  · rename_i hill
    refine leave_kept hrest hbroken ?_ u
    rcases TunCtx.onAccept_kept cfg connfd ((TunCtx.idle_iff m).mp hi).1 hill with hk | hk | ⟨hno, hfail⟩
    · exact Or.inl hk
    · rw [(TunCtx.onAccept_shaped cfg connfd (m := m) hi).1, show m.tun.this = t from (hv.named t tun ht).1] at hk
      exact Or.inr (Or.inr hk)
    · exact absurd ⟨hill, tun, ht, hno, hfail⟩ hl

theorem acceptLoop_kept (cfg : Config) (n : ℕ) (hp : w.Pooled) (h : ∀ u, w.Kept u)
    (hl : ∀ v ∈ w.acceptCalls cfg n, ¬v.Loses cfg) (u : TunId) : (w.acceptLoop cfg n).Kept u := by
  induction n generalizing w with
  | zero => exact h u
  | succ n ih =>
    unfold acceptCalls Sys.accept at hl
    unfold acceptLoop acceptOne Sys.accept
    cases hr : w.sys.env.accepts.headD (.fail .EAGAIN) with
    | fail e => exact h u
    | fd k =>
      have hpos : ¬(k : ℤ) < 0 := by omega
      rw [hr] at hl
      simp only [if_neg hpos] at hl ⊢
      generalize hv : ({ w with
        sys := Sys.log (.accepted (k : ℤ)) { w.sys with env.accepts := w.sys.env.accepts.tail } } :
        ProxyClient) = v at hl ⊢
      have hvp : v.Pooled := hv ▸ hp.outside w.stdio w.dangling rfl
      have hvk : ∀ u, v.Kept u := fun u => hv ▸ h u
      have hnext := onAccept_kept cfg k hvp hvk (hl v List.mem_cons_self)
      simp only [Bool.true_and]
      split
      · rename_i hgo
        have hno : ¬(v.onAccept cfg k).halted = true := by simpa using hgo
        refine ih (onAccept_pooled cfg k hvp) hnext fun x hx => hl x (List.mem_cons_of_mem v ?_)
        rw [if_neg hno]
        exact hx
      · exact hnext u

theorem notify_kept (hp : w.Pooled) (h : ∀ u, w.Kept u) {i : Interest} {fd : ℤ} {c : ConnId}
    (hc : w.sys.poller.find i fd = some (.conn c)) (n : Notice) (u : TunId) :
    (w.call c.tun fun m => ((), m.notify n)).2.Kept u := by
  obtain ⟨tun, ht, hl⟩ := hp.live hc
  have htold := (w.enter tun).notify_told n
  rw [call_of_some _ ht]
  refine leave_kept (fun u _ => h u) ?_ ?_ u
  · rcases htold.broken with hb | hb
    · exact hb ▸ List.Subset.refl _
    · exact hb ▸ (w.enter tun).subset_insertBroken
  · rcases htold.told hl.mHandler with hm | hm
    · rw [htold.this, show (w.enter tun).tun.this = c.tun from (hp.named c.tun tun ht).1] at hm
      exact Or.inr (Or.inr hm)
    · exact Or.inl ((hm .loc).symm ▸ hl.fd .loc)

theorem reclaimAll_kept (order : List TunId) {w : ProxyClient}
    (hp : ({ w with mBrokenTuns := order } : ProxyClient).Pooled)
    (h : ∀ u, ({ w with mBrokenTuns := order } : ProxyClient).Kept u) (u : TunId) :
    ({ order.foldl (fun w t => w.reclaimTunnel t) w with mBrokenTuns := [] } : ProxyClient).Kept u := by
  induction order generalizing w with
  | nil => exact h u
  | cons t order ih =>
    refine ih (reclaimNext_pooled hp) fun u => ?_
    obtain ⟨tun, ht, hi⟩ := hp.broken t List.mem_cons_self
    have hrest : ∀ u, u ≠ t → ({ w with mBrokenTuns := order } : ProxyClient).Kept u :=
      fun u hu tun' hu' => (h u tun' hu').imp id (Or.imp id fun hm => (List.mem_cons.mp hm).resolve_left hu)
    rw [reclaimTunnel_broken]
    exact reclaimTunnel_kept (t := t) hrest ht hi u

theorem next_kept (cfg : Config) {a : ClientAction} (hp : w.Pooled) (h : ∀ u, w.Kept u) (he : w.Enabled a)
    (hs : w.Spares cfg a) (u : TunId) : (w.next cfg a).Kept u := by
  cases a with
  | callback i fd a =>
    have hp' : (w.resume a).Pooled := hp.outside a.stdio w.dangling rfl
    have hk' : ∀ u, (w.resume a).Kept u := h
    change ((w.resume a).trigger cfg i fd).Kept u
    unfold trigger
    split
    · exact hk' u
    · rename_i hd hfind
      cases hd with
      | listener =>
        cases i
        exacts [acceptLoop_kept cfg 32 hp' hk' (hs hfind) u, hk' u]
      | conn c =>
        cases i
        exacts [notify_kept hp' hk' hfind (.input c.side) u, notify_kept hp' hk' hfind (.output c.side) u]
  | reclaim order =>
    refine reclaimAll_kept order (hp.brokenSubset (he.2.nodup_iff.mpr hp.brokenNodup) fun t => he.2.mem_iff.mp)
      (fun u tun hu => (h u tun hu).imp id (Or.imp id he.2.mem_iff.mpr)) u

theorem reaches_kept (cfg : Config) (h : Reaches cfg (Spares cfg) w) (u : TunId) : w.Kept u := by
  induction h generalizing u with
  | start mFd w h =>
    intro tun hu
    unfold initialise at h
    split at h
    · cases h
    · obtain rfl := Option.some.inj h
      cases hu
  | step a hr he hs ih => exact next_kept cfg (reaches_pooled cfg hr) ih he hs u

/-- No tunnel is lost, if none is in the accepts: at the end of every iteration of
`runLoop` each tunnel has its client or is free. -/
theorem no_tunnel_lost (cfg : Config) (h : Reaches cfg (Spares cfg) w) {order : List TunId}
    (he : w.Enabled (.reclaim order)) (t : TunId) (tun : ProxyTunnel)
    (ht : (w.next cfg (.reclaim order)).tunnels t = some tun) :
    0 ≤ tun.mLocalConn.mFd ∨ t ∈ (w.next cfg (.reclaim order)).mFreeTuns := by
  have hk := next_kept cfg (reaches_pooled cfg h) (reaches_kept cfg h) he trivial t tun ht
  exact hk.imp id fun hm => hm.resolve_right List.not_mem_nil

end Steps

/-- The proxy server refuses the request of a new tunnel at once. -/
def refusedAtOnce : ProxyClient :=
  listening.next exampleConfig (.callback .read 3
    ⟨.other 0, { accepts := [.fd 4], sockets := [.fd 5], connects := [.ok], sends := [.fail .EPIPE] }, []⟩)

theorem no_tunnel_lost_serving :
    ∃ tun, (serving.next exampleConfig (.reclaim [])).tunnels 0 = some tun ∧
      (0 ≤ tun.mLocalConn.mFd ∨ 0 ∈ (serving.next exampleConfig (.reclaim [])).mFreeTuns) := by
  let a : Answers := ⟨.other 0, { accepts := [.fd 4], sockets := [.fd 5] }, []⟩
  have hconnects : ((listening.resume a).acceptCalls exampleConfig 32).map
      (fun v => v.newTunnel.2.sys.env.connects) = [[]] := by decide +kernel
  have hspares : listening.Spares exampleConfig (.callback .read 3 a) := by
    intro _ v hv hl
    obtain ⟨-, tun, -, -, -, hok, -⟩ := hl
    have hnil := List.mem_map_of_mem (f := fun v : ProxyClient => v.newTunnel.2.sys.env.connects) hv
    rw [hconnects, List.mem_singleton] at hnil
    have hok' : v.newTunnel.2.sys.env.connects.headD (.fail .EINPROGRESS) = .ok := hok
    rw [hnil] at hok'
    cases hok'
  have hr : Reaches exampleConfig (Spares exampleConfig) serving :=
    .step _ (.start 3 listening rfl) rfl hspares
  obtain ⟨tun, ht⟩ := Option.isSome_iff_exists.mp
    (show ((serving.next exampleConfig (.reclaim [])).tunnels 0).isSome from by decide +kernel)
  exact ⟨tun, ht, no_tunnel_lost exampleConfig hr ⟨by decide +kernel, by decide +kernel⟩ 0 tun ht⟩

/-- A tunnel that is neither in session nor free. -/
theorem tunnel_lost : ¬∀ (cfg : Config) (w : ProxyClient), Reachable cfg w → ∀ order,
    w.Enabled (.reclaim order) → ∀ t tun, (w.next cfg (.reclaim order)).tunnels t = some tun →
      0 ≤ tun.mLocalConn.mFd ∨ t ∈ (w.next cfg (.reclaim order)).mFreeTuns := by
  intro h
  have hr : Reachable exampleConfig refusedAtOnce := .step _ (.start 3 listening rfl) rfl trivial
  have he : refusedAtOnce.Enabled (.reclaim []) := ⟨by decide +kernel, by decide +kernel⟩
  have hfd : ((refusedAtOnce.next exampleConfig (.reclaim [])).tunnels 0).map
      (fun tun => tun.mLocalConn.mFd) = some (-1) := by decide +kernel
  have hfree : (refusedAtOnce.next exampleConfig (.reclaim [])).mFreeTuns = [] := by decide +kernel
  obtain ⟨tun, ht, hneg⟩ := Option.map_eq_some_iff.mp hfd
  rcases h exampleConfig refusedAtOnce hr [] he 0 tun ht with hk | hk
  · rw [hneg] at hk
    exact absurd hk (by decide)
  · rw [hfree] at hk
    cases hk

end ProxyClient

end HttpsProxy
