import HttpsProxy.ProxyClient

/-! What a step of `runLoop` consists of. A relation that holds over each of these
pieces, and from one to the next, holds over every run. -/
namespace HttpsProxy

namespace ProxyClient

/-- `Q` holds between the states before and after each piece. -/
structure Rule (cfg : Config) (Q : ProxyClient → ProxyClient → Prop) : Prop where
  refl (w : ProxyClient) : Q w w
  trans {u v w : ProxyClient} : Q u v → Q v w → Q u w
  resume (a : Answers) (w : ProxyClient) : Q w (w.resume a)
  accept (w : ProxyClient) : Q w { w with sys := w.sys.accept.2 }
  newTunnel (w : ProxyClient) : Q w w.newTunnel.2
  onAccept (t : TunId) (connfd : ℤ) (w : ProxyClient) : Q w (w.call t (TunCtx.onAccept cfg connfd)).2
  notify (t : TunId) (n : Notice) (w : ProxyClient) : Q w (w.call t fun m => ((), m.notify n)).2
  deleteTunnel (t : TunId) (w : ProxyClient) : Q w (w.deleteTunnel t)
  lists (mFreeTuns mBrokenTuns : List TunId) (w : ProxyClient) :
    Q w { w with mFreeTuns := mFreeTuns, mBrokenTuns := mBrokenTuns }

/-- From `w` on, `runLoop` comes to `v`. -/
def Later (cfg : Config) : ProxyClient → ProxyClient → Prop :=
  Relation.ReflTransGen fun w v => ∃ a, w.Enabled a ∧ v = w.next cfg a

namespace Rule

variable {cfg : Config} {Q : ProxyClient → ProxyClient → Prop} (r : Rule cfg Q)

include r

theorem reclaimTunnel (t : TunId) (w : ProxyClient) : Q w (w.reclaimTunnel t) := by
  unfold ProxyClient.reclaimTunnel
  split
  · exact r.deleteTunnel t w
  · exact r.lists _ w.mBrokenTuns w

theorem accepted (connfd : ℤ) (w : ProxyClient) : Q w (w.onAccept cfg connfd) := by
  have hnew := r.newTunnel w
  have hcall := r.trans hnew (r.onAccept w.newTunnel.1 connfd w.newTunnel.2)
  unfold ProxyClient.onAccept
  simp only
  generalize w.newTunnel.2.call w.newTunnel.1 (TunCtx.onAccept cfg connfd) = c at hcall ⊢
  split
  · exact r.trans hcall (r.reclaimTunnel _ _)
  · exact hcall

theorem acceptLoop (n : ℕ) (w : ProxyClient) : Q w (w.acceptLoop cfg n) := by
  have hone (w : ProxyClient) : Q w (w.acceptOne cfg).2 := by
    unfold acceptOne
    simp only
    split
    · exact r.accept w
    · exact r.trans (r.accept w) (r.accepted _ _)
  induction n generalizing w with
  | zero => exact r.refl w
  | succ n ih =>
    unfold ProxyClient.acceptLoop
    simp only
    split
    · exact r.trans (hone w) (ih _)
    · exact hone w

theorem trigger (i : Interest) (fd : ℤ) (w : ProxyClient) : Q w (w.trigger cfg i fd) := by
  unfold ProxyClient.trigger
  split
  · exact r.refl w
  · rename_i h _
    cases i <;> cases h with
    | listener => first | exact r.acceptLoop 32 w | exact r.refl w
    | conn c => exact r.notify c.tun _ w

theorem reclaimAll (order : List TunId) (w : ProxyClient) :
    Q w (order.foldl (fun w t => w.reclaimTunnel t) w) := by
  induction order generalizing w with
  | nil => exact r.refl w
  | cons t order ih => exact r.trans (r.reclaimTunnel t w) (ih _)

theorem next (a : ClientAction) (w : ProxyClient) : Q w (w.next cfg a) := by
  cases a with
  | callback i fd a => exact r.trans (r.resume a w) (r.trigger i fd _)
  | reclaim order =>
    have hall := r.reclaimAll order w
    exact r.trans hall (r.lists _ [] _)

theorem later {w v : ProxyClient} (h : Later cfg w v) : Q w v := by
  induction h with
  | refl => exact r.refl w
  | tail _ hstep ih =>
    obtain ⟨a, -, rfl⟩ := hstep
    exact r.trans ih (r.next a _)

end Rule

section Call

variable {P : ProxyTunnel → Prop} {w : ProxyClient}

/-- Every tunnel there is satisfies `P`. -/
def All (P : ProxyTunnel → Prop) (w : ProxyClient) : Prop := ∀ t tun, w.tunnels t = some tun → P tun

theorem All.update (h : w.All P) {v : ProxyClient} {t : TunId} {o : Option ProxyTunnel}
    (hv : v.tunnels = Function.update w.tunnels t o) (ho : ∀ tun, o = some tun → P tun) : v.All P := by
  intro u tun hu
  rw [hv] at hu
  by_cases ht : u = t
  · rw [ht, Function.update_self] at hu
    exact ho tun hu
  · rw [Function.update_of_ne ht] at hu
    exact h u tun hu

theorem All.call {α : Type} (h : w.All P) (t : TunId) {f : TunCtx → α × TunCtx}
    (hf : ∀ m, P m.tun → P (f m).2.tun) : (w.call t f).2.All P := by
  unfold ProxyClient.call
  split
  · exact h
  · rename_i tun ht
    refine h.update (t := t) (o := some _) rfl fun n hn => ?_
    rw [← Option.some.inj hn]
    exact hf _ (h t tun ht)

/-- What the methods of a tunnel keep, and a new tunnel has, every tunnel has. -/
theorem Rule.all (cfg : Config) (hnew : ∀ t, P (.new t))
    (haccept : ∀ connfd (m : TunCtx), P m.tun → P (m.onAccept cfg connfd).2.tun)
    (hnotify : ∀ n (m : TunCtx), P m.tun → P (m.notify n).tun)
    (hshutdown : ∀ side (m : TunCtx), P m.tun → P (m.shutdown side).tun) :
    Rule cfg fun w v => w.All P → v.All P where
  refl _ h := h
  trans h l hu := l (h hu)
  resume _ _ h := h
  accept _ h := h
  newTunnel w h := by
    unfold ProxyClient.newTunnel
    split
    · exact h.update (t := w.nextTun) rfl fun n hn => Option.some.inj hn ▸ hnew _
    · exact h
  onAccept t connfd w h := h.call t fun m hm => haccept connfd m hm
  notify t n w h := h.call t fun m hm => hnotify n m hm
  deleteTunnel t w h := by
    have hcall : (ProxyClient.call t (fun m => ((), (m.shutdown .proxy).shutdown .loc))
        { w with deletions := w.deletions ++ [⟨t, w.sys.poller, w.stack⟩] }).2.All P :=
      All.call (w := { w with deletions := w.deletions ++ [⟨t, w.sys.poller, w.stack⟩] }) h t
        fun m hm => hshutdown .loc _ (hshutdown .proxy m hm)
    exact hcall.update (t := t) rfl fun n hn => nomatch hn
  lists _ _ _ h := h

end Call

/-- A reachable state comes later than the first one. -/
theorem Reaches.later {cfg : Config} {S : ProxyClient → ClientAction → Prop} {w : ProxyClient}
    (h : Reaches cfg S w) : ∃ p, Later cfg (ProxyClient.start p) w := by
  induction h with
  | start mFd w h =>
    unfold initialise at h
    split at h
    · cases h
    · rename_i p _
      rw [← Option.some.inj h]
      exact ⟨p, Relation.ReflTransGen.refl⟩
  | step a _ he _ ih =>
    obtain ⟨p, hp⟩ := ih
    exact ⟨p, hp.tail ⟨a, he, rfl⟩⟩

end ProxyClient

end HttpsProxy
