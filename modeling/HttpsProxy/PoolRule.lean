import HttpsProxy.ClientRule
import HttpsProxy.TunnelPool

/-! What `runLoop` does to the tunnels between two callbacks, in few pieces. What
each of them keeps holds in every state of a run. -/
namespace HttpsProxy

namespace ProxyClient

/-- Each piece keeps `P`, from a state between two callbacks on. -/
structure PoolRule (cfg : Config) (P : ProxyClient → Prop) : Prop where
  resume {w : ProxyClient} (a : Answers) : P w → P (w.resume a)
  refused {w : ProxyClient} (s : Sys) (poller : s.poller = w.sys.poller) (log : s.trace = w.sys.trace) :
    P w → P { w with sys := s }
  accepted {w : ProxyClient} (n : ℕ) (s : Sys) (poller : s.poller = w.sys.poller)
    (log : s.trace = w.sys.trace ++ [.accepted n]) :
    Pooled { w with sys := s } → P w → P (onAccept cfg n { w with sys := s })
  notify {w : ProxyClient} {t : TunId} {tun : ProxyTunnel} (n : Notice) (ht : w.tunnels t = some tun)
    (live : (w.enter tun).Live) : w.Pooled → P w → P (w.leave t ((w.enter tun).notify n))
  reclaimTunnel {w : ProxyClient} {t : TunId} {tun : ProxyTunnel} (ht : w.tunnels t = some tun)
    (idle : tun.Idle) : P w → P (w.reclaimTunnel t)
  reclaimed {w : ProxyClient} : P w → P { w with mBrokenTuns := [] }

namespace PoolRule

variable {cfg : Config} {P : ProxyClient → Prop} (r : PoolRule cfg P) {w : ProxyClient}

include r

theorem acceptOne (hp : w.Pooled) (h : P w) : P (w.acceptOne cfg).2 := by
  unfold ProxyClient.acceptOne Sys.accept
  cases w.sys.env.accepts.headD (.fail .EAGAIN) with
  | fail e => exact r.refused _ rfl rfl h
  | fd n =>
    have hneg : ¬(n : ℤ) < 0 := by omega
    simp only [if_neg hneg]
    exact r.accepted n _ rfl rfl (hp.outside w.stdio w.dangling rfl) h

theorem acceptLoop (n : ℕ) (hp : w.Pooled) (h : P w) : P (w.acceptLoop cfg n) := by
  induction n generalizing w with
  | zero => exact h
  | succ n ih =>
    have hone := r.acceptOne hp h
    simp only [ProxyClient.acceptLoop]
    split
    · exact ih (acceptOne_pooled cfg hp) hone
    · exact hone

theorem called {i : Interest} {fd : ℤ} {c : ConnId} (hc : w.sys.poller.find i fd = some (.conn c)) (n : Notice)
    (hp : w.Pooled) (h : P w) : P (w.call c.tun fun m => ((), m.notify n)).2 := by
  obtain ⟨tun, ht, hl⟩ := hp.live hc
  rw [call_of_some _ ht]
  exact r.notify n ht hl hp h

theorem trigger (i : Interest) (fd : ℤ) (hp : w.Pooled) (h : P w) : P (w.trigger cfg i fd) := by
  unfold ProxyClient.trigger
  split
  · exact h
  · rename_i hd hfind
    cases hd with
    | listener =>
      cases i
      exacts [r.acceptLoop 32 hp h, h]
    | conn c =>
      cases i
      exacts [r.called hfind (.input c.side) hp h, r.called hfind (.output c.side) hp h]

theorem reclaimAll (order : List TunId) (hp : ({ w with mBrokenTuns := order } : ProxyClient).Pooled) (h : P w) :
    P (order.foldl (fun w t => w.reclaimTunnel t) w) := by
  induction order generalizing w with
  | nil => exact h
  | cons t order ih =>
    obtain ⟨tun, ht, hi⟩ := hp.broken t List.mem_cons_self
    exact ih (reclaimNext_pooled hp) (r.reclaimTunnel ht hi h)

theorem next {a : ClientAction} (he : w.Enabled a) (hp : w.Pooled) (h : P w) : P (w.next cfg a) := by
  cases a with
  | callback i fd a => exact r.trigger i fd (hp.outside a.stdio w.dangling rfl) (r.resume a h)
  | reclaim order =>
    exact r.reclaimed (r.reclaimAll order
      (hp.brokenSubset (he.2.nodup_iff.mpr hp.brokenNodup) fun t => he.2.mem_iff.mp) h)

/-- What holds at first holds of every state that `runLoop` comes to. -/
theorem later {mFd : ℤ} {u : ProxyClient} (h0 : initialise mFd = some u) (hu : P u) (h : Later cfg u w) :
    w.Pooled ∧ P w := by
  induction h with
  | refl => exact ⟨initialise_pooled h0, hu⟩
  | tail _ hstep ih =>
    obtain ⟨a, he, rfl⟩ := hstep
    exact ⟨next_pooled cfg ih.1 he, r.next he ih.1 ih.2⟩

end PoolRule

end ProxyClient

end HttpsProxy
