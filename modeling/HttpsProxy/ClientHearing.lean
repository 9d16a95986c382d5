import HttpsProxy.ClientRegistration
import HttpsProxy.TunnelHearing

/-! The poller and the tunnels of the client agree on what each side waits for, in
every state of a run. -/
namespace HttpsProxy

open SelectPoller

namespace ProxyClient

variable {w : ProxyClient} {t : TunId} {tun : ProxyTunnel} (cfg : Config)

/-- No tunnel of the client is deaf. -/
def Eager (w : ProxyClient) : Prop := ∀ t tun, w.tunnels t = some tun → (w.enter tun).Eager

theorem Eager.tunnels (h : w.Eager) {v : ProxyClient} (ht : v.tunnels = w.tunnels) : v.Eager :=
  fun t tun hv => (h t tun (ht ▸ hv)).same fun side => by cases side <;> rfl

theorem Eager.update (h : w.Eager) {v : ProxyClient} {t : TunId} {o : Option ProxyTunnel}
    (hv : v.tunnels = Function.update w.tunnels t o)
    (hnew : ∀ tun, o = some tun → (w.enter tun).Eager) : v.Eager := by
  intro u tun hu
  have hsame : ∀ side, (v.enter tun).conn side = (w.enter tun).conn side := fun side => by cases side <;> rfl
  rw [hv] at hu
  by_cases ht : u = t
  · rw [ht, Function.update_self] at hu
    exact (hnew tun hu).same hsame
  · rw [Function.update_of_ne ht] at hu
    exact (h u tun hu).same hsame

theorem Eager.leave (h : w.Eager) (t : TunId) {m : TunCtx} (hm : m.Eager) : (w.leave t m).Eager := by
  refine h.update (t := t) (o := some m.tun) rfl fun tun he => ?_
  obtain rfl := Option.some.inj he
  exact hm.same fun side => by cases side <;> rfl

theorem Eager.reclaimTunnel (h : w.Eager) (ht : w.tunnels t = some tun) (hi : tun.Idle) :
    (w.reclaimTunnel t).Eager := by
  unfold ProxyClient.reclaimTunnel
  split
  · rw [deleteTunnel_of_idle ht hi]
    exact h.update (t := t) rfl fun _ he => by cases he
  · exact h.tunnels rfl

theorem Eager.newTunnel (h : w.Eager) : w.newTunnel.2.Eager := by
  cases hfree : w.mFreeTuns with
  | nil =>
    rw [newTunnel_of_nil hfree]
    refine h.update (t := w.nextTun) rfl fun tun he => ?_
    obtain rfl := Option.some.inj he
    exact fun side => Connection.eager_of_closed (by cases side <;> rfl)
  | cons u us =>
    rw [newTunnel_of_cons hfree]
    exact h.tunnels rfl

theorem Eager.onAccept (connfd : ℕ) (h : w.Eager) (hp : w.Pooled) : (w.onAccept cfg connfd).Eager := by
  obtain ⟨hv, tun, ht, hi, -, -⟩ := hp.newTunnel
  have hleave := h.newTunnel.leave w.newTunnel.1
    (TunCtx.onAccept_eager cfg connfd (m := w.newTunnel.2.enter tun) hi)
  rw [onAccept_eq cfg connfd ht]
  simp only
  split
  · rename_i hill
    exact hleave.reclaimTunnel (Function.update_self ..)
      (TunCtx.onAccept_idle connfd hill (m := w.newTunnel.2.enter tun) hi)
  · exact hleave

theorem eager_rule : PoolRule cfg Eager where
  resume _ h := h.tunnels rfl
  refused _ _ _ h := h.tunnels rfl
  accepted n _ _ _ hp h := Eager.onAccept cfg n (h.tunnels rfl) hp
  notify n ht hl hp h := h.leave _ ((h _ _ ht).notify (Or.inl hl) (hp.named _ _ ht).2 n)
  reclaimTunnel ht hi h := h.reclaimTunnel ht hi
  reclaimed h := h.tunnels rfl

theorem initialise_eager {mFd : ℤ} (h : initialise mFd = some w) : w.Eager := by
  unfold initialise at h
  split at h
  · cases h
  · obtain rfl := Option.some.inj h
    exact fun t tun ht => nomatch ht

/-- No tunnel in service is deaf or stuck, in any run: the poller calls each side
for reading if and only if it is connected, and for writing if and only if it is
being connected or has something queued, as far as its descriptor fits. -/
theorem no_tunnel_deaf {mFd : ℤ} {u : ProxyClient} (h0 : initialise mFd = some u) (h : Later cfg u w)
    (hk : FreshFds {mFd} w.sys.trace) {c : ConnId} (hopen : 0 ≤ (w.conn c).mFd) :
    (w.sys.poller.find .read (w.conn c).mFd = some (.conn c) ↔
        (w.conn c).mConnStatus = .Connected ∧ (w.conn c).mFd < FD_SETSIZE) ∧
      (w.sys.poller.find .write (w.conn c).mFd = some (.conn c) ↔
        ((w.conn c).mConnStatus = .Connecting ∨ (w.conn c).mTcpPacketList ≠ []) ∧
          (w.conn c).mFd < FD_SETSIZE) := by
  obtain ⟨hp, heager⟩ := (eager_rule cfg).later h0 (initialise_eager h0) h
  have ha := later_attentive cfg h0 h hk
  -- what the poller does is what the connection takes itself for registered for
  have hcalled : ∀ i, w.sys.poller.find i (w.conn c).mFd = some (.conn c) ↔
      (w.conn c).reg i = true ∧ (w.conn c).mFd < FD_SETSIZE := by
    intro i
    refine ⟨fun hf => ⟨(ha.held i _ c hf).2, ?_⟩, fun hr => ha.called i c hr.1 hopen hr.2⟩
    exact not_le.mp (not_or.mp (valid_of_find ha.sound hf)).2
  obtain ⟨t, side⟩ := c
  cases ht : w.tunnels t with
  | none =>
    rw [conn_of_none ht] at hopen
    exact absurd hopen (not_le.mpr neg_one_lt_zero)
  | some tun =>
    have hconn : w.conn ⟨t, side⟩ = (w.enter tun).conn side := conn_of_some ht side
    have hside := heager t tun ht side
    -- a tunnel with a descriptor is live, so its connection is in one of two phases
    have hlive : (w.enter tun).Live := by
      refine (hp.shaped t tun ht).resolve_right fun hs => ?_
      exact absurd (hs.1 side).fd (not_lt.mpr (hconn ▸ hopen))
    have hphase : ((w.enter tun).conn side).mConnStatus = .Connecting ∨
        ((w.enter tun).conn side).mConnStatus = .Connected := by
      cases side with
      | loc => exact Or.inr hlive.loc
      | proxy => exact hlive.phase.imp (fun hp => hp.1) fun hp => hp.1
    rw [hcalled .read, hcalled .write, hconn]
    rcases hphase with hc | hc
    · obtain ⟨hread, hwrite, hq⟩ := hside.connecting hc
      simp [Connection.reg, hread, hwrite, hc]
    · obtain ⟨hread, hwrite⟩ := hside.connected hc
      simp [Connection.reg, hread, hc, hwrite.eq]

theorem no_tunnel_deaf_serving : serving.sys.poller.find .read 4 = some (.conn ⟨0, .loc⟩) ∧
    serving.sys.poller.find .write 4 ≠ some (.conn ⟨0, .loc⟩) := by
  have hfd : (serving.conn ⟨0, .loc⟩).mFd = 4 := by decide +kernel
  have h := no_tunnel_deaf exampleConfig (show initialise 3 = some listening from rfl) serving_later
    serving_fresh (c := ⟨0, .loc⟩) (by rw [hfd]; decide)
  have hst : (serving.conn ⟨0, .loc⟩).mConnStatus = .Connected := by decide +kernel
  have hq : (serving.conn ⟨0, .loc⟩).mTcpPacketList = [] := by decide +kernel
  rw [hfd, hst, hq] at h
  exact ⟨h.1.mpr ⟨rfl, by decide⟩, fun hf => by simpa using (h.2.mp hf).1⟩

end ProxyClient

end HttpsProxy
