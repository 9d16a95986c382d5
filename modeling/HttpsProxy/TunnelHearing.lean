import HttpsProxy.ClientStream
import HttpsProxy.ConnectionInvariant

/-! A connection in service is registered for what it waits for, and for nothing
else. It gives that up only with an error or the end of the stream, and then its
tunnel is closed. -/
namespace HttpsProxy

/-- Connected it waits for input, and for room while something is queued; before
that it waits for the connection. -/
structure Connection.Eager (c : Connection) : Prop where
  connected : c.mConnStatus = .Connected → c.mbRegForRead = true ∧ c.Balanced
  connecting : c.mConnStatus = .Connecting →
    c.mbRegForRead = false ∧ c.mbRegForWrite = true ∧ c.mTcpPacketList = []

theorem Connection.eager_of_closed {c : Connection} (h : c.mConnStatus = .Closed) : c.Eager :=
  ⟨fun hc => (by rw [h] at hc; cases hc), fun hc => (by rw [h] at hc; cases hc)⟩

theorem Connection.eager_of_connected {c : Connection} (h : c.mConnStatus = .Connected)
    (read : c.mbRegForRead = true) (write : c.Balanced) : c.Eager :=
  ⟨fun _ => ⟨read, write⟩, fun hc => (by rw [h] at hc; cases hc)⟩

namespace Ctx

/-- From `x` to `y` a connection still waits for what it should. -/
def Attends (x y : Ctx) : Prop :=
  y.conn.mbRegForRead = x.conn.mbRegForRead ∧ (x.conn.Balanced → y.conn.Balanced)

theorem Attends.trans {x y z : Ctx} (h : Attends x y) (k : Attends y z) : Attends x z :=
  ⟨k.1.trans h.1, fun hx => k.2 (h.2 hx)⟩

theorem tryFlushRemainPacket_attends (x : Ctx) : Attends x x.tryFlushRemainPacket.2 := by
  obtain ⟨-, -, -, -, hconn⟩ := x.tryFlushRemainPacket_spec
  exact ⟨by rw [hconn], fun hx => (x.tryFlushRemainPacket_balanced hx).1⟩

/-- As long as nothing is reported. -/
theorem sendRest_attends (rest : Bytes) (x : Ctx) (hcb : (x.sendRest rest).2 = none) :
    Attends x (x.sendRest rest).1 := by
  rcases checkSocketErrors_cases x .send with ⟨-, hc⟩ | ⟨-, -, hc⟩ | ⟨-, -, hc⟩
  · refine ⟨by simp [sendRest, hc, cachePacket], fun _ => ?_⟩
    simp [sendRest, hc, Connection.Balanced, cachePacket]
  · simp [sendRest, hc, (x.raiseError_spec .send).1] at hcb
  · simp only [sendRest, hc, if_true]
    exact ⟨rfl, id⟩

theorem send_attends (data : Bytes) (x : Ctx) (hcb : (x.send data).2 = none) : Attends x (x.send data).1 := by
  by_cases hopen : x.conn.mFd < 0 ∨ x.conn.mConnStatus ≠ .Connected
  · rw [send_of_refused data hopen]
    exact ⟨rfl, id⟩
  obtain ⟨hfd, hst⟩ := not_or.mp hopen
  rw [not_not] at hst
  have hflush : Attends x _ := (x.log (.sendCall x.conn.this data)).tryFlushRemainPacket_attends
  cases hf : (x.log (.sendCall x.conn.this data)).tryFlushRemainPacket with
  | mk flushed z =>
    rw [hf] at hflush
    cases flushed with
    | false =>
      rw [send_of_queued data (not_lt.mp hfd) hst hf] at hcb ⊢
      exact hflush.trans (sendRest_attends _ _ hcb)
    | true =>
      have hsent : Attends x (z.sendDirect data).2 := hflush
      rw [send_of_flushed data (not_lt.mp hfd) hst hf] at hcb ⊢
      split
      · exact hsent
      · rename_i hpart
        rw [if_neg hpart] at hcb
        exact hsent.trans (sendRest_attends _ _ hcb)

theorem send_eager (data : Bytes) {x : Ctx} (h : x.conn.Eager) (hcb : (x.send data).2 = none) :
    (x.send data).1.conn.Eager := by
  by_cases hst : x.conn.mConnStatus = .Connected
  · obtain ⟨hread, hbal⟩ := send_attends data x hcb
    obtain ⟨h1, h2⟩ := h.connected hst
    exact Connection.eager_of_connected ((send_spec data x).link.status.trans hst) (hread.trans h1) (hbal h2)
  · rw [send_of_refused data (Or.inr hst)]
    exact h

theorem output_attends {x : Ctx} (hst : x.conn.mConnStatus = .Connected)
    (hcb : x.handleOutputNotification.2 = none) : Attends x x.handleOutputNotification.1 := by
  have hflush := x.tryFlushRemainPacket_attends
  have he : x.handleOutputNotification = ((x.tryFlushRemainPacket.2.checkSocketErrors .output).2.1,
      (x.tryFlushRemainPacket.2.checkSocketErrors .output).2.2) := by
    simp [handleOutputNotification, hst]
  rw [he] at hcb ⊢
  rcases checkSocketErrors_cases x.tryFlushRemainPacket.2 .output with ⟨-, hc⟩ | ⟨-, -, hc⟩ | ⟨-, -, hc⟩
  · rw [hc]
    exact hflush
  · rw [hc] at hcb
    exact absurd ((x.tryFlushRemainPacket.2.raiseError_spec .output).1.symm.trans hcb) (by simp)
  · rw [hc]
    exact hflush

end Ctx

namespace TunCtx

def Eager (m : TunCtx) : Prop := ∀ side, (m.conn side).Eager

variable {m n : TunCtx}

theorem Shut.eager (h : m.Shut) : m.Eager := fun side => Connection.eager_of_closed (h side).status

theorem Eager.same (h : m.Eager) (hc : ∀ side, n.conn side = m.conn side) : n.Eager :=
  fun side => hc side ▸ h side

theorem Eager.put (h : m.Eager) {side : Side} {x : Ctx} (hx : x.conn.Eager) : (m.put side x).Eager := by
  intro s
  cases side <;> cases s
  exacts [hx, h .proxy, h .loc, hx]

/-- A report closes both sides. -/
theorem Sane.onError_eager (hs : m.Sane) (side : Side) : (m.onError side).Eager :=
  (onError_ended side hs.tidy (hs.heard .proxy) hs.mHandler).shut.eager

theorem Sane.onDisconnected_eager (hs : m.Sane) (side : Side) : (m.onDisconnected side).Eager :=
  (onDisconnected_ended side hs.tidy (hs.heard .proxy) hs.mHandler).shut.eager

/-- A `send` ends the session, or the registration stays. -/
theorem Eager.sends {side : Side} {onError : TunCtx → TunCtx} (data : Bytes) (h : m.Eager) (ht : m.Tidy)
    (herr : ∀ k, Goes m k → Ended k (onError k)) :
    ((errorOwner side onError).run ((m.ctx side).send data) m).Eager := by
  have hspec := Ctx.send_spec data (m.ctx side)
  have hread := Ctx.send_eager data (x := m.ctx side) (h side)
  generalize (m.ctx side).send data = r at hspec hread ⊢
  obtain ⟨y, cb⟩ := r
  have hlink := hspec.link
  cases cb with
  | none => exact h.put (hread rfl)
  | some cb =>
    cases hspec with
    | failed z bs fd => exact (herr _ (put_goes ht hlink fd)).shut.eager

theorem Eager.sendProxy (data : Bytes) (h : m.Eager) (ht : m.Tidy) : (m.sendProxy data).Eager :=
  h.sends data ht fun _ hg => onErrorProxy_ended hg.tidy

theorem Eager.sendLocal (data : Bytes) (h : m.Eager) (hs : m.Sane) : (m.sendLocal data).Eager :=
  h.sends data hs.tidy fun _ hg => onErrorLocal_ended hg.tidy (hg.heard (hs.heard .proxy)) (hg.mHandler.trans hs.mHandler)

theorem Eager.flushLocal (h : m.Eager) (ht : m.Tidy) (hh : m.Heard .proxy) : m.flushLocal.Eager := by
  unfold TunCtx.flushLocal
  split
  swap
  · exact h
  have hsame : ∀ s k : TunCtx, s.Tidy ∧ s.Heard .proxy ∧ s.Eager → (∀ side, k.conn side = s.conn side) →
      k.Tidy ∧ k.Heard .proxy ∧ k.Eager := by
    intro s k hs hc
    refine ⟨fun side => hc side ▸ hs.1 side, ?_, hs.2.2.same hc⟩
    unfold Heard
    rw [hc]
    exact hs.2.1
  have hconn : ∀ s k : TunCtx, k.tun.mLocalConn = s.tun.mLocalConn →
      k.tun.mProxyConn = s.tun.mProxyConn → ∀ side, k.conn side = s.conn side := by
    intro s k h1 h2 side
    cases side
    exacts [h1, h2]
  refine (cacheHost.flushAll_preserves (P := fun s => s.Tidy ∧ s.Heard .proxy ∧ s.Eager) (fun _ _ => rfl)
    ?_ ?_ ?_ ?_ ?_ (m.log (.flushing m.tun.this)) (hsame m _ ⟨ht, hh, h⟩ fun side => conn_log m side _)).2.2
  · exact fun c s hs _ => hsame s _ hs (hconn _ _ rfl rfl)
  · intro d s hs
    have hc := sendProxy_continues d hs.1 hs.2.1
    exact ⟨hc.tidy, hc.heard hs.2.1, hs.2.2.sendProxy d hs.1⟩
  · exact fun s hs => hsame s _ hs (hconn _ _ rfl rfl)
  · exact fun s hs => hsame s _ hs (hconn _ _ rfl rfl)
  · exact fun s hs => hsame s _ hs (hconn _ _ rfl rfl)

theorem Eager.dropProxy (ht : m.Tidy) (hh : m.tun.mHandler = true) : m.dropProxy.Eager :=
  (dropProxy_closes ht hh).shut.eager

theorem Eager.parseHttpHeader (h : m.Eager) (hs : m.Sane) : m.parseHttpHeader.Eager := by
  unfold TunCtx.parseHttpHeader
  split
  swap
  · exact h
  split
  · refine Eager.flushLocal (m := (m.setStatus .Connected).log _) (h.same fun side => ?_) (fun side => ?_) ?_
    · cases side <;> rfl
    · cases side
      exacts [hs.tidy .loc, hs.tidy .proxy]
    · exact hs.heard .proxy
  · exact Eager.dropProxy (m := m.setStatus .Error) (fun s => by simpa using hs.tidy s) hs.mHandler

theorem Eager.onRecv (side : Side) (bs : Bytes) (h : m.Eager) (hs : m.Sane) : (m.onRecv side bs).Eager := by
  cases side with
  | loc =>
    simp only [TunCtx.onRecv]
    split
    · exact h.sendProxy bs hs.tidy
    · exact h.same fun side => by cases side <;> rfl
  | proxy =>
    simp only [TunCtx.onRecv]
    split
    · split
      · exact .dropProxy hs.tidy hs.mHandler
      · refine Eager.parseHttpHeader (h.same fun side => ?_) (hs.goes (setHeader_goes _ hs.tidy))
        cases side <;> rfl
    · split
      · exact .dropProxy hs.tidy hs.mHandler
      · exact h.sendLocal bs hs
    · exact .dropProxy hs.tidy hs.mHandler

theorem Eager.input (h : m.Eager) (hm : m.Live) (hw : m.tun.Whole) (side : Side) :
    ((owner side).handleInputNotification m).Eager := by
  rcases hm.input_inv hw side with ⟨-, hk⟩ | ⟨hst, n, bs, r, hin, hn, hend⟩
  · rwa [hk]
  -- reading may change the status, but then to one in which nothing is awaited
  have hnp : n.Eager := by
    obtain ⟨x, st, -, rfl, hne, hx, -⟩ := hin.read
    refine h.put ?_
    rw [hx]
    exact ⟨fun _ => (h side).connected hst, fun hc => absurd hc hne⟩
  have hr : r.Eager := by
    rw [hin.result]
    split
    · exact hnp
    · exact hnp.onRecv side bs hn
  generalize (owner side).handleInputNotification m = k at hend ⊢
  cases hend with
  | stays => exact hr
  | fails y hs _ hy => exact (hs.goes hy.toGoes).onError_eager side
  | leaves y hs _ hy => exact (hs.goes hy.toGoes).onDisconnected_eager side

/-- The proxy's side is connected, and the request is sent. -/
theorem Eager.asking (h : m.Eager) {x : Ctx} (hx : x.conn.Eager) : (m.asking x).Eager := by
  have hput : (m.put .proxy x).Eager := h.put hx
  exact hput.same fun side => by cases side <;> rfl

theorem Eager.output (h : m.Eager) (hm : m.Live) (hw : m.tun.Whole) (side : Side) :
    ((owner side).handleOutputNotification m).Eager := by
  have hs := hm.sane hw
  by_cases hst : (m.conn side).mConnStatus = .Connected
  · have hno : (m.ctx side).conn.mConnStatus ≠ .Connecting := fun hc => by
      have hst' : (m.ctx side).conn.mConnStatus = .Connected := hst
      rw [hst'] at hc
      cases hc
    have hspec := (m.ctx side).handleOutputNotification_spec (hm.handler side)
    have hattend := Ctx.output_attends (x := m.ctx side) hst
    change ((owner side).run (m.ctx side).handleOutputNotification m).Eager
    generalize (m.ctx side).handleOutputNotification = r at hspec hattend ⊢
    obtain ⟨y, cb⟩ := r
    cases hspec with
    | idle status => exact absurd hst status.2
    | refused _ _ status => exact absurd status hno
    | connected status => exact absurd status hno
    | flushed bs _ link =>
      obtain ⟨hread, hbal⟩ := hattend rfl
      obtain ⟨h1, h2⟩ := (h side).connected hst
      exact h.put (Connection.eager_of_connected (link.status.trans hst) (hread.trans h1) (hbal h2))
    | failed z bs _ link _ _ _ heq =>
      -- the registrations are dropped before the tunnel hears of it
      obtain ⟨-, hc, -⟩ := z.raiseError_spec .output
      rw [← heq] at hc
      have hlink : SameLink (m.conn side) y.conn := by
        rw [hc]
        exact ⟨link.this, link.fd, link.status, link.handler⟩
      exact (hs.goes (put_goes hs.tidy hlink (hs.fd side))).onError_eager side
  · have hstep := hm.outputStep side
    generalize (owner side).handleOutputNotification m = k at hstep ⊢
    cases hstep with
    | idle => exact h
    | flushed _ _ _ status => exact absurd status hst
    | failed _ _ _ _ status => exact absurd status hst
    | refused x r _ hfd =>
      exact (onErrorProxy_ended (hs.tidy.put_open .proxy (hfd ▸ hs.fd .proxy))).shut.eager
    | connected x status hc =>
      obtain ⟨-, -, hq⟩ := (h .proxy).connecting status
      have hx : x.conn.Eager := by
        rw [hc]
        exact Connection.eager_of_connected rfl rfl (by simp [Connection.Balanced, hq])
      exact (h.asking hx).sendProxy _ (hm.asking hc).1.tidy

/-- No notification makes a tunnel deaf. -/
theorem Eager.notify (h : m.Eager) (hm : m.Shaped) (hw : m.tun.Whole) (n : Notice) : (m.notify n).Eager := by
  rcases hm with hl | ⟨hs, -⟩
  · cases n with
    | input side => exact h.input hl hw side
    | output side => exact h.output hl hw side
  · cases n with
    | input side =>
      change ((owner side).handleInputNotification m).Eager
      rwa [(hs.notified side).1]
    | output side =>
      change ((owner side).handleOutputNotification m).Eager
      rwa [(hs.notified side).2]

theorem Opening.shut (h : Opening m (false, n)) : n.Shut := by
  cases h with
  | failed _ _ shut => exact shut

/-- Whatever `connect` comes to. -/
theorem Dialing.eager (hd : Dialing m n) (hread : (n.conn .loc).mbRegForRead = true)
    (hwrite : (n.conn .loc).mbRegForWrite = false) : n.dial.2.Eager := by
  -- so far only the client is connected, and it has nothing queued
  have hn : n.Eager := fun side => by
    cases side with
    | loc =>
      exact Connection.eager_of_connected hd.status hread
        (by simp [Connection.Balanced, hwrite, hd.queue .loc])
    | proxy => exact Connection.eager_of_closed hd.dead.status
  have hconn := (n.ctx .proxy).connect_spec n.tun.mProxySvrAddr hd.dead.fd
  have hh : (n.ctx .proxy).conn.mHandler = true := hd.handler .proxy
  unfold dial
  generalize (n.ctx .proxy).connect n.tun.mProxySvrAddr = r at hconn
  -- the three ends of `connect`
  cases hconn with
  | failed x hx hlog => exact (hd.gives_up hx hlog).shut.eager
  | connecting x fd _ hx =>
    refine hn.put ⟨fun hc => ?_, fun _ => ?_⟩
    · rw [hx] at hc
      cases hc
    · rw [hx]
      exact ⟨hd.dead.read, rfl, hd.dead.queue⟩
  | connected x fd hfd hx =>
    simp only [hh, if_true]
    have hxe : x.conn.Eager := by
      rw [hx]
      exact Connection.eager_of_connected rfl rfl
        (iff_of_false (fun hw => by cases hd.dead.write.symm.trans hw) (not_not.mpr hd.dead.queue))
    -- connected at once: the request is sent, and queued as far as it does not go out
    have ha : (n.asking (x.log (.onConnected (n.conn .proxy).this))).Eager := hn.asking hxe
    have ht : (n.asking (x.log (.onConnected (n.conn .proxy).this))).Tidy := fun side => by
      cases side with
      | loc => exact Connection.clean_of_open hd.fd
      | proxy => exact Connection.clean_of_open (by
          change 0 ≤ x.conn.mFd
          rw [hx]
          exact hfd)
    exact ha.sendProxy _ ht

theorem acceptLocal_eager (connfd : ℕ) (h : m.Shut) : (m.acceptLocal connfd).2.Eager := by
  have ha := (m.ctx .loc).acceptConnection_spec connfd
  cases hr : (m.ctx .loc).acceptConnection connfd with
  | mk ok y =>
    rw [hr] at ha
    cases ha with
    | inUse hfd => exact absurd (h .loc).fd (not_lt.mpr hfd)
    | failed _ _ hc =>
      rw [acceptLocal_of_failed connfd hr]
      refine h.eager.put (Connection.eager_of_closed ?_)
      rw [hc]
      exact (h .loc).status
    | opened _ _ hc =>
      rw [acceptLocal_of_opened connfd hr]
      refine (dialing_spec connfd h hr).eager ?_ ?_
      · change y.conn.mbRegForRead = true
        rw [hc]
      · change y.conn.mbRegForWrite = false
        rw [hc]
        exact (h .loc).write

theorem onAccept_eager (cfg : Config) (connfd : ℕ) (hi : m.tun.Idle) : (m.onAccept cfg connfd).2.Eager := by
  have hshut := configured_shut cfg ((idle_iff m).mp hi).1
  have hlocal := acceptLocal_eager connfd hshut
  rw [onAccept_eq]
  split
  · exact hshut.eager.same fun side => conn_log _ side _
  · simp only
    split
    · exact hlocal.same fun side => by cases side <;> rfl
    · exact hlocal.same fun side => by rw [conn_insertBroken, conn_log]

end TunCtx

end HttpsProxy
