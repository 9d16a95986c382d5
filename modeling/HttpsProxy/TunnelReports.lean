import HttpsProxy.TunnelMoves

/-! A tunnel that gives up its two descriptors tells the client, which puts it
among the broken ones. Only a tunnel without handler has nobody to tell. -/
namespace HttpsProxy

namespace Ctx

/-- What finds a connection open leaves it its descriptor. -/
theorem fd_rule : Rule fun x y => y.conn.mFd = x.conn.mFd where
  refl _ := rfl
  trans h k := k.trans h
  regRead x := by simp
  unregRead x := by simp
  regWrite x := by simp
  unregWrite x := by simp
  setStatus _ _ := rfl
  packets _ _ := rfl
  log _ _ _ := rfl
  sysSend _ _ _ := rfl
  sysRecv _ _ _ _ := rfl
  sockError _ _ := rfl
  aborted _ := rfl

end Ctx

namespace TunCtx

/-- From `m` to `n` the client may have been told of the tunnel. -/
structure Grown (m n : TunCtx) : Prop where
  this : n.tun.this = m.tun.this
  mHandler : n.tun.mHandler = m.tun.mHandler
  broken : n.mBrokenTuns = m.mBrokenTuns ∨ n.mBrokenTuns = m.insertBroken.mBrokenTuns

/-- If the client can be told, it has been, or the descriptors are the same. -/
structure Told (m n : TunCtx) : Prop extends Grown m n where
  told : m.tun.mHandler = true → n.tun.this ∈ n.mBrokenTuns ∨ ∀ side, (n.conn side).mFd = (m.conn side).mFd

theorem mem_insertBroken (m : TunCtx) : m.tun.this ∈ m.insertBroken.mBrokenTuns := by
  unfold insertBroken
  by_cases h : m.tun.this ∈ m.mBrokenTuns
  · simpa only [if_pos h] using h
  · simp [h]

theorem subset_insertBroken (m : TunCtx) : m.mBrokenTuns ⊆ m.insertBroken.mBrokenTuns := by
  unfold insertBroken
  split
  · exact List.Subset.refl _
  · exact List.subset_append_left _ _

theorem insertBroken_of_mem {m : TunCtx} (h : m.tun.this ∈ m.mBrokenTuns) :
    m.insertBroken.mBrokenTuns = m.mBrokenTuns := if_pos h

theorem Grown.of_eq {m n : TunCtx} (this : n.tun.this = m.tun.this)
    (mHandler : n.tun.mHandler = m.tun.mHandler) (broken : n.mBrokenTuns = m.mBrokenTuns) : Grown m n :=
  ⟨this, mHandler, Or.inl broken⟩

theorem Grown.insertBroken {m n : TunCtx} (h : Grown m n) :
    n.insertBroken.mBrokenTuns = m.insertBroken.mBrokenTuns := by
  rcases h.broken with hb | hb
  · simp only [TunCtx.insertBroken, h.this, hb]
  · rw [insertBroken_of_mem (by rw [h.this, hb]; exact m.mem_insertBroken), hb]

theorem Grown.trans {m n k : TunCtx} (h : Grown m n) (l : Grown n k) : Grown m k := by
  refine ⟨l.this.trans h.this, l.mHandler.trans h.mHandler, ?_⟩
  rcases l.broken with lb | lb
  · rw [lb]
    exact h.broken
  · exact Or.inr (lb.trans h.insertBroken)

/-- Who has been told of stays among the broken ones. -/
theorem Grown.mem {m n : TunCtx} (h : Grown m n) (hm : m.tun.this ∈ m.mBrokenTuns) :
    n.tun.this ∈ n.mBrokenTuns := by
  rw [h.this]
  rcases h.broken with hb | hb
  · rwa [hb]
  · rw [hb]
    exact m.mem_insertBroken

theorem Told.refl (m : TunCtx) : Told m m := ⟨.of_eq rfl rfl rfl, fun _ => Or.inr fun _ => rfl⟩

theorem Told.trans {m n k : TunCtx} (h : Told m n) (l : Told n k) : Told m k := by
  refine ⟨h.toGrown.trans l.toGrown, fun hm => ?_⟩
  rcases l.told (h.mHandler.trans hm) with lt | lt
  · exact Or.inl lt
  rcases h.told hm with ht | ht
  · exact Or.inl (l.toGrown.mem ht)
  · exact Or.inr fun side => (lt side).trans (ht side)

/-- Changes of other fields of the tunnel. -/
theorem told_of_eq {m n : TunCtx} (this : n.tun.this = m.tun.this)
    (mHandler : n.tun.mHandler = m.tun.mHandler) (broken : n.mBrokenTuns = m.mBrokenTuns)
    (fd : ∀ side, (n.conn side).mFd = (m.conn side).mFd) : Told m n :=
  ⟨.of_eq this mHandler broken, fun _ => Or.inr fd⟩

section Methods

variable (m : TunCtx)

theorem log_told (e : Ev) : Told m (m.log e) :=
  told_of_eq rfl rfl rfl fun side => by rw [conn_log]

theorem put_told {side : Side} {x : Ctx} (h : x.conn.mFd = (m.conn side).mFd) : Told m (m.put side x) := by
  refine told_of_eq ?_ ?_ ?_ fun s => ?_
  · cases side <;> rfl
  · cases side <;> rfl
  · cases side <;> rfl
  · cases side <;> cases s
    exacts [h, rfl, rfl, h]

theorem put_grown (side : Side) (x : Ctx) : Grown m (m.put side x) := by
  cases side <;> exact .of_eq rfl rfl rfl

theorem grown_rule : Rule Grown where
  refl _ := .of_eq rfl rfl rfl
  trans h l := h.trans l
  shutdown side m := m.put_grown side _
  send side _ m := m.put_grown side _
  inputRecv side m := m.put_grown side _
  inputFinish side m := m.put_grown side _
  output side m := m.put_grown side _
  setEventHandler side _ _ := by cases side <;> exact .of_eq rfl rfl rfl
  setStatus _ _ := .of_eq rfl rfl rfl
  cache _ _ _ := .of_eq rfl rfl rfl
  restart _ := .of_eq rfl rfl rfl
  take _ _ _ := .of_eq rfl rfl rfl
  insertBroken _ := ⟨rfl, rfl, Or.inr rfl⟩
  log _ _ _ := .of_eq rfl rfl rfl
  dangling _ := .of_eq rfl rfl rfl
  aborted _ := .of_eq rfl rfl rfl

/-- Whatever has happened before, the client is told last. -/
theorem Grown.told {m n : TunCtx} (h : Grown m n) (e : Ev) :
    Told m (if n.tun.mHandler then (n.log e).cleanup.insertBroken else n) := by
  split
  · -- `onClosed` and `onError` of the client do the same
    have hc : Grown m (n.log e).cleanup := (h.trans (n.log_told e).toGrown).trans (grown_rule.cleanup _)
    exact ⟨⟨hc.this, hc.mHandler, Or.inr hc.insertBroken⟩, fun _ => Or.inl (mem_insertBroken _)⟩
  · rename_i hn
    exact ⟨h, fun hm => absurd (h.mHandler.trans hm) hn⟩

theorem Grown._onError_told {m n : TunCtx} (h : Grown m n) : Told m n._onError := h.told _

theorem Grown._onClose_told {m n : TunCtx} (h : Grown m n) : Told m n._onClose := h.told _

/-- Whatever ends a session tells the client last. -/
theorem told_flushing : FlushRule Told where
  refl := .refl
  trans h l := h.trans l
  send side data m := m.put_told (Ctx.fd_rule.send data (m.ctx side))
  cache _ _ _ := told_of_eq rfl rfl rfl fun side => by cases side <;> rfl
  log e _ m := m.log_told e
  dangling _ := told_of_eq rfl rfl rfl fun side => by cases side <;> rfl
  aborted _ := told_of_eq rfl rfl rfl fun side => by cases side <;> rfl
  onErrorProxy m := ((grown_rule.detach .proxy m).trans
    ((grown_rule.clearCache _).trans (grown_rule.detach .loc _)))._onError_told

theorem onErrorLocal_told : Told m m.onErrorLocal := by
  rw [onErrorLocal_eq]
  exact (((grown_rule.shutdown .loc m).trans (grown_rule.flushLocal _)).trans
    ((grown_rule.setStatus .Closed _).trans (grown_rule.detach .proxy _)))._onError_told

theorem onDisconnected_told (side : Side) : Told m (m.onDisconnected side) := by
  cases side with
  | loc =>
    rw [onDisconnected_loc_eq]
    exact (((grown_rule.shutdown .loc m).trans (grown_rule.flushLocal _)).trans
      ((grown_rule.setStatus .Closed _).trans (grown_rule.shutdown .proxy _)))._onClose_told
  | proxy =>
    exact ((grown_rule.shutdown .proxy m).trans
      ((grown_rule.clearCache _).trans (grown_rule.shutdown .loc _)))._onClose_told

theorem told_reporting : ReportRule Told where
  toFlushRule := told_flushing
  inputRecv side m := m.put_told (Ctx.fd_rule.inputRecv (m.ctx side))
  inputFinish side m := m.put_told (Ctx.fd_rule.inputFinish (m.ctx side))
  output side m := m.put_told (Ctx.fd_rule.handleOutputNotification (m.ctx side))
  setStatus st m := told_of_eq rfl rfl rfl fun side => by rw [conn_setStatus]
  restart _ := told_of_eq rfl rfl rfl fun side => by cases side <;> rfl
  take _ _ _ := told_of_eq rfl rfl rfl fun side => by cases side <;> rfl
  dropProxy m := (grown_rule.setEventHandler .proxy false m)._onError_told
  onErrorLocal m := m.onErrorLocal_told
  onDisconnected side m := m.onDisconnected_told side

/-- A notification that ends the session of a tunnel with a handler gets it among
the broken ones. -/
theorem notify_told (n : Notice) : Told m (m.notify n) := told_reporting.notify n m

/-- `acceptLocal` on closed connections. -/
theorem acceptLocal_grown (connfd : ℤ) : Grown m (m.acceptLocal connfd).2 :=
  grown_rule.acceptLocal connfd (m.put_grown .loc _) fun n _ => n.put_grown .proxy _

end Methods

end TunCtx

end HttpsProxy
