import HttpsProxy.PacketQueues
import HttpsProxy.ConnectionRule
import HttpsProxy.FlushAnswers
import HttpsProxy.CacheOffer

/-! `flushAll` walks over the cache while its callback sends. The callback comes
back into the cache exactly if a `send` of the flush ends in an error, and only
the flush that follows the answer of the proxy server has anything to send. -/
namespace HttpsProxy

namespace Ev

/-- The cache has been changed under a running `flushAll`. -/
def isTouch : Ev → Prop
  | .flushTouched _ => True
  | _ => False

theorem isQuiet.not_touch {e : Ev} (h : e.isQuiet) : ¬e.isTouch := by
  cases e <;> first | exact h.elim | exact id

theorem isNote.not_touch {e : Ev} (h : e.isNote) : ¬e.isTouch := by
  cases e <;> first | exact h.elim | exact id

theorem isCall.not_touch {e : Ev} (h : e.isCall) : ¬e.isTouch := by
  cases e <;> first | exact h.elim | exact id

end Ev

/-- No method of a connection knows of the cache. -/
theorem Ctx.untouched_rule :
    Ctx.Rule fun x y => Extends (fun e : Ev => ¬e.isTouch) x.sys.trace y.sys.trace where
  refl _ := Extends.of_eq rfl
  trans := Extends.trans
  regRead x := Extends.of_eq (tryRegReadEvent_sys x).2.2.1
  unregRead x := Extends.of_eq (tryUnregReadEvent_sys x).2.2.1
  regWrite x := Extends.of_eq (tryRegWriteEvent_sys x).2.2.1
  unregWrite x := Extends.of_eq (tryUnregWriteEvent_sys x).2.2.1
  setStatus _ _ := Extends.of_eq rfl
  packets _ _ := Extends.of_eq rfl
  log _ he _ := Extends.entry rfl he.not_touch
  sysSend c data x := by
    unfold Sys.send
    cases x.sys.env.sends.headD (.fail .EAGAIN) <;> exact Extends.entry rfl id
  sysRecv c maxlen room x := by
    unfold Sys.recv
    cases x.sys.env.recvs.headD (.fail .EAGAIN) <;> exact Extends.entry rfl id
  sockError c x := by
    unfold Sys.sockError
    cases x.sys.env.sockopts.headD .ok <;> exact Extends.entry rfl id
  aborted _ := Extends.of_eq rfl

namespace TunCtx

/-- From `m` to `n` no flush found the cache changed. -/
def Untouched (m n : TunCtx) : Prop := Extends (fun e : Ev => ¬e.isTouch) m.sys.trace n.sys.trace

/-- From `m` to `n` a flush found the cache changed just if `p` holds. -/
def TouchIff (p : Prop) (m n : TunCtx) : Prop :=
  ∃ evs, n.sys.trace = m.sys.trace ++ evs ∧ ((∃ e ∈ evs, e.isTouch) ↔ p)

section TouchIff

variable {p : Prop} {m n k : TunCtx}

theorem Untouched.refl (m : TunCtx) : Untouched m m := Extends.of_eq rfl

theorem Untouched.trans (h : Untouched m n) (l : Untouched n k) : Untouched m k := Extends.trans h l

theorem Untouched.of_eq (h : n.sys.trace = m.sys.trace) : Untouched m n := Extends.of_eq h

theorem Untouched.put {side : Side} {x : Ctx}
    (h : Extends (fun e : Ev => ¬e.isTouch) m.sys.trace x.sys.trace) : Untouched m (m.put side x) := by
  cases side <;> exact h

theorem Untouched.touches (h : Untouched m n) (hp : ¬p) : TouchIff p m n := by
  obtain ⟨evs, ht, hno⟩ := h
  refine ⟨evs, ht, iff_of_false ?_ hp⟩
  rintro ⟨e, hm, he⟩
  exact hno e hm he

theorem TouchIff.untouched (h : TouchIff p m n) (hp : ¬p) : Untouched m n := by
  obtain ⟨evs, ht, hiff⟩ := h
  exact ⟨evs, ht, fun e hm he => hp (hiff.mp ⟨e, hm, he⟩)⟩

theorem Untouched.before (h : Untouched m n) (l : TouchIff p n k) : TouchIff p m k := by
  obtain ⟨es, he, hno⟩ := h
  obtain ⟨fs, hf, hp⟩ := l
  refine ⟨es ++ fs, by rw [hf, he, List.append_assoc], ?_⟩
  rw [← hp]
  constructor
  · rintro ⟨e, hm, ht⟩
    exact ⟨e, (List.mem_append.mp hm).resolve_left fun hm => hno e hm ht, ht⟩
  · rintro ⟨e, hm, ht⟩
    exact ⟨e, List.mem_append_right _ hm, ht⟩

theorem TouchIff.after (h : TouchIff p m n) (l : Untouched n k) : TouchIff p m k := by
  obtain ⟨es, he, hp⟩ := h
  obtain ⟨fs, hf, hno⟩ := l
  refine ⟨es ++ fs, by rw [hf, he, List.append_assoc], ?_⟩
  rw [← hp]
  constructor
  · rintro ⟨e, hm, ht⟩
    exact ⟨e, (List.mem_append.mp hm).resolve_right fun hm => hno e hm ht, ht⟩
  · rintro ⟨e, hm, ht⟩
    exact ⟨e, List.mem_append_left _ hm, ht⟩

end TouchIff

end TunCtx

theorem Quiet.untouched {m n : TunCtx} (h : Quiet m n) : m.Untouched n :=
  Extends.mono h.log fun _ he => he.not_touch

namespace TunCtx

/-- A `send` on either side, up to the handling of the error it may end in. -/
theorem send_untouched (side : Side) (data : Bytes) (m : TunCtx) :
    Untouched m (m.put side ((m.ctx side).send data).1) :=
  .put (Ctx.untouched_rule.send data (m.ctx side))

/-- And with it, if that touches nothing either. -/
theorem sends_untouched {side : Side} {onError : TunCtx → TunCtx} (data : Bytes) {m : TunCtx}
    (herr : Untouched (m.put side ((m.ctx side).send data).1)
      (onError (m.put side ((m.ctx side).send data).1))) :
    Untouched m ((errorOwner side onError).run ((m.ctx side).send data) m) := by
  have hput := send_untouched side data m
  unfold Owner.run
  split
  · exact hput
  · rename_i cb _
    cases cb with
    | onError => exact hput.trans herr
    | onConnected => exact hput
    | onDisconnected => exact hput
    | onRecv _ => exact hput

/-- What `send` makes of the connection does not depend on how the call ends. -/
theorem send_keeps (side : Side) (data : Bytes) {m : TunCtx} (ht : m.Tidy)
    (hfd : 0 ≤ (m.conn side).mFd) : Keeps side m (m.put side ((m.ctx side).send data).1) :=
  put_keeps ht ((m.ctx side).send_spec data).link hfd

theorem sendProxy_untouched (data : Bytes) {m : TunCtx} (ht : m.Tidy) (hfd : 0 ≤ (m.conn .proxy).mFd) :
    Untouched m (m.sendProxy data) :=
  sends_untouched data (onErrorProxy_closes (send_keeps .proxy data ht hfd).tidy).toQuiet.untouched

/-- One of the calls of `send` that pass on the chunks `q` ends in an error. -/
def FailsWith (q : List Bytes) (s : TunCtx) : Prop :=
  (s.conn .proxy).mConnStatus = .Connected ∧
    SendsFail q (s.ctx .proxy).queued s.sys.env.sends s.sys.errno

/-- Between two rounds of a flush that began at `m`: `q` is still to be passed on,
and whether that fails was settled at the beginning. -/
structure Flushing (m : TunCtx) (q : List Bytes) (s : TunCtx) : Prop extends Along .proxy m s where
  fit : s.Fit
  chunks : ∀ d ∈ q, d ≠ []
  log : Untouched m s
  rest : s.FailsWith q ↔ m.FailsWith m.tun.mLocalCache.offered

/-- An error of `send` has ended the session. -/
structure Disturbed (m s : TunCtx) : Prop where
  emptied : s.tun.mLocalCache.Emptied
  log : Untouched m s
  fails : m.FailsWith m.tun.mLocalCache.offered

/-- And the flush has found out. -/
structure Noticed (m s : TunCtx) : Prop where
  emptied : s.tun.mLocalCache.Emptied
  log : TouchIff True m s
  fails : m.FailsWith m.tun.mLocalCache.offered

/-- Changes of the cache alone. -/
theorem Flushing.congr {m s k : TunCtx} {q : List Bytes} (h : Flushing m q s) (key : k.key = s.key)
    (mHandler : k.tun.mHandler = s.tun.mHandler) (broken : k.mBrokenTuns = s.mBrokenTuns)
    (status : k.tun.mProxyStatus = s.tun.mProxyStatus) (header : k.tun.mHttpHeader = s.tun.mHttpHeader)
    (conn : ∀ side, k.conn side = s.conn side) (trace : k.sys.trace = s.sys.trace)
    (sends : k.sys.env.sends = s.sys.env.sends) (errno : k.sys.errno = s.sys.errno)
    (fit : k.Fit) : Flushing m q k := by
  have hq : (k.ctx .proxy).queued = (s.ctx .proxy).queued := by
    unfold Ctx.queued
    rw [show (k.ctx .proxy).conn = (s.ctx .proxy).conn from conn .proxy]
  refine ⟨⟨h.toGoes.congr key mHandler broken status conn, (conn _).trans h.other,
    status.trans h.mProxyStatus, header.trans h.mHttpHeader⟩, fit, h.chunks,
    h.log.trans (.of_eq trace), ?_⟩
  rw [← h.rest, FailsWith, FailsWith, conn .proxy, hq, sends, errno]

/-- A round sends the next chunk. If that fails, the session and its cache are gone. -/
theorem Flushing.round {m s : TunCtx} {d : Bytes} {q : List Bytes} (h : Flushing m (d :: q) s)
    (hfd : 0 ≤ (m.conn .proxy).mFd) (hh : (m.conn .proxy).mHandler = true) :
    cacheHost.Answers (Flushing m) (fun _ _ _ => False) (Disturbed m) d q s := by
  have hd : d ≠ [] := h.chunks d List.mem_cons_self
  have hq : ∀ e ∈ q, e ≠ [] := fun e he => h.chunks e (List.mem_cons_of_mem _ he)
  have hsfd : 0 ≤ (s.conn .proxy).mFd := (h.link .proxy).fd ▸ hfd
  have hsh : (s.conn .proxy).mHandler = true := (h.link .proxy).handler.trans hh
  have hfunc : cacheHost.func d s = (true, s.sendProxy d) := rfl
  have hfit : (s.sendProxy d).Fit := h.fit.sendProxy hd
  by_cases hst : (s.conn .proxy).mConnStatus = .Connected
  · have hsent := (s.ctx .proxy).send_offers d hsfd hst (h.fit.queue .proxy) hsh
    have hput := send_untouched .proxy d s
    have hlink : SameLink (s.conn .proxy) ((s.ctx .proxy).send d).1.conn :=
      ((s.ctx .proxy).send_spec d).link
    have hk := send_keeps .proxy d h.tidy hsfd
    rcases hsent with ⟨hfails, hcb⟩ | ⟨hno, hcb, hleft, hanswers, herrno⟩
    · -- the error clears the cache under the flush
      have hs : s.sendProxy d = (s.put .proxy ((s.ctx .proxy).send d).1).onErrorProxy := by
        simp only [sendProxy, Owner.run, errorOwner, hcb]
      have hc := onErrorProxy_closes hk.tidy
      obtain ⟨htouched, hfile⟩ := onErrorProxy_cleared hk.tidy
      rw [hk.mLocalCache] at htouched
      refine .emptied ?_ ?_ (by rw [hfunc]) ?_ <;> rw [hfunc, hs]
      · exact htouched.ne'
      · exact hfile
      · exact ⟨hc.emptied, h.log.trans (hput.trans hc.toQuiet.untouched),
          h.rest.mp ⟨hst, Or.inl hfails⟩⟩
    · have hs : s.sendProxy d = s.put .proxy ((s.ctx .proxy).send d).1 := by
        simp only [sendProxy, Owner.run, errorOwner, hcb]
      rw [hs] at hfit
      refine .took ?_ (by rw [hfunc]) ?_ <;> rw [hfunc, hs]
      · exact hk.mLocalCache
      · refine ⟨h.toAlong.trans hk.toAlong, hfit, hq, h.log.trans hput, ?_⟩
        have hconn : (s.put .proxy ((s.ctx .proxy).send d).1).conn .proxy =
          ((s.ctx .proxy).send d).1.conn := conn_put s .proxy _
        have hstatus : ((s.ctx .proxy).send d).1.conn.mConnStatus = .Connected := hlink.status.trans hst
        have hqueued : ((s.put .proxy ((s.ctx .proxy).send d).1).ctx .proxy).queued =
          ((s.ctx .proxy).send d).1.queued := rfl
        have hsends : (s.put .proxy ((s.ctx .proxy).send d).1).sys = ((s.ctx .proxy).send d).1.sys := rfl
        rw [← h.rest, FailsWith, FailsWith, SendsFail, hconn, hqueued, hsends, hleft, hanswers, herrno]
        exact and_congr (iff_of_true hstatus hst) (or_iff_right hno).symm
  · -- the peer is gone: the chunk is dropped
    have hs : s.sendProxy d = s.log (.sendCall (s.conn .proxy).this d) := by
      have hr := Ctx.send_of_refused d (x := s.ctx .proxy) (Or.inr hst)
      simp only [sendProxy, Owner.run, errorOwner, hr]
      rfl
    rw [hs] at hfit
    have hk : Keeps .proxy s (s.log (.sendCall (s.conn .proxy).this d)) := log_keeps .proxy _ h.tidy
    refine .took ?_ (by rw [hfunc]) ?_ <;> rw [hfunc, hs]
    · exact hk.mLocalCache
    · refine ⟨h.toAlong.trans hk.toAlong, hfit, hq, h.log.trans (Extends.entry rfl id), ?_⟩
      rw [← h.rest]
      exact iff_of_false (fun hf => hst hf.1) fun hf => hst hf.1

theorem Noticed.of_disturbed {m s : TunCtx} (h : Disturbed m s) {k : TunCtx}
    (log : k.sys.trace = s.sys.trace ++ [.flushTouched s.tun.this])
    (cache : k.tun.mLocalCache = s.tun.mLocalCache) : Noticed m k := by
  obtain ⟨evs, ht, -⟩ := h.log
  refine ⟨cache ▸ h.emptied, ⟨evs ++ [.flushTouched s.tun.this], ?_, ?_⟩, h.fails⟩
  · rw [log, ht, List.append_assoc]
  · exact iff_of_true ⟨_, List.mem_append_right _ (List.mem_singleton.mpr rfl), trivial⟩ trivial

/-- A flush finds the cache changed just if one of its calls of `send` ends in an
error; it leaves nothing to flush, but for a failed `assert`. -/
theorem flushLocal_touchIff {m : TunCtx} (ht : m.Tidy) (hfd : 0 ≤ (m.conn .proxy).mFd)
    (hh : (m.conn .proxy).mHandler = true) (hf : m.Fit) (hst : m.tun.mProxyStatus = .Connected) :
    TouchIff (m.FailsWith m.tun.mLocalCache.offered) m m.flushLocal ∧
      (m.flushLocal.tun.mLocalCache.Spent ∨ m.flushLocal.sys.aborted = true) := by
  let n := m.log (.flushing m.tun.this)
  have hmn : Untouched m n := Extends.entry rfl id
  have hk : Keeps .proxy m n := log_keeps .proxy _ ht
  have hflush : m.flushLocal = (cacheHost.flushAll n).2 := by rw [flushLocal, if_pos hst]
  have hends := cacheHost.flushAll_offers (I := Flushing n) (J := Disturbed n) (K := Noticed n)
    (fun _ _ => rfl) ?_ ?_ ?_ ?_ ?_ n
    ⟨Along.refl .proxy hk.tidy, hf.log _, Cache.offered_ne_nil hf.cached, .refl n, Iff.rfl⟩
  · rw [hflush]
    generalize cacheHost.flushAll n = r at hends
    cases hends with
    | done inv spent =>
      -- with nothing left to pass on nothing can fail, so nothing could from the start
      have hno : ¬n.FailsWith n.tun.mLocalCache.offered := fun h => (inv.rest.mpr h).2
      exact ⟨(hmn.trans inv.log).touches hno, Or.inl spent⟩
    | aborted s inv eq =>
      have hno : ¬n.FailsWith n.tun.mLocalCache.offered := fun h => (inv.rest.mpr h).2
      rw [eq]
      exact ⟨(hmn.trans (inv.log.trans (.of_eq rfl))).touches hno, Or.inr rfl⟩
    | emptied inv =>
      obtain ⟨evs, htr, htouch⟩ := hmn.before inv.log
      exact ⟨⟨evs, htr, htouch.trans (iff_of_true trivial inv.fails)⟩, Or.inl inv.emptied.spent⟩
  · intro q c s hs hc
    exact hs.congr rfl rfl rfl rfl rfl (fun side => by cases side <;> rfl) rfl rfl rfl (hs.fit.drains hc)
  · exact fun c s hs hc => ⟨hs.emptied.drains hc, hs.log, hs.fails⟩
  · exact fun s hs => .of_disturbed hs rfl rfl
  · exact fun s hs => ⟨.of_disturbed hs rfl rfl, rfl⟩
  · exact fun d q s hs => hs.round hfd hh

/-- An established tunnel has nothing left to flush. -/
def Spare (m : TunCtx) : Prop := m.tun.mProxyStatus = .Connected → m.tun.mLocalCache.Spent

theorem Spare.keeps {side : Side} {m n : TunCtx} (h : m.Spare) (hk : Keeps side m n) : n.Spare := by
  intro hst
  rw [hk.mLocalCache]
  exact h (hk.mProxyStatus ▸ hst)

theorem Ended.spare {m n : TunCtx} (h : Ended m n) : n.Spare := fun _ => h.emptied.spent

theorem Spare.flushLocal_untouched {m : TunCtx} (h : m.Spare) (ht : m.Tidy)
    (hfd : 0 ≤ (m.conn .proxy).mFd) (hh : (m.conn .proxy).mHandler = true) (hf : m.Fit) :
    Untouched m m.flushLocal := by
  by_cases hst : m.tun.mProxyStatus = .Connected
  · refine (flushLocal_touchIff ht hfd hh hf hst).1.untouched ?_
    rw [(h hst).offered]
    exact fun hf => hf.2
  · rw [flushLocal, if_neg hst]
    exact .refl m

/-- The flush behind the loss of the client. -/
theorem Sane.flushLocal_untouched {m : TunCtx} (hs : m.Sane) (h : m.Spare)
    (ht : (m.shutdown .loc).Tidy) (hf : (m.shutdown .loc).Fit) :
    Untouched (m.shutdown .loc) (m.shutdown .loc).flushLocal := by
  obtain ⟨-, htouch, -⟩ := m.shutdown_spec .loc (hs.tidy .loc)
  have hp : (m.shutdown .loc).conn .proxy = m.conn .proxy := htouch.other
  have hspare : (m.shutdown .loc).Spare := by
    intro hst
    rw [htouch.mLocalCache]
    exact h (htouch.mProxyStatus ▸ hst)
  apply hspare.flushLocal_untouched ht _ _ hf
  · rw [hp]
    exact hs.fd .proxy
  · rw [hp]
    exact hs.handler .proxy

/-- Giving up an established session flushes nothing. -/
theorem Sane.onError_untouched (side : Side) {m : TunCtx} (hs : m.Sane) (h : m.Spare)
    (hf : side = .loc → (m.shutdown .loc).Fit) : Untouched m (m.onError side) := by
  cases side with
  | loc =>
    obtain ⟨hq, ht, -, hq'⟩ := onErrorLocal_flushed hs.tidy (hs.heard .proxy) hs.mHandler
    have hflush := hs.flushLocal_untouched h ht (hf rfl)
    exact hq.untouched.trans (hflush.trans hq'.untouched)
  | proxy => exact (onErrorProxy_closes hs.tidy).toQuiet.untouched

theorem Sane.onDisconnected_untouched (side : Side) {m : TunCtx} (hs : m.Sane) (h : m.Spare)
    (hf : m.Fit) : Untouched m (m.onDisconnected side) := by
  cases side with
  | loc =>
    obtain ⟨hq, ht, -, hq'⟩ := onDisconnected_loc_flushed hs.tidy (hs.heard .proxy) hs.mHandler
    have hflush := hs.flushLocal_untouched h ht (hf.shutdown .loc)
    exact hq.untouched.trans (hflush.trans hq'.untouched)
  | proxy => exact (onDisconnected_proxy_closes hs.tidy hs.mHandler).toQuiet.untouched

/-- What the client sends is passed on or kept. -/
theorem Sane.onRecv_loc_untouched (bs : Bytes) {m : TunCtx} (hs : m.Sane) (h : m.Spare) :
    Untouched m (m.onRecv .loc bs) ∧ (m.onRecv .loc bs).Spare := by
  simp only [onRecv]
  split
  · refine ⟨sendProxy_untouched bs hs.tidy (hs.fd .proxy), ?_⟩
    rcases sendProxy_keeps bs hs.tidy (hs.heard .proxy) with hk | he
    exacts [h.keeps hk, he.spare]
  · rename_i hst
    exact ⟨.of_eq rfl, fun hc => absurd hc hst⟩

/-- The answer `bs` of the proxy server opens the tunnel. -/
def OpenedBy (m : TunCtx) (bs : Bytes) : Prop :=
  m.tun.mProxyStatus = .Connecting ∧ (Answer.reading m.tun.header).hear bs = .relaying []

/-- Of all that the proxy server may send, only an answer that opens the tunnel
starts a flush of something. -/
theorem Sane.onRecv_proxy_touchIff {bs : Bytes} {m : TunCtx} (hs : m.Sane) (h : m.Spare) (hf : m.Fit)
    (hb : bs ≠ []) (hl : (m.conn .loc).mConnStatus = .Connected) :
    TouchIff (m.OpenedBy bs ∧ m.FailsWith m.tun.mLocalCache.offered) m (m.onRecv .proxy bs) ∧
      ((m.onRecv .proxy bs).Spare ∨ (m.onRecv .proxy bs).sys.aborted = true) := by
  by_cases hst : m.tun.mProxyStatus = .Connecting
  · have hstep := onRecv_answer (a := .reading m.tun.header) bs ⟨hst, rfl⟩ hl
    unfold OpenedBy
    generalize (Answer.reading m.tun.header).hear bs = b at hstep ⊢
    generalize m.onRecv .proxy bs = n at hstep ⊢
    cases hstep with
    | overflows =>
      have hc := dropProxy_closes hs.tidy hs.mHandler
      exact ⟨hc.toQuiet.untouched.touches (fun hp => nomatch hp.1.2), Or.inl hc.ended.spare⟩
    | collects text buf header =>
      refine ⟨Untouched.touches (.of_eq rfl) (fun hp => nomatch hp.1.2), Or.inl fun hc => ?_⟩
      exact nomatch hst.symm.trans hc
    | opens text buf =>
      -- the tunnel is established first; the flush then finds the cache as it was
      let k := (setStatus .Connected { m with tun.mHttpHeader := buf }).log (.established m.tun.this)
      have hmk : Untouched m k := Extends.entry rfl id
      have hk : k.Fit := hf.congr (fun s => by cases s <;> rfl) rfl
      obtain ⟨htouch, hleft⟩ := flushLocal_touchIff (m := k)
        (fun s => by cases s; exacts [hs.tidy .loc, hs.tidy .proxy]) (hs.fd .proxy) (hs.handler .proxy) hk rfl
      obtain ⟨evs, ht, hiff⟩ := hmk.before htouch
      refine ⟨⟨evs, ht, hiff.trans ?_⟩, hleft.imp (fun hc _ => hc) id⟩
      exact (and_iff_right ⟨hst, rfl⟩).symm
    | refuses text buf =>
      have hc := dropProxy_closes (m := setStatus .Error { m with tun.mHttpHeader := buf })
        (fun s => by cases s; exacts [hs.tidy .loc, hs.tidy .proxy]) hs.mHandler
      have hq : Untouched m (setStatus .Error { m with tun.mHttpHeader := buf }) := .of_eq rfl
      exact ⟨(hq.trans hc.toQuiet.untouched).touches (fun hp => nomatch hp.1.2),
        Or.inl fun _ => hc.emptied.spent⟩
  · suffices Untouched m (m.onRecv .proxy bs) ∧ (m.onRecv .proxy bs).Spare from
      ⟨this.1.touches fun hp => hst hp.1.1, Or.inl this.2⟩
    have hdrop : Untouched m m.dropProxy ∧ m.dropProxy.Spare := by
      have hc := dropProxy_closes hs.tidy hs.mHandler
      exact ⟨hc.toQuiet.untouched, hc.ended.spare⟩
    simp only [onRecv]
    split
    · rename_i hc
      exact absurd hc hst
    · split
      · exact hdrop
      · -- the bytes are for the client, whose loss would flush an empty cache
        have hk := send_keeps .loc bs hs.tidy (hs.fd .loc)
        have hfit := hf.put .loc ((m.ctx .loc).send_unspent ⟨bs, hb⟩ (hf.queue .loc)).2
        refine ⟨sends_untouched bs ((hs.goes hk.toGoes).onError_untouched .loc (h.keeps hk) fun _ =>
          hfit.shutdown .loc), ?_⟩
        rcases sendLocal_keeps bs hs.tidy hs.heard hs.mHandler with hk | he
        exacts [h.keeps hk, he.spare]
    · exact hdrop

/-- The bytes that wait at the proxy connection open the tunnel, the proxy server is
still there, and passing on the cached chunks ends in an error of `send`. -/
structure FlushSpoils (m : TunCtx) : Prop where
  connected : (m.conn .proxy).mConnStatus = .Connected
  read : (Connection.inbound m.sys.env.recvs 0).1 ≠ []
  opened : m.OpenedBy (Connection.inbound m.sys.env.recvs 0).1
  stays : (Connection.readEnd m.sys.env.recvs 0 m.sys.errno).1 = none
  fails : SendsFail m.tun.mLocalCache.offered (m.ctx .proxy).queued m.sys.env.sends
    (Connection.readEnd m.sys.env.recvs 0 m.sys.errno).2

/-- The notification `a` leads to such a flush. -/
def Spoils (m : TunCtx) (a : Entry × Notice) : Prop :=
  m.halted = false ∧ a.2 = .input .proxy ∧ (m.enter a.1).FlushSpoils

section Notified

variable {m n r : TunCtx} {bs : Bytes} {side : Side}

theorem InputSpec.untouched (h : InputSpec side m n bs r) : Untouched m n := by
  obtain ⟨evs, htr, he, -⟩ := h.log
  refine ⟨evs, htr, fun e hm => ?_⟩
  rcases he e hm with hx | rfl
  · cases e <;> first | exact hx.elim | exact id
  · exact id

theorem InputSpec.spare (h : InputSpec side m n bs r) (hm : m.Spare) : n.Spare := fun hst => by
  rw [h.toRead.mLocalCache]
  exact hm (h.toRead.mProxyStatus ▸ hst)

/-- In the state in which `onRecv` is called it shows what the flush will come to. -/
theorem InputSpec.spoils_iff (h : InputSpec .proxy m n bs r) (hb : bs ≠ [])
    (hst : (m.conn .proxy).mConnStatus = .Connected) :
    n.OpenedBy bs ∧ n.FailsWith n.tun.mLocalCache.offered ↔ m.FlushSpoils := by
  have hread := h.toRead
  have hheader : n.tun.header = m.tun.header := congrArg cstr hread.mHttpHeader
  have hopened : n.OpenedBy bs ↔ m.OpenedBy bs := by
    rw [OpenedBy, OpenedBy, hheader, hread.mProxyStatus]
  have hqueued : (n.ctx .proxy).queued = (m.ctx .proxy).queued := by
    obtain ⟨st, -, hc⟩ := hread.conn
    unfold Ctx.queued
    rw [show (n.ctx .proxy).conn = _ from hc]
    rfl
  have hstays : (n.conn .proxy).mConnStatus = .Connected ↔
      (Connection.readEnd m.sys.env.recvs 0 m.sys.errno).1 = none := by
    rw [h.status]
    exact Connection.readEnd_open _ _ _
  rw [hopened, FailsWith, hread.mLocalCache, hqueued, h.sends, h.errno, hstays]
  rw [h.bytes] at hb ⊢
  constructor
  · rintro ⟨ho, hs, hf⟩
    exact ⟨hst, hb, ho, hs, hf⟩
  · rintro ⟨-, -, ho, hs, hf⟩
    exact ⟨ho, hs, hf⟩

theorem Live.input_loc_untouched (hm : m.Live) (hw : m.tun.Whole) (h : m.Spare) (hf : m.Fit) :
    Untouched m ((owner .loc).handleInputNotification m) ∧
      ((owner .loc).handleInputNotification m).Spare := by
  rcases hm.input_inv hw .loc with ⟨-, hk⟩ | ⟨-, n, bs, r, hin, hn, hend⟩
  · rw [hk]
    exact ⟨.refl m, h⟩
  have hnf : n.Fit := hf.read hin.toRead
  have hr : Untouched n r ∧ r.Spare ∧ r.Fit := by
    rw [hin.result]
    split
    · exact ⟨.refl n, hin.spare h, hnf⟩
    · rename_i hb
      obtain ⟨hu, hs⟩ := hn.onRecv_loc_untouched bs (hin.spare h)
      exact ⟨hu, hs, hnf.onRecv .loc hb⟩
  obtain ⟨hu, hs, hrf⟩ := hr
  have hmr := hin.untouched.trans hu
  generalize (owner .loc).handleInputNotification m = k at hend ⊢
  cases hend with
  | stays => exact ⟨hmr, hs⟩
  | fails y hsane _ hy =>
    have hys := hsane.goes hy.toGoes
    have hlog : Untouched r y := Extends.entry hy.log id
    exact ⟨hmr.trans (hlog.trans (hys.onError_untouched .loc (hs.keeps hy.toKeeps) fun _ =>
      (hrf.noting hy).shutdown .loc)), (onError_ended .loc hys.tidy (hys.heard .proxy) hys.mHandler).spare⟩
  | leaves y hsane _ hy =>
    have hys := hsane.goes hy.toGoes
    have hlog : Untouched r y := Extends.entry hy.log id
    exact ⟨hmr.trans (hlog.trans (hys.onDisconnected_untouched .loc (hs.keeps hy.toKeeps) (hrf.noting hy))),
      (onDisconnected_ended .loc hys.tidy (hys.heard .proxy) hys.mHandler).spare⟩

theorem Live.input_proxy_touchIff (hm : m.Live) (hw : m.tun.Whole) (h : m.Spare) (hf : m.Fit) :
    TouchIff m.FlushSpoils m ((owner .proxy).handleInputNotification m) ∧
      (((owner .proxy).handleInputNotification m).Spare ∨
        ((owner .proxy).handleInputNotification m).sys.aborted = true) := by
  rcases hm.input_inv hw .proxy with ⟨hst, hk⟩ | ⟨hst, n, bs, r, hin, hn, hend⟩
  · rw [hk]
    exact ⟨(Untouched.refl m).touches fun hp => hst hp.connected, Or.inl h⟩
  have hr : TouchIff m.FlushSpoils m r ∧ (r.Spare ∨ r.sys.aborted = true) := by
    rw [hin.result]
    split
    · rename_i hb
      exact ⟨hin.untouched.touches fun hp => hp.read (hin.bytes ▸ hb), Or.inl (hin.spare h)⟩
    · rename_i hb
      have hl : (n.conn .loc).mConnStatus = .Connected := by
        rw [show n.conn .loc = m.conn .loc from hin.toRead.other]
        exact hm.loc
      obtain ⟨htouch, hleft⟩ := hn.onRecv_proxy_touchIff (hin.spare h) (hf.read hin.toRead) hb hl
      rw [hin.spoils_iff hb hst] at htouch
      exact ⟨hin.untouched.before htouch, hleft⟩
  obtain ⟨htouch, hleft⟩ := hr
  generalize (owner .proxy).handleInputNotification m = k at hend ⊢
  -- losing the proxy server drops the cache and flushes nothing
  cases hend with
  | stays => exact ⟨htouch, hleft⟩
  | fails y hsane _ hy =>
    have hlog : Untouched r y := Extends.entry hy.log id
    have hc := onErrorProxy_closes (hsane.goes hy.toGoes).tidy
    exact ⟨htouch.after (hlog.trans hc.toQuiet.untouched), Or.inl hc.ended.spare⟩
  | leaves y hsane _ hy =>
    have hys := hsane.goes hy.toGoes
    have hlog : Untouched r y := Extends.entry hy.log id
    have hc := onDisconnected_proxy_closes hys.tidy hys.mHandler
    exact ⟨htouch.after (hlog.trans hc.toQuiet.untouched), Or.inl hc.ended.spare⟩

theorem Live.output_untouched (hm : m.Live) (hw : m.tun.Whole) (h : m.Spare) (hf : m.Fit) (side : Side) :
    Untouched m ((owner side).handleOutputNotification m) ∧
      ((owner side).handleOutputNotification m).Spare := by
  have hs := hm.sane hw
  have hstep := hm.outputStep side
  generalize (owner side).handleOutputNotification m = k at hstep ⊢
  have hwire : ∀ {x : Ctx} {s : Sys} {bs : Bytes} {tail : List Ev},
      Wire (m.conn side).this m.sys s bs → x.sys.trace = s.trace ++ tail →
      (∀ e ∈ tail, ¬e.isTouch) → Untouched m (m.put side x) := by
    rintro x s bs tail ⟨evs, hlog, he, -⟩ ht htail
    refine .put ⟨evs ++ tail, by rw [ht, hlog, List.append_assoc], fun e hm => ?_⟩
    rcases List.mem_append.mp hm with hm | hm
    · have hsend := he e hm
      cases e <;> first | exact hsend.elim | exact id
    · exact htail e hm
  cases hstep with
  | idle => exact ⟨.refl m, h⟩
  | flushed _ x bs _ link wire _ =>
    exact ⟨hwire wire (List.append_nil _).symm (by simp), h.keeps (put_keeps hs.tidy link (hs.fd side))⟩
  | failed _ x s bs _ link wire _ trace =>
    have hk := put_keeps hs.tidy link (hs.fd side)
    have hxs := hs.goes hk.toGoes
    refine ⟨(hwire wire trace (by simp [Ev.isTouch])).trans (hxs.onError_untouched side (h.keeps hk) ?_),
      (onError_ended side hxs.tidy (hxs.heard .proxy) hxs.mHandler).spare⟩
    -- whatever the flush left in the client's queue is dropped first
    rintro rfl
    obtain ⟨hd, ht, -⟩ := (m.put .loc x).shutdown_spec .loc (hxs.tidy .loc)
    have hother : ((m.put .loc x).shutdown .loc).conn .proxy = m.conn .proxy := ht.other
    refine ⟨fun side => ?_, ht.mLocalCache ▸ hf.cached⟩
    cases side with
    | loc => rw [hd.queue]; simp [Unspent]
    | proxy => rw [hother]; exact hf.queue .proxy
  | refused x r _ hfd _ ht =>
    have hplain : Untouched m (m.put .proxy x) := .put ⟨_, ht, by simp [Ev.isTouch]⟩
    have hc := onErrorProxy_closes (hs.tidy.put_open .proxy (hfd ▸ hs.fd .proxy))
    exact ⟨hplain.trans hc.toQuiet.untouched, hc.ended.spare⟩
  | connected x _ hc ht =>
    obtain ⟨hlive, -⟩ := hm.asking hc
    have hplain : Untouched m (m.asking x) := ⟨_, ht, by simp [Ev.isTouch]⟩
    refine ⟨hplain.trans (sendProxy_untouched _ hlive.tidy (hlive.fd .proxy)), ?_⟩
    rcases sendProxy_keeps m.key.request hlive.tidy (hlive.heard .proxy) with hk | he
    · intro hst
      have hopen : EProxyStatus.Connecting = .Connected := hk.mProxyStatus.symm.trans hst
      cases hopen
    · exact he.spare

end Notified

/-- What a notification does to a tunnel, in session or not. -/
theorem step_touchIff {m : TunCtx} (hs : m.Shaped) (hw : m.tun.Whole) (hf : m.Fit)
    (hm : m.halted = false → m.Spare) (a : Entry × Notice) :
    TouchIff (m.Spoils a) m (m.step a) ∧ ((m.step a).halted = false → (m.step a).Spare) := by
  unfold TunCtx.step
  split
  · rename_i hhalt
    exact ⟨(Untouched.refl m).touches (fun hp => nomatch hp.1.symm.trans hhalt), hm⟩
  rename_i hrun
  have hrun' : m.halted = false := Bool.eq_false_iff.mpr hrun
  have hme : Untouched m (m.enter a.1) := .of_eq rfl
  have hfe : (m.enter a.1).Fit := hf.congr (fun s => by cases s <;> rfl) rfl
  have hwe : (m.enter a.1).tun.Whole := ⟨hw.loc, hw.proxy⟩
  have hse : (m.enter a.1).Spare := hm hrun'
  have hother : a.2 ≠ .input .proxy → Untouched (m.enter a.1) ((m.enter a.1).notify a.2) ∧
      ((m.enter a.1).notify a.2).Spare →
      TouchIff (m.Spoils a) m ((m.enter a.1).notify a.2) ∧
        (((m.enter a.1).notify a.2).halted = false → ((m.enter a.1).notify a.2).Spare) :=
    fun hne h => ⟨(hme.trans h.1).touches fun hp => hne hp.2.1, fun _ => h.2⟩
  rcases hs with hl | ⟨hshut, he⟩
  · -- of the four notices only an input of the proxy connection can start such a flush
    cases hn : a.2 with
    | input side =>
      cases side with
      | loc =>
        rw [← hn]
        refine hother (by rw [hn]; simp) ?_
        rw [hn]
        exact (hl.enter a.1).input_loc_untouched hwe hse hfe
      | proxy =>
        obtain ⟨htouch, hleft⟩ := (hl.enter a.1).input_proxy_touchIff hwe hse hfe
        obtain ⟨evs, ht, hiff⟩ := hme.before htouch
        refine ⟨⟨evs, ht, hiff.trans ⟨fun hp => ⟨hrun', hn, hp⟩, fun hp => hp.2.2⟩⟩, fun hgo => ?_⟩
        refine hleft.resolve_right fun hab => ?_
        have hhalted := (Bool.or_eq_false_iff.mp hgo).2
        exact nomatch hab.symm.trans hhalted
    | output side =>
      rw [← hn]
      refine hother (by rw [hn]; simp) ?_
      rw [hn]
      exact (hl.enter a.1).output_untouched hwe hse hfe side
  · -- a tunnel out of session does not react
    rw [(hshut.enter a.1).notify a.2]
    have hclosed : (m.conn .proxy).mConnStatus = .Closed := (hshut .proxy).status
    exact ⟨hme.touches (fun hp => nomatch hclosed.symm.trans hp.2.2.connected), fun _ _ => he.spent⟩

/-- Opening a session flushes nothing. -/
theorem onAccept_untouched (cfg : Config) (connfd : ℕ) {m : TunCtx} (h : m.tun.Idle) :
    Untouched m (m.onAccept cfg connfd).2 ∧ (m.onAccept cfg connfd).2.Spare := by
  obtain ⟨hshut, hempty⟩ := (idle_iff m).mp h
  have hnoted : ∀ {n : TunCtx}, Noted m.sys n.sys → Untouched m n := fun hn =>
    Extends.mono hn fun _ => Ev.isNote.not_touch
  have ho := onAccept_spec cfg connfd hshut
  generalize m.onAccept cfg connfd = r at ho
  cases ho with
  | refused _ n key shut cache log =>
    refine ⟨hnoted log, fun _ => ?_⟩
    rw [cache]
    exact hempty.spent
  | waiting n key broken linked status cache queue log =>
    exact ⟨hnoted log, fun hc => nomatch status.symm.trans hc⟩
  | asked n key broken linked status header cache queue log =>
    refine ⟨(hnoted log).trans (sendProxy_untouched _ linked.tidy (linked.fd .proxy)), ?_⟩
    rcases sendProxy_keeps n.key.request linked.tidy (linked.heard .proxy) with hk | he
    · exact fun hc => nomatch (hk.mProxyStatus.trans status).symm.trans hc
    · exact he.spare

end TunCtx

namespace Session

theorem run_append (cfg : Config) (s : Session) (t : ProxyTunnel) (as bs : List (Entry × Notice)) :
    ({ s with arrivals := as ++ bs } : Session).run cfg t =
      bs.foldl TunCtx.step (({ s with arrivals := as } : Session).run cfg t) := by
  unfold run
  rw [List.foldl_append]
  rfl

/-- After each notification, unless it was the last one, a tunnel that is established
has nothing left to flush. -/
theorem run_spare (cfg : Config) (s : Session) {t : ProxyTunnel} (h : Recycled cfg t) :
    (s.run cfg t).Fit ∧ ((s.run cfg t).halted = false → (s.run cfg t).Spare) := by
  refine s.run_rule (P := fun m => m.Fit ∧ (m.halted = false → m.Spare)) h
    ⟨TunCtx.onAccept_fit cfg s.connfd h.idle.1, fun _ => ?_⟩ fun m a hs hw hm => ⟨hm.1.step a, ?_⟩
  · exact (TunCtx.onAccept_untouched cfg s.connfd h.idle.1).2
  · exact (TunCtx.step_touchIff hs hw hm.1 hm.2 a).2

/-- No callback of `flushAll` changes the cache under it exactly if no notification
brings an answer that opens the tunnel together with answers of `::send` that make
passing on the cached chunks fail. -/
theorem flush_undisturbed_iff (cfg : Config) (s : Session) {t : ProxyTunnel} (h : Recycled cfg t) :
    (∀ x, .flushTouched x ∉ (s.run cfg t).sys.trace) ↔
      ∀ as a, as ++ [a] <+: s.arrivals →
        ¬(({ s with arrivals := as } : Session).run cfg t).Spoils a := by
  have htouch : ∀ evs : List Ev, (∀ x, .flushTouched x ∉ evs) ↔ ¬∃ e ∈ evs, e.isTouch := by
    intro evs
    constructor
    · rintro hno ⟨e, hm, he⟩
      cases e <;> first | exact he.elim | exact hno _ hm
    · exact fun hno x hm => hno ⟨_, hm, trivial⟩
  -- the trace grows with the arrivals, the session is otherwise the same
  suffices ∀ arrivals, (∀ x, .flushTouched x ∉
      (({ s with arrivals := arrivals } : Session).run cfg t).sys.trace) ↔
      ∀ as a, as ++ [a] <+: arrivals →
        ¬(({ s with arrivals := as } : Session).run cfg t).Spoils a from this s.arrivals
  intro arrivals
  -- on the last arrival: it adds its own log to the trace
  induction arrivals using List.reverseRecOn with
  | nil =>
    obtain ⟨evs, ht, hp⟩ := (TunCtx.onAccept_untouched cfg s.connfd
      (m := ⟨t, ⟨s.entry.errno, s.entry.env, s.entry.poller, [], false⟩, s.entry.stdio, [], false⟩)
      h.idle.1).1
    have hrun : (({ s with arrivals := [] } : Session).run cfg t).sys.trace = evs := ht
    rw [hrun]
    -- accepting touches no flush, and there is no arrival to blame
    refine iff_of_true (fun x hm => hp _ hm trivial) fun as a hpre => ?_
    simp at hpre
  | append_singleton bs b ih =>
    let r : Session := { s with arrivals := bs }
    obtain ⟨-, hw, hshape⟩ := r.run_shaped cfg h.idle.1 h.idle.2
    obtain ⟨hfit, hspare⟩ := r.run_spare cfg h
    obtain ⟨⟨evs, ht, hl⟩, -⟩ :=
      TunCtx.step_touchIff (hshape.imp And.left id) hw hfit hspare b
    have hrun : ({ s with arrivals := bs ++ [b] } : Session).run cfg t = (r.run cfg t).step b :=
      s.run_append cfg t bs [b]
    rw [hrun, ht]
    have hsplit : (∀ x, .flushTouched x ∉ (r.run cfg t).sys.trace ++ evs) ↔
        (∀ x, .flushTouched x ∉ (r.run cfg t).sys.trace) ∧ ∀ x, .flushTouched x ∉ evs := by
      simp only [List.mem_append, not_or, forall_and]
    rw [hsplit, ih, htouch, hl]
    constructor
    -- a prefix that ends in an arrival ends in the last one or lies in the rest
    · rintro ⟨hbs, hb⟩ as a hpre
      rcases List.prefix_concat_iff.mp hpre with heq | hpre
      · obtain ⟨rfl, rfl⟩ := List.concat_inj.mp (by simpa using heq)
        exact hb
      · exact hbs as a hpre
    · exact fun hall => ⟨fun as a hpre => hall as a (hpre.trans (List.prefix_append _ _)),
        hall bs b (List.prefix_refl _)⟩

/-- The early data of the client is sent on when the tunnel is established, and
the proxy server accepts it. -/
def flushedSession : Session :=
  ⟨3, ⟨.EAGAIN, { sockets := [.fd 4] }, .new, []⟩,
    [(⟨.EAGAIN, { recvs := [.data (ascii "hello")] }, .new, []⟩, .input .loc),
      (⟨.EAGAIN, { sends := [.sent 4096] }, .new, []⟩, .output .proxy),
      (⟨.EAGAIN, { recvs := [.data (ascii "HTTP/1.1 200 Connection established\r\n\r\n")]
                   sends := [.sent 5] }, .new, []⟩, .input .proxy)]⟩

/-- The same, with a proxy server that has gone away. -/
def resetSession : Session :=
  ⟨3, ⟨.EAGAIN, { sockets := [.fd 4] }, .new, []⟩,
    [(⟨.EAGAIN, { recvs := [.data (ascii "hello")] }, .new, []⟩, .input .loc),
      (⟨.EAGAIN, { sends := [.sent 4096] }, .new, []⟩, .output .proxy),
      (⟨.EAGAIN, { recvs := [.data (ascii "HTTP/1.1 200 Connection established\r\n\r\n")]
                   sends := [.fail .ECONNRESET] }, .new, []⟩, .input .proxy)]⟩

/-- `::send` takes the early data whole. -/
theorem flush_undisturbed_accepted :
    ¬∃ x, .flushTouched x ∈ (flushedSession.run exampleConfig (.new 0)).sys.trace := by
  refine not_exists.mpr ((flush_undisturbed_iff exampleConfig flushedSession (.new 0)).mpr ?_)
  have hheard : ∀ k < 2, (flushedSession.arrivals.getD k (flushedSession.entry, .input .loc)).2 ≠
      .input .proxy := by decide
  have htaken : ¬SendsFail
      (({ flushedSession with arrivals := flushedSession.arrivals.take 2 } : Session).run
        exampleConfig (.new 0)).tun.mLocalCache.offered
      ((({ flushedSession with arrivals := flushedSession.arrivals.take 2 } : Session).run
        exampleConfig (.new 0)).ctx .proxy).queued [.sent 5] .EAGAIN := by decide +kernel
  rintro as a ⟨rest, hrest⟩ ⟨-, hinput, hspoils⟩
  have hlen := congrArg List.length hrest
  simp only [List.length_append, List.length_singleton] at hlen
  have htake : flushedSession.arrivals.take as.length = as := by
    rw [← hrest, List.append_assoc, List.take_left]
  have hget : flushedSession.arrivals.getD as.length (flushedSession.entry, .input .loc) = a := by
    rw [← hrest]
    simp
  have hk : as.length ≤ 2 := by
    change _ = 3 at hlen
    omega
  rcases Nat.lt_or_eq_of_le hk with hlt | heq
  · exact hheard _ hlt (hget ▸ hinput)
  · rw [heq] at htake hget
    subst htake hget
    exact htaken hspoils.fails

/-- The callback clears the list that `flushAll` is walking over. -/
theorem flush_disturbed : ¬∀ (cfg : Config) (s : Session) (t : ProxyTunnel), Recycled cfg t →
    ∀ x, .flushTouched x ∉ (s.run cfg t).sys.trace := by
  intro h
  have hno := h exampleConfig resetSession (.new 0) (.new 0) 0
  revert hno
  decide +kernel

end Session

end HttpsProxy
