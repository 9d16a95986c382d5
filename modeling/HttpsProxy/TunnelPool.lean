import HttpsProxy.ProxyClient
import HttpsProxy.TunnelReports

/-! The tunnels of a client between two callbacks of the poller. A tunnel in one
of the two lists is idle, so the poller does not know it any more. -/
namespace HttpsProxy

/-- Only the connections the poller has handlers of matter. -/
theorem Watched.congr {conn conn' : ConnId → Connection} {p : SelectPoller Watcher} (h : Watched conn p)
    (hc : ∀ i fd d, p.find i fd = some (.conn d) →
      (conn' d).mFd = (conn d).mFd ∧ (conn' d).reg i = (conn d).reg i) : Watched conn' p := by
  refine ⟨h.sound, fun i fd d hd => ?_⟩
  obtain ⟨h1, h2⟩ := hc i fd d hd
  rw [h1, h2]
  exact h.held i fd d hd

namespace TunCtx

/-- The connections of a tunnel in the place of those of `t`. -/
def among (t : TunId) (conn : ConnId → Connection) (m : TunCtx) (c : ConnId) : Connection :=
  if c.tun = t then m.conn c.side else conn c

/-- A poller that is watched stays so whatever a method of a tunnel does. -/
theorem Moves.watched {F : ℤ → Prop} {m n : TunCtx} {t : TunId} {conn : ConnId → Connection}
    (h : Moves F m n) (hw : Watched (m.among t conn) m.sys.poller)
    (hm : ∀ side, (m.conn side).this = ⟨t, side⟩) :
    Watched (n.among t conn) n.sys.poller ∧ ∀ side, (n.conn side).this = ⟨t, side⟩ := by
  refine h.keeps (P := fun k => Watched (k.among t conn) k.sys.poller ∧
    ∀ side, (k.conn side).this = ⟨t, side⟩) (fun u v hstep hu => ?_) ⟨hw, hm⟩
  obtain ⟨hw, hm⟩ := hu
  cases hstep with
  | conn side x step =>
    have hself : u.among t conn ⟨t, side⟩ = (u.ctx side).conn := if_pos rfl
    have hput : (u.put side x).among t conn = Function.update (u.among t conn) ⟨t, side⟩ x.conn := by
      funext ⟨s, r⟩
      by_cases hs : s = t
      · subst hs
        cases side <;> cases r <;> simp [among, Function.update, put, setConn, TunCtx.conn]
      · simp [among, hs]
    have hsys : (u.put side x).sys = x.sys := by cases side <;> rfl
    rw [hput, hsys]
    refine ⟨Watched.move hw hself (hm side) step, fun r => ?_⟩
    have hthis := step.this.trans (hm side)
    cases side <;> cases r
    exacts [hthis, hm .proxy, hm .loc, hthis]
  | beside _ hb =>
    refine ⟨?_, fun side => (hb.reg side).this.trans (hm side)⟩
    rw [hb.sys.poller]
    refine hw.congr fun i fd d _ => ?_
    unfold among
    split
    · refine ⟨(hb.reg _).fd, ?_⟩
      cases i
      exacts [(hb.reg _).read, (hb.reg _).write]
    · exact ⟨rfl, rfl⟩

theorem conn_congr {m n : TunCtx} (h : n.tun = m.tun) (side : Side) : n.conn side = m.conn side := by
  cases side
  exacts [congrArg ProxyTunnel.mLocalConn h, congrArg ProxyTunnel.mProxyConn h]

theorem Shaped.congr {m n : TunCtx} (hm : m.Shaped) (h : n.tun = m.tun) : n.Shaped := by
  have hc := conn_congr h
  refine hm.imp (fun hl => ⟨⟨fun side => ?_, fun side => ?_, ?_, ?_⟩, ?_⟩) fun hs => ⟨fun side => ?_, ?_⟩
  · rw [hc side]
    exact hl.fd side
  · rw [hc side]
    exact hl.handler side
  · rw [hc .loc]
    exact hl.loc
  · rw [hc .proxy, h]
    exact hl.phase
  · rw [h]
    exact hl.mHandler
  · rw [hc side]
    exact hs.1 side
  · rw [h]
    exact hs.2

/-- A tunnel with a registered connection is in session. -/
theorem Shaped.live {m : TunCtx} (hm : m.Shaped) {side : Side} {i : Interest}
    (hr : (m.conn side).reg i = true) : m.Live := by
  refine hm.resolve_right fun hs => ?_
  obtain ⟨⟨-, -, hread, hwrite, -⟩, -⟩ := hs.1 side
  cases i
  exacts [absurd (hread.symm.trans hr) (by simp), absurd (hwrite.symm.trans hr) (by simp)]

/-- `onAccept` takes a tunnel over two descriptors and nothing else. -/
theorem onAccept_watched (cfg : Config) (connfd : ℕ) {m : TunCtx} {t : TunId}
    {conn : ConnId → Connection} (hi : m.tun.Idle) (hw : Watched (m.among t conn) m.sys.poller)
    (hm : ∀ side, (m.conn side).this = ⟨t, side⟩) :
    Watched ((m.onAccept cfg connfd).2.among t conn) (m.onAccept cfg connfd).2.sys.poller := by
  have hshut := configured_shut cfg ((idle_iff m).mp hi).1
  obtain ⟨hw', hm'⟩ := (m.configured_moves (F := fun _ => False) cfg).watched hw hm
  obtain ⟨ha, -⟩ := ((m.configured cfg).acceptLocal_moves connfd hshut).watched hw' hm'
  -- the rest of `onAccept` concerns no connection
  have hsame : ∀ n k : TunCtx, Watched (n.among t conn) n.sys.poller → k.sys.poller = n.sys.poller →
      (∀ side, k.conn side = n.conn side) → Watched (k.among t conn) k.sys.poller := by
    intro n k hn hp hk
    have hf : k.among t conn = n.among t conn := by
      funext c
      simp only [among, hk]
    rw [hf, hp]
    exact hn
  rw [onAccept_eq]
  split
  · exact hsame _ _ hw' rfl fun side => conn_log _ side _
  · simp only
    split
    · exact hsame _ _ ha rfl fun side => by cases side <;> rfl
    · exact hsame _ _ ha rfl fun side => by rw [conn_insertBroken, conn_log]

end TunCtx

namespace ProxyClient

/-- The connections of all tunnels; those of the tunnels there are not are closed. -/
def conn (w : ProxyClient) (c : ConnId) : Connection :=
  match w.tunnels c.tun with
  | none => .new c
  | some tun => (w.enter tun).conn c.side

/-- The client between two callbacks. -/
structure Pooled (w : ProxyClient) : Prop where
  named : ∀ t tun, w.tunnels t = some tun → tun.this = t ∧ tun.Whole
  shaped : ∀ t tun, w.tunnels t = some tun → (w.enter tun).Shaped
  bound : ∀ t, w.nextTun ≤ t → w.tunnels t = none
  free : ∀ t ∈ w.mFreeTuns, ∃ tun, w.tunnels t = some tun ∧ tun.Idle
  broken : ∀ t ∈ w.mBrokenTuns, ∃ tun, w.tunnels t = some tun ∧ tun.Idle
  nodup : w.mFreeTuns.Nodup
  brokenNodup : w.mBrokenTuns.Nodup
  disjoint : w.mFreeTuns.Disjoint w.mBrokenTuns
  watched : Watched w.conn w.sys.poller
  stack : w.stack = []
  obtained : ∀ r ∈ w.obtained, (∃ tun, r.object = some tun ∧ tun.Idle) ∧ r.tun ∉ r.mBrokenTuns
  deletions : ∀ d ∈ w.deletions, d.tun ∉ d.stack ∧
    ∀ i fd side, d.poller.find i fd ≠ some (.conn ⟨d.tun, side⟩)

theorem initialise_pooled {mFd : ℤ} {w : ProxyClient} (h : initialise mFd = some w) : w.Pooled := by
  unfold initialise at h
  split at h
  · cases h
  rename_i p hp
  obtain rfl := Option.some.inj h
  have hreg : p = SelectPoller.new.register .read mFd Watcher.listener := (congrArg Prod.snd hp).symm
  have hfind : ∀ i fd d, p.find i fd ≠ some (.conn d) := fun i fd d hd => by
    rw [hreg, SelectPoller.register_find SelectPoller.new_sound] at hd
    split at hd
    · cases hd
    · cases i <;> cases hd
  refine ⟨?_, ?_, ?_, ?_, ?_, List.nodup_nil, List.nodup_nil, ?_, ⟨?_, ?_⟩, rfl, ?_, ?_⟩
  · exact fun t tun ht => nomatch ht
  · exact fun t tun ht => nomatch ht
  · exact fun _ _ => rfl
  · exact fun t ht => nomatch ht
  · exact fun t ht => nomatch ht
  · exact fun t ht => nomatch ht
  · exact hreg ▸ SelectPoller.register_sound SelectPoller.new_sound .read mFd Watcher.listener
  · exact fun i fd d hd => absurd hd (hfind i fd d)
  · exact fun r hr => nomatch hr
  · exact fun d hd => nomatch hd

section Steps

variable {w : ProxyClient} {t : TunId} {tun : ProxyTunnel}

theorem conn_of_some (ht : w.tunnels t = some tun) (side : Side) :
    w.conn ⟨t, side⟩ = (w.enter tun).conn side := by
  unfold conn
  simp only [ht]

theorem conn_of_none (ht : w.tunnels t = none) (side : Side) : w.conn ⟨t, side⟩ = .new ⟨t, side⟩ := by
  unfold conn
  simp only [ht]

/-- A tunnel has its connections with it. -/
theorem conn_of_same {v : ProxyClient} (h : v.tunnels t = w.tunnels t) (side : Side) :
    v.conn ⟨t, side⟩ = w.conn ⟨t, side⟩ := by
  unfold conn
  simp only [h]
  cases w.tunnels t with
  | none => rfl
  | some tun => cases side <;> rfl

theorem conn_of_tunnels {v : ProxyClient} (h : v.tunnels = w.tunnels) : v.conn = w.conn := by
  funext ⟨u, side⟩
  exact conn_of_same (congrFun h u) side

theorem Pooled.watched_of_tunnels {v : ProxyClient} (h : w.Pooled) (ht : v.tunnels = w.tunnels)
    (hp : v.sys.poller = w.sys.poller) : Watched v.conn v.sys.poller := by
  rw [conn_of_tunnels ht, hp]
  exact h.watched

/-- The poller has no handler of an idle tunnel, nor of one that is not there. -/
theorem Pooled.unregistered (h : w.Pooled) (ht : ∀ tun, w.tunnels t = some tun → tun.Idle)
    (i : Interest) (fd : ℤ) (side : Side) : w.sys.poller.find i fd ≠ some (.conn ⟨t, side⟩) := by
  intro hd
  obtain ⟨-, hr⟩ := h.watched.held i fd _ hd
  have hdown : (w.conn ⟨t, side⟩).Down := by
    cases htun : w.tunnels t with
    | none =>
      rw [conn_of_none htun]
      exact Connection.new_down _
    | some tun =>
      rw [conn_of_some htun]
      exact ((TunCtx.idle_iff (w.enter tun)).mp (ht tun htun)).1 side
  cases i
  exacts [absurd (hdown.read.symm.trans hr) (by simp), absurd (hdown.write.symm.trans hr) (by simp)]

/-- Whose connection the poller notifies is in session. -/
theorem Pooled.live (h : w.Pooled) {i : Interest} {fd : ℤ} {c : ConnId}
    (hc : w.sys.poller.find i fd = some (.conn c)) :
    ∃ tun, w.tunnels c.tun = some tun ∧ (w.enter tun).Live := by
  cases ht : w.tunnels c.tun with
  | none => exact absurd hc (h.unregistered (fun tun htun => by rw [ht] at htun; cases htun) i fd c.side)
  | some tun =>
    obtain ⟨-, hr⟩ := h.watched.held i fd c hc
    have hconn : w.conn c = (w.enter tun).conn c.side := conn_of_some ht c.side
    rw [hconn] at hr
    exact ⟨tun, rfl, (h.shaped c.tun tun ht).live hr⟩

theorem not_live_of_idle (hi : tun.Idle) : ¬(w.enter tun).Live :=
  fun hl => absurd (hl.fd .loc) (not_le.mpr hi.loc.fd)

theorem idle_shaped (hi : tun.Idle) : (w.enter tun).Shaped := Or.inr ((TunCtx.idle_iff (w.enter tun)).mp hi)

/-- What other callbacks of the process find is no concern of the lists. -/
theorem Pooled.outside (h : w.Pooled) {s : Sys} (ws : List WriteRes) (d : Bool)
    (hp : s.poller = w.sys.poller) : ({ w with sys := s, stdio := ws, dangling := d } : ProxyClient).Pooled := by
  refine ⟨h.named, fun t tun ht => (h.shaped t tun ht).congr rfl, h.bound, h.free, h.broken, h.nodup,
    h.brokenNodup, h.disjoint, h.watched_of_tunnels rfl hp, h.stack, h.obtained, h.deletions⟩

theorem call_of_some {α : Type} (f : TunCtx → α × TunCtx) (ht : w.tunnels t = some tun) :
    w.call t f = (some (f (w.enter tun)).1, w.leave t (f (w.enter tun)).2) := by
  unfold call
  simp only [ht]
  rfl

/-- An operation on the tunnel at `t`, which is not free: what holds of the other
tunnels and of the list of the free ones is as before. -/
theorem Pooled.change (h : w.Pooled) {v : ProxyClient}
    (others : ∀ u, u ≠ t → v.tunnels u = w.tunnels u)
    (self : ∀ tun, v.tunnels t = some tun → (tun.this = t ∧ tun.Whole) ∧ (v.enter tun).Shaped)
    (bound : ∀ u, v.nextTun ≤ u → w.nextTun ≤ u ∧ (u = t → v.tunnels t = none))
    (free : v.mFreeTuns = w.mFreeTuns) (hfree : t ∉ w.mFreeTuns)
    (broken : ∀ u ∈ v.mBrokenTuns, u ≠ t → u ∈ w.mBrokenTuns)
    (idle : t ∈ v.mBrokenTuns → ∃ tun, v.tunnels t = some tun ∧ tun.Idle)
    (nodup : v.mBrokenTuns.Nodup) (watched : Watched v.conn v.sys.poller)
    (stack : v.stack = w.stack)
    (obtained : ∀ r ∈ v.obtained, r ∈ w.obtained ∨
      (∃ tun, r.object = some tun ∧ tun.Idle) ∧ r.tun ∉ r.mBrokenTuns)
    (deletions : ∀ d ∈ v.deletions, d ∈ w.deletions ∨ d.tun ∉ d.stack ∧
      ∀ i fd side, d.poller.find i fd ≠ some (.conn ⟨d.tun, side⟩)) : v.Pooled := by
  -- `t` is not free, so the free tunnels are among the others
  have hne : ∀ u ∈ v.mFreeTuns, u ≠ t := fun u hu hut => hfree (hut ▸ free ▸ hu)
  refine ⟨fun u tun hu => ?_, fun u tun hu => ?_, fun u hu => ?_, fun u hu => ?_, fun u hu => ?_,
    free ▸ h.nodup, nodup, fun u hu hb => ?_, watched, stack.trans h.stack, fun r hr => ?_,
    fun d hd => ?_⟩
  · by_cases hut : u = t
    · subst hut
      exact (self tun hu).1
    · exact h.named u tun ((others u hut).symm.trans hu)
  · by_cases hut : u = t
    · subst hut
      exact (self tun hu).2
    · exact (h.shaped u tun ((others u hut).symm.trans hu)).congr rfl
  · obtain ⟨hle, hnone⟩ := bound u hu
    by_cases hut : u = t
    · rw [hut]
      exact hnone hut
    · exact (others u hut).trans (h.bound u hle)
  · rw [others u (hne u hu)]
    exact h.free u (free ▸ hu)
  · by_cases hut : u = t
    · subst hut
      exact idle hu
    · rw [others u hut]
      exact h.broken u (broken u hu hut)
  · exact h.disjoint (free ▸ hu) (broken u hb (hne u hu))
  · exact (obtained r hr).elim (h.obtained r) id
  · exact (deletions d hd).elim (h.deletions d) id

/-- A method of a tunnel that is not free, whatever the tunnel does in it. -/
theorem Pooled.leave (h : w.Pooled) (ht : w.tunnels t = some tun) (hfree : t ∉ w.mFreeTuns) {m : TunCtx}
    (this : m.tun.this = t) (whole : m.tun.Whole) (shaped : m.Shaped)
    (broken : m.mBrokenTuns = w.mBrokenTuns ∨ m.mBrokenTuns = (w.enter tun).insertBroken.mBrokenTuns)
    (idle : t ∈ m.mBrokenTuns → m.tun.Idle) (watched : Watched (m.among t w.conn) m.sys.poller) :
    (w.leave t m).Pooled := by
  have hself : (w.leave t m).tunnels t = some m.tun := Function.update_self ..
  have hother : ∀ u, u ≠ t → (w.leave t m).tunnels u = w.tunnels u := fun u hu =>
    Function.update_of_ne hu ..
  have hthis : (w.enter tun).tun.this = t := (h.named t tun ht).1
  -- the broken ones are those of before and perhaps the tunnel itself
  have hins : (w.enter tun).insertBroken.mBrokenTuns =
      if t ∈ w.mBrokenTuns then w.mBrokenTuns else w.mBrokenTuns ++ [t] := by
    rw [← hthis]
    rfl
  have hmem : ∀ u ∈ m.mBrokenTuns, u ≠ t → u ∈ w.mBrokenTuns := by
    intro u hu hne
    rcases broken with hb | hb
    · rwa [hb] at hu
    · rw [hb, hins] at hu
      split at hu
      · exact hu
      · exact (List.mem_append.mp hu).resolve_right fun hs => hne (List.mem_singleton.mp hs)
  have hnodup : m.mBrokenTuns.Nodup := by
    rcases broken with hb | hb
    · exact hb ▸ h.brokenNodup
    · rw [hb, hins]
      split
      · exact h.brokenNodup
      · rename_i hnot
        exact h.brokenNodup.append (List.nodup_singleton t) (by simpa using hnot)
  have hconn : (w.leave t m).conn = m.among t w.conn := by
    funext ⟨u, side⟩
    by_cases hu : u = t
    · subst hu
      rw [conn_of_some hself, TunCtx.among, if_pos rfl]
      exact TunCtx.conn_congr rfl side
    · rw [TunCtx.among, if_neg hu]
      exact conn_of_same (hother u hu) side
  have hbound : ∀ u, w.nextTun ≤ u → w.nextTun ≤ u ∧ (u = t → (w.leave t m).tunnels t = none) := by
    intro u hu
    refine ⟨hu, fun hut => ?_⟩
    rw [← hut, h.bound u hu] at ht
    cases ht
  refine h.change hother (fun tun' hu => ?_) hbound rfl hfree hmem (fun hb => ⟨_, hself, idle hb⟩)
    hnodup (hconn ▸ watched) rfl (fun _ => Or.inl) fun _ => Or.inl
  obtain rfl := Option.some.inj (hself.symm.trans hu)
  exact ⟨⟨this, whole⟩, shaped.congr rfl⟩

theorem newTunnel_of_nil (h : w.mFreeTuns = []) : w.newTunnel = (w.nextTun,
    { w with
      tunnels := Function.update w.tunnels w.nextTun (some (.new w.nextTun))
      nextTun := w.nextTun + 1
      obtained := w.obtained ++ [⟨w.nextTun, some (.new w.nextTun), w.mBrokenTuns⟩] }) := by
  unfold newTunnel
  rw [h]

theorem newTunnel_of_cons {ts : List TunId} (h : w.mFreeTuns = t :: ts) : w.newTunnel = (t,
    { w with mFreeTuns := ts, obtained := w.obtained ++ [⟨t, w.tunnels t, w.mBrokenTuns⟩] }) := by
  unfold newTunnel
  rw [h]

/-- No tunnel of the lists is the next new one. -/
theorem Pooled.nextTun_fresh (h : w.Pooled) : w.nextTun ∉ w.mFreeTuns ∧ w.nextTun ∉ w.mBrokenTuns := by
  have hnone : ∀ l : List TunId, (∀ u ∈ l, ∃ tun, w.tunnels u = some tun ∧ tun.Idle) → w.nextTun ∉ l := by
    intro l hl hm
    obtain ⟨tun, ht, -⟩ := hl _ hm
    rw [h.bound _ le_rfl] at ht
    cases ht
  exact ⟨hnone _ h.free, hnone _ h.broken⟩

/-- A new object has the connections that were there before it. -/
theorem Pooled.newTunnel_of_nil (h : w.Pooled) (hnil : w.mFreeTuns = []) : w.newTunnel.2.Pooled ∧
    w.newTunnel.2.tunnels w.newTunnel.1 = some (.new w.nextTun) := by
  obtain ⟨hfree, hbroken⟩ := h.nextTun_fresh
  have hidle := ProxyTunnel.new_idle w.nextTun
  rw [ProxyClient.newTunnel_of_nil hnil]
  simp only
  set v : ProxyClient := { w with
    tunnels := Function.update w.tunnels w.nextTun (some (.new w.nextTun))
    nextTun := w.nextTun + 1
    obtained := w.obtained ++ [⟨w.nextTun, some (.new w.nextTun), w.mBrokenTuns⟩] }
  have hself : v.tunnels w.nextTun = some (.new w.nextTun) := Function.update_self ..
  have hother : ∀ u, u ≠ w.nextTun → v.tunnels u = w.tunnels u := fun u hu =>
    Function.update_of_ne hu ..
  have hconn : v.conn = w.conn := by
    funext ⟨u, side⟩
    by_cases hu : u = w.nextTun
    · rw [hu, conn_of_some hself, conn_of_none (h.bound _ le_rfl)]
      cases side <;> rfl
    · exact conn_of_same (hother u hu) side
  refine ⟨h.change hother (fun tun hu => ?_) (fun u hu => ?_) rfl hfree (fun _ hu _ => hu)
    (fun hb => absurd hb hbroken) h.brokenNodup (hconn ▸ h.watched) rfl (fun r hr => ?_)
    fun _ => Or.inl, hself⟩
  · obtain rfl := Option.some.inj (hself.symm.trans hu)
    exact ⟨⟨rfl, rfl, rfl⟩, idle_shaped hidle⟩
  · have hlt : w.nextTun < u := hu
    exact ⟨hlt.le, fun hut => absurd hut hlt.ne'⟩
  · refine (List.mem_append.mp hr).imp id fun hr => ?_
    obtain rfl := List.mem_singleton.mp hr
    exact ⟨⟨_, rfl, hidle⟩, hbroken⟩

/-- `newTunnel` returns an idle tunnel that is in neither list any more. -/
theorem Pooled.newTunnel (h : w.Pooled) : w.newTunnel.2.Pooled ∧
    ∃ tun, w.newTunnel.2.tunnels w.newTunnel.1 = some tun ∧ tun.Idle ∧
      w.newTunnel.1 ∉ w.newTunnel.2.mFreeTuns ∧ w.newTunnel.1 ∉ w.newTunnel.2.mBrokenTuns := by
  cases hfree : w.mFreeTuns with
  | nil =>
    obtain ⟨hp, hself⟩ := h.newTunnel_of_nil hfree
    refine ⟨hp, _, hself, ProxyTunnel.new_idle w.nextTun, ?_⟩
    rw [ProxyClient.newTunnel_of_nil hfree]
    exact h.nextTun_fresh
  | cons t ts =>
    -- the first of the free ones leaves their list
    obtain ⟨tun, ht, hidle⟩ := h.free t (by simp [hfree])
    have hnd := h.nodup
    rw [hfree, List.nodup_cons] at hnd
    have hdis := h.disjoint
    rw [hfree, List.disjoint_cons_left] at hdis
    rw [newTunnel_of_cons hfree]
    refine ⟨⟨h.named, fun u tun hu => (h.shaped u tun hu).congr rfl, h.bound, fun u hu => ?_, h.broken,
      hnd.2, h.brokenNodup, hdis.2, h.watched_of_tunnels rfl rfl, h.stack, fun r hr => ?_,
      h.deletions⟩, tun, ht, hidle, hnd.1, hdis.1⟩
    · exact h.free u (by rw [hfree]; exact List.mem_cons_of_mem t hu)
    · rcases List.mem_append.mp hr with hr | hr
      · exact h.obtained r hr
      · obtain rfl := List.mem_singleton.mp hr
        exact ⟨⟨tun, ht, hidle⟩, hdis.1⟩

/-- An idle tunnel has nothing left to shut down. -/
theorem deleteTunnel_of_idle (ht : w.tunnels t = some tun) (hi : tun.Idle) : w.deleteTunnel t =
    { w with
      tunnels := Function.update w.tunnels t none
      deletions := w.deletions ++ [⟨t, w.sys.poller, w.stack⟩] } := by
  have hproxy : (w.enter tun).shutdown .proxy = w.enter tun := by
    change (w.enter tun).put .proxy ((w.enter tun).ctx .proxy).shutdown = _
    rw [Ctx.shutdown_of_closed _ hi.proxy.fd]
    exact TunCtx.put_ctx _ .proxy
  have hloc : (w.enter tun).shutdown .loc = w.enter tun := by
    change (w.enter tun).put .loc ((w.enter tun).ctx .loc).shutdown = _
    rw [Ctx.shutdown_of_closed _ hi.loc.fd]
    exact TunCtx.put_ctx _ .loc
  let v : ProxyClient := { w with deletions := w.deletions ++ [⟨t, w.sys.poller, w.stack⟩] }
  have hv : v.call t (fun m => ((), (m.shutdown .proxy).shutdown .loc)) =
      (some (), v.leave t (w.enter tun)) := by
    rw [call_of_some (w := v) _ ht]
    change (some (), v.leave t (((w.enter tun).shutdown .proxy).shutdown .loc)) = _
    rw [hproxy, hloc]
  change { (v.call t (fun m => ((), (m.shutdown .proxy).shutdown .loc))).2 with
    tunnels := Function.update (v.call t (fun m => ((), (m.shutdown .proxy).shutdown .loc))).2.tunnels t none } = _
  rw [hv]
  simp only [ProxyClient.leave, Function.update_idem]
  rfl

/-- The object of an idle tunnel can go: nothing in the poller or on the stack refers to it. -/
theorem Pooled.deleteTunnel (h : w.Pooled) (ht : w.tunnels t = some tun) (hi : tun.Idle)
    (hfree : t ∉ w.mFreeTuns) (hbroken : t ∉ w.mBrokenTuns) : (w.deleteTunnel t).Pooled := by
  have hother : ∀ u, u ≠ t → Function.update w.tunnels t none u = w.tunnels u := fun u hu =>
    Function.update_of_ne hu ..
  have hself : Function.update w.tunnels t none t = none := Function.update_self ..
  have hun := h.unregistered fun tun' ht' => Option.some.inj (ht'.symm.trans ht) ▸ hi
  rw [deleteTunnel_of_idle ht hi]
  refine h.change hother (fun tun' hu => ?_) (fun u hu => ⟨hu, fun _ => hself⟩) rfl hfree
    (fun _ hu _ => hu) (fun hb => absurd hb hbroken) h.brokenNodup ?_ rfl (fun _ => Or.inl)
    fun d hd => ?_
  · exact absurd (hself.symm.trans hu) (by simp)
  · refine h.watched.congr fun i fd ⟨u, side⟩ hd => ?_
    have hut : u ≠ t := fun hut => hun i fd side (hut ▸ hd)
    rw [conn_of_same (hother u hut) side]
    exact ⟨rfl, rfl⟩
  · refine (List.mem_append.mp hd).imp id fun hd => ?_
    obtain rfl := List.mem_singleton.mp hd
    refine ⟨?_, hun⟩
    change t ∉ w.stack
    rw [h.stack]
    exact List.not_mem_nil

/-- A tunnel that is idle and in neither list can be reclaimed. -/
theorem Pooled.reclaimTunnel (h : w.Pooled) (ht : w.tunnels t = some tun) (hi : tun.Idle)
    (hfree : t ∉ w.mFreeTuns) (hbroken : t ∉ w.mBrokenTuns) : (w.reclaimTunnel t).Pooled := by
  unfold ProxyClient.reclaimTunnel
  split
  · exact h.deleteTunnel ht hi hfree hbroken
  · refine ⟨h.named, fun u tun' hu => (h.shaped u tun' hu).congr rfl, h.bound, fun u hu => ?_, h.broken,
      ?_, h.brokenNodup, ?_, h.watched_of_tunnels rfl rfl, h.stack, h.obtained, h.deletions⟩
    · rcases List.mem_append.mp hu with hu | hu
      · exact h.free u hu
      · obtain rfl := List.mem_singleton.mp hu
        exact ⟨tun, ht, hi⟩
    · exact h.nodup.append (List.nodup_singleton t) (by simpa using hfree)
    · exact List.disjoint_append_left.mpr ⟨h.disjoint, by simpa using hbroken⟩

theorem among_conn (ht : w.tunnels t = some tun) : (w.enter tun).among t w.conn = w.conn := by
  funext ⟨u, side⟩
  unfold TunCtx.among
  split
  · rename_i hu
    obtain rfl : u = t := hu
    exact (conn_of_some ht side).symm
  · rfl

theorem Pooled.addressed (h : w.Pooled) (ht : w.tunnels t = some tun) (side : Side) :
    ((w.enter tun).conn side).this = ⟨t, side⟩ := by
  obtain ⟨hthis, hwhole⟩ := h.named t tun ht
  cases side
  exacts [hthis ▸ hwhole.loc, hthis ▸ hwhole.proxy]

/-- A notification for the connection the poller has found. -/
theorem Pooled.notify (h : w.Pooled) {i : Interest} {fd : ℤ} {c : ConnId}
    (hc : w.sys.poller.find i fd = some (.conn c)) (n : Notice) :
    (w.call c.tun fun m => ((), m.notify n)).2.Pooled := by
  obtain ⟨tun, ht, hl⟩ := h.live hc
  obtain ⟨hkey, -, hshape⟩ := TunCtx.notify_shaped n (Or.inl hl : (w.enter tun).Shaped)
  have htold := (w.enter tun).notify_told n
  have hwatch := ((w.enter tun).notify_moves (F := fun _ => False) n).watched
    ((among_conn ht).symm ▸ h.watched) (h.addressed ht)
  have hnot : ∀ l : List TunId, (∀ u ∈ l, ∃ tun, w.tunnels u = some tun ∧ tun.Idle) → c.tun ∉ l := by
    intro l hlist hm
    obtain ⟨tun', ht', hi⟩ := hlist _ hm
    obtain rfl := Option.some.inj (ht'.symm.trans ht)
    exact not_live_of_idle hi hl
  rw [call_of_some _ ht]
  refine h.leave ht (hnot _ h.free) (htold.this.trans (h.named _ tun ht).1)
    (TunCtx.whole_of_key hkey (h.named _ tun ht).2) ?_ htold.broken (fun hm => ?_) hwatch.1
  · exact hshape.imp (fun hs => hs.2.1) id
  · rcases hshape with ⟨-, -, hb⟩ | hs
    · rw [hb] at hm
      exact absurd hm (hnot _ h.broken)
    · exact (TunCtx.idle_iff _).mpr hs

end Steps

end ProxyClient

namespace TunCtx

theorem onAccept_illegal (cfg : Config) (connfd : ℤ) (m : TunCtx) :
    (m.onAccept cfg connfd).1 = .illegalProxy ↔ cfg.pton cfg.mProxyIp = .error := by
  rw [onAccept_eq]
  split
  · simp [*]
  · simp only [*, iff_false]
    split <;> simp

/-- `onAccept` may put the tunnel it has got among the broken ones. -/
theorem onAccept_grown (cfg : Config) (connfd : ℤ) (m : TunCtx) :
    (m.onAccept cfg connfd).2.mBrokenTuns = m.mBrokenTuns ∨
      (m.onAccept cfg connfd).2.mBrokenTuns = m.insertBroken.mBrokenTuns := by
  obtain ⟨-, -, hthis, hhandler, hbroken, -⟩ := m.configured_same cfg
  have hg : Grown m ((m.configured cfg).acceptLocal connfd).2 :=
    (Grown.of_eq hthis hhandler hbroken).trans (acceptLocal_grown _ connfd)
  rw [onAccept_eq]
  split
  · exact Or.inl hbroken
  · simp only
    split
    · exact hg.broken
    · exact Or.inr (hg.trans (log_told _ _).toGrown).insertBroken

end TunCtx

namespace ProxyClient

section Run

variable {w : ProxyClient} (cfg : Config)

theorem onAccept_eq (connfd : ℤ) {tun : ProxyTunnel}
    (ht : w.newTunnel.2.tunnels w.newTunnel.1 = some tun) : w.onAccept cfg connfd =
    let v := w.newTunnel.2.leave w.newTunnel.1 ((w.newTunnel.2.enter tun).onAccept cfg connfd).2
    if cfg.pton cfg.mProxyIp = .error then v.reclaimTunnel w.newTunnel.1 else v := by
  have hres := (w.newTunnel.2.enter tun).onAccept_illegal cfg connfd
  unfold onAccept
  simp only [call_of_some _ ht]
  generalize (w.newTunnel.2.enter tun).onAccept cfg connfd = r at hres ⊢
  obtain ⟨res, m⟩ := r
  cases res with
  | illegalProxy => rw [if_pos (hres.mp rfl)]
  | failed => rw [if_neg fun he => by cases hres.mpr he]
  | created => rw [if_neg fun he => by cases hres.mpr he]

theorem onAccept_pooled (connfd : ℕ) (h : w.Pooled) : (w.onAccept cfg connfd).Pooled := by
  obtain ⟨hv, tun, ht, hi, hfree, hbroken⟩ := h.newTunnel
  rw [onAccept_eq cfg connfd ht]
  generalize w.newTunnel = r at hv ht hfree hbroken ⊢
  obtain ⟨t, v⟩ := r
  simp only at hv ht hfree hbroken ⊢
  let m := v.enter tun
  obtain ⟨hthis, haddr, hshape⟩ := TunCtx.onAccept_shaped cfg connfd (m := m) hi
  have hwatch := TunCtx.onAccept_watched cfg connfd (m := m) hi ((among_conn ht).symm ▸ hv.watched)
    (hv.addressed ht)
  have ht' : (m.onAccept cfg connfd).2.tun.this = t := hthis.trans (hv.named t tun ht).1
  have hleave : (v.leave t (m.onAccept cfg connfd).2).Pooled := by
    refine hv.leave ht hfree ht' ⟨?_, ?_⟩ (hshape.imp (fun hs => hs.2.1) id)
      (m.onAccept_grown cfg connfd) (fun hm => ?_) hwatch
    · rw [ht']
      exact (haddr .loc).trans (hv.addressed ht .loc)
    · rw [ht']
      exact (haddr .proxy).trans (hv.addressed ht .proxy)
    · rcases hshape with ⟨-, -, hb⟩ | hs
      · rw [hb] at hm
        exact absurd hm hbroken
      · exact (TunCtx.idle_iff _).mpr hs
  split
  swap
  · exact hleave
  rename_i hill
  -- the tunnel has only been told the servers
  obtain ⟨-, -, -, -, hb, -⟩ := m.configured_same cfg
  have hm : (m.onAccept cfg connfd).2 = (m.configured cfg).log (.close connfd) := by
    rw [TunCtx.onAccept_eq, if_pos hill]
  have hidle : (m.onAccept cfg connfd).2.tun.Idle := by
    rw [hm]
    exact TunCtx.configured_idle cfg hi
  refine hleave.reclaimTunnel (Function.update_self ..) hidle hfree ?_
  change t ∉ (m.onAccept cfg connfd).2.mBrokenTuns
  rw [hm]
  exact hb ▸ hbroken

theorem acceptOne_pooled (h : w.Pooled) : (w.acceptOne cfg).2.Pooled := by
  unfold acceptOne Sys.accept
  cases w.sys.env.accepts.headD (.fail .EAGAIN) with
  | fail e => exact h.outside w.stdio w.dangling rfl
  | fd n =>
    have hv := h.outside (s := Sys.log (.accepted n) { w.sys with env.accepts := w.sys.env.accepts.tail })
      w.stdio w.dangling rfl
    have hpos : ¬(n : ℤ) < 0 := by omega
    simp only [if_neg hpos]
    exact onAccept_pooled cfg n hv

theorem acceptLoop_pooled (n : ℕ) (h : w.Pooled) : (w.acceptLoop cfg n).Pooled := by
  induction n generalizing w with
  | zero => exact h
  | succ n ih =>
    have hone := acceptOne_pooled cfg h
    simp only [acceptLoop]
    split
    · exact ih hone
    · exact hone

theorem trigger_pooled (i : Interest) (fd : ℤ) (h : w.Pooled) : (w.trigger cfg i fd).Pooled := by
  unfold trigger
  split
  · exact h
  · rename_i hd hfind
    cases hd with
    | listener =>
      cases i
      exacts [acceptLoop_pooled cfg 32 h, h]
    | conn c =>
      cases i
      exacts [h.notify hfind (.input c.side), h.notify hfind (.output c.side)]

theorem Pooled.brokenSubset {l : List TunId} (h : w.Pooled) (nodup : l.Nodup) (hl : l ⊆ w.mBrokenTuns) :
    ({ w with mBrokenTuns := l } : ProxyClient).Pooled :=
  ⟨h.named, fun t tun ht => (h.shaped t tun ht).congr rfl, h.bound, h.free, fun t ht => h.broken t (hl ht),
    h.nodup, nodup, fun _ ht hb => h.disjoint ht (hl hb), h.watched_of_tunnels rfl rfl, h.stack, h.obtained,
    h.deletions⟩

/-- Reclaiming has no use for `mBrokenTuns`. -/
theorem reclaimTunnel_broken (w : ProxyClient) (t : TunId) (l : List TunId) :
    ({ w.reclaimTunnel t with mBrokenTuns := l } : ProxyClient) =
      ({ w with mBrokenTuns := l } : ProxyClient).reclaimTunnel t := by
  unfold reclaimTunnel deleteTunnel call
  split
  · simp only
    cases w.tunnels t <;> rfl
  · rfl

/-- The tunnels still to be reclaimed stand for the broken ones. -/
theorem reclaimNext_pooled {w : ProxyClient} {t : TunId} {order : List TunId}
    (h : ({ w with mBrokenTuns := t :: order } : ProxyClient).Pooled) :
    ({ w.reclaimTunnel t with mBrokenTuns := order } : ProxyClient).Pooled := by
  have hnd := h.brokenNodup
  rw [List.nodup_cons] at hnd
  obtain ⟨tun, ht, hi⟩ := h.broken t List.mem_cons_self
  have hrest : ({ w with mBrokenTuns := order } : ProxyClient).Pooled :=
    h.brokenSubset hnd.2 fun u hu => List.mem_cons_of_mem t hu
  rw [reclaimTunnel_broken]
  exact hrest.reclaimTunnel (t := t) ht hi (List.disjoint_cons_right.mp h.disjoint).1 hnd.1

theorem reclaimAll_pooled (order : List TunId) {w : ProxyClient}
    (h : ({ w with mBrokenTuns := order } : ProxyClient).Pooled) :
    ({ order.foldl (fun w t => w.reclaimTunnel t) w with mBrokenTuns := [] } : ProxyClient).Pooled := by
  induction order generalizing w with
  | nil => exact h
  | cons t order ih => exact ih (reclaimNext_pooled h)

theorem next_pooled {a : ClientAction} (h : w.Pooled) (he : w.Enabled a) : (w.next cfg a).Pooled := by
  cases a with
  | callback i fd a => exact trigger_pooled cfg i fd (h.outside a.stdio w.dangling rfl)
  | reclaim order =>
    exact reclaimAll_pooled order (h.brokenSubset (he.2.nodup_iff.mpr h.brokenNodup) fun t => he.2.mem_iff.mp)

theorem reaches_pooled {S : ProxyClient → ClientAction → Prop} (h : Reaches cfg S w) : w.Pooled := by
  induction h with
  | start mFd w h => exact initialise_pooled h
  | step a _ he _ ih => exact next_pooled cfg ih he

/-- No tunnel is half open: between two callbacks it has both descriptors or
neither, and without them nothing is registered for it. -/
theorem never_half_open (h : Reachable cfg w) {t : TunId} {tun : ProxyTunnel} (ht : w.tunnels t = some tun) :
    (0 ≤ tun.mLocalConn.mFd ↔ 0 ≤ tun.mProxyConn.mFd) ∧
      (tun.mLocalConn.mFd < 0 ∨ tun.mProxyConn.mFd < 0 →
        ∀ c ∈ [tun.mLocalConn, tun.mProxyConn], c.mbRegForRead = false ∧ c.mbRegForWrite = false ∧
          ∀ fd, w.sys.poller.findForRead fd ≠ some (.conn c.this) ∧
            w.sys.poller.findForWrite fd ≠ some (.conn c.this)) := by
  have hp := reaches_pooled cfg h
  rcases hp.shaped t tun ht with hl | hs
  · have hloc : 0 ≤ tun.mLocalConn.mFd := hl.fd .loc
    have hproxy : 0 ≤ tun.mProxyConn.mFd := hl.fd .proxy
    exact ⟨⟨fun _ => hproxy, fun _ => hloc⟩, fun hd => hd.elim (fun hd => absurd hloc (not_le.mpr hd))
      fun hd => absurd hproxy (not_le.mpr hd)⟩
  · have hi : tun.Idle := (TunCtx.idle_iff (w.enter tun)).mpr hs
    have hun := hp.unregistered fun tun' ht' => Option.some.inj (ht'.symm.trans ht) ▸ hi
    have haddr := hp.addressed ht
    refine ⟨⟨fun h => absurd h (not_le.mpr hi.loc.fd), fun h => absurd h (not_le.mpr hi.proxy.fd)⟩,
      fun _ c hc => ?_⟩
    obtain ⟨side, rfl⟩ : ∃ side, c = (w.enter tun).conn side := by
      rcases List.mem_cons.mp hc with rfl | hc
      · exact ⟨.loc, rfl⟩
      · exact ⟨.proxy, List.mem_singleton.mp hc⟩
    rw [haddr side]
    exact ⟨(hs.1 side).read, (hs.1 side).write, fun fd => ⟨hun .read fd side, hun .write fd side⟩⟩

end Run

/-- The client with its listener on descriptor 3. -/
def listening : ProxyClient := start (SelectPoller.new.registerForRead 3 .listener).2

/-- The client once it has accepted descriptor 4 and opened 5 for it. -/
def serving : ProxyClient :=
  listening.next exampleConfig
    (.callback .read 3 ⟨.other 0, { accepts := [.fd 4], sockets := [.fd 5] }, []⟩)

theorem serving_reachable : Reachable exampleConfig serving :=
  .step _ (.start 3 listening rfl) rfl trivial

theorem never_half_open_serving :
    ∃ tun, serving.tunnels 0 = some tun ∧ (0 ≤ tun.mLocalConn.mFd ↔ 0 ≤ tun.mProxyConn.mFd) := by
  obtain ⟨tun, ht⟩ := Option.isSome_iff_exists.mp (show (serving.tunnels 0).isSome from by decide +kernel)
  exact ⟨tun, ht, (never_half_open exampleConfig serving_reachable ht).1⟩

/-- No tunnel is used twice. Whenever the poller is about to call back, no tunnel
is in the two lists more than once, and none that has been deleted; `newTunnel`
has returned idle tunnels only, and none was deleted that the poller or a running
method still had a use for. -/
theorem no_tunnel_used_twice (cfg : Config) {w : ProxyClient} (h : Reachable cfg w) :
    w.mFreeTuns.Nodup ∧ w.mFreeTuns.Disjoint w.mBrokenTuns ∧
      (∀ t, t ∈ w.mFreeTuns ∨ t ∈ w.mBrokenTuns → (w.tunnels t).isSome) ∧
      (∀ r ∈ w.obtained, (∃ tun, r.object = some tun ∧ tun.mLocalConn.mFd < 0 ∧ tun.mProxyConn.mFd < 0) ∧
        r.tun ∉ r.mBrokenTuns) ∧
      ∀ d ∈ w.deletions, d.tun ∉ d.stack ∧ ∀ fd side,
        d.poller.findForRead fd ≠ some (.conn ⟨d.tun, side⟩) ∧
          d.poller.findForWrite fd ≠ some (.conn ⟨d.tun, side⟩) := by
  -- all of it is part of the invariant of the pool, the two records included
  have hp := reaches_pooled cfg h
  refine ⟨hp.nodup, hp.disjoint, fun t ht => ?_, fun r hr => ?_, fun d hd => ?_⟩
  · rcases ht with ht | ht
    · obtain ⟨tun, htun, -⟩ := hp.free t ht
      exact Option.isSome_iff_exists.mpr ⟨tun, htun⟩
    · obtain ⟨tun, htun, -⟩ := hp.broken t ht
      exact Option.isSome_iff_exists.mpr ⟨tun, htun⟩
  · obtain ⟨⟨tun, htun, hi⟩, hb⟩ := hp.obtained r hr
    exact ⟨⟨tun, htun, hi.loc.fd, hi.proxy.fd⟩, hb⟩
  · obtain ⟨hs, hun⟩ := hp.deletions d hd
    exact ⟨hs, fun fd side => ⟨hun .read fd side, hun .write fd side⟩⟩

/-- A second client has come, the first one has gone and its tunnel been reclaimed,
and then the second one has gone. -/
def recycling : ProxyClient :=
  (((serving.next exampleConfig
    (.callback .read 3 ⟨.other 0, { accepts := [.fd 6], sockets := [.fd 7] }, []⟩)).next exampleConfig
    (.callback .read 4 ⟨.other 0, { recvs := [.data []] }, []⟩)).next exampleConfig
    (.reclaim [0])).next exampleConfig (.callback .read 6 ⟨.other 0, { recvs := [.data []] }, []⟩)

theorem recycling_reachable : Reachable exampleConfig recycling := by
  refine .step _ (.step _ (.step _ (.step _ serving_reachable ?_ trivial) ?_ trivial) ?_ trivial) ?_ trivial
  · change ProxyClient.halted _ = false
    decide +kernel
  · change ProxyClient.halted _ = false
    decide +kernel
  · exact ⟨by decide +kernel, by decide +kernel⟩
  · change ProxyClient.halted _ = false
    decide +kernel

theorem no_tunnel_used_twice_serving :
    recycling.mFreeTuns = [0] ∧ recycling.mBrokenTuns = [1] ∧
      (recycling.tunnels 0).isSome ∧ (recycling.tunnels 1).isSome ∧
      recycling.mFreeTuns.Disjoint recycling.mBrokenTuns ∧
      recycling.obtained.map Obtained.tun = [0, 1] ∧
      ∀ r ∈ recycling.obtained, r.tun ∉ r.mBrokenTuns := by
  have hfree : recycling.mFreeTuns = [0] := by decide +kernel
  have hbroken : recycling.mBrokenTuns = [1] := by decide +kernel
  obtain ⟨-, hdis, hthere, hobt, -⟩ := no_tunnel_used_twice exampleConfig recycling_reachable
  refine ⟨hfree, hbroken, hthere 0 (Or.inl ?_), hthere 1 (Or.inr ?_), hdis, by decide +kernel,
    fun r hr => (hobt r hr).2⟩
  · rw [hfree]
    exact List.mem_cons_self
  · rw [hbroken]
    exact List.mem_cons_self

end ProxyClient

end HttpsProxy
