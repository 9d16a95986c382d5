import HttpsProxy.Session

/-! The traffic of a tunnel under its callbacks. Sending on one connection
leaves every account of the other alone, and keeps the bytes in order or cuts
them off. -/
namespace HttpsProxy

/-- The entries that sending on `c`, and giving up because of it, can make. -/
def Ev.isOutward (c : ConnId) : Ev → Prop
  | .sendCall d _ => d = c
  | .sockSend d _ _ _ => d = c
  | .flushing _ | .flushTouched _ => True
  | e => e.isQuiet

theorem Ev.isQuiet.isOutward {c : ConnId} {e : Ev} (h : e.isQuiet) : e.isOutward c := by
  cases e <;> first | exact h | exact h.elim

theorem Ev.isSockSend.isOutward {c : ConnId} {e : Ev} (h : e.isSockSend c) : e.isOutward c := by
  cases e <;> first | exact h | exact h.elim

/-- Sending on `c` reads nothing. -/
theorem outward_inputs {c : ConnId} (d : ConnId) {evs : List Ev} (h : ∀ e ∈ evs, e.isOutward c) :
    received d evs = [] ∧ chunks d evs = [] := by
  induction evs with
  | nil => exact ⟨rfl, rfl⟩
  | cons e es ih =>
    obtain ⟨h1, h2⟩ := ih fun e he => h e (List.mem_cons_of_mem _ he)
    have he := h e List.mem_cons_self
    cases e <;> simp_all [Ev.isOutward, Ev.isQuiet, Ev.read, Ev.chunk]

/-- Sending on `c` sends nothing elsewhere. -/
theorem outward_outputs {c d : ConnId} (hcd : d ≠ c) {evs : List Ev}
    (h : ∀ e ∈ evs, e.isOutward c) : accepted d evs = [] ∧ passed d evs = [] := by
  induction evs with
  | nil => exact ⟨rfl, rfl⟩
  | cons e es ih =>
    obtain ⟨h1, h2⟩ := ih fun e he => h e (List.mem_cons_of_mem _ he)
    have he := h e List.mem_cons_self
    cases e with
    | sendCall b data => simp_all [Ev.isOutward, Ev.taken, Ev.passed, Ne.symm hcd]
    | sockSend b data r err =>
      cases r <;> simp_all [Ev.isOutward, Ev.taken, Ev.passed, Ne.symm hcd]
    | _ => simp_all [Ev.isOutward, Ev.isQuiet, Ev.taken, Ev.passed]

namespace TunCtx

/-- The bytes the socket of `side` has taken. -/
def takes (side : Side) (m : TunCtx) : Bytes := accepted (m.conn side).this m.sys.trace

/-- The bytes read from the socket of `side`. -/
def gets (side : Side) (m : TunCtx) : Bytes := received (m.conn side).this m.sys.trace

/-- The data passed to `send` of `side`. -/
def passes (side : Side) (m : TunCtx) : Bytes := passed (m.conn side).this m.sys.trace

/-- The data `onRecv` was called with for `side`. -/
def hears (side : Side) (m : TunCtx) : List Bytes := chunks (m.conn side).this m.sys.trace

theorem this_of_key {m n : TunCtx} (h : n.key = m.key) (side : Side) :
    (n.conn side).this = (m.conn side).this := by
  cases side
  exacts [congrArg TunKey.loc h, congrArg TunKey.proxy h]

theorem whole_ne {m : TunCtx} (hw : m.tun.Whole) {s side : Side} (h : s ≠ side) :
    (m.conn s).this ≠ (m.conn side).this := by
  have hl : (m.conn .loc).this = ⟨m.tun.this, .loc⟩ := hw.loc
  have hp : (m.conn .proxy).this = ⟨m.tun.this, .proxy⟩ := hw.proxy
  cases s <;> cases side <;> simp_all

/-- From `m` to `n` the tunnel has only sent on `side` or given up. -/
structure Outward (side : Side) (m n : TunCtx) : Prop where
  key : n.key = m.key
  log : ∃ evs, n.sys.trace = m.sys.trace ++ evs ∧ ∀ e ∈ evs, e.isOutward (m.conn side).this

theorem Outward.refl (side : Side) (m : TunCtx) : Outward side m m := ⟨rfl, [], by simp, by simp⟩

theorem Outward.trans {side : Side} {m n k : TunCtx} (h : Outward side m n)
    (l : Outward side n k) : Outward side m k := by
  have hlog := l.log
  rw [this_of_key h.key side] at hlog
  exact ⟨l.key.trans h.key, Extends.trans h.log hlog⟩

/-- No account but those of `side` changes. -/
theorem Outward.accounts {side : Side} {m n : TunCtx} (h : Outward side m n) (hw : m.tun.Whole) :
    (∀ s, n.gets s = m.gets s ∧ n.hears s = m.hears s) ∧
      ∀ s, s ≠ side → n.takes s = m.takes s ∧ n.passes s = m.passes s := by
  obtain ⟨hk, evs, ht, he⟩ := h
  refine ⟨fun s => ?_, fun s hs => ?_⟩
  · obtain ⟨h1, h2⟩ := outward_inputs (m.conn s).this he
    simp only [gets, hears, this_of_key hk, ht, received_append, chunks_append, h1, h2,
      List.append_nil, and_self]
  · obtain ⟨h3, h4⟩ := outward_outputs (whole_ne hw hs) he
    simp only [takes, passes, this_of_key hk, ht, accepted_append, passed_append, h3, h4,
      List.append_nil, and_self]

end TunCtx

theorem Quiet.outward {m n : TunCtx} (h : Quiet m n) (side : Side) :
    TunCtx.Outward side m n := by
  obtain ⟨hk, evs, ht, he⟩ := h
  exact ⟨hk, evs, ht, fun e hm => (he e hm).isOutward⟩

/-- Quiet entries change no account. -/
theorem Quiet.takes {m n : TunCtx} (h : Quiet m n) (side : Side) :
    n.takes side = m.takes side ∧ n.passes side = m.passes side := by
  obtain ⟨hk, evs, ht, he⟩ := h
  obtain ⟨h1, -, h3, -⟩ := quiet_traffic (m.conn side).this he
  simp [TunCtx.takes, TunCtx.passes, TunCtx.this_of_key hk, ht, h1, h3]

namespace TunCtx

@[simp] theorem log_trace (m : TunCtx) (e : Ev) : (m.log e).sys.trace = m.sys.trace ++ [e] := rfl

/-- The calls of one `send` on `side`, up to the handling of an error. -/
theorem put_outward {side : Side} {m : TunCtx} {x : Ctx} {s : Sys} {data bs : Bytes} {tail : List Ev}
    (hl : SameLink (m.conn side) x.conn)
    (hw : Wire (m.conn side).this (m.sys.log (.sendCall (m.conn side).this data)) s bs)
    (ht : x.sys.trace = s.trace ++ tail) (hq : ∀ e ∈ tail, e.isQuiet) :
    Outward side m (m.put side x) ∧ (m.put side x).takes side = m.takes side ++ bs ∧
      (m.put side x).passes side = m.passes side ++ data := by
  obtain ⟨evs, hs, he, hb⟩ := hw
  have hsys : (m.put side x).sys.trace =
      m.sys.trace ++ (.sendCall (m.conn side).this data :: (evs ++ tail)) := by
    have hp : (m.put side x).sys = x.sys := by cases side <;> rfl
    rw [hp, ht, hs, Sys.log]
    simp
  have hk := m.key_put side x hl.this
  obtain ⟨h1, -, h3, -⟩ := quiet_traffic (m.conn side).this hq
  have hp : passed (m.conn side).this evs = [] := by
    clear hs hsys hb
    induction evs with
    | nil => rfl
    | cons e es ih =>
      have := he e List.mem_cons_self
      rw [passed_cons, ih fun e hm => he e (List.mem_cons_of_mem _ hm)]
      cases e <;> first | exact this.elim | rfl
  refine ⟨⟨hk, _, hsys, ?_⟩, ?_, ?_⟩
  · intro e hm
    rcases List.mem_cons.mp hm with rfl | hm
    · exact rfl
    · rcases List.mem_append.mp hm with hm | hm
      · exact (he e hm).isOutward
      · exact (hq e hm).isOutward
  · simp [takes, hl.this, hsys, Ev.taken, hb, h1]
  · simp [passes, hl.this, hsys, Ev.passed, hp, h3]

theorem log_outward (side : Side) (m : TunCtx) (data : Bytes) :
    Outward side m (m.log (.sendCall (m.conn side).this data)) ∧
      (m.log (.sendCall (m.conn side).this data)).takes side = m.takes side ∧
      (m.log (.sendCall (m.conn side).this data)).passes side = m.passes side ++ data := by
  refine ⟨⟨rfl, _, rfl, ?_⟩, ?_, ?_⟩
  · intro e hm
    rw [List.mem_singleton.mp hm]
    rfl
  · simp [takes, Ev.taken]
  · simp [passes, Ev.passed]

/-- A `send` on `side` and, if it fails, the handling of the error. -/
theorem SideSend.sent {side : Side} {onError : TunCtx → TunCtx} {data : Bytes} {m n : TunCtx}
    (h : SideSend side onError data m n) (ht : m.Tidy) :
    ∃ k, Keeps side m k ∧ Outward side m k ∧ k.passes side = m.passes side ++ data ∧
      (n = k ∨ n = onError k) := by
  cases h with
  | refused =>
    obtain ⟨ho, -, hp⟩ := log_outward side m data
    exact ⟨_, log_keeps side _ ht, ho, hp, Or.inl rfl⟩
  | kept x bs fd _ link wire _ =>
    obtain ⟨ho, -, hp⟩ := put_outward link wire (List.append_nil _).symm (by simp)
    exact ⟨_, put_keeps ht link fd, ho, hp, Or.inl rfl⟩
  | failed x s bs fd _ link wire _ trace =>
    obtain ⟨ho, -, hp⟩ := put_outward link wire trace (by simp [Ev.isQuiet])
    exact ⟨_, put_keeps ht link fd, ho, hp, Or.inr rfl⟩

theorem sendProxy_outward (data : Bytes) {m : TunCtx} (ht : m.Tidy) (hh : m.Heard .proxy) :
    Outward .proxy m (m.sendProxy data) := by
  obtain ⟨k, hk, ho, -, hn | hn⟩ := (sendProxy_spec data hh).sent ht <;> rw [hn]
  · exact ho
  · exact ho.trans ((onErrorProxy_closes hk.tidy).toQuiet.outward _)

theorem flushLocal_outward {m : TunCtx} (ht : m.Tidy) (hh : m.Heard .proxy) :
    Outward .proxy m m.flushLocal := by
  unfold flushLocal
  split
  swap
  · exact Outward.refl _ m
  have htouch : ∀ s : TunCtx, Outward .proxy m s → Outward .proxy m (s.log (.flushTouched s.tun.this)) :=
    fun s hs => hs.trans ⟨rfl, _, rfl, by simp [Ev.isOutward]⟩
  refine (cacheHost.flushAll_preserves (P := fun s => Continues m s ∧ Outward .proxy m s)
    (fun _ _ => rfl) ?_ ?_ ?_ ?_ ?_ (m.log (.flushing m.tun.this))
    ⟨Or.inl (log_goes _ ht), ⟨rfl, _, rfl, by simp [Ev.isOutward]⟩⟩).2
  · rintro c s ⟨hs, ho⟩ hd
    exact ⟨hs.congr rfl rfl rfl rfl (fun side => by cases side <;> rfl) fun he => he.drains hd,
      ho.key, ho.log⟩
  · rintro d s ⟨hs, ho⟩
    refine ⟨?_, ho.trans (sendProxy_outward d hs.tidy (hs.heard hh))⟩
    rcases hs with hs | hs
    · exact hs.continues (sendProxy_continues d hs.tidy (hs.heard hh))
    · exact Or.inr (hs.sendProxy d)
  · rintro s ⟨hs, ho⟩
    exact ⟨hs.congr rfl rfl rfl rfl (fun side => by cases side <;> rfl) id, ho.key, ho.log⟩
  · rintro s ⟨hs, ho⟩
    have ho' := htouch s ho
    exact ⟨hs.congr rfl rfl rfl rfl (fun side => by cases side <;> rfl) id, ho'.key, ho'.log⟩
  · rintro s ⟨hs, ho⟩
    have ho' := htouch s ho
    exact ⟨hs.congr rfl rfl rfl rfl (fun side => by cases side <;> rfl) id, ho'.key, ho'.log⟩

/-- What follows the closing of the client's side: the rest of the cache is
flushed, and everything else is quiet. -/
theorem onErrorLocal_flushed {m : TunCtx} (ht : m.Tidy) (hh : m.Heard .proxy)
    (hm : m.tun.mHandler = true) :
    Quiet m (m.shutdown .loc) ∧ (m.shutdown .loc).Tidy ∧ (m.shutdown .loc).Heard .proxy ∧
      Quiet (m.shutdown .loc).flushLocal m.onErrorLocal := by
  rw [onErrorLocal_eq]
  obtain ⟨-, htouch, -⟩ := m.shutdown_spec .loc (ht .loc)
  obtain ⟨ht', hh'⟩ := shutdown_loc_tidy ht hh
  obtain ⟨hft, -, hfm⟩ := flushed_tidy ht hh
  let n := (m.shutdown .loc).flushLocal.setStatus .Closed
  have hn : n.Tidy := fun side => by simpa [n] using hft side
  obtain ⟨kd, ktouch⟩ := n.detach_spec .proxy (hn .proxy)
  have hl : (n.detach .proxy).conn .loc = n.conn .loc := ktouch.other
  have hc := _onError_closes (m := n.detach .proxy)
    (fun side => by cases side; exacts [hl ▸ hn .loc, kd.toDead.clean])
    (ktouch.mHandler.trans (hfm.trans hm))
  exact ⟨htouch.toQuiet, ht', hh',
    (setStatus_quiet _ .Closed).trans (ktouch.toQuiet.trans hc.toQuiet)⟩

theorem onDisconnected_loc_flushed {m : TunCtx} (ht : m.Tidy) (hh : m.Heard .proxy)
    (hm : m.tun.mHandler = true) :
    Quiet m (m.shutdown .loc) ∧ (m.shutdown .loc).Tidy ∧ (m.shutdown .loc).Heard .proxy ∧
      Quiet (m.shutdown .loc).flushLocal (m.onDisconnected .loc) := by
  rw [onDisconnected_loc_eq]
  obtain ⟨hq, ht', hh', -⟩ := onErrorLocal_flushed ht hh hm
  obtain ⟨hft, -, hfm⟩ := flushed_tidy ht hh
  let n := (m.shutdown .loc).flushLocal.setStatus .Closed
  have hn : n.Tidy := fun side => by simpa [n] using hft side
  obtain ⟨kd, ktouch, -⟩ := n.shutdown_spec .proxy (hn .proxy)
  have hl : (n.shutdown .proxy).conn .loc = n.conn .loc := ktouch.other
  have hc := _onClose_closes (m := n.shutdown .proxy)
    (fun side => by cases side; exacts [hl ▸ hn .loc, kd.clean])
    (ktouch.mHandler.trans (hfm.trans hm))
  exact ⟨hq, ht', hh', (setStatus_quiet _ .Closed).trans (ktouch.toQuiet.trans hc.toQuiet)⟩

theorem onError_outward (side : Side) {m : TunCtx} (ht : m.Tidy) (hh : m.Heard .proxy)
    (hm : m.tun.mHandler = true) : Outward .proxy m (m.onError side) := by
  cases side with
  | loc =>
    obtain ⟨hq, ht', hh', hq'⟩ := onErrorLocal_flushed ht hh hm
    exact (hq.outward _).trans ((flushLocal_outward ht' hh').trans (hq'.outward _))
  | proxy => exact (onErrorProxy_closes ht).toQuiet.outward _

theorem onDisconnected_outward (side : Side) {m : TunCtx} (ht : m.Tidy) (hh : m.Heard .proxy)
    (hm : m.tun.mHandler = true) : Outward .proxy m (m.onDisconnected side) := by
  cases side with
  | loc =>
    obtain ⟨hq, ht', hh', hq'⟩ := onDisconnected_loc_flushed ht hh hm
    exact (hq.outward _).trans ((flushLocal_outward ht' hh').trans (hq'.outward _))
  | proxy => exact (onDisconnected_proxy_closes ht hm).toQuiet.outward _

/-- The way out of `side` for the stream `S` of which `q` is still to be sent:
what the socket has taken, what is queued and `q` make up `S`, or the way is cut
and what was taken is where `S` begins. -/
inductive Flow (side : Side) (S q : Bytes) (m : TunCtx) : Prop where
  | going (fd : 0 ≤ (m.conn side).mFd) (status : (m.conn side).mConnStatus = .Connected)
      (bytes : m.takes side ++ (m.conn side).pending ++ q = S)
  | cut (down : (m.conn side).mFd < 0 ∨ (m.conn side).mConnStatus ≠ .Connected)
      (bytes : m.takes side <+: S)

theorem Flow.within {side : Side} {S q : Bytes} {m : TunCtx} (h : Flow side S q m) :
    m.takes side <+: S := by
  cases h with
  | going _ _ bytes =>
    rw [← bytes, List.append_assoc]
    exact List.prefix_append _ _
  | cut _ bytes => exact bytes

/-- Only the connection and what it has sent matter. -/
theorem Flow.congr {side : Side} {S q : Bytes} {m n : TunCtx} (h : Flow side S q m)
    (conn : n.conn side = m.conn side) (takes : n.takes side = m.takes side) : Flow side S q n := by
  cases h with
  | going fd status bytes =>
    exact .going (conn ▸ fd) (conn ▸ status) (by rw [conn, takes]; exact bytes)
  | cut down bytes => exact .cut (conn ▸ down) (takes ▸ bytes)

/-- `send` takes the next bytes of the stream, or cuts the way. -/
theorem SideSend.flow {side : Side} {onError : TunCtx → TunCtx} {data S q : Bytes} {m n : TunCtx}
    (h : SideSend side onError data m n) (ht : m.Tidy)
    (herr : ∀ k, Goes m k → ((onError k).conn side).mFd < 0 ∧
      (onError k).takes side = k.takes side)
    (hf : Flow side S (data ++ q) m) : Flow side S q n := by
  cases h with
  | refused why =>
    refine .cut (by rwa [conn_log]) ?_
    rw [(log_outward side m data).2.1]
    exact hf.within
  | kept x bs fd status link wire bytes =>
    obtain ⟨-, htakes, -⟩ := put_outward link wire (List.append_nil _).symm (by simp)
    cases hf with
    | going _ _ hS =>
      refine .going (by rw [conn_put, link.fd]; exact fd)
        (by rw [conn_put, link.status]; exact status) ?_
      rw [htakes, conn_put, List.append_assoc (m.takes side), bytes]
      simpa using hS
    | cut down _ => exact absurd down (by simp [not_lt.mpr fd, status])
  | failed x s bs fd status link wire bytes trace =>
    obtain ⟨-, htakes, -⟩ := put_outward link wire trace (by simp [Ev.isQuiet])
    have hg := put_goes ht link fd
    obtain ⟨hdown, herr'⟩ := herr _ hg
    refine .cut (Or.inl hdown) ?_
    rw [herr', htakes]
    cases hf with
    | going _ _ hS =>
      obtain ⟨r, hr⟩ := bytes
      refine ⟨r ++ q, ?_⟩
      rw [← hS, List.append_assoc, ← List.append_assoc bs, hr]
      simp
    | cut down _ => exact absurd down (by simp [not_lt.mpr fd, status])

theorem sendProxy_flow {S q : Bytes} (data : Bytes) {m : TunCtx} (ht : m.Tidy)
    (hh : m.Heard .proxy) (hf : Flow .proxy S (data ++ q) m) :
    Flow .proxy S q (m.sendProxy data) := by
  refine (sendProxy_spec data hh).flow ht (fun k hg => ?_) hf
  have hc := onErrorProxy_closes hg.tidy
  exact ⟨(hc.shut .proxy).fd, (hc.toQuiet.takes .proxy).1⟩

/-- An error of the proxy connection clears the cache under whoever uses it. -/
theorem onErrorProxy_cleared {m : TunCtx} (h : m.Tidy) :
    m.tun.mLocalCache.touched < m.onErrorProxy.tun.mLocalCache.touched ∧
      m.onErrorProxy.tun.mLocalCache.mDiskCache.mpFile = none := by
  obtain ⟨-, ht⟩ := m.detach_spec .proxy (h .proxy)
  let n := (m.detach .proxy).clearCache
  have hl : (n.conn .loc).Clean := by
    have : n.conn .loc = m.conn .loc := ht.other
    rw [this]
    exact h .loc
  obtain ⟨-, kt⟩ := n.detach_spec .loc hl
  have hn : (n.detach .loc).tun.mLocalCache = m.tun.mLocalCache.clear := by
    rw [kt.mLocalCache]
    change (m.detach .proxy).tun.mLocalCache.clear = _
    rw [ht.mLocalCache]
  refine ⟨?_, (onErrorProxy_closes h).emptied.file⟩
  have htouched : m.tun.mLocalCache.touched < (n.detach .loc).tun.mLocalCache.touched := by
    rw [hn]
    exact Nat.lt_succ_self _
  refine htouched.trans_le ?_
  change _ ≤ (n.detach .loc)._onError.tun.mLocalCache.touched
  unfold _onError
  split
  · -- the client clears it once more
    let k := (n.detach .loc).log (.onBroken (n.detach .loc).tun.this)
    have hk : k.Tidy := fun side => by
      have hp : (n.detach .loc).conn .proxy = n.conn .proxy := kt.other
      simp only [k, conn_log]
      cases side
      · exact (n.detach_spec .loc hl).1.toDead.clean
      · rw [hp]
        exact (m.detach_spec .proxy (h .proxy)).1.toDead.clean
    obtain ⟨-, lt⟩ := k.clearCache.detach_spec .loc (hk .loc)
    have hkp : (((k.clearCache.detach .loc).setStatus .Closed).conn .proxy).Clean := by
      have : ((k.clearCache.detach .loc).setStatus .Closed).conn .proxy = k.conn .proxy := lt.other
      rw [this]
      exact hk .proxy
    obtain ⟨-, lt'⟩ := ((k.clearCache.detach .loc).setStatus .Closed).detach_spec .proxy hkp
    have hc : k.clientOnError.tun.mLocalCache = k.tun.mLocalCache.clear :=
      lt'.mLocalCache.trans lt.mLocalCache
    rw [hc]
    exact Nat.le_succ _
  · exact Nat.le_refl _

/-- The whole cache is the next part of the stream. -/
theorem flushLocal_flow {S : Bytes} {qs : List Bytes} {m : TunCtx} (ht : m.Tidy)
    (hh : m.Heard .proxy) (hs : m.tun.mProxyStatus = .Connected)
    (hheld : m.tun.mLocalCache.Holds qs) (hf : Flow .proxy S qs.flatten m) :
    Flow .proxy S [] m.flushLocal ∧
      (m.flushLocal.tun.mLocalCache.Holds [] ∨ m.flushLocal.Shut) := by
  rw [flushLocal, if_pos hs]
  have hends := cacheHost.flushAll_rule
    (I := fun q s => Flow .proxy S q.flatten s ∧ Goes m s)
    (R := fun _ _ _ => False) (J := fun s => Flow .proxy S [] s ∧ s.Shut)
    (fun _ _ => rfl) ?_ ?_ ?_ ?_ ?_ ?_ qs (m.log (.flushing m.tun.this)) hheld
    ⟨hf.congr rfl (by simp [takes, Ev.taken]), log_goes _ ht⟩
  · rcases hends with ⟨-, hi, hh⟩ | ⟨_, _, _, hr, _⟩ | hj
    · exact ⟨hi.1, Or.inl hh⟩
    · exact hr.elim
    · exact ⟨hj.1, Or.inr hj.2⟩
  · rintro q c s ⟨hf, hg⟩
    exact ⟨hf.congr rfl rfl, hg.congr rfl rfl rfl rfl fun side => by cases side <;> rfl⟩
  · exact fun _ _ _ _ h => h
  · rintro c s ⟨hf, hshut⟩
    exact ⟨hf.congr rfl rfl, fun side => by cases side; exacts [hshut .loc, hshut .proxy]⟩
  · rintro s ⟨hf, hshut⟩
    refine ⟨hf.congr rfl ?_, fun side => by cases side; exacts [hshut .loc, hshut .proxy]⟩
    simp [takes, cacheHost, log, Sys.log, conn, Ev.taken]
  · rintro s ⟨hf, hshut⟩
    refine ⟨⟨hf.congr rfl ?_, fun side => by cases side; exacts [hshut .loc, hshut .proxy]⟩, rfl⟩
    simp [takes, cacheHost, log, Sys.log, conn, Ev.taken]
  · rintro d q s - ⟨hf, hg⟩
    have hflow := sendProxy_flow d hg.tidy (hg.heard hh) hf
    have hspec := sendProxy_spec d (hg.heard hh)
    generalize hn : s.sendProxy d = n at hflow hspec
    have hfunc : cacheHost.func d s = (true, n) := by rw [← hn]; rfl
    cases hspec with
    | refused why =>
      refine .took (by rw [hfunc]; rfl) (by rw [hfunc]) ?_
      rw [hfunc]
      exact ⟨hflow, hg.trans (log_goes _ hg.tidy)⟩
    | kept x bs fd _ link _ _ =>
      refine .took (by rw [hfunc]; rfl) (by rw [hfunc]) ?_
      rw [hfunc]
      exact ⟨hflow, hg.trans (put_goes hg.tidy link fd)⟩
    | failed x s' bs fd status link _ _ _ =>
      have hp := put_goes hg.tidy link fd
      obtain ⟨htouched, hfile⟩ := onErrorProxy_cleared hp.tidy
      have hshut := (onErrorProxy_closes hp.tidy).shut
      refine .emptied (by rw [hfunc]; exact htouched.ne') (by rw [hfunc]; exact hfile)
        (by rw [hfunc]) ?_
      rw [hfunc]
      refine ⟨.cut (Or.inl (hshut .proxy).fd) hflow.within, hshut⟩

end TunCtx

end HttpsProxy
