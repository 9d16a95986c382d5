import HttpsProxy.ConnectionSpec

/-! What one `handleInputNotification` reads. All reads but the last are full,
so the bytes read so far are a multiple of `MAXLEN`, the buffer has just that
much room behind them, and `LIMIT_LEN` is met exactly. -/
namespace HttpsProxy

open Connection

/-- The answer to the `i`-th of the calls of `recv` to come. -/
def Env.recvAnswer (e : Env) (i : ℕ) : RecvRes :=
  match e.recvs.getD i (.fail .EAGAIN) with
  | .data bs => .data (bs.take MAXLEN)
  | .fail err => .fail err

theorem Env.recvAnswer_tail {e f : Env} (h : f.recvs = e.recvs.tail) (i : ℕ) :
    f.recvAnswer i = e.recvAnswer (i + 1) := by
  unfold recvAnswer
  rw [h]
  cases e.recvs <;> rfl

def RecvRes.size : RecvRes → ℕ
  | .data bs => bs.length
  | .fail _ => 0

theorem Ev.read_self (c : ConnId) (room : ℕ) (bs : Bytes) : Ev.read c (.sockRecv c room (.data bs)) = bs :=
  if_pos rfl

namespace Ctx

/-- One call of `recv` is logged with the room and the bytes it has read. -/
theorem recv_logged (c : ConnId) (room : ℕ) (s : Sys) :
    (s.recv c MAXLEN room).2.trace = s.trace ++ [.sockRecv c room (s.env.recvAnswer 0)] ∧
      Ev.read c (.sockRecv c room (s.env.recvAnswer 0)) = (s.recv c MAXLEN room).1.getD [] ∧
      (s.env.recvAnswer 0).size = ((s.recv c MAXLEN room).1.getD []).length ∧
      ((s.recv c MAXLEN room).1.getD []).length ≤ MAXLEN ∧
      (s.recv c MAXLEN room).2.env.recvs = s.env.recvs.tail := by
  have hhead : s.env.recvs.headD (.fail .EAGAIN) = s.env.recvs.getD 0 (.fail .EAGAIN) := by
    cases s.env.recvs <;> rfl
  unfold Sys.recv Env.recvAnswer
  rw [hhead]
  generalize s.env.recvs.getD 0 (.fail .EAGAIN) = a
  cases a with
  | data bs => exact ⟨rfl, Ev.read_self _ _ _, rfl, List.length_take_le _ _, rfl⟩
  | fail e => exact ⟨rfl, rfl, rfl, Nat.zero_le _, rfl⟩

/-- From `k` reads with `buf` on, the loop has made the calls `evs` and ended with `r`:
the last read was not full, or it has met the limit. -/
structure Reads (c : ConnId) (buf : Bytes) (k : ℕ) (s : Sys) (r : Bytes × Option EConnStatus × Sys)
    (evs : List Ev) : Prop where
  trace : r.2.2.trace = s.trace ++ evs
  answers : evs = (List.range evs.length).map fun i => .sockRecv c MAXLEN (s.env.recvAnswer i)
  any : evs ≠ []
  full : ∀ i, i + 1 < evs.length → (s.env.recvAnswer i).size = MAXLEN
  stop : ∀ i, i + 1 = evs.length → (s.env.recvAnswer i).size < MAXLEN ∨ r.1.length = LIMIT_LEN
  count : k + evs.length ≤ LIMIT_LEN / MAXLEN
  bytes : r.1 = buf ++ received c evs
  limit : r.1.length ≤ LIMIT_LEN

section Reads

variable {c : ConnId} {buf got : Bytes} {k : ℕ} {s t : Sys}
  (htrace : t.trace = s.trace ++ [.sockRecv c MAXLEN (s.env.recvAnswer 0)])
  (hread : Ev.read c (.sockRecv c MAXLEN (s.env.recvAnswer 0)) = got)

include htrace hread in
theorem Reads.last (st : Option EConnStatus) (hk : k + 1 ≤ LIMIT_LEN / MAXLEN)
    (hle : (buf ++ got).length ≤ LIMIT_LEN)
    (hstop : (s.env.recvAnswer 0).size < MAXLEN ∨ LIMIT_LEN ≤ (buf ++ got).length) :
    Reads c buf k s (buf ++ got, st, t) [.sockRecv c MAXLEN (s.env.recvAnswer 0)] := by
  refine ⟨htrace, rfl, List.cons_ne_nil _ _, ?_, ?_, hk, ?_, hle⟩
  · intro i hi
    rw [List.length_singleton] at hi
    omega
  · intro i hi
    obtain rfl : i = 0 := by
      rw [List.length_singleton] at hi
      omega
    exact hstop.imp_right fun hge => le_antisymm hle hge
  · rw [received_cons, hread, received_nil, List.append_nil]

include htrace hread in
theorem Reads.more {r : Bytes × Option EConnStatus × Sys} {evs : List Ev}
    (hfull : (s.env.recvAnswer 0).size = MAXLEN) (htail : t.env.recvs = s.env.recvs.tail)
    (h : Reads c (buf ++ got) (k + 1) t r evs) :
    Reads c buf k s r (.sockRecv c MAXLEN (s.env.recvAnswer 0) :: evs) := by
  have hnext : ∀ i, t.env.recvAnswer i = s.env.recvAnswer (i + 1) := Env.recvAnswer_tail htail
  refine ⟨?_, ?_, List.cons_ne_nil _ _, ?_, ?_, ?_, ?_, h.limit⟩
  · rw [h.trace, htrace, List.append_assoc, List.singleton_append]
  · rw [List.length_cons, List.range_succ_eq_map, List.map_cons, List.map_map]
    refine congrArg (_ :: ·) (h.answers.trans ?_)
    apply List.map_congr_left
    intro i _
    rw [hnext i]
    rfl
  · intro i hi
    cases i with
    | zero => exact hfull
    | succ i =>
      rw [← hnext i]
      exact h.full i (by rw [List.length_cons] at hi; omega)
  · intro i hi
    rw [List.length_cons] at hi
    cases i with
    | zero => exact absurd (List.length_eq_zero_iff.mp (by omega)) h.any
    | succ i =>
      rw [← hnext i]
      exact h.stop i (by omega)
  · have hcount := h.count
    rw [List.length_cons]
    omega
  · rw [h.bytes, received_cons, hread, List.append_assoc]

end Reads

/-- As `LIMIT_LEN` is a multiple of `MAXLEN`, below it there is room for a full read. -/
theorem fullReads_room {k n : ℕ} (hlen : n = k * MAXLEN) (hlimit : n < LIMIT_LEN) :
    k + 1 ≤ LIMIT_LEN / MAXLEN ∧ n + MAXLEN ≤ LIMIT_LEN := by
  rw [hlen] at hlimit ⊢
  simp only [LIMIT_LEN, MAXLEN] at hlimit ⊢
  omega

/-- The loop from a buffer on that holds `k` full reads and has room for one more. -/
theorem recvLoop_reads (c : ConnId) (rs : List RecvRes) (buf : Bytes) (s : Sys) (k : ℕ)
    (hrs : s.env.recvs = rs) (hlen : buf.length = k * MAXLEN) (hlimit : buf.length < LIMIT_LEN) :
    ∃ evs, Reads c buf k s (recvLoop c rs buf (buf.length + MAXLEN) s) evs := by
  induction rs generalizing buf s k with
  | nil =>
    obtain ⟨hk, hle⟩ := fullReads_room hlen hlimit
    obtain ⟨htrace, hread, hsize, -, -⟩ := recv_logged c MAXLEN s
    have hnone : (s.recv c MAXLEN MAXLEN).1 = none := by simp [Sys.recv, hrs]
    rw [hnone, Option.getD_none] at hread hsize
    have h : Reads c buf k s (buf ++ [], none, _) _ :=
      .last htrace hread none hk (by rw [List.append_nil]; exact hlimit.le)
        (Or.inl (by rw [hsize]; decide))
    rw [List.append_nil] at h
    exact ⟨_, by simpa only [recvLoop, Nat.add_sub_cancel_left] using h⟩
  | cons a rs ih =>
    obtain ⟨hk, hle⟩ := fullReads_room hlen hlimit
    obtain ⟨htrace, hread, hsize, hmax, htail⟩ := recv_logged c MAXLEN s
    simp only [recvLoop, Nat.add_sub_cancel_left]
    generalize s.recv c MAXLEN MAXLEN = res at htrace hread hsize hmax htail ⊢
    obtain ⟨o, t⟩ := res
    have hlast : (buf ++ o.getD []).length ≤ LIMIT_LEN := by
      rw [List.length_append]
      exact (Nat.add_le_add_left hmax _).trans hle
    -- a failed or short read is the last, and so is the one that meets the limit
    cases o with
    | none =>
      have h := Reads.last htrace hread (if t.errno.again then none else some .Error) hk hlast
        (Or.inl (by rw [hsize]; exact (by decide : 0 < MAXLEN)))
      rw [Option.getD_none, List.append_nil] at h
      exact ⟨_, h⟩
    | some bs =>
      simp only [Option.getD_some] at hread hsize hmax hlast ⊢
      by_cases hfull : MAXLEN ≤ bs.length
      · by_cases hlim : LIMIT_LEN ≤ (buf ++ bs).length
        · rw [if_pos hfull, if_pos hlim]
          exact ⟨_, .last htrace hread none hk hlast (Or.inr hlim)⟩
        · -- the buffer grows by `MAXLEN` behind what it holds
          rw [if_pos hfull, if_neg hlim]
          have hlen' : (buf ++ bs).length = (k + 1) * MAXLEN := by
            rw [List.length_append, hlen, add_mul, one_mul]
            omega
          obtain ⟨evs, h⟩ := ih (buf ++ bs) t (k + 1) (by rw [htail, hrs, List.tail_cons]) hlen'
            (not_le.mp hlim)
          exact ⟨_, h.more htrace hread (by omega) htail⟩
      · rw [if_neg hfull]
        exact ⟨_, .last htrace hread _ hk hlast (Or.inl (by omega))⟩

/-- Up to `onRecv` there are only the calls of `recv`, and it gets all they have read. -/
theorem inputRecv_reads (x : Ctx) :
    ∃ evs r, Reads x.conn.this [] 0 x.sys r evs ∧ r.1 = received x.conn.this evs ∧
      (x.inputRecv.1.sys.trace = x.sys.trace ++ evs ++
        if received x.conn.this evs ≠ [] ∧ x.conn.mHandler = true then
          [.onRecv x.conn.this (received x.conn.this evs)] else []) ∧
      x.inputRecv.2.toList = if received x.conn.this evs ≠ [] ∧ x.conn.mHandler = true then
        [.onRecv (received x.conn.this evs)] else [] := by
  obtain ⟨evs, h⟩ := recvLoop_reads x.conn.this x.sys.env.recvs [] x.sys 0 rfl rfl (by decide)
  have hbuf := h.bytes
  rw [List.nil_append] at hbuf
  refine ⟨evs, _, h, hbuf, ?_⟩
  have htrace := h.trace
  rw [List.length_nil, Nat.zero_add] at htrace hbuf
  cases hl : recvLoop x.conn.this x.sys.env.recvs [] MAXLEN x.sys with
  | mk buf r =>
    rw [hl] at htrace hbuf
    simp only at htrace hbuf
    rw [← hbuf]
    by_cases hcall : buf ≠ [] ∧ x.conn.mHandler = true
    · rw [if_pos hcall, if_pos hcall, inputRecv, hl]
      simp only [if_pos hcall, log, Sys.log, htrace, Option.toList_some, and_self]
    · rw [if_neg hcall, if_neg hcall, inputRecv, hl]
      simp only [if_neg hcall, htrace, List.append_nil, Option.toList_none, and_self]

theorem inputFinish_calls (x : Ctx) : x.inputFinish.2.toList = [] ∨
    x.inputFinish.2.toList = [.onError] ∨ x.inputFinish.2.toList = [.onDisconnected] := by
  unfold inputFinish
  split
  · split
    · exact Or.inr (Or.inl rfl)
    · split
      · exact Or.inr (Or.inr rfl)
      · exact Or.inl rfl
  · exact Or.inl rfl

end Ctx

namespace Owner

variable {σ : Type}

/-- The owner with a list of the callbacks it gets, in the order in which they come. -/
def recorded (o : Owner σ) : Owner (σ × List Callback) where
  ctx s := o.ctx s.1
  put x s := (o.put x s.1, s.2)
  handler cb s := (o.handler cb s.1, s.2 ++ [cb])

theorem run_recorded (o : Owner σ) (r : Ctx × Option Callback) (s : σ) (cbs : List Callback) :
    o.recorded.run r (s, cbs) = (o.run r s, cbs ++ r.2.toList) := by
  obtain ⟨x, cb⟩ := r
  cases cb with
  | none => exact Prod.ext rfl (List.append_nil cbs).symm
  | some cb => rfl

/-- One notification with the calls `evs` of `recv` and the callbacks `last`
that follow `onRecv`. -/
structure ReadRound (o : Owner σ) (s : σ) (evs : List Ev) (last : List Callback) : Prop where
  /-- The loop only calls `recv`, and each time a full read fits behind `curlen`. -/
  room : ∀ e ∈ evs, ∃ room r, e = .sockRecv (o.ctx s).conn.this room r ∧ MAXLEN ≤ room
  /-- The calls get the next answers, one after the other. -/
  answers : evs = (List.range evs.length).map fun i =>
    .sockRecv (o.ctx s).conn.this MAXLEN ((o.ctx s).sys.env.recvAnswer i)
  any : evs ≠ []
  /-- The loop goes on after full reads only, and then up to the limit. -/
  full : ∀ i, i + 1 < evs.length → ((o.ctx s).sys.env.recvAnswer i).size = MAXLEN
  stop : ∀ i, i + 1 = evs.length → ((o.ctx s).sys.env.recvAnswer i).size < MAXLEN ∨
    (received (o.ctx s).conn.this evs).length = LIMIT_LEN
  count : evs.length ≤ LIMIT_LEN / MAXLEN
  limit : (received (o.ctx s).conn.this evs).length ≤ LIMIT_LEN
  /-- What the log holds when `onRecv` has been called, if it is. -/
  logged : (o.ctx s).inputRecv.1.sys.trace = (o.ctx s).sys.trace ++ evs ++
    if received (o.ctx s).conn.this evs ≠ [] ∧ (o.ctx s).conn.mHandler = true then
      [.onRecv (o.ctx s).conn.this (received (o.ctx s).conn.this evs)] else []
  callbacks : o.recorded.handleInputNotification (s, []) = (o.handleInputNotification s,
    (if received (o.ctx s).conn.this evs ≠ [] ∧ (o.ctx s).conn.mHandler = true then
      [.onRecv (received (o.ctx s).conn.this evs)] else []) ++ last)
  ends : last = [] ∨ last = [.onError] ∨ last = [.onDisconnected]

/-- A notification of a connected connection, whatever `recv` returns and
whatever the callbacks do: every `recv` has room for `MAXLEN` bytes, there are at
most `LIMIT_LEN / MAXLEN` of them with `LIMIT_LEN` bytes, and the handler gets
what they have read in one `onRecv`, before any other callback. -/
theorem input_assembles (o : Owner σ) (s : σ) (hst : (o.ctx s).conn.mConnStatus = .Connected) :
    ∃ evs last, o.ReadRound s evs last := by
  obtain ⟨evs, r, h, hbuf, htrace, hcb⟩ := (o.ctx s).inputRecv_reads
  let t := o.run (o.ctx s).inputRecv s
  have hcount := h.count
  rw [Nat.zero_add] at hcount
  refine ⟨evs, (o.ctx t).inputFinish.2.toList, ?_, h.answers, h.any, h.full, hbuf ▸ h.stop, hcount,
    hbuf ▸ h.limit, htrace, ?_, (o.ctx t).inputFinish_calls⟩
  · intro e he
    rw [h.answers] at he
    obtain ⟨i, -, rfl⟩ := List.mem_map.mp he
    exact ⟨MAXLEN, _, rfl, le_rfl⟩
  -- the callbacks are recorded as they are made: first those of the reading, then the one that ends it
  have hfirst : o.recorded.run (o.ctx s).inputRecv (s, []) = (t, (o.ctx s).inputRecv.2.toList) :=
    run_recorded o _ s []
  have hctx : o.recorded.ctx (s, []) = o.ctx s := rfl
  have hsecond : o.recorded.run (o.ctx t).inputFinish (t, (o.ctx s).inputRecv.2.toList) =
      (o.run (o.ctx t).inputFinish t, (o.ctx s).inputRecv.2.toList ++ (o.ctx t).inputFinish.2.toList) :=
    run_recorded o _ t _
  rw [hcb] at hsecond
  rw [handleInputNotification, handleInputNotification, hctx, if_neg (not_not_intro hst),
    if_neg (not_not_intro hst), hfirst, hcb]
  exact hsecond

/-- A connection that nothing but its methods changes. -/
def alone : Owner Ctx where
  ctx := id
  put x _ := x
  handler _ := id

/-- A full read, a short one, and then the end of the stream. -/
def fullRead : Ctx :=
  ⟨{ Connection.new ⟨0, .loc⟩ with mFd := 4, mConnStatus := .Connected, mHandler := true },
    ⟨.EAGAIN, { recvs := [.data (List.replicate MAXLEN 7), .data [8, 9], .data []] }, .new, [], false⟩⟩

theorem fullRead_assembles : ∃ last,
    (alone.recorded.handleInputNotification (fullRead, [])).2 =
      .onRecv (List.replicate MAXLEN 7 ++ [8, 9]) :: last := by
  obtain ⟨evs, last, h⟩ := input_assembles alone fullRead rfl
  have h0 : fullRead.sys.env.recvAnswer 0 = .data (List.replicate MAXLEN 7) := by
    change RecvRes.data ((List.replicate MAXLEN 7).take MAXLEN) = _
    rw [List.take_replicate, Nat.min_self]
  have h1 : fullRead.sys.env.recvAnswer 1 = .data [8, 9] := rfl
  -- the first answer is a full read below the limit, the second one is not full
  have hlen : evs.length = 2 := by
    have hpos := List.length_pos_of_ne_nil h.any
    have hone : evs.length ≠ 1 := by
      intro hn
      have hevs := h.answers
      rw [hn] at hevs
      change evs = [Ev.sockRecv _ _ (fullRead.sys.env.recvAnswer 0)] at hevs
      have hstop := h.stop 0 hn.symm
      change (fullRead.sys.env.recvAnswer 0).size < MAXLEN ∨ (received ⟨0, .loc⟩ evs).length = _ at hstop
      have hgot : received ⟨0, .loc⟩ evs = List.replicate MAXLEN 7 := by
        rw [hevs, h0, received_cons, received_nil, List.append_nil]
        exact Ev.read_self ⟨0, .loc⟩ MAXLEN _
      rw [hgot, h0, RecvRes.size, List.length_replicate] at hstop
      exact absurd hstop (by decide)
    have hless : ¬ 2 < evs.length := by
      intro hlt
      have hfull : (fullRead.sys.env.recvAnswer 1).size = MAXLEN := h.full 1 hlt
      rw [h1] at hfull
      cases hfull
    omega
  have hevs : evs = [.sockRecv ⟨0, .loc⟩ MAXLEN (.data (List.replicate MAXLEN 7)),
      .sockRecv ⟨0, .loc⟩ MAXLEN (.data [8, 9])] := by
    rw [h.answers, hlen]
    change [Ev.sockRecv _ _ (fullRead.sys.env.recvAnswer 0), .sockRecv _ _ (fullRead.sys.env.recvAnswer 1)] = _
    rw [h0, h1]
    rfl
  have hgot : received (alone.ctx fullRead).conn.this evs = List.replicate MAXLEN 7 ++ [8, 9] := by
    rw [hevs, received_cons, received_cons, received_nil, List.append_nil]
    exact congrArg₂ (· ++ ·) (Ev.read_self ⟨0, .loc⟩ MAXLEN _) (Ev.read_self ⟨0, .loc⟩ MAXLEN _)
  refine ⟨last, ?_⟩
  rw [h.callbacks, hgot, if_pos ⟨by simp, rfl⟩]
  rfl

end Owner

end HttpsProxy
