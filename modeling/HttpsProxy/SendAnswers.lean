import HttpsProxy.ConnectionSpec

/-! What the answers to `::send` decide. The calls of one flush offer piece
after piece until the first answer that is not a full one; that answer settles
how the flush ends and what `errno` reads then. -/
namespace HttpsProxy

/-- The first answer that does not take the whole piece it is asked about. -/
def firstShort : List Bytes → List SendRes → Option SendRes
  | [], _ => none
  | p :: ps, rs =>
    match rs.headD (.fail .EAGAIN) with
    | .sent n => if p.length ≤ n then firstShort ps rs.tail else some (.sent n)
    | .fail e => some (.fail e)

/-- What `errno` reads after a flush that ended with this answer. -/
def errnoAfter : Option SendRes → Errno → Errno
  | some (.fail e), _ => e
  | _, e => e

/-- The answer is an error other than `EAGAIN` and `EWOULDBLOCK`. -/
def isHard : Option SendRes → Prop
  | some (.fail e) => ¬e.again
  | _ => False

instance (r : Option SendRes) : Decidable (isHard r) := by
  unfold isHard
  split <;> infer_instance

theorem firstShort_append (ps qs : List Bytes) (rs : List SendRes) :
    firstShort (ps ++ qs) rs =
      (firstShort ps rs).or (firstShort qs (rs.drop ps.length)) := by
  induction ps generalizing rs with
  | nil => rfl
  | cons p ps ih =>
    simp only [List.cons_append, firstShort]
    cases rs.headD (.fail .EAGAIN) with
    | fail e => rfl
    | sent n =>
      by_cases h : p.length ≤ n
      · simp only [if_pos h, ih, List.length_cons]
        cases rs <;> simp
      · simp only [if_neg h, Option.some_or]

/-- A call of `::send` or `getsockopt` on the socket of `c` that failed with an
error other than `EAGAIN` and `EWOULDBLOCK`. -/
def Ev.isFailure (c : ConnId) : Ev → Prop
  | .sockSend d _ (.fail e) _ => d = c ∧ ¬e.again
  | .sockopt d (.pending e) => d = c ∧ ¬e.again
  | .sockopt d (.fail e) => d = c ∧ ¬e.again
  | _ => False

/-- From `s` to `t` some calls of `::send` were made, of which the last, if
any, got the answer `r` and all others were answered in full. -/
structure Answered (c : ConnId) (r : Option SendRes) (s t : Sys) : Prop where
  errno : t.errno = errnoAfter r s.errno
  log : ∃ evs, t.trace = s.trace ++ evs ∧ (∀ e ∈ evs, e.isSockSend c) ∧
    ((∃ e ∈ evs, e.isFailure c) ↔ isHard r)

theorem Answered.refl (c : ConnId) (s : Sys) : Answered c none s s :=
  ⟨rfl, [], by simp, by simp, by simp [isHard]⟩

/-- Calls answered in full, then some more. -/
theorem Answered.trans {c : ConnId} {r : Option SendRes} {s t u : Sys}
    (h : Answered c none s t) (k : Answered c r t u) : Answered c r s u := by
  obtain ⟨he, es, ht, hs, hf⟩ := h
  obtain ⟨ke, fs, hu, ks, kf⟩ := k
  refine ⟨by rw [ke, he]; rfl, es ++ fs, by rw [hu, ht, List.append_assoc], ?_, ?_⟩
  · intro e hm
    rcases List.mem_append.mp hm with hm | hm
    · exact hs e hm
    · exact ks e hm
  · have hno : ¬∃ e ∈ es, e.isFailure c := fun h => hf.mp h
    rw [← kf]
    constructor
    · rintro ⟨e, hm, hx⟩
      rcases List.mem_append.mp hm with hm | hm
      · exact absurd ⟨e, hm, hx⟩ hno
      · exact ⟨e, hm, hx⟩
    · rintro ⟨e, hm, hx⟩
      exact ⟨e, List.mem_append_right _ hm, hx⟩

theorem Answered.congr {c : ConnId} {r : Option SendRes} {s t t' : Sys} (h : Answered c r s t)
    (he : t'.errno = t.errno) (ht : t'.trace = t.trace) : Answered c r s t' :=
  ⟨he.trans h.errno, by rw [ht]; exact h.log⟩

/-- One call, and what it leaves of the script. -/
theorem Sys.send_answered (c : ConnId) (data : Bytes) (s : Sys) :
    Answered c (firstShort [data] s.env.sends) s (s.send c data).2 ∧
      (s.send c data).2.env.sends = s.env.sends.tail ∧
      ((s.send c data).1 = some data.length ↔ firstShort [data] s.env.sends = none) := by
  unfold Sys.send firstShort
  cases s.env.sends.headD (.fail .EAGAIN) with
  | fail e =>
    exact ⟨⟨rfl, _, rfl, by simp [Ev.isSockSend], by simp [Ev.isFailure, isHard]⟩, rfl, by simp⟩
  | sent n =>
    refine ⟨⟨?_, _, rfl, by simp [Ev.isSockSend], ?_⟩, rfl, ?_⟩
    · by_cases h : data.length ≤ n <;> simp [h, firstShort, errnoAfter, Sys.log]
    · by_cases h : data.length ≤ n <;> simp [h, firstShort, Ev.isFailure, isHard]
    · by_cases h : data.length ≤ n
      · simp [h, firstShort]
      · simp [h]

theorem Sys.send_aborted (c : ConnId) (data : Bytes) (s : Sys) :
    (s.send c data).2.aborted = s.aborted := by
  unfold Sys.send
  cases s.env.sends.headD (.fail .EAGAIN) <;> rfl

/-- A short answer leaves at least one byte. -/
theorem Sys.send_short {c : ConnId} {data : Bytes} {s : Sys}
    (h : (s.send c data).1 ≠ some data.length) (hd : data ≠ []) :
    (s.send c data).1.getD 0 < data.length := by
  rcases Sys.send_cases c data s with ⟨k, _, hk, hg, -⟩ | ⟨_, hg, -⟩
  · have hne : k ≠ data.length := fun e => h (by rw [hg, e])
    rw [hg, Option.getD_some]
    omega
  · rw [hg, Option.getD_none]
    exact List.length_pos_iff.mpr hd

/-- No packet of the list is spent. -/
def Unspent (ps : List TcpPacket) : Prop := ∀ p ∈ ps, p.sentlen < p.buf.length

theorem flushPackets_answered (c : ConnId) (ps : List TcpPacket) (s : Sys) (hps : Unspent ps) :
    Answered c (firstShort (ps.map TcpPacket.rest) s.env.sends) s (Ctx.flushPackets c ps s).2 ∧
      ((Ctx.flushPackets c ps s).1 = [] ↔
        firstShort (ps.map TcpPacket.rest) s.env.sends = none) ∧
      (firstShort (ps.map TcpPacket.rest) s.env.sends = none →
        (Ctx.flushPackets c ps s).2.env.sends = s.env.sends.drop ps.length) ∧
      (Ctx.flushPackets c ps s).2.aborted = s.aborted ∧
      Unspent (Ctx.flushPackets c ps s).1 := by
  induction ps generalizing s with
  | nil => exact ⟨Answered.refl c s, by simp [Ctx.flushPackets, firstShort], fun _ => rfl, rfl, hps⟩
  | cons p ps ih =>
    have hp : ¬p.buf.length ≤ p.sentlen := not_le.mpr (hps p List.mem_cons_self)
    obtain ⟨ha, htail, hfull⟩ := Sys.send_answered c p.rest s
    have habort := Sys.send_aborted c p.rest s
    have hsplit := firstShort_append [p.rest] (ps.map TcpPacket.rest) s.env.sends
    simp only [List.singleton_append, List.length_singleton] at hsplit
    simp only [List.map_cons, hsplit, Ctx.flushPackets, if_neg hp]
    by_cases hs : (s.send c p.rest).1 = some p.rest.length
    · obtain ⟨ka, kempty, ksends, kab, kun⟩ := ih (s.send c p.rest).2
        fun q hq => hps q (List.mem_cons_of_mem _ hq)
      have hnone := hfull.mp hs
      rw [htail, ← List.drop_one] at ka kempty ksends
      rw [hnone] at ha ⊢
      simp only [hs, if_true, Option.none_or]
      refine ⟨ha.trans ka, kempty, fun h => ?_, kab.trans habort, kun⟩
      rw [ksends h, List.drop_drop, List.length_cons, Nat.add_comm]
    · have hsome : firstShort [p.rest] s.env.sends ≠ none := fun h => hs (hfull.mpr h)
      obtain ⟨r, hr⟩ := Option.ne_none_iff_exists'.mp hsome
      rw [hr] at ha ⊢
      simp only [if_neg hs, Option.some_or]
      refine ⟨ha, by simp, by simp, habort, ?_⟩
      intro q hq
      rcases List.mem_cons.mp hq with rfl | hq
      · have hlen : p.rest.length = p.buf.length - p.sentlen := by simp [TcpPacket.rest]
        have hlt := Sys.send_short hs (List.ne_nil_of_length_pos (by omega))
        simp only
        omega
      · exact hps q (List.mem_cons_of_mem _ hq)

namespace Ctx

open Connection

/-- The pieces a flush of the queue offers. -/
def queued (x : Ctx) : List Bytes := x.conn.mTcpPacketList.map TcpPacket.rest

theorem tryFlushRemainPacket_answered (x : Ctx) (hx : Unspent x.conn.mTcpPacketList) :
    Answered x.conn.this (firstShort x.queued x.sys.env.sends) x.sys x.tryFlushRemainPacket.2.sys ∧
      (x.tryFlushRemainPacket.1 = true ↔ firstShort x.queued x.sys.env.sends = none) ∧
      (firstShort x.queued x.sys.env.sends = none →
        x.tryFlushRemainPacket.2.sys.env.sends = x.sys.env.sends.drop x.queued.length) ∧
      x.tryFlushRemainPacket.2.sys.aborted = x.sys.aborted ∧
      Unspent x.tryFlushRemainPacket.2.conn.mTcpPacketList := by
  by_cases he : x.conn.mTcpPacketList = []
  · have hq : x.queued = [] := by simp [queued, he]
    have hf : x.tryFlushRemainPacket = (true, x) := by simp [tryFlushRemainPacket, he]
    rw [hf, hq]
    exact ⟨Answered.refl _ _, by simp [firstShort], fun _ => rfl, rfl, hx⟩
  · obtain ⟨ha, hempty, hsends, hab, hun⟩ :=
      flushPackets_answered x.conn.this x.conn.mTcpPacketList x.sys hx
    have hlen : x.queued.length = x.conn.mTcpPacketList.length := by simp [queued]
    rw [hlen]
    change Answered _ (firstShort x.queued _) _ _ at ha
    change _ ↔ firstShort x.queued _ = none at hempty
    change firstShort x.queued _ = none → _ at hsends
    cases hf : flushPackets x.conn.this x.conn.mTcpPacketList x.sys with
    | mk ps s =>
      rw [hf] at ha hempty hsends hab hun
      by_cases hps : ps = []
      · simp only [tryFlushRemainPacket, if_neg he, hf, if_pos hps]
        refine ⟨ha.congr (by simp) (by simp), by simpa using hempty.mp hps, ?_, by simpa using hab, ?_⟩
        · intro h
          simpa using hsends h
        · simp [hps, Unspent]
      · simp only [tryFlushRemainPacket, if_neg he, hf, if_neg hps]
        refine ⟨ha, ?_, hsends, hab, hun⟩
        simpa using fun h => hps (hempty.mpr h)

/-- `send` on an open connection: the queue and then the data are offered, and
only a short answer leads to the check of `errno`. -/
theorem send_answered (data : Bytes) (x : Ctx) (hfd : 0 ≤ x.conn.mFd)
    (hst : x.conn.mConnStatus = .Connected) (hx : Unspent x.conn.mTcpPacketList) :
    ∃ (z : Ctx) (rest : Bytes),
      Answered x.conn.this (firstShort (x.queued ++ [data]) x.sys.env.sends)
        (x.sys.log (.sendCall x.conn.this data)) z.sys ∧
      SameLink x.conn z.conn ∧ Unspent z.conn.mTcpPacketList ∧ z.sys.aborted = x.sys.aborted ∧
      (firstShort (x.queued ++ [data]) x.sys.env.sends = none → z.conn.mTcpPacketList = []) ∧
      (firstShort (x.queued ++ [data]) x.sys.env.sends ≠ none → data ≠ [] → rest ≠ []) ∧
      x.send data = if firstShort (x.queued ++ [data]) x.sys.env.sends = none then (z, none)
        else z.sendRest rest := by
  let x₀ := x.log (.sendCall x.conn.this data)
  obtain ⟨-, -, -, hempty, hconn⟩ := x₀.tryFlushRemainPacket_spec
  obtain ⟨ha, hflushed, hsends, hab, hun⟩ := x₀.tryFlushRemainPacket_answered hx
  have hlink : SameLink x.conn x₀.tryFlushRemainPacket.2.conn := by
    rw [hconn]
    exact ⟨rfl, rfl, rfl, rfl⟩
  change _ ↔ firstShort x.queued x.sys.env.sends = none at hflushed
  change firstShort x.queued x.sys.env.sends = none →
    x₀.tryFlushRemainPacket.2.sys.env.sends = x.sys.env.sends.drop x.queued.length at hsends
  change Answered x.conn.this (firstShort x.queued x.sys.env.sends) _ _ at ha
  have hsplit := firstShort_append x.queued [data] x.sys.env.sends
  -- what is queued goes first; the new data is sent only if all of it went
  cases hf : x₀.tryFlushRemainPacket with
  | mk flushed z =>
    rw [hf] at ha hflushed hsends hab hun hlink hempty
    cases flushed with
    | false =>
      have hsome : firstShort x.queued x.sys.env.sends ≠ none := fun h => by
        simpa using hflushed.mpr h
      obtain ⟨r, hr⟩ := Option.ne_none_iff_exists'.mp hsome
      rw [hsplit, hr, Option.some_or]
      refine ⟨z, data, hr ▸ ha, hlink, hun, hab, by simp, fun _ => id, ?_⟩
      rw [send_of_queued data hfd hst hf, if_neg (by simp)]
    | true =>
      have hnone := hflushed.mp rfl
      obtain ⟨hd, -, hfull⟩ := Sys.send_answered z.conn.this data z.sys
      rw [hlink.this, hsends hnone] at hd hfull
      rw [hsplit, hnone, Option.none_or]
      rw [hnone] at ha
      refine ⟨(z.sendDirect data).2, data.drop ((z.sendDirect data).1.getD 0), ?_,
        ⟨hlink.this, hlink.fd, hlink.status, hlink.handler⟩, hun, ?_, fun _ => hempty rfl, ?_, ?_⟩
      · exact (ha.trans hd).congr (by rw [← hlink.this]; rfl) (by rw [← hlink.this]; rfl)
      · exact (Sys.send_aborted _ _ _).trans hab
      · intro hshort hd hrest
        have hlt := Sys.send_short (fun h => hshort (hfull.mp h)) hd
        rw [← hlink.this] at hlt
        exact absurd hlt (not_lt.mpr (List.drop_eq_nil_iff.mp hrest))
      · have hfull' : (z.sendDirect data).1 = some data.length ↔
            firstShort [data] (x.sys.env.sends.drop x.queued.length) = none := by
          rw [← hfull, ← hlink.this]
          rfl
        simp only [send_of_flushed data hfd hst hf, hfull']

end Ctx

end HttpsProxy
