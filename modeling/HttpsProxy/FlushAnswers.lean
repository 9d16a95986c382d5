import HttpsProxy.SendAnswers

/-! What `send` makes of one chunk after the other, from the queue of the
connection, the answers to `::send` and `errno` alone. -/
namespace HttpsProxy

/-- Pieces that have been offered to a socket: what is left of them, the first
answer that does not take a whole piece, and the answers still to come. -/
structure Offer where
  left : List Bytes
  short : Option SendRes
  answers : List SendRes

def offer : List Bytes → List SendRes → Offer
  | [], rs => ⟨[], none, rs⟩
  | p :: ps, rs =>
    match rs.headD (.fail .EAGAIN) with
    | .sent n => if p.length ≤ n then offer ps rs.tail else ⟨p.drop n :: ps, some (.sent n), rs.tail⟩
    | .fail e => ⟨p :: ps, some (.fail e), rs.tail⟩

/-- The short answer is taken for an error, as `errno` reads something other than
`EAGAIN` and `EWOULDBLOCK` then. -/
def Offer.Fails (o : Offer) (e : Errno) : Prop := o.short ≠ none ∧ ¬(errnoAfter o.short e).again

instance (o : Offer) (e : Errno) : Decidable (o.Fails e) := inferInstanceAs (Decidable (_ ∧ _))

/-- One chunk after the other is given to `send`, which offers the queue and the
chunk and keeps what is left in the queue. One of the calls ends in an error. -/
def SendsFail : List Bytes → List Bytes → List SendRes → Errno → Prop
  | [], _, _, _ => False
  | d :: ds, queue, rs, e =>
    (offer (queue ++ [d]) rs).Fails e ∨
      SendsFail ds (offer (queue ++ [d]) rs).left (offer (queue ++ [d]) rs).answers
        (errnoAfter (offer (queue ++ [d]) rs).short e)

instance decidableSendsFail : ∀ (ds queue : List Bytes) (rs : List SendRes) (e : Errno),
    Decidable (SendsFail ds queue rs e)
  | [], _, _, _ => inferInstanceAs (Decidable False)
  | _ :: ds, _, _, _ =>
    haveI := decidableSendsFail ds
    inferInstanceAs (Decidable (_ ∨ _))

theorem offer_append (ps qs : List Bytes) (rs : List SendRes) :
    offer (ps ++ qs) rs = if (offer ps rs).short = none then offer qs (offer ps rs).answers
      else ⟨(offer ps rs).left ++ qs, (offer ps rs).short, (offer ps rs).answers⟩ := by
  induction ps generalizing rs with
  | nil => rfl
  | cons p ps ih =>
    cases hr : rs.headD (.fail .EAGAIN) with
    | fail e =>
      simp only [List.cons_append, offer, hr]
      rfl
    | sent n =>
      by_cases h : p.length ≤ n
      · simp only [List.cons_append, offer, hr, if_pos h, ih]
      · simp only [List.cons_append, offer, hr, if_neg h]
        rfl

theorem offer_short (ps : List Bytes) (rs : List SendRes) : (offer ps rs).short = firstShort ps rs := by
  induction ps generalizing rs with
  | nil => rfl
  | cons p ps ih =>
    simp only [offer, firstShort]
    cases rs.headD (.fail .EAGAIN) with
    | fail e => rfl
    | sent n =>
      by_cases h : p.length ≤ n
      · simp only [if_pos h, ih]
      · simp only [if_neg h]

/-- With no short answer nothing is left. -/
theorem offer_left {ps : List Bytes} {rs : List SendRes} (h : (offer ps rs).short = none) :
    (offer ps rs).left = [] := by
  induction ps generalizing rs with
  | nil => rfl
  | cons p ps ih =>
    simp only [offer] at h ⊢
    cases hr : rs.headD (.fail .EAGAIN) with
    | fail e =>
      rw [hr] at h
      cases h
    | sent n =>
      rw [hr] at h
      by_cases hn : p.length ≤ n
      · simp only [if_pos hn] at h ⊢
        exact ih h
      · simp only [if_neg hn] at h
        cases h

theorem Sys.send_offer (c : ConnId) (data : Bytes) (s : Sys) :
    (s.send c data).2.env.sends = (offer [data] s.env.sends).answers ∧
      ((s.send c data).1 ≠ some data.length →
        (offer [data] s.env.sends).left = [data.drop ((s.send c data).1.getD 0)]) := by
  unfold Sys.send offer
  cases s.env.sends.headD (.fail .EAGAIN) with
  | fail e => exact ⟨rfl, fun _ => rfl⟩
  | sent n =>
    by_cases h : data.length ≤ n
    · simp [h, offer, Sys.log]
    · have hmin : min n data.length = n := Nat.min_eq_left (not_le.mp h).le
      simp only [if_neg h, hmin]
      exact ⟨rfl, fun _ => rfl⟩

theorem flushPackets_offers (c : ConnId) (ps : List TcpPacket) (s : Sys) (hps : Unspent ps) :
    (Ctx.flushPackets c ps s).1.map TcpPacket.rest =
        (offer (ps.map TcpPacket.rest) s.env.sends).left ∧
      (Ctx.flushPackets c ps s).2.env.sends =
        (offer (ps.map TcpPacket.rest) s.env.sends).answers := by
  induction ps generalizing s with
  | nil => exact ⟨rfl, rfl⟩
  | cons p ps ih =>
    have hp : ¬p.buf.length ≤ p.sentlen := not_le.mpr (hps p List.mem_cons_self)
    obtain ⟨hanswers, hleft⟩ := Sys.send_offer c p.rest s
    obtain ⟨-, -, hfull⟩ := Sys.send_answered c p.rest s
    rw [← offer_short] at hfull
    have hsplit := offer_append [p.rest] (ps.map TcpPacket.rest) s.env.sends
    simp only [List.singleton_append] at hsplit
    simp only [List.map_cons, hsplit, Ctx.flushPackets, if_neg hp]
    -- the loop goes on only behind a packet that was taken whole
    by_cases hs : (s.send c p.rest).1 = some p.rest.length
    · rw [if_pos hs, if_pos (hfull.mp hs), ← hanswers]
      exact ih _ fun q hq => hps q (List.mem_cons_of_mem _ hq)
    · rw [if_neg hs, if_neg fun h => hs (hfull.mpr h), hleft hs]
      refine ⟨?_, hanswers⟩
      simp only [List.map_cons, List.singleton_append, TcpPacket.rest, List.drop_drop]

namespace Ctx

theorem tryFlushRemainPacket_offers (x : Ctx) (hx : Unspent x.conn.mTcpPacketList) :
    x.tryFlushRemainPacket.2.queued = (offer x.queued x.sys.env.sends).left ∧
      x.tryFlushRemainPacket.2.sys.env.sends = (offer x.queued x.sys.env.sends).answers := by
  by_cases he : x.conn.mTcpPacketList = []
  · have hq : x.queued = [] := by simp [queued, he]
    have hf : x.tryFlushRemainPacket = (true, x) := by simp [tryFlushRemainPacket, he]
    rw [hf, hq]
    exact ⟨rfl, rfl⟩
  · obtain ⟨hleft, hanswers⟩ := flushPackets_offers x.conn.this x.conn.mTcpPacketList x.sys hx
    change _ = (offer x.queued _).left at hleft
    change _ = (offer x.queued _).answers at hanswers
    unfold tryFlushRemainPacket
    rw [if_neg he]
    generalize flushPackets x.conn.this x.conn.mTcpPacketList x.sys = r at hleft hanswers
    obtain ⟨ps, s⟩ := r
    rw [← hleft, ← hanswers]
    simp only
    split
    · exact ⟨by simp [queued], by simp⟩
    · exact ⟨rfl, rfl⟩

/-- The end of `send`: `errno` decides. -/
theorem sendRest_offers (rest : Bytes) (x : Ctx) (hh : x.conn.mHandler = true) :
    ¬x.sys.errno.again ∧ (x.sendRest rest).2 = some .onError ∨
      x.sys.errno.again ∧ (x.sendRest rest).2 = none ∧
        (x.sendRest rest).1.queued = x.queued ++ [rest] ∧
        (x.sendRest rest).1.sys.env.sends = x.sys.env.sends ∧
        (x.sendRest rest).1.sys.errno = x.sys.errno := by
  rcases x.checkSocketErrors_cases .send with ⟨ha, hk⟩ | ⟨ha, -, hk⟩ | ⟨-, hno, -⟩
  · refine Or.inr ⟨ha, by simp [sendRest, hk], ?_, ?_, ?_⟩
    · simp [sendRest, hk, queued, cachePacket, TcpPacket.rest]
    · simp [sendRest, hk, cachePacket]
    · simp [sendRest, hk, cachePacket]
  · exact Or.inl ⟨ha, by simp [sendRest, hk, (x.raiseError_spec .send).1]⟩
  · rw [hh] at hno
    cases hno

/-- `send` on an open connection: it ends in an error just if the offer fails, and
else what is left of the offer is queued. -/
theorem send_offers (data : Bytes) (x : Ctx) (hfd : 0 ≤ x.conn.mFd)
    (hst : x.conn.mConnStatus = .Connected) (hx : Unspent x.conn.mTcpPacketList)
    (hh : x.conn.mHandler = true) :
    (offer (x.queued ++ [data]) x.sys.env.sends).Fails x.sys.errno ∧
        (x.send data).2 = some .onError ∨
      ¬(offer (x.queued ++ [data]) x.sys.env.sends).Fails x.sys.errno ∧ (x.send data).2 = none ∧
        (x.send data).1.queued = (offer (x.queued ++ [data]) x.sys.env.sends).left ∧
        (x.send data).1.sys.env.sends = (offer (x.queued ++ [data]) x.sys.env.sends).answers ∧
        (x.send data).1.sys.errno =
          errnoAfter (offer (x.queued ++ [data]) x.sys.env.sends).short x.sys.errno := by
  let x₀ := x.log (.sendCall x.conn.this data)
  obtain ⟨-, -, -, hempty, hconn⟩ := x₀.tryFlushRemainPacket_spec
  obtain ⟨ha, hflushed, -, -, -⟩ := x₀.tryFlushRemainPacket_answered hx
  obtain ⟨hleft, hanswers⟩ := x₀.tryFlushRemainPacket_offers hx
  rw [← offer_short] at hflushed
  have herrno : x₀.tryFlushRemainPacket.2.sys.errno =
      errnoAfter (offer x.queued x.sys.env.sends).short x.sys.errno := by
    rw [offer_short]
    exact ha.errno
  change _ = (offer x.queued x.sys.env.sends).left at hleft
  change _ = (offer x.queued x.sys.env.sends).answers at hanswers
  change _ ↔ (offer x.queued x.sys.env.sends).short = none at hflushed
  rw [offer_append]
  -- the data is offered only if the queue has gone, else it is queued behind what is left
  cases hf : x₀.tryFlushRemainPacket with
  | mk flushed z =>
    rw [hf] at hleft hanswers hflushed herrno hempty hconn
    simp only at hleft hanswers hflushed herrno hempty hconn
    have hz : z.conn.mHandler = true := by
      rw [hconn]
      exact hh
    cases flushed with
    | false =>
      have hsome : (offer x.queued x.sys.env.sends).short ≠ none := fun h => by
        simpa using hflushed.mpr h
      rw [if_neg hsome, send_of_queued data hfd hst hf, ← hleft, ← hanswers]
      simp only [Offer.Fails, ← herrno]
      rcases z.sendRest_offers data hz with ⟨hag, hcb⟩ | ⟨hag, hcb, hrest⟩
      · exact Or.inl ⟨⟨hsome, hag⟩, hcb⟩
      · exact Or.inr ⟨fun h => h.2 hag, hcb, hrest⟩
    | true =>
      have hnone := hflushed.mp rfl
      rw [hnone] at herrno
      obtain ⟨hd, -, hfull⟩ := Sys.send_answered z.conn.this data z.sys
      obtain ⟨hd', hd''⟩ := Sys.send_offer z.conn.this data z.sys
      have hqueue : z.queued = [] := by simp [queued, hempty rfl]
      have hdirect : (z.sendDirect data).2.sys.errno =
          errnoAfter (offer [data] z.sys.env.sends).short x.sys.errno := by
        rw [offer_short, ← show z.sys.errno = x.sys.errno from herrno]
        exact hd.errno
      rw [← offer_short] at hfull
      rw [if_pos hnone, ← hanswers, send_of_flushed data hfd hst hf]
      by_cases hs : (z.sendDirect data).1 = some data.length
      · have hshort := hfull.mp hs
        rw [if_pos hs, offer_left hshort]
        refine Or.inr ⟨fun h => h.1 hshort, rfl, hqueue, hd', hdirect⟩
      · have hshort : (offer [data] z.sys.env.sends).short ≠ none := fun h => hs (hfull.mpr h)
        rw [if_neg hs, hd'' hs]
        simp only [Offer.Fails, ← hdirect]
        rcases (z.sendDirect data).2.sendRest_offers (data.drop ((z.sendDirect data).1.getD 0)) hz with
          ⟨hag, hcb⟩ | ⟨hag, hcb, hq, hsends, he⟩
        · exact Or.inl ⟨⟨hshort, hag⟩, hcb⟩
        · refine Or.inr ⟨fun h => h.2 hag, hcb, ?_, hsends.trans hd', he⟩
          rw [hq]
          change z.queued ++ _ = _
          rw [hqueue]
          rfl

end Ctx

end HttpsProxy
