import HttpsProxy.ConnectionRule
import HttpsProxy.TunnelRule
import Mathlib.Data.Finset.Insert

/-! Which descriptors are open, read off the log, and who holds them: a table of
holders that stays right whatever one holder does. -/
namespace HttpsProxy

/-- The entries of the log that make, hand over or close a descriptor. -/
def Ev.isDesc : Ev → Prop
  | .accepted _ | .opened _ _ | .close _ => True
  | _ => False

/-- The descriptors open after `e`, if those of `s` are before. -/
def Ev.opens (s : Finset ℤ) : Ev → Finset ℤ
  | .accepted fd => insert fd s
  | .opened _ fd => insert fd s
  | .close fd => s.erase fd
  | _ => s

def openAfter (s : Finset ℤ) (tr : List Ev) : Finset ℤ := tr.foldl Ev.opens s

/-- The descriptor that `accept` or `socket` has just returned. The client's side
of a tunnel is opened on one that `accept` returned before. -/
def Ev.made : Ev → Option ℤ
  | .accepted fd => some fd
  | .opened c fd => if c.side = .proxy then some fd else none
  | _ => none

/-- The kernel returns no descriptor that is still open. -/
def FreshFds (s : Finset ℤ) : List Ev → Prop
  | [] => True
  | e :: es => (∀ fd ∈ e.made, fd ∉ s) ∧ FreshFds (e.opens s) es

instance FreshFds.decidable : ∀ (s : Finset ℤ) (tr : List Ev), Decidable (FreshFds s tr)
  | _, [] => .isTrue trivial
  | s, e :: es =>
    have : Decidable (FreshFds (e.opens s) es) := FreshFds.decidable (e.opens s) es
    inferInstanceAs (Decidable ((∀ fd ∈ e.made, fd ∉ s) ∧ FreshFds (e.opens s) es))

section Log

variable {s : Finset ℤ}

theorem openAfter_append (l k : List Ev) : openAfter s (l ++ k) = openAfter (openAfter s l) k :=
  List.foldl_append

theorem openAfter_quiet {evs : List Ev} (h : ∀ e ∈ evs, ¬e.isDesc) : openAfter s evs = s := by
  induction evs with
  | nil => rfl
  | cons e es ih =>
    have he : e.opens s = s := by
      have hn := h e List.mem_cons_self
      cases e <;> first | rfl | exact absurd trivial hn
    change openAfter (e.opens s) es = s
    rw [he]
    exact ih fun d hd => h d (List.mem_cons_of_mem e hd)

theorem freshFds_append (l k : List Ev) :
    FreshFds s (l ++ k) ↔ FreshFds s l ∧ FreshFds (openAfter s l) k := by
  induction l generalizing s with
  | nil => exact ⟨fun h => ⟨trivial, h⟩, fun h => h.2⟩
  | cons e es ih =>
    change _ ∧ FreshFds (e.opens s) (es ++ k) ↔
      (_ ∧ FreshFds (e.opens s) es) ∧ FreshFds (openAfter (e.opens s) es) k
    rw [ih, and_assoc]

/-- What a stretch of the log without descriptors changes: nothing. -/
theorem openAfter_extends {s : Finset ℤ} {t u : List Ev} (h : ∃ evs, u = t ++ evs ∧ ∀ e ∈ evs, ¬e.isDesc) :
    openAfter s u = openAfter s t := by
  obtain ⟨evs, rfl, he⟩ := h
  rw [openAfter_append, openAfter_quiet he]

theorem FreshFds.before {t u : List Ev} (h : FreshFds s u) (htu : t <+: u) : FreshFds s t := by
  obtain ⟨evs, rfl⟩ := htu
  exact ((freshFds_append t evs).mp h).1

theorem FreshFds.entry {t : List Ev} {e : Ev} (h : FreshFds s (t ++ [e])) :
    ∀ fd ∈ e.made, fd ∉ openAfter s t :=
  ((freshFds_append t [e]).mp h).2.1

end Log

/-- The open descriptors `s` are those of `P` and those of the connections, and
each of these is held by one connection only. -/
structure Holders (P : Finset ℤ) (conn : ConnId → Connection) (s : Finset ℤ) : Prop where
  mem : ∀ fd, fd ∈ s ↔ fd ∈ P ∨ ∃ c, 0 ≤ fd ∧ (conn c).mFd = fd
  other : ∀ c, 0 ≤ (conn c).mFd → (conn c).mFd ∉ P
  unique : ∀ c d, 0 ≤ (conn c).mFd → (conn d).mFd = (conn c).mFd → d = c

namespace Holders

variable {P : Finset ℤ} {conn : ConnId → Connection} {s : Finset ℤ} {c : ConnId} {k : Connection}

theorem congr (h : Holders P conn s) {conn' : ConnId → Connection}
    (hc : ∀ c, 0 ≤ (conn c).mFd ∨ 0 ≤ (conn' c).mFd → (conn' c).mFd = (conn c).mFd) :
    Holders P conn' s := by
  have hpos : ∀ c, 0 ≤ (conn' c).mFd → (conn' c).mFd = (conn c).mFd := fun c hp => hc c (Or.inr hp)
  refine ⟨fun fd => ?_, fun c hp => ?_, fun c d hp hd => ?_⟩
  · rw [h.mem fd]
    refine or_congr_right ⟨?_, ?_⟩
    · rintro ⟨c, hfd, he⟩
      exact ⟨c, hfd, (hc c (Or.inl (by omega))).trans he⟩
    · rintro ⟨c, hfd, he⟩
      exact ⟨c, hfd, (hpos c (by omega)).symm.trans he⟩
  · have he := hpos c hp
    rw [he] at hp ⊢
    exact h.other c hp
  · have he := hpos c hp
    have he' := hpos d (by omega)
    exact h.unique c d (by omega) (by omega)

/-- The connection at `c` closes its descriptor. -/
theorem close (h : Holders P conn s) (hfd : 0 ≤ (conn c).mFd) (hk : k.mFd < 0) :
    Holders P (Function.update conn c k) (s.erase (conn c).mFd) := by
  have hself : (Function.update conn c k c).mFd < 0 := by rwa [Function.update_self]
  have hne : ∀ d, 0 ≤ (Function.update conn c k d).mFd → d ≠ c ∧ Function.update conn c k d = conn d := by
    intro d hd
    have hdc : d ≠ c := fun hdc => absurd (hdc ▸ hd) (not_le.mpr hself)
    exact ⟨hdc, Function.update_of_ne hdc ..⟩
  refine ⟨fun fd => ?_, fun d hd => ?_, fun d e hd he => ?_⟩
  · rw [Finset.mem_erase, h.mem fd]
    constructor
    · rintro ⟨hnot, hP | ⟨d, hpos, hd⟩⟩
      · exact Or.inl hP
      · have hdc : d ≠ c := fun hdc => hnot (hdc ▸ hd.symm)
        exact Or.inr ⟨d, hpos, by rwa [Function.update_of_ne hdc]⟩
    · rintro (hP | ⟨d, hpos, hd⟩)
      · exact ⟨fun he => h.other c hfd (he ▸ hP), Or.inl hP⟩
      · obtain ⟨hdc, hu⟩ := hne d (by omega)
        rw [hu] at hd
        exact ⟨fun he => hdc (h.unique c d hfd (hd.trans he)), Or.inr ⟨d, hpos, hd⟩⟩
  · obtain ⟨-, hu⟩ := hne d hd
    rw [hu] at hd ⊢
    exact h.other d hd
  · obtain ⟨-, hu⟩ := hne d hd
    obtain ⟨-, hv⟩ := hne e (by omega)
    rw [hu] at hd he
    rw [hv] at he
    exact h.unique d e hd he

/-- A descriptor of the process becomes that of the connection at `c`. -/
theorem handOver {fd : ℤ} (h : Holders (insert fd P) conn s) (hfd : 0 ≤ fd) (hP : fd ∉ P)
    (hc : (conn c).mFd < 0) (hk : k.mFd = fd) : Holders P (Function.update conn c k) s := by
  have hself : (Function.update conn c k c).mFd = fd := by rwa [Function.update_self]
  -- while the descriptor was with the caller no connection had it
  have hnot : ∀ d, (conn d).mFd ≠ fd := fun d hd =>
    h.other d (by omega) (hd ▸ Finset.mem_insert_self fd P)
  have hne : ∀ d, d ≠ c → Function.update conn c k d = conn d := fun d hd => Function.update_of_ne hd ..
  refine ⟨fun x => ?_, fun d hd => ?_, fun d e hd he => ?_⟩
  -- the set of open descriptors is the same, only the holder of `fd` differs
  · rw [h.mem x, Finset.mem_insert]
    constructor
    · rintro ((rfl | hx) | ⟨d, hpos, hd⟩)
      · exact Or.inr ⟨c, hfd, hself⟩
      · exact Or.inl hx
      · exact Or.inr ⟨d, hpos, by rwa [hne d fun hdc => by rw [hdc] at hd; omega]⟩
    · rintro (hx | ⟨d, hpos, hd⟩)
      · exact Or.inl (Or.inr hx)
      · by_cases hdc : d = c
        · rw [hdc, hself] at hd
          exact Or.inl (Or.inl hd.symm)
        · exact Or.inr ⟨d, hpos, by rwa [hne d hdc] at hd⟩
  · by_cases hdc : d = c
    · rwa [hdc, hself]
    · rw [hne d hdc] at hd ⊢
      exact fun hin => h.other d hd (Finset.mem_insert_of_mem hin)
  · by_cases hdc : d = c
    · rw [hdc, hself] at he
      by_contra hec
      rw [hne e fun h => hec (h.trans hdc.symm)] at he
      exact hnot e he
    · rw [hne d hdc] at hd he
      by_cases hec : e = c
      · rw [hec, hself] at he
        exact absurd he.symm (hnot d)
      · rw [hne e hec] at he
        exact h.unique d e hd he

/-- A new descriptor is open, and nobody's yet. -/
theorem make {fd : ℤ} (h : Holders P conn s) (hfd : fd ∉ s) : Holders (insert fd P) conn (insert fd s) := by
  refine ⟨fun x => ?_, fun d hd hin => ?_, h.unique⟩
  · rw [Finset.mem_insert, Finset.mem_insert, h.mem x, or_assoc]
  · rcases Finset.mem_insert.mp hin with he | hin
    · exact hfd ((h.mem fd).mpr (Or.inr ⟨d, he ▸ hd, he⟩))
    · exact h.other d hd hin

/-- A descriptor of the process is closed. -/
theorem drop {fd : ℤ} (h : Holders (insert fd P) conn s) (hfd : fd ∉ P) : Holders P conn (s.erase fd) := by
  refine ⟨fun x => ?_, fun d hd hin => h.other d hd (Finset.mem_insert_of_mem hin), h.unique⟩
  rw [Finset.mem_erase, h.mem x, Finset.mem_insert]
  constructor
  · rintro ⟨hx, (rfl | hin) | hd⟩
    · exact absurd rfl hx
    · exact Or.inl hin
    · exact Or.inr hd
  · rintro (hin | ⟨d, hpos, hd⟩)
    · exact ⟨fun he => hfd (he ▸ hin), Or.inl (Or.inr hin)⟩
    · exact ⟨fun he => h.other d (by omega) (by rw [hd, he]; exact Finset.mem_insert_self fd P),
        Or.inr ⟨d, hpos, hd⟩⟩

end Holders

theorem Ev.isCall.not_isDesc {e : Ev} (he : e.isCall) : ¬e.isDesc := by
  intro hd
  cases e <;> first | exact he | exact hd

theorem Ev.isTunnel.not_isDesc {e : Ev} (he : e.isTunnel) : ¬e.isDesc := by
  intro hd
  cases e <;> first | exact he | exact hd

namespace Sys

theorem send_quiet (c : ConnId) (data : Bytes) (s : Sys) :
    ∃ evs, (s.send c data).2.trace = s.trace ++ evs ∧ ∀ e ∈ evs, ¬e.isDesc := by
  unfold send
  cases s.env.sends.headD (.fail .EAGAIN) <;> exact Extends.entry rfl id

theorem recv_quiet (c : ConnId) (maxlen room : ℕ) (s : Sys) :
    ∃ evs, (s.recv c maxlen room).2.trace = s.trace ++ evs ∧ ∀ e ∈ evs, ¬e.isDesc := by
  unfold recv
  cases s.env.recvs.headD (.fail .EAGAIN) <;> exact Extends.entry rfl id

theorem sockError_quiet (c : ConnId) (s : Sys) :
    ∃ evs, (s.sockError c).2.trace = s.trace ++ evs ∧ ∀ e ∈ evs, ¬e.isDesc := by
  unfold sockError
  cases s.env.sockopts.headD .ok <;> exact Extends.entry rfl id

theorem connect_quiet (c : ConnId) (sa : SockAddr) (s : Sys) :
    ∃ evs, (s.connect c sa).2.trace = s.trace ++ evs ∧ ∀ e ∈ evs, ¬e.isDesc := by
  obtain ⟨r, hr⟩ := s.connect_trace c sa
  exact Extends.entry hr id

end Sys

/-- From `x` to `y` no descriptor has been made, taken over or closed. -/
structure Ctx.Steady (x y : Ctx) : Prop where
  this : y.conn.this = x.conn.this
  fd : y.conn.mFd = x.conn.mFd
  log : ∃ evs, y.sys.trace = x.sys.trace ++ evs ∧ ∀ e ∈ evs, ¬e.isDesc

namespace Ctx

theorem Steady.refl (x : Ctx) : Steady x x := ⟨rfl, rfl, Extends.of_eq rfl⟩

theorem Steady.trans {x y z : Ctx} (h : Steady x y) (k : Steady y z) : Steady x z :=
  ⟨k.this.trans h.this, k.fd.trans h.fd, Extends.trans h.log k.log⟩

theorem steady_sys {x : Ctx} {s : Sys} (h : ∃ evs, s.trace = x.sys.trace ++ evs ∧ ∀ e ∈ evs, ¬e.isDesc) :
    Steady x { x with sys := s } :=
  ⟨rfl, rfl, h⟩

/-- Only the two ways of opening a connection and closing concern a descriptor. -/
theorem steady_rule : Rule Steady where
  refl := Steady.refl
  trans h k := h.trans k
  regRead x := ⟨by rw [tryRegReadEvent_conn], by rw [tryRegReadEvent_conn],
    Extends.of_eq (tryRegReadEvent_sys x).2.2.1⟩
  unregRead x := ⟨by rw [tryUnregReadEvent_conn], by rw [tryUnregReadEvent_conn],
    Extends.of_eq (tryUnregReadEvent_sys x).2.2.1⟩
  regWrite x := ⟨by rw [tryRegWriteEvent_conn], by rw [tryRegWriteEvent_conn],
    Extends.of_eq (tryRegWriteEvent_sys x).2.2.1⟩
  unregWrite x := ⟨by rw [tryUnregWriteEvent_conn], by rw [tryUnregWriteEvent_conn],
    Extends.of_eq (tryUnregWriteEvent_sys x).2.2.1⟩
  setStatus _ _ := ⟨rfl, rfl, Extends.of_eq rfl⟩
  packets _ _ := ⟨rfl, rfl, Extends.of_eq rfl⟩
  log e he _ := ⟨rfl, rfl, Extends.entry rfl (he.not_isDesc)⟩
  sysSend c data x := steady_sys (x.sys.send_quiet c data)
  sysRecv c maxlen room x := steady_sys (x.sys.recv_quiet c maxlen room)
  sockError c x := steady_sys (x.sys.sockError_quiet c)
  aborted _ := steady_sys (Extends.of_eq rfl)

/-- The descriptor `fd` is taken over. -/
def take (fd : ℤ) (x : Ctx) : Ctx := Ctx.log (.opened x.conn.this fd) { x with conn.mFd := fd }

/-- A descriptor of `F` is taken over, and kept or closed again. -/
inductive Took (F : ℤ → Prop) (x : Ctx) : Ctx → Prop where
  | kept (fd : ℤ) (hfd : 0 ≤ fd) (free : F fd) (y : Ctx) (h : Steady (x.take fd) y) : Took F x y
  | lost (fd : ℤ) (hfd : 0 ≤ fd) (free : F fd) (y : Ctx) (h : Steady (x.take fd) y) :
      Took F x y.closeFd

theorem acceptConnection_took (connfd : ℕ) (x : Ctx) (hx : x.conn.mFd < 0) :
    Took (· = (connfd : ℤ)) x (x.acceptConnection connfd).2 := by
  have hn : Steady (x.take connfd) { x.take connfd with sys := (x.take connfd).sys.setNonblocking.2 } :=
    steady_sys (Extends.of_eq (x.take connfd).sys.setNonblocking_trace)
  unfold acceptConnection
  rw [if_neg (not_le.mpr hx)]
  simp only
  split
  · exact .lost (F := fun fd => fd = (connfd : ℤ)) connfd (Int.natCast_nonneg connfd) rfl _ hn
  · exact .kept (F := fun fd => fd = (connfd : ℤ)) connfd (Int.natCast_nonneg connfd) rfl _
      (hn.trans ((steady_rule.regRead _).trans (steady_rule.setStatus .Connected _)))

/-- What is taken over is in the log. -/
theorem Took.opened {F : ℤ → Prop} {x y : Ctx} (h : Took F x y) :
    ∃ fd, F fd ∧ x.sys.trace ++ [.opened x.conn.this fd] <+: y.sys.trace := by
  cases h with
  | kept fd _ free _ h =>
    obtain ⟨evs, ht, -⟩ := h.log
    exact ⟨fd, free, evs, ht.symm⟩
  | lost fd _ free y h =>
    obtain ⟨evs, ht, -⟩ := h.log
    have hclose : y.sys.trace <+: y.closeFd.sys.trace := List.prefix_append _ _
    exact ⟨fd, free, List.IsPrefix.trans ⟨evs, ht.symm⟩ hclose⟩

/-- Without a descriptor from `socket` nothing has happened. -/
theorem connect_took (sa : SockAddr) (x : Ctx) (hx : x.conn.mFd < 0) :
    (x.sys.socket.1 < 0 ∧ (x.connect sa).2.1.conn.this = x.conn.this ∧
        (x.connect sa).2.1.conn.mFd < 0 ∧ (x.connect sa).2.1.sys.trace = x.sys.trace) ∨
      Took (· = x.sys.socket.1) x (x.connect sa).2.1 := by
  rw [connect_closed sa x hx]
  simp only
  split
  · rename_i hneg
    exact Or.inl ⟨hneg, rfl, hneg, x.sys.socket_trace⟩
  rename_i hpos
  right
  have hfd : 0 ≤ x.sys.socket.1 := not_lt.mp hpos
  have hkept (z : Ctx) (hz : Steady (x.take x.sys.socket.1) z) : Took (· = x.sys.socket.1) x z :=
    .kept (F := fun fd => fd = x.sys.socket.1) _ hfd rfl z hz
  have hlost (z : Ctx) (hz : Steady (x.take x.sys.socket.1) z) : Took (· = x.sys.socket.1) x z.closeFd :=
    .lost (F := fun fd => fd = x.sys.socket.1) _ hfd rfl z hz
  -- what `socket` leaves of the script is all it changes
  let y := Ctx.take x.sys.socket.1 { x with sys := x.sys.socket.2 }
  have hy : Steady (x.take x.sys.socket.1) y := by
    refine ⟨rfl, rfl, Extends.of_eq ?_⟩
    change x.sys.socket.2.trace ++ _ = x.sys.trace ++ _
    rw [x.sys.socket_trace]
  have hn : Steady (x.take x.sys.socket.1) { y with sys := y.sys.setNonblocking.2 } :=
    hy.trans (steady_sys (Extends.of_eq y.sys.setNonblocking_trace))
  split
  · exact hlost _ hn
  have hc : Steady (x.take x.sys.socket.1)
      { y with sys := (y.sys.setNonblocking.2.connect y.conn.this sa).2 } :=
    hn.trans (steady_sys (y.sys.setNonblocking.2.connect_quiet y.conn.this sa))
  simp only [dial]
  split
  · have hest := hc.trans ((steady_rule.regRead _).trans (steady_rule.setStatus .Connected _))
    simp only [established]
    split
    · exact hkept _ (hest.trans (steady_rule.log (.onConnected _) trivial _))
    · exact hkept _ hest
  split
  · exact hkept _ (hc.trans ((steady_rule.setStatus .Connecting _).trans (steady_rule.regWrite _)))
  · exact hlost _ hc

end Ctx

end HttpsProxy
