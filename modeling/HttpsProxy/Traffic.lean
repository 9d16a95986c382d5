import HttpsProxy.Connection

/-! What the log says about the traffic of one connection: the bytes its socket
took, the bytes read from it, the data given to `Connection::send`, and the
chunks its handler received. -/
namespace HttpsProxy

namespace Ev

def taken (c : ConnId) : Ev → Bytes
  | .sockSend d data (.sent k) _ => if d = c then data.take k else []
  | _ => []

def read (c : ConnId) : Ev → Bytes
  | .sockRecv d _ (.data bs) => if d = c then bs else []
  | _ => []

def passed (c : ConnId) : Ev → Bytes
  | .sendCall d data => if d = c then data else []
  | _ => []

def chunk (c : ConnId) : Ev → List Bytes
  | .onRecv d data => if d = c then [data] else []
  | _ => []

/-- A `::send` on the socket of `c`. -/
def isSockSend (c : ConnId) : Ev → Prop
  | .sockSend d _ _ _ => d = c
  | _ => False

/-- A `recv` on the socket of `c`. -/
def isSockRecv (c : ConnId) : Ev → Prop
  | .sockRecv d _ _ => d = c
  | _ => False

end Ev

/-- A list with one element of a kind is split at such an element in one way. -/
theorem split_unique {α : Type} {p : α → Prop} {pre post a b : List α} {d e : α}
    (hpre : ∀ x ∈ pre, ¬p x) (hpost : ∀ x ∈ post, ¬p x) (he : p e)
    (h : pre ++ d :: post = a ++ e :: b) : a = pre ∧ e = d ∧ b = post := by
  induction pre generalizing a with
  | nil =>
    cases a with
    | nil =>
      obtain ⟨hd, hb⟩ := List.cons.inj h
      exact ⟨rfl, hd.symm, hb.symm⟩
    | cons x a =>
      have hmem : e ∈ post := by
        rw [(List.cons.inj h).2]
        exact List.mem_append_right _ List.mem_cons_self
      exact absurd he (hpost e hmem)
  | cons x pre ih =>
    cases a with
    | nil =>
      have hx : x = e := (List.cons.inj h).1
      exact absurd (hx ▸ he) (hpre x List.mem_cons_self)
    | cons y a =>
      obtain ⟨hxy, htail⟩ := List.cons.inj h
      obtain ⟨ha, hd, hb⟩ := ih (fun z hz => hpre z (List.mem_cons_of_mem _ hz)) htail
      exact ⟨by rw [ha, hxy], hd, hb⟩

/-- The bytes taken by `::send` on the socket of `c`. -/
def accepted (c : ConnId) (tr : List Ev) : Bytes := tr.flatMap (Ev.taken c)

/-- The bytes read by `recv` from the socket of `c`. -/
def received (c : ConnId) (tr : List Ev) : Bytes := tr.flatMap (Ev.read c)

/-- The data passed to `Connection::send` of `c`. -/
def passed (c : ConnId) (tr : List Ev) : Bytes := tr.flatMap (Ev.passed c)

/-- The data of the calls of `onRecv` for `c`, call by call. -/
def chunks (c : ConnId) (tr : List Ev) : List Bytes := tr.flatMap (Ev.chunk c)

section Append

variable (c : ConnId) (s t : List Ev)

@[simp] theorem accepted_nil : accepted c [] = [] := rfl
@[simp] theorem received_nil : received c [] = [] := rfl
@[simp] theorem passed_nil : passed c [] = [] := rfl
@[simp] theorem chunks_nil : chunks c [] = [] := rfl

@[simp] theorem accepted_append : accepted c (s ++ t) = accepted c s ++ accepted c t :=
  List.flatMap_append
@[simp] theorem received_append : received c (s ++ t) = received c s ++ received c t :=
  List.flatMap_append
@[simp] theorem passed_append : passed c (s ++ t) = passed c s ++ passed c t :=
  List.flatMap_append
@[simp] theorem chunks_append : chunks c (s ++ t) = chunks c s ++ chunks c t :=
  List.flatMap_append

@[simp] theorem accepted_cons (e : Ev) : accepted c (e :: t) = e.taken c ++ accepted c t := rfl
@[simp] theorem received_cons (e : Ev) : received c (e :: t) = e.read c ++ received c t := rfl
@[simp] theorem passed_cons (e : Ev) : passed c (e :: t) = e.passed c ++ passed c t := rfl
@[simp] theorem chunks_cons (e : Ev) : chunks c (e :: t) = e.chunk c ++ chunks c t := rfl

end Append

/-- An entry that is no traffic and no part of a flush of the cache. -/
def Ev.isNote : Ev → Prop
  | .sendCall _ _ | .sockSend _ _ _ _ | .sockRecv _ _ _ | .onRecv _ _ => False
  | .flushing _ | .flushTouched _ => False
  | _ => True

theorem note_traffic (c : ConnId) {evs : List Ev} (h : ∀ e ∈ evs, e.isNote) :
    accepted c evs = [] ∧ received c evs = [] ∧ passed c evs = [] ∧ chunks c evs = [] := by
  induction evs with
  | nil => exact ⟨rfl, rfl, rfl, rfl⟩
  | cons e es ih =>
    obtain ⟨h1, h2, h3, h4⟩ := ih fun e he => h e (List.mem_cons_of_mem _ he)
    have he := h e List.mem_cons_self
    cases e <;> first | exact he.elim | exact ⟨h1, h2, h3, h4⟩

/-- `t` is `s` followed by entries that satisfy `P`. -/
def Extends {α : Type} (P : α → Prop) (s t : List α) : Prop := ∃ es, t = s ++ es ∧ ∀ e ∈ es, P e

namespace Extends

variable {α : Type} {P Q : α → Prop} {s t u : List α}

theorem of_eq (h : t = s) : Extends P s t := ⟨[], by rw [h, List.append_nil], by simp⟩

theorem entry {e : α} (h : t = s ++ [e]) (he : P e) : Extends P s t := ⟨[e], h, by simpa using he⟩

theorem trans (h : Extends P s t) (k : Extends P t u) : Extends P s u := by
  obtain ⟨es, ht, he⟩ := h
  obtain ⟨fs, hu, hf⟩ := k
  refine ⟨es ++ fs, by rw [hu, ht, List.append_assoc], fun e hm => ?_⟩
  rcases List.mem_append.mp hm with hm | hm
  · exact he e hm
  · exact hf e hm

theorem mono (h : Extends P s t) (hPQ : ∀ e, P e → Q e) : Extends Q s t := by
  obtain ⟨es, ht, he⟩ := h
  exact ⟨es, ht, fun e hm => hPQ e (he e hm)⟩

end Extends

/-- From `s` to `t` the log grew by notes. -/
def Noted (s t : Sys) : Prop := ∃ evs, t.trace = s.trace ++ evs ∧ ∀ e ∈ evs, e.isNote

theorem Noted.trans {s t u : Sys} (h : Noted s t) (k : Noted t u) : Noted s u := Extends.trans h k

theorem Noted.entry {s t : Sys} {e : Ev} (h : t.trace = s.trace ++ [e]) (he : e.isNote) :
    Noted s t := Extends.entry h he

theorem Noted.fresh {s t : Sys} (h : Noted s t) (hs : s.trace = []) : ∀ e ∈ t.trace, e.isNote := by
  obtain ⟨es, ht, he⟩ := h
  rw [ht, hs, List.nil_append]
  exact he

/-- Two stretches of the log with entries of one kind are one. -/
theorem grown_trans {p : Ev → Prop} {f : List Ev → Bytes} (hf : ∀ a b, f (a ++ b) = f a ++ f b)
    {s t u : Sys} {as bs : Bytes}
    (h : ∃ evs, t.trace = s.trace ++ evs ∧ (∀ e ∈ evs, p e) ∧ f evs = as)
    (k : ∃ evs, u.trace = t.trace ++ evs ∧ (∀ e ∈ evs, p e) ∧ f evs = bs) :
    ∃ evs, u.trace = s.trace ++ evs ∧ (∀ e ∈ evs, p e) ∧ f evs = as ++ bs := by
  obtain ⟨es, he, hs, ha⟩ := h
  obtain ⟨fs, hfs, kf, hb⟩ := k
  refine ⟨es ++ fs, by rw [hfs, he, List.append_assoc], ?_, by rw [hf, ha, hb]⟩
  intro e hm
  rcases List.mem_append.mp hm with hm | hm
  · exact hs e hm
  · exact kf e hm

/-- Between `s` and `t` the log grew by calls of `::send` on the socket of `c`
alone, which took the bytes `bs`. -/
def Wire (c : ConnId) (s t : Sys) (bs : Bytes) : Prop :=
  ∃ evs, t.trace = s.trace ++ evs ∧ (∀ e ∈ evs, e.isSockSend c) ∧ accepted c evs = bs

theorem Wire.refl (c : ConnId) (s : Sys) : Wire c s s [] :=
  ⟨[], (List.append_nil _).symm, by simp, rfl⟩

theorem Wire.trans {c : ConnId} {s t u : Sys} {as bs : Bytes}
    (h : Wire c s t as) (k : Wire c t u bs) : Wire c s u (as ++ bs) :=
  grown_trans (accepted_append c) h k

/-- Only the log of the two states matters. -/
theorem Wire.congr {c : ConnId} {s t s' t' : Sys} {bs : Bytes} (h : Wire c s t bs)
    (hs : s'.trace = s.trace) (ht : t'.trace = t.trace) : Wire c s' t' bs := by
  obtain ⟨evs, he, hm, ha⟩ := h
  exact ⟨evs, by rw [ht, hs, he], hm, ha⟩

/-- Between `s` and `t` the log grew by calls of `recv` on the socket of `c`
alone, which read the bytes `bs`. -/
def ReadWire (c : ConnId) (s t : Sys) (bs : Bytes) : Prop :=
  ∃ evs, t.trace = s.trace ++ evs ∧ (∀ e ∈ evs, e.isSockRecv c) ∧ received c evs = bs

theorem ReadWire.trans {c : ConnId} {s t u : Sys} {as bs : Bytes}
    (h : ReadWire c s t as) (k : ReadWire c t u bs) : ReadWire c s u (as ++ bs) :=
  grown_trans (received_append c) h k

end HttpsProxy
