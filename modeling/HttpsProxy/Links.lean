import Mathlib.Data.List.Basic
import Mathlib.Data.List.Nodup

/-! Linked lists in memory, as lists. The links are two functions on the nodes;
how the memory keeps them does not matter here. What is shown of an operation is
shown for any new links that agree with the old ones but where it writes. -/
namespace HttpsProxy

namespace Links

variable {ι : Type} {next prev next' prev' : ι → ι} {nil : ι}

/-- From `p` on the links lead through `xs` and then to `nil`. -/
def Chain (next : ι → ι) (nil : ι) : ι → List ι → Prop
  | p, [] => p = nil
  | p, x :: xs => p = x ∧ x ≠ nil ∧ Chain next nil (next x) xs

theorem Chain.unique {p : ι} {xs ys : List ι} (hx : Chain next nil p xs) (hy : Chain next nil p ys) :
    xs = ys := by
  induction xs generalizing p ys with
  | nil =>
    cases ys with
    | nil => rfl
    | cons y ys =>
      obtain ⟨rfl, hne, -⟩ := hy
      exact absurd hx hne
  | cons x xs ih =>
    obtain ⟨rfl, hne, ht⟩ := hx
    cases ys with
    | nil => exact absurd hy hne
    | cons y ys =>
      obtain ⟨rfl, -, ht'⟩ := hy
      rw [ih ht ht']

theorem Chain.congr {p : ι} {xs : List ι} (h : Chain next nil p xs)
    (he : ∀ x ∈ xs, next' x = next x) : Chain next' nil p xs := by
  induction xs generalizing p with
  | nil => exact h
  | cons x xs ih =>
    obtain ⟨rfl, hne, ht⟩ := h
    refine ⟨rfl, hne, ?_⟩
    rw [he p List.mem_cons_self]
    exact ih ht fun y hy => he y (List.mem_cons_of_mem _ hy)

theorem Chain.suffix {p x : ι} {as bs : List ι} (h : Chain next nil p (as ++ x :: bs)) :
    Chain next nil x (x :: bs) := by
  induction as generalizing p with
  | nil =>
    obtain ⟨rfl, hne, ht⟩ := h
    exact ⟨rfl, hne, ht⟩
  | cons a as ih => exact ih h.2.2

/-- A node that came twice would be followed by two different lists. -/
theorem Chain.nodup {p : ι} {xs : List ι} (h : Chain next nil p xs) : xs.Nodup := by
  induction xs generalizing p with
  | nil => exact List.nodup_nil
  | cons x xs ih =>
    refine List.nodup_cons.mpr ⟨?_, ih h.2.2⟩
    intro hx
    obtain ⟨as, bs, rfl⟩ := List.append_of_mem hx
    have hback := Chain.suffix (show Chain next nil p ((x :: as) ++ x :: bs) from h)
    have hp := h.1
    subst hp
    have hlen := congrArg List.length (Chain.unique h hback)
    simp only [List.length_cons, List.length_append] at hlen
    omega

theorem Chain.next_mem {p x : ι} {xs : List ι} (h : Chain next nil p xs) (hx : x ∈ xs) :
    next x = nil ∨ next x ∈ xs := by
  obtain ⟨as, bs, rfl⟩ := List.append_of_mem hx
  have ht := h.suffix.2.2
  cases bs with
  | nil => exact Or.inl ht
  | cons y bs =>
    right
    rw [ht.1]
    simp

/-- A node that is not in the list is put in front of it. -/
theorem Chain.push {p n : ι} {xs : List ι} (h : Chain next nil p xs) (hn : n ≠ nil)
    (hp : next' n = p) (he : ∀ x ∈ xs, next' x = next x) : Chain next' nil n (n :: xs) :=
  ⟨rfl, hn, hp ▸ h.congr he⟩

/-- The links lead back as well: from each node to the one before it, and from
the first one to `b`. -/
def Doubly (next prev : ι → ι) (nil : ι) : ι → ι → List ι → Prop
  | _, p, [] => p = nil
  | b, p, x :: xs => p = x ∧ x ≠ nil ∧ prev x = b ∧ Doubly next prev nil x (next x) xs

theorem Doubly.chain {b p : ι} {xs : List ι} (h : Doubly next prev nil b p xs) :
    Chain next nil p xs := by
  induction xs generalizing b p with
  | nil => exact h
  | cons x xs ih => exact ⟨h.1, h.2.1, ih h.2.2.2⟩

/-- The same list behind another node. -/
theorem Doubly.rehead {b b' p : ι} {xs : List ι} (h : Doubly next prev nil b p xs)
    (hn : ∀ x ∈ xs, next' x = next x) (hp : p ≠ nil → prev' p = b')
    (he : ∀ x ∈ xs, x ≠ p → prev' x = prev x) : Doubly next' prev' nil b' p xs := by
  induction xs generalizing b b' p with
  | nil => exact h
  | cons x xs ih =>
    have hnd := h.chain.nodup
    obtain ⟨rfl, hne, -, ht⟩ := h
    refine ⟨rfl, hne, hp hne, ?_⟩
    rw [hn p List.mem_cons_self]
    refine ih ht (fun y hy => hn y (List.mem_cons_of_mem _ hy)) ?_ ?_
    · intro hnil
      cases xs with
      | nil => exact absurd ht hnil
      | cons y ys =>
        have hpy : y ≠ p := fun hyp => (List.nodup_cons.mp hnd).1 (hyp ▸ List.mem_cons_self)
        obtain ⟨hy, -, hprev, -⟩ := ht
        rw [hy, he y (by simp) hpy, hprev]
    · intro y hy hyn
      have hyp : y ≠ p := fun hyp => (List.nodup_cons.mp hnd).1 (hyp ▸ hy)
      exact he y (List.mem_cons_of_mem _ hy) hyp

theorem Doubly.congr {b p : ι} {xs : List ι} (h : Doubly next prev nil b p xs)
    (hn : ∀ x ∈ xs, next' x = next x) (hp : ∀ x ∈ xs, prev' x = prev x) :
    Doubly next' prev' nil b p xs := by
  cases xs with
  | nil => exact h
  | cons x xs =>
    refine h.rehead hn ?_ fun y hy _ => hp y hy
    obtain ⟨rfl, -, hb, -⟩ := h
    intro _
    rw [hp p List.mem_cons_self, hb]

theorem Doubly.push {p n : ι} {xs : List ι} (h : Doubly next prev nil nil p xs) (hn : n ≠ nil)
    (hnext : next' n = p) (hprev : prev' n = nil) (hp : p ≠ nil → prev' p = n)
    (he : ∀ x ∈ xs, next' x = next x) (he' : ∀ x ∈ xs, x ≠ p → prev' x = prev x) :
    Doubly next' prev' nil nil n (n :: xs) :=
  ⟨rfl, hn, hprev, hnext ▸ h.rehead he hp he'⟩

theorem Doubly.pop {p x : ι} {xs : List ι} (h : Doubly next prev nil nil p (x :: xs))
    (hn : ∀ y ∈ xs, next' y = next y) (hp : next x ≠ nil → prev' (next x) = nil)
    (he : ∀ y ∈ xs, y ≠ next x → prev' y = prev y) : Doubly next' prev' nil nil (next x) xs :=
  h.2.2.2.rehead hn hp he

/-- What the links of a node in the list lead to. -/
theorem Doubly.neighbours {b p x : ι} {xs : List ι} (h : Doubly next prev nil b p xs) (hx : x ∈ xs) :
    (next x = nil ∨ next x ∈ xs) ∧ ((x = p ∧ prev x = b) ∨ (x ≠ p ∧ prev x ∈ xs)) := by
  induction xs generalizing b p with
  | nil => exact absurd hx List.not_mem_nil
  | cons y ys ih =>
    have hnd := h.chain.nodup
    obtain ⟨rfl, hne, hb, ht⟩ := h
    rcases List.mem_cons.mp hx with rfl | hx
    · refine ⟨?_, Or.inl ⟨rfl, hb⟩⟩
      cases ys with
      | nil => exact Or.inl ht
      | cons z zs =>
        right
        rw [ht.1]
        simp
    · obtain ⟨hn, hp⟩ := ih ht hx
      have hxp : x ≠ p := fun hxp => (List.nodup_cons.mp hnd).1 (hxp ▸ hx)
      refine ⟨hn.imp_right (List.mem_cons_of_mem _), Or.inr ⟨hxp, ?_⟩⟩
      rcases hp with ⟨-, hp⟩ | ⟨-, hp⟩
      · exact hp ▸ List.mem_cons_self
      · exact List.mem_cons_of_mem _ hp

/-- The node in front of any but the first one has it as its next one. -/
theorem Doubly.next_prev {b p x : ι} {xs : List ι} (h : Doubly next prev nil b p xs) (hx : x ∈ xs)
    (hxp : x ≠ p) : next (prev x) = x := by
  induction xs generalizing b p with
  | nil => exact absurd hx List.not_mem_nil
  | cons y ys ih =>
    obtain ⟨rfl, -, -, ht⟩ := h
    rcases List.mem_cons.mp hx with rfl | hx
    · exact absurd rfl hxp
    · by_cases hxn : x = next p
      · have hprev : prev x = p := by
          rcases (ht.neighbours hx).2 with ⟨-, hp⟩ | ⟨hne, -⟩
          · exact hp
          · exact absurd hxn hne
        rw [hprev, hxn]
      · exact ih ht hx hxn

/-- A node is taken out wherever it stands. -/
theorem Doubly.unlink [DecidableEq ι] {b p x : ι} {xs : List ι} (h : Doubly next prev nil b p xs)
    (hx : x ∈ xs) (hb : b ∉ xs) (hnext : ∀ y ∈ xs, y ≠ prev x → next' y = next y)
    (hprev : ∀ y ∈ xs, y ≠ next x → prev' y = prev y) (hn : prev x ∈ xs → next' (prev x) = next x)
    (hp : next x ≠ nil → prev' (next x) = prev x) :
    Doubly next' prev' nil b (if x = p then next x else p) (xs.erase x) := by
  induction xs generalizing b p with
  | nil => exact absurd hx List.not_mem_nil
  | cons y ys ih =>
    have hnd := List.nodup_cons.mp h.chain.nodup
    have hbys : b ∉ ys := fun hin => hb (List.mem_cons_of_mem _ hin)
    obtain ⟨rfl, hne, hpb, ht⟩ := h
    by_cases hxp : x = p
    · subst hxp
      rw [if_pos rfl, List.erase_cons_head]
      refine ht.rehead ?_ ?_ ?_
      · intro z hz
        exact hnext z (List.mem_cons_of_mem _ hz) fun hzb => hbys (hpb ▸ hzb ▸ hz)
      · intro hnil
        rw [hp hnil, hpb]
      · intro z hz hzn
        exact hprev z (List.mem_cons_of_mem _ hz) hzn
    · have hxys : x ∈ ys := (List.mem_cons.mp hx).resolve_left hxp
      rw [if_neg hxp, List.erase_cons_tail (by simpa using Ne.symm hxp)]
      have hi := ih ht hxys hnd.1 (fun z hz hne => hnext z (List.mem_cons_of_mem _ hz) hne)
        (fun z hz hne => hprev z (List.mem_cons_of_mem _ hz) hne)
        (fun hin => hn (List.mem_cons_of_mem _ hin))
      refine ⟨rfl, hne, ?_, ?_⟩
      · rw [hprev p List.mem_cons_self, hpb]
        rintro hpn
        rcases (ht.neighbours hxys).1 with hnil | hin
        · exact hne (hpn.trans hnil)
        · exact hnd.1 (hpn ▸ hin)
      -- the successor of `p` is `x` itself, or `p` stays in front of what it was in front of
      · by_cases hxn : x = next p
        · have hprevx : prev x = p := by
            rcases (ht.neighbours hxys).2 with ⟨-, hpx⟩ | ⟨hne', -⟩
            · exact hpx
            · exact absurd hxn hne'
          rw [if_pos hxn] at hi
          rw [show next' p = next x from hprevx ▸ hn (hprevx ▸ List.mem_cons_self)]
          exact hi
        · rw [if_neg hxn] at hi
          have hpp : p ≠ prev x := by
            intro hpx
            have hnp := ht.next_prev hxys hxn
            exact hxn (hpx ▸ hnp.symm)
          rw [hnext p List.mem_cons_self hpp]
          exact hi

end Links

end HttpsProxy
