import Mathlib.Data.List.Basic

/-! A queue whose consumer may refuse. The consumer is any function on a state
of its own; draining offers it element after element until it refuses one,
which then stays at the head. -/
namespace HttpsProxy

namespace Fifo

variable {α β : Type}

/-- Offer the queue to `take`: whether all of it was taken, what stays, and the
consumer's state. -/
def drain (take : α → β → Bool × β) : List α → β → Bool × List α × β
  | [], b => (true, [], b)
  | a :: q, b =>
    match take a b with
    | (true, b) => drain take q b
    | (false, b) => (false, a :: q, b)

/-- A consumer together with the record of its answers. -/
def recording (take : α → β → Bool × β) (a : α) (b : β × List (α × Bool)) :
    Bool × β × List (α × Bool) :=
  let r := take a b.1
  (r.1, r.2, b.2 ++ [(a, r.1)])

/-- The elements that were taken. -/
def taken (l : List (α × Bool)) : List α := (l.filter Prod.snd).map Prod.fst

@[simp] theorem taken_nil : taken ([] : List (α × Bool)) = [] := rfl

@[simp] theorem taken_append (l k : List (α × Bool)) : taken (l ++ k) = taken l ++ taken k := by
  simp [taken]

/-- What one draining offers: from the head on, the taken elements and the rest
make up the queue, and success means that nothing was refused. -/
theorem drain_recording (take : α → β → Bool × β) (q : List α) (b : β) (l : List (α × Bool)) :
    ∃ offers, (drain (recording take) q (b, l)).2.2.2 = l ++ offers ∧
      taken offers ++ (drain (recording take) q (b, l)).2.1 = q ∧
      offers.head?.map Prod.fst = q.head? ∧
      ((drain (recording take) q (b, l)).1 = true → (∀ o ∈ offers, o.2 = true) ∧
        (drain (recording take) q (b, l)).2.1 = []) ∧
      ((drain (recording take) q (b, l)).1 = false → ∃ a init,
        offers = init ++ [(a, false)] ∧ (∀ o ∈ init, o.2 = true) ∧
        (drain (recording take) q (b, l)).2.1.head? = some a) := by
  induction q generalizing b l with
  | nil => exact ⟨[], by simp [drain]⟩
  | cons a q ih =>
    cases hr : take a b with
    | mk ok b' =>
      have hrec : recording take a (b, l) = (ok, b', l ++ [(a, ok)]) := by
        simp [recording, hr]
      cases ok with
      | true =>
        obtain ⟨offers, h1, h2, -, h3, h4⟩ := ih b' (l ++ [(a, true)])
        have hd : drain (recording take) (a :: q) (b, l) =
            drain (recording take) q (b', l ++ [(a, true)]) := by
          rw [drain, hrec]
        rw [hd]
        refine ⟨(a, true) :: offers, by simp [h1], ?_, rfl, ?_, ?_⟩
        · have ht : taken ((a, true) :: offers) = a :: taken offers := by simp [taken]
          rw [ht, List.cons_append, h2]
        · intro hok
          obtain ⟨ha, he⟩ := h3 hok
          exact ⟨by simpa using ha, he⟩
        · intro hno
          obtain ⟨x, init, hx, hi, hh⟩ := h4 hno
          exact ⟨x, (a, true) :: init, by simp [hx], by simpa using hi, hh⟩
      | false =>
        have hd : drain (recording take) (a :: q) (b, l) = (false, a :: q, b', l ++ [(a, false)]) := by
          rw [drain, hrec]
        rw [hd]
        exact ⟨[(a, false)], rfl, by simp [taken], rfl, by simp, fun _ => ⟨a, [], by simp⟩⟩

end Fifo

end HttpsProxy
