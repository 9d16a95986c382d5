import Mathlib.Data.List.Basic

/-! An object that is called and answers, against a specification of its
answers. The specification need not allow every call in every state; the object
owes it an answer only where it does. -/
namespace HttpsProxy

namespace Refinement

variable {ι ο σ τ : Type}

/-- The answers to a sequence of calls, and the state behind it. -/
def answers (call : σ → ι → ο × σ) : σ → List ι → List ο × σ
  | s, [] => ([], s)
  | s, i :: is => ((call s i).1 :: (answers call (call s i).2 is).1, (answers call (call s i).2 is).2)

/-- The answers that a specification asks for, if it allows all the calls. -/
def asked (spec : τ → ι → Option (ο × τ)) : τ → List ι → Option (List ο × τ)
  | t, [] => some ([], t)
  | t, i :: is =>
    match spec t i with
    | none => none
    | some (o, t) => (asked spec t is).map fun r => (o :: r.1, r.2)

/-- Related states answer alike and stay related. -/
def Simulates (call : σ → ι → ο × σ) (spec : τ → ι → Option (ο × τ)) (R : σ → τ → Prop) : Prop :=
  ∀ s t i o t', R s t → spec t i = some (o, t') → (call s i).1 = o ∧ R (call s i).2 t'

variable {call : σ → ι → ο × σ} {spec : τ → ι → Option (ο × τ)} {R : σ → τ → Prop}

theorem asked_cons {t t' : τ} {i : ι} {is : List ι} {os : List ο} :
    asked spec t (i :: is) = some (os, t') ↔
      ∃ o u os', spec t i = some (o, u) ∧ asked spec u is = some (os', t') ∧ os = o :: os' := by
  rw [asked]
  split
  · rename_i hnone
    simp [hnone]
  · rename_i o u hsome
    rw [Option.map_eq_some_iff]
    constructor
    · rintro ⟨r, hr, he⟩
      obtain ⟨rfl, rfl⟩ := Prod.mk.inj he
      exact ⟨o, u, r.1, hsome, hr, rfl⟩
    · rintro ⟨o', u', os', hspec, hrest, rfl⟩
      obtain ⟨rfl, rfl⟩ := Prod.mk.inj (Option.some.inj (hsome.symm.trans hspec))
      exact ⟨(os', t'), hrest, rfl⟩

/-- A simulation answers a whole sequence of allowed calls as it is specified. -/
theorem Simulates.answers (h : Simulates call spec R) {s : σ} {t t' : τ} {is : List ι} {os : List ο}
    (hr : R s t) (hs : asked spec t is = some (os, t')) :
    (answers call s is).1 = os ∧ R (answers call s is).2 t' := by
  induction is generalizing s t os with
  | nil =>
    obtain ⟨rfl, rfl⟩ := Prod.mk.inj (Option.some.inj hs)
    exact ⟨rfl, hr⟩
  | cons i is ih =>
    obtain ⟨o, u, os', hspec, hrest, rfl⟩ := asked_cons.mp hs
    obtain ⟨ho, hu⟩ := h s t i o u hr hspec
    obtain ⟨hos, ht⟩ := ih hu hrest
    exact ⟨congrArg₂ List.cons ho hos, ht⟩

/-- An object that may have no answer has none exactly where the specification
has none. -/
def Matches (step : σ → ι → Option (ο × σ)) (spec : τ → ι → Option (ο × τ)) (R : σ → τ → Prop) :
    Prop :=
  ∀ s t i, R s t → Option.Rel (fun r q => r.1 = q.1 ∧ R r.2 q.2) (step s i) (spec t i)

/-- So it goes along with the specification over any sequence of calls. -/
theorem Matches.asked {step : σ → ι → Option (ο × σ)} (h : Matches step spec R) {s : σ} {t : τ}
    (hr : R s t) (is : List ι) :
    Option.Rel (fun r q => r.1 = q.1 ∧ R r.2 q.2) (asked step s is) (asked spec t is) := by
  induction is generalizing s t with
  | nil => exact Option.Rel.some ⟨rfl, hr⟩
  | cons i is ih =>
    have hi := h s t i hr
    cases hs : step s i with
    | none =>
      rw [hs] at hi
      cases ht : spec t i with
      | none => simp [Refinement.asked, hs, ht]
      | some q => simp [ht] at hi
    | some r =>
      rw [hs] at hi
      cases ht : spec t i with
      | none => simp [ht] at hi
      | some q =>
        simp only [ht, Option.rel_some_some] at hi
        have hrest := ih hi.2
        simp only [Refinement.asked, hs, ht]
        cases hs' : Refinement.asked step r.2 is with
        | none =>
          rw [hs'] at hrest
          cases ht' : Refinement.asked spec q.2 is with
          | none => simp
          | some q' => simp [ht'] at hrest
        | some r' =>
          rw [hs'] at hrest
          cases ht' : Refinement.asked spec q.2 is with
          | none => simp [ht'] at hrest
          | some q' =>
            simp only [ht', Option.rel_some_some] at hrest
            simp only [Option.map_some, Option.rel_some_some]
            exact ⟨congrArg₂ List.cons hi.1 hrest.1, hrest.2⟩

/-- Objects that match the same state answer alike, and fail alike. -/
theorem Matches.agree {step : σ → ι → Option (ο × σ)} (h : Matches step spec R) {s s' : σ} {t : τ}
    (hr : R s t) (hr' : R s' t) (is : List ι) :
    (Refinement.asked step s is).map Prod.fst = (Refinement.asked step s' is).map Prod.fst := by
  have hto : ∀ s : σ, R s t →
      (Refinement.asked step s is).map Prod.fst = (Refinement.asked spec t is).map Prod.fst := by
    intro s hs
    have hrel := h.asked hs is
    revert hrel
    cases Refinement.asked step s is <;> cases Refinement.asked spec t is <;> simp +contextual
  rw [hto s hr, hto s' hr']

end Refinement

end HttpsProxy
