import HttpsProxy.EventPoller
import Mathlib.Data.Finset.Card
import Mathlib.Order.Bounds.Basic
import Mathlib.Tactic.Ring

/-! The five structures of a `SelectPoller` agree after any sequence of
registrations and deregistrations, accepted or refused. -/
namespace HttpsProxy

/-- Walking over numbers finds the greatest of them and of the start value. -/
theorem foldl_max_isGreatest (l : List ℤ) (a : ℤ) :
    IsGreatest {x | x = a ∨ x ∈ l} (l.foldl max a) := by
  induction l generalizing a with
  | nil => exact ⟨Or.inl rfl, by rintro x (rfl | hx); exacts [le_refl _, absurd hx List.not_mem_nil]⟩
  | cons b l ih =>
    obtain ⟨hmem, hle⟩ := ih (max a b)
    refine ⟨?_, ?_⟩
    · rcases hmem with hm | hm
      · rcases max_choice a b with hc | hc
        · exact Or.inl (hm.trans hc)
        · exact Or.inr (List.mem_cons.mpr (Or.inl (hm.trans hc)))
      · exact Or.inr (List.mem_cons_of_mem _ hm)
    · have hstart : max a b ≤ (b :: l).foldl max a := hle (Or.inl rfl)
      rintro x (rfl | hx)
      · exact (le_max_left _ _).trans hstart
      · rcases List.mem_cons.mp hx with rfl | hx
        · exact (le_max_right _ _).trans hstart
        · exact hle (Or.inr hx)

namespace SelectPoller

variable {H : Type}

/-- Every descriptor registered for one direction or the other. -/
def registered (p : SelectPoller H) : Finset ℤ := p.mFdReadSet ∪ p.mFdWriteSet

/-- What the poller keeps more than once is the same every time. -/
structure Sound (p : SelectPoller H) : Prop where
  readSet : ∀ fd, fd ∈ p.mFdReadSet ↔ fd ∈ p.mFdReadHandlers
  writeSet : ∀ fd, fd ∈ p.mFdWriteSet ↔ fd ∈ p.mFdWriteHandlers
  count : p.mFdWriteCount = p.mFdWriteSet.card
  greatest : IsGreatest {fd | fd = -1 ∨ fd ∈ p.registered} p.mMaxFd
  valid : ∀ fd ∈ p.registered, ¬invalidFd fd

theorem mem_registered {p : SelectPoller H} {fd : ℤ} :
    fd ∈ p.registered ↔ fd ∈ p.mFdReadSet ∨ fd ∈ p.mFdWriteSet := Finset.mem_union

theorem new_sound : (new : SelectPoller H).Sound where
  readSet fd := by simp [new, AList.notMem_empty]
  writeSet fd := by simp [new, AList.notMem_empty]
  count := rfl
  greatest := ⟨Or.inl rfl, by rintro x (rfl | hx); exacts [le_refl _, absurd hx (Finset.notMem_empty x)]⟩
  valid fd hfd := absurd hfd (Finset.notMem_empty fd)

/-- Walking over the handler maps finds what the sets hold. -/
theorem recalcMaxFD_greatest (p : SelectPoller H)
    (hr : ∀ fd, fd ∈ p.mFdReadSet ↔ fd ∈ p.mFdReadHandlers)
    (hw : ∀ fd, fd ∈ p.mFdWriteSet ↔ fd ∈ p.mFdWriteHandlers) :
    IsGreatest {fd | fd = -1 ∨ fd ∈ p.registered} p.recalcMaxFD := by
  have hset : {fd | fd = -1 ∨ fd ∈ p.registered} =
      {fd | fd = -1 ∨ fd ∈ p.mFdReadHandlers.keys} ∪ {fd | fd = -1 ∨ fd ∈ p.mFdWriteHandlers.keys} := by
    ext fd
    simp only [Set.mem_ofPred_eq, Set.mem_union, mem_registered, hr, hw, AList.mem_keys]
    tauto
  rw [hset]
  exact (foldl_max_isGreatest _ _).union (foldl_max_isGreatest _ _)

/-- A further descriptor is the greatest or leaves the greatest as it is. -/
theorem greatest_insert {S T : Finset ℤ} {m fd : ℤ} (h : IsGreatest {x | x = -1 ∨ x ∈ S} m)
    (hT : ∀ x, x ∈ T ↔ x = fd ∨ x ∈ S) : IsGreatest {x | x = -1 ∨ x ∈ T} (max fd m) := by
  have hset : {x | x = -1 ∨ x ∈ T} = insert fd {x | x = -1 ∨ x ∈ S} := by
    ext x
    simp only [Set.mem_ofPred_eq, Set.mem_insert_iff, hT]
    tauto
  rw [hset]
  exact h.insert fd

/-- Without a descriptor that is not the greatest, the greatest stays. -/
theorem greatest_erase {S T : Finset ℤ} {m fd : ℤ} (h : IsGreatest {x | x = -1 ∨ x ∈ S} m)
    (hne : fd ≠ m) (hTS : ∀ x ∈ T, x ∈ S) (hST : ∀ x ∈ S, x ≠ fd → x ∈ T) :
    IsGreatest {x | x = -1 ∨ x ∈ T} m := by
  refine ⟨?_, fun x hx => h.2 (hx.imp_right (hTS x))⟩
  exact h.1.imp_right fun hm => hST m hm (Ne.symm hne)

theorem registerForRead_sound {p : SelectPoller H} (h : p.Sound) (fd : ℤ) (hd : H) :
    (p.registerForRead fd hd).2.Sound := by
  unfold registerForRead doRegisterForRead
  by_cases hfd : invalidFd fd
  · simp only [if_pos hfd]
    exact h
  by_cases hmem : fd ∈ p.mFdReadSet
  · simp only [if_neg hfd, if_pos hmem]
    exact h
  simp only [if_neg hfd, if_neg hmem]
  refine ⟨fun x => ?_, h.writeSet, h.count, greatest_insert h.greatest fun x => ?_, fun x hx => ?_⟩
  · rw [Finset.mem_insert, AList.mem_insert, h.readSet]
  · simp only [mem_registered, Finset.mem_insert, or_assoc]
  · simp only [mem_registered, Finset.mem_insert, or_assoc] at hx
    rcases hx with rfl | hx
    · exact hfd
    · exact h.valid x (mem_registered.mpr hx)

theorem registerForWrite_sound {p : SelectPoller H} (h : p.Sound) (fd : ℤ) (hd : H) :
    (p.registerForWrite fd hd).2.Sound := by
  unfold registerForWrite doRegisterForWrite
  by_cases hfd : invalidFd fd
  · simp only [if_pos hfd]
    exact h
  by_cases hmem : fd ∈ p.mFdWriteSet
  · simp only [if_neg hfd, if_pos hmem]
    exact h
  simp only [if_neg hfd, if_neg hmem]
  refine ⟨h.readSet, fun x => ?_, ?_, greatest_insert h.greatest fun x => ?_, fun x hx => ?_⟩
  · rw [Finset.mem_insert, AList.mem_insert, h.writeSet]
  · rw [Finset.card_insert_of_notMem hmem, h.count]
    push_cast
    ring
  · simp only [mem_registered, Finset.mem_insert]
    tauto
  · simp only [mem_registered, Finset.mem_insert] at hx
    rcases hx with hx | rfl | hx
    · exact h.valid x (mem_registered.mpr (Or.inl hx))
    · exact hfd
    · exact h.valid x (mem_registered.mpr (Or.inr hx))

theorem deregisterForRead_sound {p : SelectPoller H} (h : p.Sound) (fd : ℤ) :
    (p.deregisterForRead fd).2.Sound := by
  unfold deregisterForRead doDeregisterForRead
  -- a descriptor that is not in the set has no handler to erase either
  have hsame : fd ∉ p.mFdReadSet →
      Sound { p with mFdReadHandlers := p.mFdReadHandlers.erase fd } := fun hmem =>
    ⟨fun x => by
      rw [AList.mem_erase, ← h.readSet]
      exact ⟨fun hx => ⟨fun he => hmem (he ▸ hx), hx⟩, And.right⟩, h.writeSet, h.count, h.greatest,
      h.valid⟩
  by_cases hfd : invalidFd fd
  · simp only [if_pos hfd]
    exact hsame fun hm => h.valid fd (mem_registered.mpr (Or.inl hm)) hfd
  by_cases hmem : fd ∈ p.mFdReadSet
  swap
  · simp only [if_neg hfd, if_pos hmem]
    exact hsame hmem
  simp only [if_neg hfd, hmem, not_true_eq_false, if_false]
  have hread : ∀ x, x ∈ p.mFdReadSet.erase fd ↔ x ∈ p.mFdReadHandlers.erase fd := fun x => by
    rw [Finset.mem_erase, AList.mem_erase, h.readSet]
  have hvalid : ∀ x, x ∈ p.mFdReadSet.erase fd ∨ x ∈ p.mFdWriteSet → ¬invalidFd x := fun x hx =>
    h.valid x (mem_registered.mpr (hx.imp_left Finset.mem_of_mem_erase))
  split
  · exact ⟨hread, h.writeSet, h.count, recalcMaxFD_greatest _ hread h.writeSet,
      fun x hx => hvalid x (mem_registered.mp hx)⟩
  · rename_i hmax
    refine ⟨hread, h.writeSet, h.count, greatest_erase h.greatest hmax ?_ ?_,
      fun x hx => hvalid x (mem_registered.mp hx)⟩
    · exact fun x hx => mem_registered.mpr ((mem_registered.mp hx).imp_left Finset.mem_of_mem_erase)
    · exact fun x hx hne => mem_registered.mpr
        ((mem_registered.mp hx).imp_left fun hm => Finset.mem_erase.mpr ⟨hne, hm⟩)

theorem deregisterForWrite_sound {p : SelectPoller H} (h : p.Sound) (fd : ℤ) :
    (p.deregisterForWrite fd).2.Sound := by
  unfold deregisterForWrite doDeregisterForWrite
  have hsame : fd ∉ p.mFdWriteSet →
      Sound { p with mFdWriteHandlers := p.mFdWriteHandlers.erase fd } := fun hmem =>
    ⟨h.readSet, fun x => by
      rw [AList.mem_erase, ← h.writeSet]
      exact ⟨fun hx => ⟨fun he => hmem (he ▸ hx), hx⟩, And.right⟩, h.count, h.greatest, h.valid⟩
  by_cases hfd : invalidFd fd
  · simp only [if_pos hfd]
    exact hsame fun hm => h.valid fd (mem_registered.mpr (Or.inr hm)) hfd
  by_cases hmem : fd ∈ p.mFdWriteSet
  swap
  · simp only [if_neg hfd, if_pos hmem]
    exact hsame hmem
  simp only [if_neg hfd, hmem, not_true_eq_false, if_false]
  have hwrite : ∀ x, x ∈ p.mFdWriteSet.erase fd ↔ x ∈ p.mFdWriteHandlers.erase fd := fun x => by
    rw [Finset.mem_erase, AList.mem_erase, h.writeSet]
  have hcount : p.mFdWriteCount - 1 = (p.mFdWriteSet.erase fd).card := by
    have hpos := Finset.card_pos.mpr ⟨fd, hmem⟩
    rw [Finset.card_erase_of_mem hmem, h.count]
    omega
  have hvalid : ∀ x, x ∈ p.mFdReadSet ∨ x ∈ p.mFdWriteSet.erase fd → ¬invalidFd x := fun x hx =>
    h.valid x (mem_registered.mpr (hx.imp_right Finset.mem_of_mem_erase))
  split
  · exact ⟨h.readSet, hwrite, hcount, recalcMaxFD_greatest _ h.readSet hwrite,
      fun x hx => hvalid x (mem_registered.mp hx)⟩
  · rename_i hmax
    refine ⟨h.readSet, hwrite, hcount, greatest_erase h.greatest hmax ?_ ?_,
      fun x hx => hvalid x (mem_registered.mp hx)⟩
    · exact fun x hx => mem_registered.mpr ((mem_registered.mp hx).imp_right Finset.mem_of_mem_erase)
    · exact fun x hx hne => mem_registered.mpr
        ((mem_registered.mp hx).imp_right fun hm => Finset.mem_erase.mpr ⟨hne, hm⟩)

/-! What the handler maps say after each call. -/

theorem findForRead_eq_none {p : SelectPoller H} (h : p.Sound) (fd : ℤ) :
    p.findForRead fd = none ↔ fd ∉ p.mFdReadSet := by
  rw [findForRead, AList.lookup_eq_none, h.readSet]

theorem findForWrite_eq_none {p : SelectPoller H} (h : p.Sound) (fd : ℤ) :
    p.findForWrite fd = none ↔ fd ∉ p.mFdWriteSet := by
  rw [findForWrite, AList.lookup_eq_none, h.writeSet]

/-- A registration is refused outside the range of an `fd_set` and for a
descriptor that has a handler. -/
theorem registerForRead_find {p : SelectPoller H} (h : p.Sound) (fd : ℤ) (hd : H) (x : ℤ) :
    (p.registerForRead fd hd).2.findForRead x =
        (if x = fd ∧ ¬invalidFd fd ∧ p.findForRead fd = none then some hd else p.findForRead x) ∧
      (p.registerForRead fd hd).2.findForWrite x = p.findForWrite x := by
  have hnone := findForRead_eq_none h fd
  unfold registerForRead doRegisterForRead
  by_cases hfd : invalidFd fd
  · simp [hfd]
  by_cases hmem : fd ∈ p.mFdReadSet
  · simp [hfd, hmem, hnone]
  simp only [hnone, hmem, not_false_eq_true, hfd, and_true]
  by_cases hx : x = fd
  · subst hx
    simp [findForRead, findForWrite, AList.lookup_insert]
  · simp [hx, findForRead, findForWrite, AList.lookup_insert_ne]

theorem registerForWrite_find {p : SelectPoller H} (h : p.Sound) (fd : ℤ) (hd : H) (x : ℤ) :
    (p.registerForWrite fd hd).2.findForWrite x =
        (if x = fd ∧ ¬invalidFd fd ∧ p.findForWrite fd = none then some hd else p.findForWrite x) ∧
      (p.registerForWrite fd hd).2.findForRead x = p.findForRead x := by
  have hnone := findForWrite_eq_none h fd
  unfold registerForWrite doRegisterForWrite
  by_cases hfd : invalidFd fd
  · simp [hfd]
  by_cases hmem : fd ∈ p.mFdWriteSet
  · simp [hfd, hmem, hnone]
  simp only [hnone, hmem, not_false_eq_true, hfd, and_true]
  by_cases hx : x = fd
  · subst hx
    simp [findForWrite, findForRead, AList.lookup_insert]
  · simp [hx, findForRead, findForWrite, AList.lookup_insert_ne]

theorem deregisterForRead_find (p : SelectPoller H) (fd x : ℤ) :
    (p.deregisterForRead fd).2.findForRead x = (if x = fd then none else p.findForRead x) ∧
      (p.deregisterForRead fd).2.findForWrite x = p.findForWrite x := by
  have hlookup : (p.mFdReadHandlers.erase fd).lookup x =
      if x = fd then none else p.mFdReadHandlers.lookup x := by
    by_cases hx : x = fd
    · rw [if_pos hx, hx, AList.lookup_erase]
    · rw [if_neg hx, AList.lookup_erase_ne hx]
  unfold deregisterForRead doDeregisterForRead findForRead findForWrite
  split
  · exact ⟨hlookup, rfl⟩
  split
  · exact ⟨hlookup, rfl⟩
  · simp only
    split <;> exact ⟨hlookup, rfl⟩

theorem deregisterForWrite_find (p : SelectPoller H) (fd x : ℤ) :
    (p.deregisterForWrite fd).2.findForWrite x = (if x = fd then none else p.findForWrite x) ∧
      (p.deregisterForWrite fd).2.findForRead x = p.findForRead x := by
  have hlookup : (p.mFdWriteHandlers.erase fd).lookup x =
      if x = fd then none else p.mFdWriteHandlers.lookup x := by
    by_cases hx : x = fd
    · rw [if_pos hx, hx, AList.lookup_erase]
    · rw [if_neg hx, AList.lookup_erase_ne hx]
  unfold deregisterForWrite doDeregisterForWrite findForRead findForWrite
  split
  · exact ⟨hlookup, rfl⟩
  split
  · exact ⟨hlookup, rfl⟩
  · simp only
    split <;> exact ⟨hlookup, rfl⟩

end SelectPoller

/-- A call of a public method that changes the poller. -/
inductive PollerOp (H : Type) where
  | registerForRead (fd : ℤ) (h : H)
  | registerForWrite (fd : ℤ) (h : H)
  | deregisterForRead (fd : ℤ)
  | deregisterForWrite (fd : ℤ)

namespace SelectPoller

variable {H : Type}

/-- The poller after the call, whatever the call returns. -/
def apply (p : SelectPoller H) : PollerOp H → SelectPoller H
  | .registerForRead fd h => (p.registerForRead fd h).2
  | .registerForWrite fd h => (p.registerForWrite fd h).2
  | .deregisterForRead fd => (p.deregisterForRead fd).2
  | .deregisterForWrite fd => (p.deregisterForWrite fd).2

theorem apply_sound {p : SelectPoller H} (h : p.Sound) (op : PollerOp H) : (p.apply op).Sound := by
  cases op with
  | registerForRead fd hd => exact registerForRead_sound h fd hd
  | registerForWrite fd hd => exact registerForWrite_sound h fd hd
  | deregisterForRead fd => exact deregisterForRead_sound h fd
  | deregisterForWrite fd => exact deregisterForWrite_sound h fd

theorem applyAll_sound {p : SelectPoller H} (h : p.Sound) (ops : List (PollerOp H)) :
    (ops.foldl apply p).Sound :=
  List.foldlRecOn ops apply h fun _ hp op _ => apply_sound hp op

/-- The greatest of some descriptors, none of them negative, or -1. -/
theorem Sound.maxFd {p : SelectPoller H} (h : p.Sound) :
    (p.registered = ∅ ∧ p.mMaxFd = -1) ∨ IsGreatest (p.registered : Set ℤ) p.mMaxFd := by
  rcases h.greatest.1 with hm | hm
  · refine Or.inl ⟨Finset.eq_empty_iff_forall_notMem.mpr fun fd hfd => ?_, hm⟩
    have hle := h.greatest.2 (Or.inr hfd)
    have hpos := h.valid fd hfd
    simp only [invalidFd, not_or, not_lt] at hpos
    omega
  · exact Or.inr ⟨hm, fun fd hfd => h.greatest.2 (Or.inr hfd)⟩

/-- After any calls on a new poller the descriptor sets are the keys of the
handler maps, the count is that of the write set, and `mMaxFd` is the greatest
descriptor registered, or -1. -/
theorem poller_consistent (ops : List (PollerOp H)) :
    let p := ops.foldl apply new
    p.mFdReadSet = p.mFdReadHandlers.keys.toFinset ∧
      p.mFdWriteSet = p.mFdWriteHandlers.keys.toFinset ∧
      p.mFdWriteCount = p.mFdWriteSet.card ∧
      ((p.mFdReadSet ∪ p.mFdWriteSet = ∅ ∧ p.mMaxFd = -1) ∨
        IsGreatest (↑(p.mFdReadSet ∪ p.mFdWriteSet) : Set ℤ) p.mMaxFd) := by
  intro p
  have h : p.Sound := applyAll_sound new_sound ops
  refine ⟨?_, ?_, h.count, h.maxFd⟩
  · ext fd
    rw [h.readSet, List.mem_toFinset, AList.mem_keys]
  · ext fd
    rw [h.writeSet, List.mem_toFinset, AList.mem_keys]

end SelectPoller

end HttpsProxy
