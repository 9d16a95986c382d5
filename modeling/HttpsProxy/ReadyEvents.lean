import HttpsProxy.Dispatch

/-! No event that `select` has reported is lost. The bound and the count of the
loop change under it, but a registration that nobody removes keeps both large
enough until its turn has come. -/
namespace HttpsProxy

/-- The call takes the handler of `fd` away. -/
def PollerOp.Removes {H : Type} (i : Interest) (fd : ℤ) : PollerOp H → Prop
  | .deregisterForRead x => i = .read ∧ x = fd
  | .deregisterForWrite x => i = .write ∧ x = fd
  | _ => False

instance {H : Type} (i : Interest) (fd : ℤ) : (op : PollerOp H) → Decidable (op.Removes i fd)
  | .deregisterForRead _ => inferInstanceAs (Decidable (_ ∧ _))
  | .deregisterForWrite _ => inferInstanceAs (Decidable (_ ∧ _))
  | .registerForRead _ _ => inferInstanceAs (Decidable False)
  | .registerForWrite _ _ => inferInstanceAs (Decidable False)

/-- `select` has counted the bits it has left in the two sets. -/
structure SelectRes.Counts {H : Type} (p : SelectPoller H) (r : SelectRes) : Prop where
  bits : ∀ i, ∀ fd ∈ p.ready r i, ¬SelectPoller.invalidFd fd
  count : r.countReady = (p.ready r .read).card + (p.ready r .write).card

namespace SelectPoller

variable {H : Type} {p : SelectPoller H} {i : Interest} {fd : ℤ} {h : H}

/-- Only its own deregistration takes a handler away; a second registration is refused. -/
theorem apply_keeps (hp : p.Sound) (hf : p.find i fd = some h) {op : PollerOp H}
    (hop : ¬op.Removes i fd) : (p.apply op).find i fd = some h := by
  have hreg : ∀ j x (hd : H), (p.register j x hd).find i fd = some h := fun j x hd => by
    rw [register_find hp, if_neg, hf]
    rintro ⟨rfl, rfl, -, hnone⟩
    exact absurd (hnone.symm.trans hf) (by simp)
  have hdereg : ∀ j x, ¬(i = j ∧ x = fd) → (p.deregister j x).find i fd = some h := fun j x hne => by
    rw [deregister_find, if_neg, hf]
    exact fun he => hne ⟨he.1, he.2.symm⟩
  cases op with
  | registerForRead x hd => exact hreg .read x hd
  | registerForWrite x hd => exact hreg .write x hd
  | deregisterForRead x => exact hdereg .read x hop
  | deregisterForWrite x => exact hdereg .write x hop

theorem applyAll_keeps (hp : p.Sound) (hf : p.find i fd = some h) {ops : List (PollerOp H)}
    (hops : ∀ op ∈ ops, ¬op.Removes i fd) : (ops.foldl apply p).find i fd = some h := by
  induction ops generalizing p with
  | nil => exact hf
  | cons op ops ih =>
    have hop := apply_keeps hp hf (hops op List.mem_cons_self)
    exact ih (apply_sound hp op) hop fun o ho => hops o (List.mem_cons_of_mem op ho)

/-- In a pass over what `select` has counted, a ready descriptor whose handler is
not taken away before its turn has that handler called, once. -/
theorem ready_called_once (setup : List (PollerOp H)) (r : SelectRes)
    (script : List (List (PollerOp H))) (i : Interest) (fd : ℤ) (h : H)
    (hcounts : r.Counts (setup.foldl apply new)) (hready : fd ∈ (setup.foldl apply new).ready r i)
    (hreg : (setup.foldl apply new).find i fd = some h)
    (hkept : ∀ k ∈ ((setup.foldl apply new).processPendingEvents r script).calls,
      Before k.turn (i, fd) → ∀ op ∈ k.ops, ¬op.Removes i fd) :
    ∃ k, ((setup.foldl apply new).processPendingEvents r script).calls.filter
      (fun k => k.turn = (i, fd)) = [k] ∧ k.handler = h := by
  have hp : (setup.foldl apply (new : SelectPoller H)).Sound := applyAll_sound new_sound setup
  generalize setup.foldl apply new = p at hcounts hready hreg hkept hp ⊢
  have hpos : 0 < r.countReady := by
    have hcard : 0 < (p.ready r i).card := Finset.card_pos.mpr ⟨fd, hready⟩
    rw [hcounts.count]
    cases i <;> omega
  have hturn : (i, fd) ∈ Pass.turnsFrom FD_SETSIZE.toNat 0 := by
    have hv := hcounts.bits i fd hready
    rw [invalidFd, not_or, not_lt, not_le] at hv
    exact Pass.mem_turnsFrom.mpr ⟨hv.1, by rw [zero_add]; exact hv.2⟩
  rw [processPendingEvents_visits hp (toCome_start hcounts.bits hcounts.count) hpos] at hkept ⊢
  obtain ⟨early, own, late, har⟩ := Pass.visitAll_around (p.ready r) (p := p)
    (Pass.turnsFrom_sorted FD_SETSIZE.toNat 0) r.countReady script hturn
  rw [har.filter_turn]
  -- nothing called before has taken the handler away
  have hfound : (Pass.lastAfter p early).find i fd = some h := by
    rw [har.applied]
    refine applyAll_keeps hp hreg fun op hop => ?_
    obtain ⟨k, hk, hopk⟩ := List.mem_flatMap.mp hop
    refine hkept k ?_ (har.before k hk) op hopk
    rw [har.split]
    exact List.mem_append_left _ (List.mem_append_left _ hk)
  rcases har.turn with ⟨-, hidle⟩ | ⟨k, rfl, -, hk⟩
  · exact absurd ((hidle hready).symm.trans hfound) (by simp)
  · exact ⟨k, rfl, Option.some.inj (hk.symm.trans hfound)⟩

/-- A tunnel on the descriptors 4 and 6 with the listener between them. -/
def busySetup : List (PollerOp Watcher) :=
  [.registerForRead 5 .listener, .registerForRead 4 (.conn ⟨0, .loc⟩),
    .registerForRead 6 (.conn ⟨0, .proxy⟩), .registerForWrite 6 (.conn ⟨0, .proxy⟩)]

theorem busyRes_counts : busyRes.Counts (busySetup.foldl apply new) where
  bits i := by cases i <;> decide +kernel
  count := by decide +kernel

/-- The listener is called although the handler before it closes a tunnel on the
descriptors around it. -/
theorem listener_called_once :
    ∃ k, ((busySetup.foldl apply new).processPendingEvents busyRes [closeTunnel]).calls.filter
      (fun k => k.turn = (.read, 5)) = [k] ∧ k.handler = .listener :=
  ready_called_once busySetup busyRes [closeTunnel] .read 5 .listener busyRes_counts
    (by decide +kernel) (by decide +kernel) (by decide +kernel)

end SelectPoller

end HttpsProxy
