import HttpsProxy.MemCache
import HttpsProxy.Rings

/-! The lists of slabs of a cache: what `iqueue_add`, `iqueue_add_tail` and
`iqueue_del` do to the three rings at once. -/
namespace HttpsProxy

namespace IQueues

open Links

/-- The three rings hold the slabs at these addresses. -/
def Lists (q : IQueues) (lists : SlabQueue → List ℕ) : Prop :=
  Rings q.next q.prev QueueNode.head fun k => (lists k).map QueueNode.slab

variable {q : IQueues} {lists : SlabQueue → List ℕ} {a : ℕ} {k : SlabQueue}

theorem map_update (lists : SlabQueue → List ℕ) (k : SlabQueue) (xs : List ℕ) :
    (fun k' => (Function.update lists k xs k').map QueueNode.slab) =
      Function.update (fun k' => (lists k').map QueueNode.slab) k (xs.map QueueNode.slab) := by
  funext k'
  by_cases hk : k' = k
  · subst hk
    rw [Function.update_self, Function.update_self]
  · rw [Function.update_of_ne hk, Function.update_of_ne hk]

theorem slab_mem_ring : QueueNode.slab a ∈ QueueNode.head k :: (lists k).map QueueNode.slab ↔
    a ∈ lists k := by
  simp

theorem ring_ne_null {n : QueueNode} {xs : List ℕ}
    (h : n ∈ QueueNode.head k :: xs.map QueueNode.slab) : n ≠ .null := by
  rintro rfl
  simp at h

namespace Lists

theorem nodup (h : q.Lists lists) (k : SlabQueue) : (lists k).Nodup :=
  (List.nodup_cons.mp (Rings.nodup h k)).2.of_map _

theorem disjoint (h : q.Lists lists) {k k' : SlabQueue} (hk : k ≠ k') :
    (lists k).Disjoint (lists k') := fun _ ha ha' =>
  Rings.apart h k k' hk (slab_mem_ring.mpr ha) (slab_mem_ring.mpr ha')

/-- The first and the last slab of a list. -/
theorem ends (h : q.Lists lists) (k : SlabQueue) :
    q.next (.head k) = ((lists k).map QueueNode.slab).headD (.head k) ∧
      q.prev (.head k) = ((lists k).map QueueNode.slab).getLastD (.head k) :=
  (Rings.ring h k).ends

theorem isEmpty (h : q.Lists lists) : q.isEmpty k = true ↔ lists k = [] := by
  unfold IQueues.isEmpty
  rw [decide_eq_true_iff, (h.ends k).1]
  cases lists k <;> simp

theorem init (h : q.Lists lists) (ha : ∀ k, a ∉ lists k) : (q.init (.slab a)).Lists lists := by
  have hne : ∀ k, ∀ x ∈ QueueNode.head k :: (lists k).map QueueNode.slab, x ≠ .slab a := by
    rintro k x hx rfl
    exact ha k (slab_mem_ring.mp hx)
  refine ⟨?_, Rings.nodup h, Rings.apart h⟩
  intro k
  exact (Rings.ring h k).congr (fun x hx => Function.update_of_ne (hne k x hx) _ _)
    fun x hx => Function.update_of_ne (hne k x hx) _ _

theorem add (h : q.Lists lists) (ha : ∀ k, a ∉ lists k) (k : SlabQueue) :
    ∃ q', q.add (.slab a) (.head k) = some q' ∧
      q'.Lists (Function.update lists k (a :: lists k)) := by
  obtain ⟨hnext, -⟩ := h.ends k
  obtain ⟨b, hb⟩ : ∃ b, b = ((lists k).map QueueNode.slab).headD (.head k) := ⟨_, rfl⟩
  have hbring : b ∈ QueueNode.head k :: (lists k).map QueueNode.slab := by
    rw [hb]
    cases lists k <;> simp
  have hba : b ≠ .slab a := by
    rintro rfl
    exact ha k (slab_mem_ring.mp hbring)
  have hha : QueueNode.head k ≠ .slab a := by simp
  rw [← hb] at hnext
  have hhead : Function.update q.next (.slab a) (q.next (.head k)) (.head k) = b := by
    rw [Function.update_of_ne hha, hnext]
  refine ⟨_, by simp only [IQueues.add, hhead, if_neg (ring_ne_null hbring)]; rfl, ?_⟩
  unfold Lists
  rw [map_update]
  refine Rings.insert h [] ((lists k).map QueueNode.slab) (a := .head k) rfl (fun k' hin => ha k' (slab_mem_ring.mp hin))
    rfl hb ?_ ?_ ?_ ?_ ?_ ?_
  · simp
  · simp [Function.update_of_ne (Ne.symm hba)]
  · simp [hnext]
  · simp
  · intro x hx hxh
    simp [Function.update_of_ne hx, Function.update_of_ne hxh]
  · intro x hx hxb
    simp [Function.update_of_ne hx, Function.update_of_ne hxb]

theorem addTail (h : q.Lists lists) (ha : ∀ k, a ∉ lists k) (k : SlabQueue) :
    ∃ q', q.addTail (.slab a) (.head k) = some q' ∧
      q'.Lists (Function.update lists k (lists k ++ [a])) := by
  obtain ⟨-, hprev⟩ := h.ends k
  obtain ⟨b, hb⟩ : ∃ b, b = ((lists k).map QueueNode.slab).getLastD (.head k) := ⟨_, rfl⟩
  have hbring : b ∈ QueueNode.head k :: (lists k).map QueueNode.slab := by
    rw [hb, List.getLastD_eq_getLast?]
    cases hl : ((lists k).map QueueNode.slab).getLast? with
    | none => exact List.mem_cons_self
    | some x => exact List.mem_cons_of_mem _ (List.mem_of_getLast? hl)
  have hba : b ≠ .slab a := by
    rintro rfl
    exact ha k (slab_mem_ring.mp hbring)
  have hha : QueueNode.head k ≠ .slab a := by simp
  rw [← hb] at hprev
  have hhead : Function.update q.prev (.slab a) (q.prev (.head k)) (.head k) = b := by
    rw [Function.update_of_ne hha, hprev]
  refine ⟨_, by simp only [IQueues.addTail, hhead, if_neg (ring_ne_null hbring)]; rfl, ?_⟩
  unfold Lists
  rw [map_update, List.map_append]
  refine Rings.insert h ((lists k).map QueueNode.slab) [] (b := .head k) (by simp)
    (fun k' hin => ha k' (slab_mem_ring.mp hin)) hb rfl ?_ ?_ ?_ ?_ ?_ ?_
  · simp
  · simp [hprev]
  · simp [Function.update_of_ne (Ne.symm hba)]
  · simp
  · intro x hx hxb
    simp [Function.update_of_ne hx, Function.update_of_ne hxb]
  · intro x hx hxh
    simp [Function.update_of_ne hx, Function.update_of_ne hxh]

theorem del (h : q.Lists lists) (ha : a ∈ lists k) : ∃ q', q.del (.slab a) = some q' ∧
    q'.Lists (Function.update lists k ((lists k).erase a)) ∧
      ∀ k', a ∉ Function.update lists k ((lists k).erase a) k' := by
  obtain ⟨as, bs, hl⟩ := List.append_of_mem ha
  have has : a ∉ as := by
    intro hin
    have hnd := h.nodup k
    rw [hl] at hnd
    exact (List.nodup_append.mp hnd).2.2 a hin a List.mem_cons_self rfl
  have herase : (lists k).erase a = as ++ bs := by
    rw [hl, List.erase_append_right _ has, List.erase_cons_head]
  have hmap : (lists k).map QueueNode.slab =
      as.map QueueNode.slab ++ .slab a :: bs.map QueueNode.slab := by
    rw [hl, List.map_append, List.map_cons]
  obtain ⟨hnn, hpn, hnot⟩ := Rings.neighbours h hmap
  rw [← List.map_append] at hnn hpn hnot
  have hna : q.next (.slab a) ≠ .slab a := fun he => hnot (he ▸ hnn)
  have hpa : q.prev (.slab a) ≠ .slab a := fun he => hnot (he ▸ hpn)
  have hguard : ¬ (q.next (.slab a) = .null ∨ q.prev (.slab a) = .null) := by
    rintro (he | he)
    · exact ring_ne_null hnn he
    · exact ring_ne_null hpn he
  have hprev : Function.update q.prev (q.next (.slab a)) (q.prev (.slab a)) (.slab a) =
      q.prev (.slab a) := Function.update_of_ne (Ne.symm hna) _ _
  refine ⟨_, by simp only [IQueues.del, if_neg hguard, hprev]; rfl, ?_, ?_⟩
  · unfold Lists
    rw [map_update, herase, List.map_append]
    refine Rings.remove h hmap ?_ ?_ ?_ ?_
    · simp [Function.update_of_ne hpa]
    · simp [Function.update_of_ne hna]
    · intro x hx hxp
      simp [Function.update_of_ne hx, Function.update_of_ne hxp]
    · intro x hx hxn
      simp [Function.update_of_ne hx, Function.update_of_ne hxn]
  · intro k'
    by_cases hk : k' = k
    · subst hk
      rw [Function.update_self]
      exact (h.nodup k').not_mem_erase
    · rw [Function.update_of_ne hk]
      exact fun hin => h.disjoint hk hin ha

/-- A slab goes from one list to the front of another. -/
theorem moveTo (h : q.Lists lists) (ha : a ∈ lists k) (k' : SlabQueue) :
    ∃ q', q.moveTo (.slab a) k' = some q' ∧
      q'.Lists (Function.update (Function.update lists k ((lists k).erase a)) k'
        (a :: Function.update lists k ((lists k).erase a) k')) := by
  obtain ⟨q1, hdel, h1, hnot⟩ := h.del ha
  obtain ⟨q2, hadd, h2⟩ := (h1.init hnot).add hnot k'
  exact ⟨q2, by rw [IQueues.moveTo, hdel, Option.bind_some, hadd], h2⟩

/-- Which slabs are where after such a move. -/
theorem mem_moved (h : q.Lists lists) (ha : a ∈ lists k) {k' : SlabQueue} {xs : List ℕ}
    (hxs : xs.Perm (a :: Function.update lists k ((lists k).erase a) k')) (j : SlabQueue) (x : ℕ) :
    x ∈ Function.update (Function.update lists k ((lists k).erase a)) k' xs j ↔
      (x = a ∧ j = k') ∨ (x ≠ a ∧ x ∈ lists j) := by
  have herase : ∀ j, x ∈ Function.update lists k ((lists k).erase a) j ↔ x ≠ a ∧ x ∈ lists j := by
    intro j
    by_cases hj : j = k
    · subst hj
      rw [Function.update_self]
      exact (h.nodup j).mem_erase_iff
    · rw [Function.update_of_ne hj]
      constructor
      · intro hx
        refine ⟨?_, hx⟩
        rintro rfl
        exact h.disjoint hj hx ha
      · exact fun hx => hx.2
  by_cases hj : j = k'
  · subst hj
    rw [Function.update_self, hxs.mem_iff, List.mem_cons, herase]
    tauto
  · rw [Function.update_of_ne hj, herase]
    tauto

theorem length_moved {k' : SlabQueue} (ha : a ∈ lists k) (hk : k ≠ k') {xs : List ℕ}
    (hxs : xs.Perm (a :: Function.update lists k ((lists k).erase a) k')) (j : SlabQueue) :
    ((Function.update (Function.update lists k ((lists k).erase a)) k' xs j).length : ℤ) =
      (lists j).length + (if j = k' then 1 else 0) - (if j = k then 1 else 0) := by
  by_cases hj : j = k'
  · subst hj
    rw [Function.update_self, hxs.length_eq, List.length_cons, Function.update_of_ne (Ne.symm hk),
      if_pos rfl, if_neg (Ne.symm hk)]
    push_cast
    omega
  · rw [Function.update_of_ne hj, if_neg hj]
    by_cases hjk : j = k
    · subst hjk
      have hpos := List.length_pos_of_mem ha
      rw [Function.update_self, List.length_erase_of_mem ha, if_pos rfl]
      omega
    · rw [Function.update_of_ne hjk, if_neg hjk]
      omega

end Lists

end IQueues

end HttpsProxy
