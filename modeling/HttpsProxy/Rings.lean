import Mathlib.Data.List.Chain
import Mathlib.Data.List.Nodup

/-! Circular lists that are linked both ways and have a head that is no element,
any number of them in one memory. As for the other lists, what is shown of an
operation is shown for any new links that agree with the old ones but where it
writes. -/
namespace HttpsProxy

namespace Links

variable {ι κ : Type} {next prev next' prev' : ι → ι}

/-- Each node leads to the following one, and this one back. -/
def Linked (next prev : ι → ι) (l : List ι) : Prop := l.IsChain fun x y => next x = y ∧ prev y = x

/-- From the head the links lead through `xs` and back to the head. -/
def Ring (next prev : ι → ι) (h : ι) (xs : List ι) : Prop := Linked next prev (h :: xs ++ [h])

theorem Linked.congr {l : List ι} (h : Linked next prev l)
    (hn : ∀ x ∈ l.dropLast, next' x = next x) (hp : ∀ y ∈ l.tail, prev' y = prev y) :
    Linked next' prev' l := by
  induction l with
  | nil => exact List.IsChain.nil
  | cons x l ih =>
    cases l with
    | nil => exact List.IsChain.singleton x
    | cons y l =>
      obtain ⟨⟨hx, hy⟩, ht⟩ := List.isChain_cons_cons.mp h
      rw [List.dropLast_cons_of_ne_nil (List.cons_ne_nil y l)] at hn
      rw [List.tail_cons] at hp
      refine List.isChain_cons_cons.mpr ⟨⟨?_, ?_⟩, ih ht ?_ ?_⟩
      · rw [hn x List.mem_cons_self, hx]
      · rw [hp y List.mem_cons_self, hy]
      · intro z hz
        exact hn z (List.mem_cons_of_mem _ hz)
      · intro z hz
        exact hp z (List.mem_cons_of_mem _ hz)

/-- The nodes around a place in a ring. -/
theorem Ring.split {h : ι} {as bs : List ι} (hr : Ring next prev h (as ++ bs)) :
    ∃ as' a b bs', h :: as = as' ++ [a] ∧ bs ++ [h] = b :: bs' ∧ next a = b ∧ prev b = a ∧
      Linked next prev (as' ++ [a]) ∧ Linked next prev (b :: bs') := by
  obtain ⟨as', a, ha⟩ := (List.eq_nil_or_concat' (h :: as)).resolve_left (List.cons_ne_nil _ _)
  obtain ⟨b, bs', hb⟩ : ∃ b bs', bs ++ [h] = b :: bs' := by
    cases bs with
    | nil => exact ⟨h, [], rfl⟩
    | cons b bs => exact ⟨b, bs ++ [h], rfl⟩
  have hl : h :: (as ++ bs) ++ [h] = as' ++ a :: b :: bs' := by
    rw [← List.cons_append, ha, List.append_assoc, hb, List.append_assoc]
    rfl
  have hr' : Linked next prev (as' ++ a :: b :: bs') := hl ▸ hr
  obtain ⟨hleft, ⟨hab, hba⟩, hright⟩ := List.isChain_append_cons_cons.mp hr'
  exact ⟨as', a, b, bs', ha, hb, hab, hba, hleft, hright⟩

theorem Ring.congr {h : ι} {xs : List ι} (hr : Ring next prev h xs)
    (hn : ∀ x ∈ h :: xs, next' x = next x) (hp : ∀ x ∈ h :: xs, prev' x = prev x) :
    Ring next' prev' h xs := by
  refine Linked.congr hr ?_ ?_
  · intro x hx
    rw [List.dropLast_concat] at hx
    exact hn x hx
  · intro y hy
    rw [List.cons_append, List.tail_cons, List.mem_append, List.mem_singleton] at hy
    exact hp y (List.mem_cons.mpr hy.symm)

theorem ends_eq {h a b : ι} {as bs as' bs' : List ι} (ha : h :: as = as' ++ [a])
    (hb : bs ++ [h] = b :: bs') : a = as.getLastD h ∧ b = bs.headD h := by
  constructor
  · have hlast := congrArg List.getLast? ha
    rw [List.getLast?_concat, List.getLast?_cons, Option.some.injEq] at hlast
    rw [← hlast, List.getLastD_eq_getLast?]
  · cases bs with
    | nil => exact (List.cons.inj hb).1.symm
    | cons b' bs => exact (List.cons.inj hb).1.symm

theorem Ring.ends {h : ι} {xs : List ι} (hr : Ring next prev h xs) :
    next h = xs.headD h ∧ prev h = xs.getLastD h := by
  constructor
  · cases xs with
    | nil => exact (List.isChain_cons_cons.mp hr).1.1
    | cons x xs => exact (List.isChain_cons_cons.mp hr).1.1
  · obtain ⟨as', a, b, bs', ha, hb, -, hba, -, -⟩ :=
      Ring.split (show Ring next prev h (xs ++ []) by rwa [List.append_nil])
    obtain ⟨rfl, rfl⟩ := ends_eq ha hb
    exact hba

/-- Both sides of a place remain if the links change at this place only. -/
theorem Linked.sides {h a b : ι} {as bs as' bs' : List ι} (ha : h :: as = as' ++ [a])
    (hb : bs ++ [h] = b :: bs') (hnd : (h :: (as ++ bs)).Nodup)
    (hn : ∀ x ∈ h :: (as ++ bs), x ≠ a → next' x = next x)
    (hp : ∀ x ∈ h :: (as ++ bs), x ≠ b → prev' x = prev x) :
    (Linked next prev (as' ++ [a]) → Linked next' prev' (as' ++ [a])) ∧
      (Linked next prev (b :: bs') → Linked next' prev' (b :: bs')) := by
  have hmem : ∀ x, x ∈ h :: (as ++ bs) ↔ x = h ∨ x ∈ as ∨ x ∈ bs := by
    intro x
    rw [List.mem_cons, List.mem_append]
  have hleft : ∀ x, x ∈ as' ++ [a] ↔ x = h ∨ x ∈ as := by
    intro x
    rw [← ha, List.mem_cons]
  have hright : ∀ x, x ∈ b :: bs' ↔ x = h ∨ x ∈ bs := by
    intro x
    rw [← hb, List.mem_append, List.mem_singleton, or_comm]
  obtain ⟨hh, hnd⟩ := List.nodup_cons.mp hnd
  obtain ⟨hnda, hndb, hdis⟩ := List.nodup_append.mp hnd
  have hnda' : (as' ++ [a]).Nodup :=
    ha ▸ List.nodup_cons.mpr ⟨fun hin => hh (List.mem_append_left _ hin), hnda⟩
  have hndb' : (b :: bs').Nodup := by
    rw [← hb]
    refine List.nodup_append.mpr ⟨hndb, List.nodup_singleton h, ?_⟩
    rintro x hx y hy rfl
    obtain rfl := List.mem_singleton.mp hy
    exact hh (List.mem_append_right _ hx)
  -- the sides have the head in common, at their far ends
  have hcross : ∀ x, x ∈ as → x ∉ bs ∧ x ≠ h := by
    intro x hx
    refine ⟨fun hxb => hdis x hx x hxb rfl, ?_⟩
    rintro rfl
    exact hh (List.mem_append_left _ hx)
  constructor
  · intro hl
    refine hl.congr ?_ ?_
    · intro x hx
      rw [List.dropLast_concat] at hx
      refine hn x ((hmem x).mpr ?_) ?_
      · have := (hleft x).mp (List.mem_append_left _ hx)
        tauto
      · rintro rfl
        exact (List.nodup_append.mp hnda').2.2 x hx x List.mem_cons_self rfl
    · intro y hy
      rw [← ha, List.tail_cons] at hy
      refine hp y ((hmem y).mpr (Or.inr (Or.inl hy))) ?_
      rintro rfl
      rcases (hright y).mp List.mem_cons_self with rfl | hyb
      · exact (hcross y hy).2 rfl
      · exact (hcross y hy).1 hyb
  · intro hl
    refine hl.congr ?_ ?_
    · intro x hx
      rw [← hb, List.dropLast_concat] at hx
      refine hn x ((hmem x).mpr (Or.inr (Or.inr hx))) ?_
      rintro rfl
      rcases (hleft x).mp (List.mem_append_right _ List.mem_cons_self) with rfl | hxa
      · exact hh (List.mem_append_right _ hx)
      · exact (hcross x hxa).1 hx
    · intro y hy
      rw [List.tail_cons] at hy
      refine hp y ((hmem y).mpr ?_) ?_
      · have := (hright y).mp (List.mem_cons_of_mem _ hy)
        tauto
      · rintro rfl
        exact (List.nodup_cons.mp hndb').1 hy

/-- A node is put anywhere into the ring. -/
theorem Ring.insert {h n a b : ι} {as bs : List ι} (hr : Ring next prev h (as ++ bs))
    (hnd : (h :: (as ++ bs)).Nodup) (ha : a = as.getLastD h) (hb : b = bs.headD h)
    (hna : next' a = n) (han : prev' n = a) (hnb : next' n = b) (hbn : prev' b = n)
    (hn : ∀ x ∈ h :: (as ++ bs), x ≠ a → next' x = next x)
    (hp : ∀ x ∈ h :: (as ++ bs), x ≠ b → prev' x = prev x) :
    Ring next' prev' h (as ++ n :: bs) := by
  obtain ⟨as', a', b', bs', ha', hb', -, -, hl, hr⟩ := hr.split
  obtain ⟨rfl, rfl⟩ : a' = a ∧ b' = b := by
    rw [ha, hb]
    exact ends_eq ha' hb'
  obtain ⟨hleft, hright⟩ := Linked.sides ha' hb' hnd hn hp
  have hlist : h :: (as ++ n :: bs) ++ [h] = as' ++ a' :: n :: b' :: bs' := by
    rw [← List.cons_append, ha', List.append_assoc, List.cons_append, hb', List.append_assoc]
    rfl
  unfold Ring
  rw [hlist]
  refine List.isChain_append_cons_cons.mpr ⟨hleft hl, ⟨hna, han⟩, ?_⟩
  exact List.isChain_cons_cons.mpr ⟨⟨hnb, hbn⟩, hright hr⟩

/-- A node is taken out wherever it stands. -/
theorem Ring.remove {h n : ι} {as bs : List ι} (hr : Ring next prev h (as ++ n :: bs))
    (hnd : (h :: (as ++ n :: bs)).Nodup) (hna : next' (prev n) = next n)
    (hbn : prev' (next n) = prev n)
    (hn : ∀ x ∈ h :: (as ++ bs), x ≠ prev n → next' x = next x)
    (hp : ∀ x ∈ h :: (as ++ bs), x ≠ next n → prev' x = prev x) :
    Ring next' prev' h (as ++ bs) := by
  obtain ⟨as', a, n', bs', ha, hn', -, hpn, hl, hr⟩ := hr.split
  obtain ⟨rfl, hbs⟩ := List.cons.inj hn'
  obtain ⟨b, bs'', hb⟩ : ∃ b bs'', bs ++ [h] = b :: bs'' := by
    cases bs with
    | nil => exact ⟨h, [], rfl⟩
    | cons b bs => exact ⟨b, bs ++ [h], rfl⟩
  have hb' : bs' = b :: bs'' := hbs.symm.trans hb
  rw [hb'] at hr
  obtain ⟨⟨hnn, -⟩, hr⟩ := List.isChain_cons_cons.mp hr
  rw [hpn] at hna hbn hn
  rw [hnn] at hna hbn hp
  have hnd' : (h :: (as ++ bs)).Nodup := by
    refine hnd.sublist ?_
    exact ((List.sublist_cons_self n bs).append_left as).cons_cons h
  obtain ⟨hleft, hright⟩ := Linked.sides ha hb hnd' hn hp
  have hlist : h :: (as ++ bs) ++ [h] = as' ++ a :: b :: bs'' := by
    rw [← List.cons_append, ha, List.append_assoc, hb, List.append_assoc]
    rfl
  unfold Ring
  rw [hlist]
  exact List.isChain_append_cons_cons.mpr ⟨hleft hl, ⟨hna, hbn⟩, hright hr⟩

/-- Rings that have no node in common. -/
structure Rings (next prev : ι → ι) (head : κ → ι) (q : κ → List ι) : Prop where
  ring : ∀ k, Ring next prev (head k) (q k)
  nodup : ∀ k, (head k :: q k).Nodup
  apart : ∀ k k', k ≠ k' → (head k :: q k).Disjoint (head k' :: q k')

section

variable {head : κ → ι} {q : κ → List ι}

/-- The neighbours of a node are other nodes of its ring. -/
theorem Rings.neighbours (h : Rings next prev head q) {k : κ} {n : ι} {as bs : List ι}
    (hq : q k = as ++ n :: bs) : next n ∈ head k :: (as ++ bs) ∧ prev n ∈ head k :: (as ++ bs) ∧
      n ∉ head k :: (as ++ bs) := by
  have hr := h.ring k
  have hnd := h.nodup k
  rw [hq] at hr hnd
  have hperm : (head k :: (as ++ n :: bs)).Perm (n :: head k :: (as ++ bs)) :=
    (List.perm_middle.cons _).trans (List.Perm.swap _ _ _)
  obtain ⟨as', a, n', bs', ha, hn', -, hpn, -, hright⟩ := hr.split
  obtain ⟨rfl, rfl⟩ := List.cons.inj hn'
  refine ⟨?_, ?_, (List.nodup_cons.mp (hperm.nodup_iff.mp hnd)).1⟩
  · cases bs with
    | nil =>
      rw [(List.isChain_cons_cons.mp hright).1.1]
      exact List.mem_cons_self
    | cons b bs =>
      rw [(List.isChain_cons_cons.mp hright).1.1]
      simp
  · rw [hpn]
    have hin : a ∈ head k :: as := ha ▸ List.mem_append_right _ List.mem_cons_self
    rcases List.mem_cons.mp hin with rfl | hin
    · exact List.mem_cons_self
    · simp [hin]

variable [DecidableEq κ]

/-- What is left to be shown of the rings when one of them has changed. -/
theorem Rings.update (h : Rings next prev head q) {k : κ} {xs : List ι}
    (hr : Ring next' prev' (head k) xs) (hnd : (head k :: xs).Nodup)
    (hap : ∀ k', k' ≠ k → (head k' :: q k').Disjoint (head k :: xs))
    (he : ∀ k', k' ≠ k → ∀ x ∈ head k' :: q k', next' x = next x ∧ prev' x = prev x) :
    Rings next' prev' head (Function.update q k xs) := by
  refine ⟨?_, ?_, ?_⟩
  · intro k'
    by_cases hk : k' = k
    · subst hk
      rwa [Function.update_self]
    · rw [Function.update_of_ne hk]
      exact (h.ring k').congr (fun x hx => (he k' hk x hx).1) fun x hx => (he k' hk x hx).2
  · intro k'
    by_cases hk : k' = k
    · subst hk
      rwa [Function.update_self]
    · rw [Function.update_of_ne hk]
      exact h.nodup k'
  · intro k1 k2 hne
    by_cases h1 : k1 = k
    · subst h1
      rw [Function.update_self, Function.update_of_ne hne.symm]
      exact fun x hx hx' => hap k2 hne.symm hx' hx
    · by_cases h2 : k2 = k
      · subst h2
        rw [Function.update_self, Function.update_of_ne h1]
        exact hap k1 h1
      · rw [Function.update_of_ne h1, Function.update_of_ne h2]
        exact h.apart k1 k2 hne

/-- A node that belongs to no ring is put into one. -/
theorem Rings.insert (h : Rings next prev head q) (as bs : List ι) {k : κ} {n a b : ι}
    (hq : q k = as ++ bs) (hnew : ∀ k', n ∉ head k' :: q k') (ha : a = as.getLastD (head k))
    (hb : b = bs.headD (head k)) (hna : next' a = n) (han : prev' n = a) (hnb : next' n = b)
    (hbn : prev' b = n) (hn : ∀ x, x ≠ n → x ≠ a → next' x = next x)
    (hp : ∀ x, x ≠ n → x ≠ b → prev' x = prev x) :
    Rings next' prev' head (Function.update q k (as ++ n :: bs)) := by
  have hnd := h.nodup k
  have hr := h.ring k
  have hnk := hnew k
  rw [hq] at hnd hr hnk
  -- the neighbours of `n` lie on the ring of `k`, so no other ring changes
  have hane : a ∈ head k :: (as ++ bs) := by
    rw [ha, List.getLastD_eq_getLast?]
    cases hl : as.getLast? with
    | none => exact List.mem_cons_self
    | some x =>
      exact List.mem_cons_of_mem _ (List.mem_append_left _ (List.mem_of_getLast? hl))
  have hbne : b ∈ head k :: (as ++ bs) := by
    rw [hb]
    cases bs with
    | nil => exact List.mem_cons_self
    | cons x bs => simp
  have hmem : ∀ x, x ∈ head k :: (as ++ n :: bs) ↔ x = n ∨ x ∈ head k :: (as ++ bs) := by
    intro x
    simp only [List.mem_cons, List.mem_append]
    tauto
  have hother : ∀ k', k' ≠ k → ∀ x ∈ head k' :: q k', x ∉ head k :: (as ++ bs) := by
    intro k' hk x hx
    have hdis := h.apart k' k hk
    rw [hq] at hdis
    exact hdis hx
  refine h.update ?_ ?_ ?_ ?_
  · refine hr.insert hnd ha hb hna han hnb hbn ?_ ?_
    · intro x hx hxa
      exact hn x (fun hxn => hnk (hxn ▸ hx)) hxa
    · intro x hx hxb
      exact hp x (fun hxn => hnk (hxn ▸ hx)) hxb
  · have hperm : (head k :: (as ++ n :: bs)).Perm (n :: head k :: (as ++ bs)) :=
      (List.perm_middle.cons _).trans (List.Perm.swap _ _ _)
    exact hperm.nodup_iff.mpr (List.nodup_cons.mpr ⟨hnk, hnd⟩)
  · intro k' hk x hx hx'
    rcases (hmem x).mp hx' with rfl | hin
    · exact hnew k' hx
    · exact hother k' hk x hx hin
  · intro k' hk x hx
    have hxn : x ≠ n := fun hxn => hnew k' (hxn ▸ hx)
    constructor
    · exact hn x hxn fun hxa => hother k' hk x hx (hxa ▸ hane)
    · exact hp x hxn fun hxb => hother k' hk x hx (hxb ▸ hbne)

/-- A node is taken out of its ring. -/
theorem Rings.remove (h : Rings next prev head q) {k : κ} {n : ι} {as bs : List ι}
    (hq : q k = as ++ n :: bs) (hna : next' (prev n) = next n) (hbn : prev' (next n) = prev n)
    (hn : ∀ x, x ≠ n → x ≠ prev n → next' x = next x)
    (hp : ∀ x, x ≠ n → x ≠ next n → prev' x = prev x) :
    Rings next' prev' head (Function.update q k (as ++ bs)) := by
  have hin : n ∈ q k := by
    rw [hq]
    simp
  obtain ⟨hnn, hpn, hnot⟩ := h.neighbours hq
  have hnd := h.nodup k
  have hr := h.ring k
  rw [hq] at hnd hr
  have hsub : (head k :: (as ++ bs)).Sublist (head k :: q k) := by
    rw [hq]
    exact ((List.sublist_cons_self n bs).append_left as).cons_cons _
  refine h.update (hr.remove hnd hna hbn ?_ ?_) ((h.nodup k).sublist hsub) ?_ ?_
  · intro x hx hxp
    exact hn x (fun hxn => hnot (hxn ▸ hx)) hxp
  · intro x hx hxn'
    exact hp x (fun hxn => hnot (hxn ▸ hx)) hxn'
  · intro k' hk x hx hx'
    exact h.apart k' k hk hx (hsub.subset hx')
  · intro k' hk x hx
    have hdis := h.apart k' k hk hx
    have hxn : x ≠ n := fun hxn => hdis (hxn ▸ List.mem_cons_of_mem _ hin)
    constructor
    · exact hn x hxn fun hxp => hdis (hxp ▸ hsub.subset hpn)
    · exact hp x hxn fun hxn' => hdis (hxn' ▸ hsub.subset hnn)

end

end Links

end HttpsProxy
