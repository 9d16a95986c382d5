import HttpsProxy.Links
import HttpsProxy.MemNode
import Mathlib.Data.List.Perm.Subperm

/-! `IMEMSLAB` of `imembase.c`: the units of a page, of which the free ones are
linked through their own first words. A word of memory is known by its address;
0 is `NULL`. -/
namespace HttpsProxy

/-- The words in the pages. -/
abbrev PageWords := ℕ → ℕ

/-- `imemslab_t`; its links are kept with those of the queues. -/
structure IMemSlab where
  coloroff : ℕ
  membase : ℕ
  memsize : ℕ
  inuse : ℤ
  bufctl : ℕ
  extra : ℕ

namespace IMemSlab

open Links

/-- The loop of `imslab_init`; `endup` may lie below the page. -/
def initLoop (objSize : ℕ) (endup : ℤ) :
    ℕ → ℕ → ℕ → PageWords → ℕ → ℤ → Option (PageWords × ℕ × ℤ)
  | 0, _, _, _, _, _ => none
  | fuel+1, start, tail, mem, bufctl, retval =>
    if (start : ℤ) ≤ endup then
      let mem := Function.update mem start 0
      if tail = 0 then initLoop objSize endup fuel (start + objSize) start mem start (retval + 1)
      else
        initLoop objSize endup fuel (start + objSize) start (Function.update mem tail start) bufctl
          (retval + 1)
    else some (mem, bufctl, retval)

/-- `imslab_init`: the slab, and how many units it has. -/
def init (mem : PageWords) (membase memsize objSize coloroff : ℕ) :
    Option (IMemSlab × PageWords × ℤ) :=
  if membase ≠ 0 ∧ 8 ≤ objSize then
    (initLoop objSize ((membase : ℤ) + memsize - objSize) (memsize + 1) (membase + coloroff) 0 mem 0
      0).map fun r =>
        ({ coloroff, membase, memsize, inuse := 0, bufctl := r.2.1, extra := 0 }, r.1, r.2.2)
  else none

/-- `imslab_alloc`, 0 if the slab is full. -/
def alloc (mem : PageWords) (slab : IMemSlab) : ℕ × IMemSlab :=
  if slab.bufctl = 0 then (0, slab)
  else (slab.bufctl, { slab with bufctl := mem slab.bufctl, inuse := slab.inuse + 1 })

/-- `imslab_free`. -/
def free (mem : PageWords) (slab : IMemSlab) (ptr : ℕ) : Option (IMemSlab × PageWords) :=
  if 0 < slab.inuse ∧ slab.membase + slab.coloroff ≤ ptr ∧ ptr < slab.membase + slab.memsize then
    some ({ slab with bufctl := ptr, inuse := slab.inuse - 1 }, Function.update mem ptr slab.bufctl)
  else none

/-- `IMEMSLAB_ISFULL`. -/
def isFull (slab : IMemSlab) : Bool := slab.bufctl = 0

/-- `IMEMSLAB_ISEMPTY`. -/
def isEmpty (slab : IMemSlab) : Bool := slab.inuse = 0

/-- `n` units from `start` on. -/
def row (objSize start n : ℕ) : List ℕ := (List.range n).map fun i => start + i * objSize

theorem row_succ (objSize start n : ℕ) :
    row objSize start (n + 1) = start :: row objSize (start + objSize) n := by
  simp only [row, List.range_succ_eq_map, List.map_cons, List.map_map, Nat.zero_mul, Nat.add_zero]
  congr 1
  apply List.map_congr_left
  intro i _
  simp only [Function.comp_apply, Nat.succ_eq_add_one]
  ring

theorem mem_row {objSize start n u : ℕ} :
    u ∈ row objSize start n ↔ ∃ i < n, u = start + i * objSize := by
  simp only [row, List.mem_map, List.mem_range, eq_comm]

/-- The units that fit in behind the offset. -/
def units (objSize : ℕ) (slab : IMemSlab) : List ℕ :=
  row objSize (slab.membase + slab.coloroff) ((slab.memsize - slab.coloroff) / objSize)

/-- The loop links the units that are still to come behind the last one. -/
theorem initLoop_spec {objSize : ℕ} {endup : ℤ} (hobj : 0 < objSize) (n : ℕ) :
    ∀ (fuel start tail : ℕ) (mem : PageWords) (bufctl : ℕ) (retval : ℤ),
      (∀ i : ℕ, ((start + i * objSize : ℕ) : ℤ) ≤ endup ↔ i < n) → n < fuel → tail < start →
      0 < start → (tail ≠ 0 → mem tail = 0) → (tail = 0 → bufctl = 0) →
      ∃ mem' b, initLoop objSize endup fuel start tail mem bufctl retval =
          some (mem', b, retval + n) ∧
        (tail = 0 → Chain mem' 0 b (row objSize start n)) ∧
        (tail ≠ 0 → b = bufctl ∧ Chain mem' 0 (mem' tail) (row objSize start n)) ∧
        ∀ x, x ∉ row objSize start n → x ≠ tail → mem' x = mem x := by
  induction n with
  | zero =>
    intro fuel start tail mem bufctl retval hend hfuel htail hpos hmem hb
    obtain ⟨k, rfl⟩ : ∃ k, fuel = k + 1 := ⟨fuel - 1, by omega⟩
    have hout : ¬ (start : ℤ) ≤ endup := by
      have h0 := hend 0
      rw [Nat.zero_mul, Nat.add_zero] at h0
      rw [h0]
      exact lt_irrefl 0
    refine ⟨mem, bufctl, ?_, ?_, ?_, fun x _ _ => rfl⟩
    · rw [initLoop, if_neg hout]
      simp
    · intro h0
      exact hb h0
    · intro h0
      exact ⟨rfl, hmem h0⟩
  | succ n ih =>
    intro fuel start tail mem bufctl retval hend hfuel htail hpos hmem hb
    obtain ⟨k, rfl⟩ : ∃ k, fuel = k + 1 := ⟨fuel - 1, by omega⟩
    have hin : (start : ℤ) ≤ endup := by
      have h0 := (hend 0).mpr (Nat.succ_pos n)
      rwa [Nat.zero_mul, Nat.add_zero] at h0
    have hend' : ∀ i : ℕ, ((start + objSize + i * objSize : ℕ) : ℤ) ≤ endup ↔ i < n := by
      intro i
      have hi := hend (i + 1)
      rw [show start + (i + 1) * objSize = start + objSize + i * objSize by ring] at hi
      rw [hi]
      omega
    have hlow : ∀ x ∈ row objSize (start + objSize) n, start + objSize ≤ x := by
      intro x hx
      obtain ⟨i, -, rfl⟩ := mem_row.mp hx
      exact Nat.le_add_right _ _
    rw [row_succ, initLoop, if_pos hin]
    by_cases ht : tail = 0
    · subst ht
      obtain ⟨mem', b, hl, -, hc, hf⟩ := ih k (start + objSize) start
        (Function.update mem start 0) start (retval + 1) hend'
        (by omega) (by omega) (by omega) (fun _ => Function.update_self _ _ _) (by omega)
      obtain ⟨rfl, hchain⟩ := hc (by omega)
      refine ⟨mem', b, ?_, fun _ => ⟨rfl, by omega, hchain⟩, fun h => absurd rfl h, ?_⟩
      · simp only [if_true, hl]
        push_cast
        rw [add_assoc, add_comm 1 (n : ℤ)]
      · intro x hx hx0
        rw [List.mem_cons, not_or] at hx
        rw [hf x hx.2 hx.1, Function.update_of_ne hx.1]
    · have hts : tail ≠ start := by omega
      have hsnew : Function.update (Function.update mem start 0) tail start start = 0 := by
        rw [Function.update_of_ne (Ne.symm hts), Function.update_self]
      obtain ⟨mem', b, hl, -, hc, hf⟩ := ih k (start + objSize) start
        (Function.update (Function.update mem start 0) tail start) bufctl (retval + 1)
        hend' (by omega) (by omega) (by omega) (fun _ => hsnew) (by omega)
      obtain ⟨rfl, hchain⟩ := hc (by omega)
      have htail' : mem' tail = start := by
        rw [hf tail (fun hin => absurd (hlow tail hin) (by omega)) hts, Function.update_self]
      refine ⟨mem', b, ?_, fun h => absurd h ht, fun _ => ⟨rfl, htail', by omega, ?_⟩, ?_⟩
      · simp only [if_neg ht, hl]
        push_cast
        rw [add_assoc, add_comm 1 (n : ℤ)]
      · exact hchain
      · intro x hx hxt
        rw [List.mem_cons, not_or] at hx
        rw [hf x hx.2 hx.1, Function.update_of_ne hxt, Function.update_of_ne hx.1]

/-- The free units of a slab, the one to be handed out next in front. -/
structure Holds (mem : PageWords) (objSize : ℕ) (slab : IMemSlab) (free : List ℕ) : Prop where
  chain : Chain mem 0 slab.bufctl free
  sub : ∀ u ∈ free, u ∈ slab.units objSize
  inuse_eq : slab.inuse = (slab.units objSize).length - free.length

theorem mem_units {objSize : ℕ} {slab : IMemSlab} {u : ℕ} (hu : u ∈ slab.units objSize) :
    slab.membase + slab.coloroff ≤ u ∧ u + objSize ≤ slab.membase + slab.memsize := by
  obtain ⟨i, hi, rfl⟩ := mem_row.mp hu
  have hmul := Nat.mul_le_mul_right objSize (show i + 1 ≤ _ from hi)
  have hdiv := Nat.div_mul_le_self (slab.memsize - slab.coloroff) objSize
  have hpos : 0 < slab.memsize - slab.coloroff := by
    by_contra h0
    rw [show slab.memsize - slab.coloroff = 0 by omega, Nat.zero_div] at hi
    exact absurd hi (Nat.not_lt_zero _)
  have hs : (i + 1) * objSize = i * objSize + objSize := by ring
  omega

theorem row_nodup {objSize : ℕ} (hobj : 0 < objSize) (start n : ℕ) : (row objSize start n).Nodup := by
  refine List.Nodup.map ?_ List.nodup_range
  intro i j hij
  exact Nat.eq_of_mul_eq_mul_right hobj (Nat.add_left_cancel hij)

/-- Two units of a slab do not overlap. -/
theorem units_apart {objSize : ℕ} {slab : IMemSlab} {u v : ℕ} (hu : u ∈ slab.units objSize)
    (hv : v ∈ slab.units objSize) (huv : u ≠ v) : u + objSize ≤ v ∨ v + objSize ≤ u := by
  obtain ⟨i, -, rfl⟩ := mem_row.mp hu
  obtain ⟨j, -, rfl⟩ := mem_row.mp hv
  have hij : i ≠ j := by
    rintro rfl
    exact huv rfl
  rcases Nat.lt_or_gt_of_ne hij with h | h
  · left
    have hmul := Nat.mul_le_mul_right objSize (show i + 1 ≤ j from h)
    have hs : (i + 1) * objSize = i * objSize + objSize := by ring
    omega
  · right
    have hmul := Nat.mul_le_mul_right objSize (show j + 1 ≤ i from h)
    have hs : (j + 1) * objSize = j * objSize + objSize := by ring
    omega

/-- A new slab has all its units free. -/
theorem init_spec (mem : PageWords) (memsize coloroff : ℕ) {membase objSize : ℕ} (hbase : membase ≠ 0)
    (hobj : 8 ≤ objSize) : ∃ (slab : IMemSlab) (mem' : PageWords),
      init mem membase memsize objSize coloroff =
        some (slab, mem', (((memsize - coloroff) / objSize : ℕ) : ℤ)) ∧
      slab.membase = membase ∧ slab.memsize = memsize ∧ slab.coloroff = coloroff ∧ slab.extra = 0 ∧
      slab.Holds mem' objSize (slab.units objSize) ∧
      ∀ x, x ∉ slab.units objSize → x ≠ 0 → mem' x = mem x := by
  have hend : ∀ i : ℕ, ((membase + coloroff + i * objSize : ℕ) : ℤ) ≤ (membase : ℤ) + memsize - objSize ↔
      i < (memsize - coloroff) / objSize := by
    intro i
    rw [Nat.lt_iff_add_one_le, Nat.le_div_iff_mul_le (by omega)]
    have hs : (i + 1) * objSize = i * objSize + objSize := by ring
    rw [hs]
    push_cast
    omega
  have hfuel : (memsize - coloroff) / objSize < memsize + 1 := by
    have hdiv := Nat.div_le_self (memsize - coloroff) objSize
    omega
  obtain ⟨mem', b, hl, hc, -, hf⟩ := initLoop_spec (by omega) _ _ _ 0 mem 0 0
    hend hfuel (by omega) (by omega) (fun h => absurd rfl h) (fun _ => rfl)
  refine ⟨{ coloroff, membase, memsize, inuse := 0, bufctl := b, extra := 0 }, mem', ?_, rfl, rfl,
    rfl, rfl, ⟨hc rfl, fun _ hu => hu, ?_⟩, hf⟩
  · rw [init, if_pos ⟨hbase, hobj⟩, hl, Option.map_some, zero_add]
  · simp

theorem alloc_spec {mem : PageWords} {objSize : ℕ} {slab : IMemSlab} {u : ℕ} {free : List ℕ}
    (h : slab.Holds mem objSize (u :: free)) : ∃ slab' : IMemSlab, slab.alloc mem = (u, slab') ∧
      slab'.Holds mem objSize free ∧ slab' = { slab with bufctl := mem u, inuse := slab.inuse + 1 } := by
  obtain ⟨hu, hne, ht⟩ := h.chain
  refine ⟨{ slab with bufctl := mem u, inuse := slab.inuse + 1 }, ?_,
    ⟨ht, fun v hv => h.sub v (List.mem_cons_of_mem _ hv), ?_⟩, rfl⟩
  · rw [alloc, hu, if_neg hne]
  · have hin := h.inuse_eq
    rw [List.length_cons] at hin
    change slab.inuse + 1 = ((slab.units objSize).length : ℤ) - free.length
    push_cast at hin
    omega

theorem Holds.isFull {mem : PageWords} {objSize : ℕ} {slab : IMemSlab} {free : List ℕ}
    (h : slab.Holds mem objSize free) : slab.isFull = true ↔ free = [] := by
  have hc := h.chain
  unfold IMemSlab.isFull
  rw [decide_eq_true_iff]
  cases free with
  | nil => exact iff_of_true hc rfl
  | cons u free =>
    refine iff_of_false ?_ (List.cons_ne_nil u free)
    rw [hc.1]
    exact hc.2.1

theorem Holds.count_le {mem : PageWords} {objSize : ℕ} {slab : IMemSlab} {free : List ℕ}
    (h : slab.Holds mem objSize free) : free.length ≤ (slab.units objSize).length :=
  (List.subperm_of_subset h.chain.nodup h.sub).length_le

theorem Holds.isEmpty {mem : PageWords} {objSize : ℕ} {slab : IMemSlab} {free : List ℕ}
    (h : slab.Holds mem objSize free) :
    slab.isEmpty = true ↔ ∀ u ∈ slab.units objSize, u ∈ free := by
  have hle := h.count_le
  have hin := h.inuse_eq
  unfold IMemSlab.isEmpty
  rw [decide_eq_true_iff]
  constructor
  · intro h0
    have hsub := List.subperm_of_subset h.chain.nodup h.sub
    have hperm := hsub.perm_of_length_le (by omega)
    intro u hu
    exact hperm.mem_iff.mpr hu
  · intro hall
    by_cases hobj : 0 < objSize
    · have hsub := List.subperm_of_subset (row_nodup hobj _ _) hall
      have hle' := hsub.length_le
      unfold units at *
      omega
    · have hz : objSize = 0 := by omega
      subst hz
      simp only [units, row, Nat.div_zero, List.range_zero, List.map_nil, List.length_nil] at hin hle
      omega

/-- The slab takes back a unit that is not free. -/
theorem free_spec {mem : PageWords} {objSize : ℕ} {slab : IMemSlab} {u : ℕ} {free : List ℕ}
    (h : slab.Holds mem objSize free) (hobj : 0 < objSize) (hu : u ∈ slab.units objSize) (hu0 : u ≠ 0)
    (hfree : u ∉ free) : ∃ (slab' : IMemSlab) (mem' : PageWords), slab.free mem u = some (slab', mem') ∧
      slab'.Holds mem' objSize (u :: free) ∧
      slab' = { slab with bufctl := u, inuse := slab.inuse - 1 } ∧
      mem' = Function.update mem u slab.bufctl := by
  have hb := mem_units hu
  have hnd : (u :: free).Nodup := List.nodup_cons.mpr ⟨hfree, h.chain.nodup⟩
  have hsub : ∀ v ∈ u :: free, v ∈ slab.units objSize := by
    intro v hv
    rcases List.mem_cons.mp hv with rfl | hv
    · exact hu
    · exact h.sub v hv
  have hlen := (List.subperm_of_subset hnd hsub).length_le
  have hin := h.inuse_eq
  rw [List.length_cons] at hlen
  have hguard : 0 < slab.inuse ∧ slab.membase + slab.coloroff ≤ u ∧
      u < slab.membase + slab.memsize := by
    omega
  refine ⟨{ slab with bufctl := u, inuse := slab.inuse - 1 }, Function.update mem u slab.bufctl,
    by rw [IMemSlab.free, if_pos hguard], ⟨?_, hsub, ?_⟩, rfl, rfl⟩
  · refine h.chain.push hu0 (Function.update_self _ _ _) ?_
    intro x hx
    refine Function.update_of_ne ?_ _ _
    rintro rfl
    exact hfree hx
  · change slab.inuse - 1 = ((slab.units objSize).length : ℤ) - (u :: free).length
    rw [List.length_cons]
    push_cast
    omega

/-- Writing into words that are not free units changes nothing. -/
theorem Holds.congr {mem mem' : PageWords} {objSize : ℕ} {slab : IMemSlab} {free : List ℕ}
    (h : slab.Holds mem objSize free) (he : ∀ u ∈ free, mem' u = mem u) :
    slab.Holds mem' objSize free :=
  ⟨h.chain.congr he, h.sub, h.inuse_eq⟩

end IMemSlab

end HttpsProxy
