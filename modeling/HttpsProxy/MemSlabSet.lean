import HttpsProxy.MemSupply

/-! `imslab_set_delete` holds the number of a descriptor against the size of the
pool of pages. What this does over any sequence of calls to the two pools. -/
namespace HttpsProxy

namespace IdPool

/-- The numbers from `peak` on have never been handed out. -/
structure Packed (p : IdPool) (peak : ℤ) : Prop where
  nonneg : 0 ≤ peak
  le_max : peak ≤ p.max
  free_eq : ∃ low, p.free = low ++ IMemNode.nodes peak (p.max - peak).toNat ∧
    (p.used.length + low.length : ℕ) = peak ∧ ∀ x ∈ low, x < peak
  used_lt : ∀ x ∈ p.used, x < peak

theorem packed_empty : Packed empty 0 := by
  refine ⟨le_rfl, le_rfl, ⟨[], rfl, rfl, by simp⟩, ?_⟩
  intro x hx
  exact absurd hx List.not_mem_nil

theorem nodes_cons (lo : ℤ) (j : ℕ) :
    IMemNode.nodes lo (j + 1) = lo :: IMemNode.nodes (lo + 1) j := by
  simp only [IMemNode.nodes, List.range_succ_eq_map, List.map_cons, List.map_map, Nat.cast_zero,
    add_zero, List.cons.injEq, true_and]
  apply List.map_congr_left
  intro i _
  simp only [Function.comp_apply, Nat.succ_eq_add_one]
  push_cast
  ring

variable {p p' : IdPool} {peak nodeSize limit x : ℤ} {M : PoolMemory}

theorem more_pos (limit : ℤ) (hmax : 0 ≤ p.max) : 0 < p.more limit := by
  simp only [more]
  split <;> split <;> omega

/-- A number is handed out for the first time only if all before it are in use. -/
theorem Packed.new (h : Packed p peak) (hc : p.call nodeSize limit (.new M) = some (x, p'))
    (hx : 0 ≤ x) : (Packed p' peak ∨ peak = p.used.length ∧ Packed p' (peak + 1)) := by
  obtain ⟨low, hfree, hlen, hlow⟩ := h.free_eq
  have hpeak := h.le_max
  have h0 := h.nonneg
  rw [call] at hc
  cases low with
  | nil =>
    right
    rw [List.nil_append] at hfree
    rw [List.length_nil, Nat.add_zero] at hlen
    refine ⟨hlen.symm, ?_⟩
    by_cases hroom : peak < p.max
    · -- the next number is there already
      obtain ⟨j, hj⟩ : ∃ j : ℕ, (p.max - peak).toNat = j + 1 :=
        ⟨(p.max - peak).toNat - 1, by omega⟩
      rw [hj, nodes_cons] at hfree
      rw [hfree] at hc
      obtain ⟨rfl, rfl⟩ := Prod.mk.inj (Option.some.inj hc)
      refine ⟨by omega, by simp only; omega, ⟨[], ?_, ?_, by simp⟩, ?_⟩
      · simp only [List.nil_append]
        rw [show (p.max - (peak + 1)).toNat = j by omega]
      · simp only [List.length_cons, List.length_nil]
        push_cast
        omega
      · intro y hy
        rcases List.mem_cons.mp hy with rfl | hy
        · omega
        · have := h.used_lt y hy
          omega
    · -- the pool grows
      have hmax : p.max = peak := by omega
      have hnil : p.free = [] := by
        rw [hfree, hmax, sub_self]
        rfl
      have hmore := more_pos limit (show 0 ≤ p.max by omega)
      rw [hnil] at hc
      simp only at hc
      split at hc
      · cases hc
      split at hc
      · obtain ⟨rfl, -⟩ := Prod.mk.inj (Option.some.inj hc)
        exact absurd hx (by decide)
      · obtain ⟨rfl, rfl⟩ := Prod.mk.inj (Option.some.inj hc)
        refine ⟨by omega, by simp only; omega, ⟨[], ?_, ?_, by simp⟩, ?_⟩
        · simp only [List.nil_append, hmax]
          rw [show (peak + p.more limit - (peak + 1)).toNat = (p.more limit - 1).toNat by omega]
        · simp only [List.length_cons, List.length_nil]
          push_cast
          omega
        · intro y hy
          rcases List.mem_cons.mp hy with rfl | hy
          · omega
          · have := h.used_lt y hy
            omega
  | cons z low =>
    left
    rw [hfree, List.cons_append] at hc
    obtain ⟨rfl, rfl⟩ := Prod.mk.inj (Option.some.inj hc)
    refine ⟨h0, hpeak, ⟨low, rfl, ?_, fun y hy => hlow y (List.mem_cons_of_mem _ hy)⟩, ?_⟩
    · simp only [List.length_cons] at hlen ⊢
      omega
    · intro y hy
      rcases List.mem_cons.mp hy with rfl | hy
      · exact hlow y List.mem_cons_self
      · exact h.used_lt y hy

theorem Packed.del (h : Packed p peak) (hx : x ∈ p.used) :
    Packed { p with free := x :: p.free, used := p.used.erase x } peak := by
  obtain ⟨low, hfree, hlen, hlow⟩ := h.free_eq
  refine ⟨h.nonneg, h.le_max, ⟨x :: low, by rw [hfree, List.cons_append], ?_, ?_⟩, ?_⟩
  · have hpos := List.length_pos_of_mem hx
    rw [List.length_erase_of_mem hx, List.length_cons]
    omega
  · intro y hy
    rcases List.mem_cons.mp hy with rfl | hy
    · exact h.used_lt y hx
    · exact hlow y hy
  · intro y hy
    exact h.used_lt y (List.mem_of_mem_erase hy)

end IdPool

/-- The two pools, with the pages and the descriptors that are in use. -/
structure NodeSets where
  gfp : IMemGfp
  slabs : NodeStore
  pages : List ℕ
  descs : List ℕ

inductive SetCall where
  | newPage
  | freePage (page : ℕ)
  | newSlab
  | deleteSlab (slab : ℕ)

namespace NodeSets

/-- Only what is in use is given back. -/
def call (s : NodeSets) : SetCall → Option NodeSets
  | .newPage =>
    (imemGfpAlloc s.gfp).map fun r => { s with gfp := r.2, pages := r.1.toList ++ s.pages }
  | .freePage page =>
    if page ∈ s.pages then
      (imemGfpFree s.gfp page).map fun gfp => { s with gfp, pages := s.pages.erase page }
    else none
  | .newSlab => (imslabSetNew s.slabs).map fun r => { s with slabs := r.2, descs := r.1 :: s.descs }
  | .deleteSlab slab =>
    if slab ∈ s.descs then
      (imslabSetDelete s.gfp s.slabs slab).map fun slabs =>
        { s with slabs, descs := s.descs.erase slab }
    else none

/-- After `imem_gfp_init` and `imslab_set_init`. -/
def start (gfp : IMemGfp) (slabMemory : ℕ → PoolMemory) : NodeSets :=
  { gfp, slabs := imslabSetInit slabMemory, pages := [], descs := [] }

/-- Both pools are in order, and `peak` descriptors have been in use at once. The
pool of pages is left alone if they come from `malloc`. -/
structure Sound (pageSize : ℕ) (s : NodeSets) (peak : ℤ) : Prop where
  held : s.gfp.useMalloc = false → IMemGfp.Held pageSize s.gfp s.pages
  keeps : ∃ past p chunks, NodeStore.Keeps (roundUp (slabSize + 8) : ℕ) 0 s.slabs past p chunks ∧
    (p.used.map s.slabs.place).Perm s.descs ∧ p.Packed peak

variable {pageSize : ℕ} {s s' : NodeSets} {peak : ℤ}

/-- What `imslab_set_delete` does with a descriptor in use. -/
theorem Sound.delete (h : Sound pageSize s peak) {slab : ℕ} (hslab : slab ∈ s.descs) :
    s.slabs.index (slab - 8) < peak ∧
      ((s.gfp.pageCache.pool.nodeMax ≤ s.slabs.index (slab - 8) ∧
          imslabSetDelete s.gfp s.slabs slab = none) ∨
        (s.slabs.index (slab - 8) < s.gfp.pageCache.pool.nodeMax ∧ ∃ slabs,
          imslabSetDelete s.gfp s.slabs slab = some slabs ∧
          Sound pageSize { s with slabs, descs := s.descs.erase slab } peak)) := by
  obtain ⟨past, p, chunks, hk, hperm, hpack⟩ := h.keeps
  obtain ⟨x, hx, rfl⟩ := List.mem_map.mp (hperm.mem_iff.mpr hslab)
  rw [hk.index_place hx]
  refine ⟨hpack.used_lt x hx, ?_⟩
  rcases hk.delete (size_dvd _) s.gfp.pageCache.pool.nodeMax hx with
    hrefused | ⟨hmax, slabs, p', chunks', hdel, hk', hp', -, -, hplace⟩
  · exact Or.inl hrefused
  · right
    refine ⟨hmax, slabs, hdel, h.held, _, p', chunks', hk', ?_, by rw [hp']; exact hpack.del hx⟩
    have hmap : p'.used.map slabs.place = (p.used.erase x).map s.slabs.place := by
      rw [hp']
      apply List.map_congr_left
      intro y hy
      exact hplace y (List.mem_of_mem_erase hy)
    simp only [hmap]
    refine List.Perm.cons_inv (a := s.slabs.place x) ?_
    rw [← List.map_cons]
    exact (((List.perm_cons_erase hx).map _).symm.trans hperm).trans (List.perm_cons_erase hslab)

/-- A descriptor with a new number is asked for only if all others are in use. -/
theorem Sound.call (h : Sound pageSize s peak) {c : SetCall} (hc : s.call c = some s') :
    s'.gfp.useMalloc = s.gfp.useMalloc ∧
      s.gfp.pageCache.pool.nodeMax ≤ s'.gfp.pageCache.pool.nodeMax ∧
      (Sound pageSize s' peak ∨
        c = .newSlab ∧ peak = s.descs.length ∧ Sound pageSize s' (peak + 1)) := by
  cases c with
  | newPage =>
    obtain ⟨r, halloc, rfl⟩ := Option.map_eq_some_iff.mp hc
    by_cases hmalloc : s.gfp.useMalloc = true
    -- `malloc` leaves the pools as they are
    · rw [imemGfpAlloc, if_pos hmalloc] at halloc
      split at halloc
      · obtain rfl := Option.some.inj halloc
        exact ⟨rfl, le_rfl, Or.inl ⟨fun hf => absurd (hmalloc.symm.trans hf) (by decide), h.keeps⟩⟩
      · obtain rfl := Option.some.inj halloc
        exact ⟨rfl, le_rfl, Or.inl ⟨fun hf => absurd (hmalloc.symm.trans hf) (by decide), h.keeps⟩⟩
    · rw [Bool.not_eq_true] at hmalloc
      rcases (h.held hmalloc).alloc with hnone | ⟨page, g', hsome, hheld, hmax⟩
      · cases hnone.symm.trans halloc
      · obtain rfl := Option.some.inj (hsome.symm.trans halloc)
        exact ⟨hheld.pooled.trans hmalloc.symm, hmax, Or.inl ⟨fun _ => hheld, h.keeps⟩⟩
  | freePage page =>
    rw [NodeSets.call] at hc
    split at hc
    · rename_i hpage
      obtain ⟨g', hfree, rfl⟩ := Option.map_eq_some_iff.mp hc
      have hmax : g'.pageCache.pool.nodeMax = s.gfp.pageCache.pool.nodeMax := nodeMax_imemGfpFree hfree
      have hmode : g'.useMalloc = s.gfp.useMalloc := by
        obtain ⟨pageCache, -, rfl⟩ := Option.map_eq_some_iff.mp hfree
        rfl
      refine ⟨hmode, hmax.ge, Or.inl ⟨fun hf => ?_, h.keeps⟩⟩
      obtain ⟨g1, hsome, hheld⟩ := (h.held (hmode.symm.trans hf)).free hpage
      obtain rfl := Option.some.inj (hsome.symm.trans hfree)
      exact hheld
    · cases hc
  | newSlab =>
    obtain ⟨past, p, chunks, hk, hperm, hpack⟩ := h.keeps
    obtain ⟨r, hnew, rfl⟩ := Option.map_eq_some_iff.mp hc
    rcases hk.new with hnone | ⟨x, slabs, p', chunks', hsome, hk', hcall, hused, -, hplace⟩
    · rw [imslabSetNew, hnone] at hnew
      cases hnew
    · obtain rfl := Option.some.inj (hnew.symm.trans hsome)
      have hx : x ∈ p'.used := hused ▸ List.mem_cons_self
      have hperm' : (p'.used.map slabs.place).Perm (slabs.place x :: s.descs) := by
        rw [hused, List.map_cons, List.map_congr_left hplace]
        exact hperm.cons _
      refine ⟨rfl, le_rfl, ?_⟩
      rcases hpack.new hcall (hk'.range hx).1 with hpack' | ⟨hpeak, hpack'⟩
      · exact Or.inl ⟨h.held, _, p', chunks', hk', hperm', hpack'⟩
      · right
        refine ⟨rfl, ?_, h.held, _, p', chunks', hk', hperm', hpack'⟩
        rw [hpeak, ← hperm.length_eq, List.length_map]
  | deleteSlab slab =>
    rw [NodeSets.call] at hc
    split at hc
    · rename_i hslab
      obtain ⟨-, ⟨-, hnone⟩ | ⟨-, slabs, hdel, hs⟩⟩ := h.delete hslab
      · rw [hnone] at hc
        cases hc
      · rw [hdel, Option.map_some] at hc
        obtain rfl := Option.some.inj hc
        exact ⟨rfl, le_rfl, Or.inl hs⟩
    · cases hc

theorem sound_start {pageShift : ℤ} {useMalloc : Bool} {pageMemory slabMemory : ℕ → PoolMemory}
    {malloc : ℕ → Option ℕ} {g0 : IMemGfp}
    (hinit : imemGfpInit pageShift useMalloc pageMemory malloc = some g0)
    (hpages : ∀ i j, i < j → PoolCall.Fresh (.new (pageMemory i)) (.new (pageMemory j)))
    (hslabs : ∀ i j, i < j → PoolCall.Fresh (.new (slabMemory i)) (.new (slabMemory j))) :
    Sound g0.pageSize (start g0 slabMemory) 0 := by
  refine ⟨fun hpool => ?_, [], IdPool.empty, [], NodeStore.keeps_init ((slabSize + 8 : ℕ) : ℤ) 0 hslabs,
    List.Perm.refl _, IdPool.packed_empty⟩
  have hmode : useMalloc = false := by
    obtain ⟨pageSize, -, rfl⟩ := Option.map_eq_some_iff.mp hinit
    exact hpool
  rw [hmode] at hinit
  exact IMemGfp.held_init hinit hpages

/-- Any sequence of calls keeps the pools in order. -/
theorem Sound.run {cs : List SetCall} :
    ∀ {s s' : NodeSets} {peak : ℤ}, Sound pageSize s peak → cs.foldlM NodeSets.call s = some s' →
      ∃ peak', Sound pageSize s' peak' := by
  induction cs with
  | nil =>
    intro s s' peak h hr
    obtain rfl := Option.some.inj hr
    exact ⟨peak, h⟩
  | cons c cs ih =>
    intro s s' peak h hr
    rw [List.foldlM_cons] at hr
    obtain ⟨s1, hc, hrest⟩ := Option.bind_eq_some_iff.mp hr
    rcases (h.call hc).2.2 with h1 | ⟨-, -, h1⟩
    · exact ih h1 hrest
    · exact ih h1 hrest

/-- If a page has been got for each descriptor, no number is too large. -/
theorem Sound.covered {cs : List SetCall} :
    ∀ {s s' : NodeSets} {peak : ℤ}, s.gfp.useMalloc = false → Sound pageSize s peak →
      peak ≤ s.gfp.pageCache.pool.nodeMax →
      (∀ before after t, cs = before ++ .newSlab :: after →
        before.foldlM NodeSets.call s = some t → t.descs.length < t.pages.length) →
      cs.foldlM NodeSets.call s = some s' →
      ∃ peak', Sound pageSize s' peak' ∧ peak' ≤ s'.gfp.pageCache.pool.nodeMax := by
  induction cs with
  | nil =>
    intro s s' peak _ h hle _ hr
    obtain rfl := Option.some.inj hr
    exact ⟨peak, h, hle⟩
  | cons c cs ih =>
    intro s s' peak hpool h hle hcover hr
    rw [List.foldlM_cons] at hr
    obtain ⟨s1, hc, hrest⟩ := Option.bind_eq_some_iff.mp hr
    have hcover1 : ∀ before after t, cs = before ++ .newSlab :: after →
        before.foldlM NodeSets.call s1 = some t → t.descs.length < t.pages.length := by
      intro before after t he ht
      refine hcover (c :: before) after t (by rw [he, List.cons_append]) ?_
      rw [List.foldlM_cons, hc]
      exact ht
    obtain ⟨hmode, hmax, h1 | ⟨hnew, hpeak, h1⟩⟩ := h.call hc
    · exact ih (hmode.trans hpool) h1 (le_trans hle hmax) hcover1 hrest
    · have hless := hcover [] cs s (by rw [hnew, List.nil_append]) rfl
      have hlen := (h.held hpool).lends.length_le
      exact ih (hmode.trans hpool) h1 (by omega) hcover1 hrest

variable {pageShift : ℤ} {pageMemory slabMemory : ℕ → PoolMemory} {malloc : ℕ → Option ℕ} {g0 : IMemGfp}

/-- A descriptor in use is taken back if and only if its number is smaller than
the size of the pool of pages: none at all if pages come from `malloc`. -/
theorem slab_accepted_iff {useMalloc : Bool}
    (hinit : imemGfpInit pageShift useMalloc pageMemory malloc = some g0)
    (hpages : ∀ i j, i < j → PoolCall.Fresh (.new (pageMemory i)) (.new (pageMemory j)))
    (hslabs : ∀ i j, i < j → PoolCall.Fresh (.new (slabMemory i)) (.new (slabMemory j)))
    {calls : List SetCall} (hrun : calls.foldlM NodeSets.call (start g0 slabMemory) = some s)
    {slab : ℕ} (hslab : slab ∈ s.descs) :
    (imslabSetDelete s.gfp s.slabs slab).isSome ↔
      s.slabs.index (slab - 8) < s.gfp.pageCache.pool.nodeMax := by
  -- the bound is that of the other pool: the source asks `imem_page_cache` how many nodes there are
  obtain ⟨peak, h⟩ := (sound_start hinit hpages hslabs).run hrun
  rcases (h.delete hslab).2 with ⟨hmax, hnone⟩ | ⟨hmax, slabs, hdel, -⟩
  · rw [hnone]
    exact iff_of_false (by simp) (not_lt.mpr hmax)
  · rw [hdel]
    exact iff_of_true rfl hmax

/-- The chunks of the descriptors are behind those of the pages. -/
def farMemory (i : ℕ) : PoolMemory := largeMemory (i + 1000)

theorem farMemory_fresh (i j : ℕ) (hij : i < j) :
    PoolCall.Fresh (.new (farMemory i)) (.new (farMemory j)) :=
  largeMemory_fresh _ _ (Nat.add_lt_add_right hij 1000)

/-- One page, and nine descriptors: slabs in the objects of another cache need no
page of their own. -/
def ninthSlab : List SetCall := .newPage :: List.replicate 9 .newSlab

theorem slab_accepted_iff_ninth : ∃ s slab,
    ninthSlab.foldlM NodeSets.call (start IMemGfp.largePages farMemory) = some s ∧ slab ∈ s.descs ∧
      ¬ (imslabSetDelete s.gfp s.slabs slab).isSome := by
  have hrun : (ninthSlab.foldlM NodeSets.call (start IMemGfp.largePages farMemory)).map
      (fun s => (s.descs.head?, s.slabs.index (s.descs.headD 0 - 8),
        s.gfp.pageCache.pool.nodeMax)) = some (some 66126336, 8, 8) := by decide +kernel
  obtain ⟨s, hs, he⟩ := Option.map_eq_some_iff.mp hrun
  obtain ⟨hhead, he⟩ := Prod.mk.inj he
  obtain ⟨hindex, hmax⟩ := Prod.mk.inj he
  obtain ⟨tail, htail⟩ := List.head?_eq_some_iff.mp hhead
  rw [htail, List.headD_cons] at hindex
  have hslab : 66126336 ∈ s.descs := by
    rw [htail]
    exact List.mem_cons_self
  refine ⟨s, 66126336, hs, hslab, ?_⟩
  rw [slab_accepted_iff IMemGfp.largePages_eq largeMemory_fresh farMemory_fresh hs hslab, hindex, hmax]
  decide

/-- Every descriptor in use is taken back if pages come from their pool and at each
time when a descriptor has been asked for there were more pages in use than
descriptors. -/
theorem covered_slabs_accepted (hinit : imemGfpInit pageShift false pageMemory malloc = some g0)
    (hpages : ∀ i j, i < j → PoolCall.Fresh (.new (pageMemory i)) (.new (pageMemory j)))
    (hslabs : ∀ i j, i < j → PoolCall.Fresh (.new (slabMemory i)) (.new (slabMemory j)))
    {calls : List SetCall}
    (hcover : ∀ before after t, calls = before ++ .newSlab :: after →
      before.foldlM NodeSets.call (start g0 slabMemory) = some t → t.descs.length < t.pages.length)
    (hrun : calls.foldlM NodeSets.call (start g0 slabMemory) = some s)
    {slab : ℕ} (hslab : slab ∈ s.descs) : (imslabSetDelete s.gfp s.slabs slab).isSome := by
  -- as many pages as slabs: the page pool has at least as many nodes
  have hstart : (start g0 slabMemory).gfp.useMalloc = false ∧
      0 ≤ (start g0 slabMemory).gfp.pageCache.pool.nodeMax := by
    obtain ⟨pageSize, -, rfl⟩ := Option.map_eq_some_iff.mp hinit
    exact ⟨rfl, le_rfl⟩
  obtain ⟨peak, h, hle⟩ :=
    (sound_start hinit hpages hslabs).covered hstart.1 hstart.2 hcover hrun
  obtain ⟨hlt, ⟨hmax, -⟩ | ⟨-, slabs, hdel, -⟩⟩ := h.delete hslab
  · omega
  · rw [hdel]
    rfl

theorem covered_slabs_accepted_one : ∃ s slab,
    [SetCall.newPage, .newSlab].foldlM NodeSets.call (start IMemGfp.largePages farMemory) = some s ∧
      slab ∈ s.descs ∧ (imslabSetDelete s.gfp s.slabs slab).isSome := by
  have hrun : ([SetCall.newPage, .newSlab].foldlM NodeSets.call
      (start IMemGfp.largePages farMemory)).map NodeSets.descs = some [65602048] := by decide +kernel
  obtain ⟨s, hs, he⟩ := Option.map_eq_some_iff.mp hrun
  have hslab : 65602048 ∈ s.descs := by
    rw [he]
    exact List.mem_cons_self
  have hfirst : (([SetCall.newPage].foldlM NodeSets.call
      (start IMemGfp.largePages farMemory)).map fun t => (t.descs.length, t.pages.length)) =
        some (0, 1) := by decide +kernel
  refine ⟨s, 65602048, hs, hslab, covered_slabs_accepted IMemGfp.largePages_eq largeMemory_fresh
    farMemory_fresh ?_ hs hslab⟩
  intro before after t he ht
  cases before with
  | nil => cases he
  | cons b before =>
    obtain ⟨hb, he⟩ := List.cons.inj he
    cases before with
    | nil =>
      subst hb
      rw [ht, Option.map_some] at hfirst
      obtain ⟨h1, h2⟩ := Prod.mk.inj (Option.some.inj hfirst)
      omega
    | cons b' before =>
      have hlen := congrArg List.length he
      simp at hlen

end NodeSets

end HttpsProxy
