import HttpsProxy.CacheSpec

/-! The rule for `flushAll`: what its callback keeps up chunk by chunk, the
whole flush keeps up, for memory and file alike. -/
namespace HttpsProxy

namespace Cache

theorem eraseFront_holds {c : Cache} {d : Bytes} {ds q : List Bytes}
    (hl : c.mCachedList = d :: ds) (h : c.Holds (d :: q)) :
    c.eraseFront.Holds q ∧ c.eraseFront.mCachedList = ds := by
  obtain ⟨⟨r, hq, hr, hlen⟩, hmem, hst⟩ := h
  have he : c.eraseFront.mCachedList = ds := by simp [eraseFront, hl]
  refine ⟨⟨⟨r, ?_, hr, hlen⟩, ?_, fun e h => hst e (List.mem_cons_of_mem _ h)⟩, he⟩
  · rw [he]
    rw [hl, List.cons_append] at hq
    exact (List.cons.inj hq).2
  · rw [he]
    rw [hl, total_cons] at hmem
    simp only [eraseFront, hl, List.headD_cons]
    omega

/-- With nothing left in memory, what is held is what the file holds. -/
theorem Holds.disk_of_nil {c : Cache} {q : List Bytes} (hl : c.mCachedList = [])
    (h : c.Holds q) : c.mDiskCache.Holds q ∧ total q ≤ c.mLenCacheInFile := by
  obtain ⟨⟨r, hq, hr, hlen⟩, -, -⟩ := h
  rw [hl, List.nil_append] at hq
  exact hq ▸ ⟨hr, hlen⟩

theorem Holds.of_disk {c : Cache} {q : List Bytes} (hl : c.mCachedList = [])
    (hd : c.mDiskCache.Holds q) (hlen : total q ≤ c.mLenCacheInFile)
    (hst : ∀ d ∈ q, Storable d) : c.Holds q :=
  ⟨⟨q, by rw [hl]; rfl, hd, hlen⟩, by rw [hl]; exact Nat.zero_le _, hst⟩

/-- The changes `flushAll` makes to the cache itself. -/
inductive Drains (c : Cache) : Cache → Prop where
  | erase : Drains c c.eraseFront
  | peek : Drains c { c with mDiskCache := c.mDiskCache.peeksize.2 }
  | read (n : ℕ) : Drains c { c with mDiskCache := (c.mDiskCache.read n).2.2 }
  | count (n : ℕ) : Drains c { c with mLenCacheInFile := c.mLenCacheInFile - n }
  | rollback (n : ℕ) : Drains c { c with mDiskCache := c.mDiskCache.rollback n }

theorem Emptied.drains {c d : Cache} (h : c.Emptied) (hd : c.Drains d) : d.Emptied := by
  obtain ⟨hl, hf⟩ := h
  cases hd with
  | erase => exact ⟨by simp [eraseFront, hl], hf⟩
  | peek => exact ⟨hl, by simp [DiskCache.peeksize, hf]⟩
  | read n => exact ⟨hl, by simp [DiskCache.read, hf]⟩
  | count n => exact ⟨hl, hf⟩
  | rollback n => exact ⟨hl, by simp [DiskCache.rollback, hf]⟩

end Cache

namespace CacheHost

variable {σ : Type}

/-- A callback called with `d` while `q` is still held behind it: it leaves the
cache alone and takes or refuses the chunk, or it empties the cache. -/
inductive Answers (H : CacheHost σ) (I : List Bytes → σ → Prop) (R : Bytes → List Bytes → σ → Prop)
    (J : σ → Prop) (d : Bytes) (q : List Bytes) (s : σ) : Prop where
  | took (same : H.get (H.func d s).2 = H.get s) (ok : (H.func d s).1 = true)
      (inv : I q (H.func d s).2)
  | refused (same : H.get (H.func d s).2 = H.get s) (ok : (H.func d s).1 = false)
      (inv : R d q (H.func d s).2)
  | emptied (changed : (H.get (H.func d s).2).touched ≠ (H.get s).touched)
      (gone : (H.get (H.func d s).2).mDiskCache.mpFile = none)
      (ok : (H.func d s).1 = true) (inv : J (H.func d s).2)

/-- The three ways in which a flush ends. -/
inductive Ends (H : CacheHost σ) (I : List Bytes → σ → Prop) (R : Bytes → List Bytes → σ → Prop)
    (J : σ → Prop) (r : Bool × σ) : Prop where
  | done (ok : r.1 = true) (inv : I [] r.2) (held : (H.get r.2).Holds [])
  | stopped (d : Bytes) (q : List Bytes) (ok : r.1 = false) (inv : R d q r.2)
      (held : (H.get r.2).Holds (d :: q))
  | emptied (inv : J r.2)

variable {H : CacheHost σ} {I : List Bytes → σ → Prop} {R : Bytes → List Bytes → σ → Prop}
  {J : σ → Prop}

section Rule

variable (hget : ∀ c s, H.get (H.put c s) = c)
  (hI : ∀ q c s, I q s → I q (H.put c s))
  (hR : ∀ d q c s, R d q s → R d q (H.put c s))
  (hJ : ∀ c s, J s → J (H.put c s))
  (hdangling : ∀ s, J s → J (H.dangling s))
  (hchanged : ∀ s, J s → J (H.changed s) ∧ H.get (H.changed s) = H.get s)
  (hfunc : ∀ d q s, Storable d → I (d :: q) s → H.Answers I R J d q s)

include hget hI hdangling hfunc in
theorem flushMem_rule (ds r : List Bytes) (s : σ) (hl : (H.get s).mCachedList = ds)
    (hh : (H.get s).Holds (ds ++ r)) (hi : I (ds ++ r) s) :
    ((H.flushMem ds s).1 = true ∧ (H.get (H.flushMem ds s).2).mCachedList = [] ∧
      (H.get (H.flushMem ds s).2).Holds r ∧ I r (H.flushMem ds s).2) ∨
    ((H.flushMem ds s).1 = false ∧ H.Ends I R J (H.flushMem ds s)) := by
  induction ds generalizing s with
  | nil => exact Or.inl ⟨rfl, hl, hh, hi⟩
  | cons d ds ih =>
    have hd : Storable d := hh.storable d List.mem_cons_self
    have ha := hfunc d (ds ++ r) s hd hi
    cases hf : H.func d s with
    | mk taken t =>
      rcases ha with ⟨hsame, hok, hinv⟩ | ⟨hsame, hok, hinv⟩ | ⟨hch, -, hok, hinv⟩ <;>
        rw [hf] at hok hinv <;> simp only at hok hinv <;> subst hok
      · rw [hf] at hsame
        obtain ⟨he, hl'⟩ := Cache.eraseFront_holds hl hh
        have hstep : H.flushMem (d :: ds) s = H.flushMem ds (H.modify Cache.eraseFront t) := by
          simp [flushMem, hf, hsame]
        have hget' : H.get (H.modify Cache.eraseFront t) = (H.get s).eraseFront := by
          rw [modify, hget, hsame]
        rw [hstep]
        exact ih _ (by rw [hget', hl']) (by rw [hget']; exact he) (hI _ _ _ hinv)
      · rw [hf] at hsame
        have hstep : H.flushMem (d :: ds) s = (false, t) := by simp [flushMem, hf]
        rw [hstep]
        exact Or.inr ⟨rfl, .stopped d (ds ++ r) rfl hinv (by simpa [hsame] using hh)⟩
      · rw [hf] at hch
        have hstep : H.flushMem (d :: ds) s = (false, H.dangling t) := by
          simp only at hch
          simp [flushMem, hf, hch]
        rw [hstep]
        exact Or.inr ⟨rfl, .emptied (hdangling _ hinv)⟩

/-- One round on an empty file ends the loop. -/
theorem flushDisk_of_empty (fuel : ℕ) (s : σ) (h : (H.get s).mDiskCache.Holds []) :
    H.flushDisk (fuel+1) s = (true, H.modify (fun c => c) s) := by
  simp only [flushDisk, DiskCache.peeksize_nil h, true_or, if_true, Prod.mk.injEq, true_and]
  rfl

include hget hI hR hJ hchanged hfunc in
theorem flushDisk_rule (fuel : ℕ) (q : List Bytes) (s : σ) (hl : (H.get s).mCachedList = [])
    (hh : (H.get s).Holds q) (hi : I q s) (hfuel : q.length < fuel) :
    H.Ends I R J (H.flushDisk fuel s) := by
  induction q generalizing fuel s with
  | nil =>
    obtain ⟨fuel, rfl⟩ : ∃ n, fuel = n+1 := ⟨fuel-1, by simp at hfuel; omega⟩
    rw [flushDisk_of_empty fuel s (hh.disk_of_nil hl).1]
    exact .done rfl (hI _ _ _ hi) (by rw [modify, hget]; exact hh)
  | cons d q ih =>
    obtain ⟨fuel, rfl⟩ : ∃ n, fuel = n+1 := ⟨fuel-1, by simp at hfuel; omega⟩
    have hd : Storable d := hh.storable d List.mem_cons_self
    obtain ⟨hdisk, hlen⟩ := hh.disk_of_nil hl
    obtain ⟨e, hread, hrest, hback⟩ := DiskCache.read_cons hdisk hd (Nat.le_refl _)
    have hpos : ¬(d.length = 0 ∨ SSIZE_MAX < d.length) := by
      have h1 := List.length_pos_iff.mpr hd.1
      have h2 := hd.2
      omega
    -- the state in which the callback is called: only the file position moved
    let u := H.modify (fun c => { c with mDiskCache := e })
      (H.modify (fun c => { c with mDiskCache := (H.get s).mDiskCache }) s)
    have hu : H.get u = { H.get s with mDiskCache := e } := by simp only [u, modify, hget]
    have ha := hfunc d q u hd (hI _ _ _ (hI _ _ _ hi))
    have hst : ∀ x ∈ q, Storable x := fun x hx => hh.storable x (List.mem_cons_of_mem _ hx)
    have hround : H.flushDisk (fuel+1) s =
        let t := if (H.get (H.func d u).2).touched ≠ (H.get u).touched
          then H.changed (H.func d u).2 else (H.func d u).2
        if (H.func d u).1 then
          H.flushDisk fuel
            (H.modify (fun c => { c with mLenCacheInFile := c.mLenCacheInFile - d.length }) t)
        else
          (false, H.modify (fun c => { c with mDiskCache := c.mDiskCache.rollback d.length }) t) := by
      simp only [flushDisk, DiskCache.peeksize_cons hdisk hd, if_neg hpos, hread, ne_eq,
        not_true_eq_false, if_false, u]
    rw [hround]
    rw [total_cons] at hlen
    rcases ha with ⟨hsame, hok, hinv⟩ | ⟨hsame, hok, hinv⟩ | ⟨hch, hgone, hok, hinv⟩
    · simp only [hsame, ne_eq, not_true_eq_false, if_false, hok, if_true]
      have hg := hget
        { H.get (H.func d u).2 with
          mLenCacheInFile := (H.get (H.func d u).2).mLenCacheInFile - d.length } (H.func d u).2
      apply ih
      · rw [modify, hg, hsame, hu]; exact hl
      · rw [modify, hg, hsame, hu]
        exact Cache.Holds.of_disk hl hrest (by simp only; omega) hst
      · exact hI _ _ _ hinv
      · simp only [List.length_cons] at hfuel; omega
    · simp only [hsame, ne_eq, not_true_eq_false, if_false, hok, Bool.false_eq_true]
      refine .stopped d q rfl (hR _ _ _ _ hinv) ?_
      rw [modify, hget, hsame, hu]
      exact Cache.Holds.of_disk hl hback (by simp only [total_cons]; omega) hh.storable
    · simp only [if_pos hch, hok, if_true]
      obtain ⟨hinv', hgc⟩ := hchanged _ hinv
      -- the callback has closed the file, so the next round finds nothing
      cases fuel with
      | zero => simp at hfuel
      | succ fuel =>
        rw [flushDisk_of_empty]
        · exact .emptied (hJ _ _ (hJ _ _ hinv'))
        · rw [modify, hget, hgc]
          simp only [DiskCache.Holds, hgone]

include hget hI hR hJ hdangling hchanged hfunc in
/-- Chunks are offered oldest first until one is refused or the callback has
emptied the cache. -/
theorem flushAll_rule (q : List Bytes) (s : σ) (hh : (H.get s).Holds q) (hi : I q s) :
    H.Ends I R J (H.flushAll s) := by
  obtain ⟨r, hq, -, -⟩ := hh.disk
  subst hq
  rcases flushMem_rule hget hI hdangling hfunc (H.get s).mCachedList r s rfl hh hi with
    ⟨hok, hl, hheld, hinv⟩ | ⟨hok, hends⟩
  · have hfuel : r.length < diskFuel (H.get (H.flushMem (H.get s).mCachedList s).2) := by
      have hdisk := (hheld.disk_of_nil hl).1
      unfold diskFuel
      cases hf : (H.get (H.flushMem (H.get s).mCachedList s).2).mDiskCache.mpFile with
      | none =>
        have : r = [] := by simpa [DiskCache.Holds, hf] using hdisk
        simp [this]
      | some f =>
        obtain ⟨old, hc, -⟩ : f.Holds r := by simpa [DiskCache.Holds, hf] using hdisk
        have := frames_length_le (k := SIZE_T) fun d hd => (hheld.storable d hd).recordable
        simp only [hc, List.length_append]
        omega
    have hall : H.flushAll s = H.flushDisk
        (diskFuel (H.get (H.flushMem (H.get s).mCachedList s).2))
        (H.flushMem (H.get s).mCachedList s).2 := by
      unfold flushAll
      split <;> simp_all
    rw [hall]
    exact flushDisk_rule hget hI hR hJ hchanged hfunc _ r _ hl hheld hinv hfuel
  · have hall : H.flushAll s = H.flushMem (H.get s).mCachedList s := by
      unfold flushAll
      split <;> simp_all
    rw [hall]
    exact hends

end Rule

section Watched

variable {P : σ → Prop} {D : Bytes → Prop} (hget : ∀ c s, H.get (H.put c s) = c)
  (hput : ∀ c s, P s → (H.get s).Drains c → P (H.put c s))
  (hD : ∀ d, d ≠ [] → D d)
  (hfunc : ∀ d s, D d → P s →
    ((H.func d s).1 = false ∨ (H.get (H.func d s).2).touched = (H.get s).touched →
      P (H.func d s).2) ∧
    ((H.get (H.func d s).2).touched ≠ (H.get s).touched →
      P (H.dangling (H.func d s).2) ∧ P (H.changed (H.func d s).2)))
  (habort : ∀ s, P s → P (H.abort s))

include hput hfunc in
theorem flushMem_watched (ds : List Bytes) (s : σ) (hds : ∀ d ∈ ds, D d) (h : P s) :
    P (H.flushMem ds s).2 := by
  induction ds generalizing s with
  | nil => exact h
  | cons d ds ih =>
    obtain ⟨hsame, htouched⟩ := hfunc d s (hds d List.mem_cons_self) h
    simp only [flushMem]
    split
    · rename_i hno
      exact hsame (Or.inl (by simpa using hno))
    · split
      · rename_i ht
        exact (htouched ht).1
      · rename_i ht
        exact ih _ (fun e he => hds e (List.mem_cons_of_mem _ he))
          (hput _ _ (hsame (Or.inr (not_not.mp ht))) .erase)

include hget hput hD hfunc habort in
theorem flushDisk_watched (fuel : ℕ) (s : σ) (h : P s) : P (H.flushDisk fuel s).2 := by
  induction fuel generalizing s with
  | zero => exact h
  | succ fuel ih =>
    have hpeek : P (H.modify (fun c => { c with mDiskCache := (H.get s).mDiskCache.peeksize.2 }) s) :=
      hput _ _ h .peek
    simp only [flushDisk]
    split
    · exact hpeek
    · rename_i hpos
      let n := (H.get s).mDiskCache.peeksize.1
      let u := H.modify (fun c => { c with mDiskCache := (H.get s).mDiskCache.peeksize.2 }) s
      let v := H.modify (fun c => { c with
        mDiskCache := ((H.get s).mDiskCache.peeksize.2.read n).2.2 }) u
      have hread : P v := by
        have hr := hput _ _ hpeek (.read n)
        have hu : (H.get u).mDiskCache = (H.get s).mDiskCache.peeksize.2 := by
          simp only [u, modify, hget]
        rwa [hu] at hr
      split
      · exact habort _ hread
      · rename_i hret
        -- a record of no bytes would have ended the loop
        have hdata : ((H.get s).mDiskCache.peeksize.2.read n).2.1 ≠ [] :=
          DiskCache.read_ne_nil (not_not.mp hret) (not_or.mp hpos).1
        obtain ⟨hsame, htouched⟩ :=
          hfunc ((H.get s).mDiskCache.peeksize.2.read n).2.1 v (hD _ hdata) hread
        have hnext : ∀ t, t = (if (H.get (H.func ((H.get s).mDiskCache.peeksize.2.read n).2.1 v).2).touched
            ≠ (H.get v).touched then H.changed (H.func ((H.get s).mDiskCache.peeksize.2.read n).2.1 v).2
            else (H.func ((H.get s).mDiskCache.peeksize.2.read n).2.1 v).2) → P t := by
          rintro t rfl
          split
          · rename_i ht
            exact (htouched ht).2
          · rename_i ht
            exact hsame (Or.inr (not_not.mp ht))
        split
        · exact ih _ (hput _ _ (hnext _ rfl) (.count _))
        · exact hput _ _ (hnext _ rfl) (.rollback _)

include hget hput hD hfunc habort in
/-- What holds before the flush holds after it, whatever the cache holds and
whatever the file gives back, if each call of the callback keeps it up, with
the record that the flush makes when the callback has touched the cache. -/
theorem flushAll_watched (s : σ) (hds : ∀ d ∈ (H.get s).mCachedList, D d) (h : P s) :
    P (H.flushAll s).2 := by
  have hmem := flushMem_watched hput hfunc (H.get s).mCachedList s hds h
  cases hm : H.flushMem (H.get s).mCachedList s with
  | mk ok t =>
    rw [hm] at hmem
    cases ok with
    | false => simp only [flushAll, hm]; exact hmem
    | true =>
      simp only [flushAll, hm]
      exact flushDisk_watched hget hput hD hfunc habort _ t hmem

end Watched

/-- The case in which the record itself changes nothing. -/
theorem flushAll_preserves {P : σ → Prop} (hget : ∀ c s, H.get (H.put c s) = c)
    (hput : ∀ c s, P s → (H.get s).Drains c → P (H.put c s))
    (hfunc : ∀ d s, P s → P (H.func d s).2) (habort : ∀ s, P s → P (H.abort s))
    (hdangling : ∀ s, P s → P (H.dangling s)) (hchanged : ∀ s, P s → P (H.changed s))
    (s : σ) (h : P s) : P (H.flushAll s).2 :=
  flushAll_watched (D := fun _ => True) hget hput (fun _ _ => trivial) (fun d t _ ht =>
    ⟨fun _ => hfunc d t ht, fun _ => ⟨hdangling _ (hfunc d t ht), hchanged _ (hfunc d t ht)⟩⟩)
    habort s (fun _ _ => trivial) h

end CacheHost

end HttpsProxy
