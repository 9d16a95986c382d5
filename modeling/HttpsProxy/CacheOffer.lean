import HttpsProxy.CacheFlush

/-! What `flushAll` passes to its callback, whatever has become of the file: the
chunks in memory, and then what the file gives back as records. -/
namespace HttpsProxy

namespace DiskCache

/-- The records found from the file position on, at most `fuel` of them. -/
def records : ℕ → DiskCache → List Bytes
  | 0, _ => []
  | fuel+1, d =>
    let (sz, d) := d.peeksize
    if sz = 0 ∨ SSIZE_MAX < sz then []
    else
      let (ret, data, d) := d.read sz
      if ret ≠ sz then [] else data :: records fuel d

/-- The bytes behind the file position. -/
def ahead (d : DiskCache) : ℕ :=
  match d.mpFile with
  | none => 0
  | some f => f.contents.length - f.pos

theorem ahead_lt_fuel (c : Cache) : c.mDiskCache.ahead < CacheHost.diskFuel c := by
  unfold ahead CacheHost.diskFuel
  cases c.mDiskCache.mpFile with
  | none => exact Nat.zero_lt_one
  | some f =>
    simp only
    omega

/-- A size that is there is found again, as the position goes back over it. -/
theorem peeksize_whole {f : File} (h : ((f.contents.drop f.pos).take SIZE_T).length = SIZE_T) :
    peeksize ⟨some f⟩ = (ofLe ((f.contents.drop f.pos).take SIZE_T), ⟨some f⟩) := by
  have hback : (File.mk f.contents (f.pos + SIZE_T)).seekBack SIZE_T = f := by
    simp [File.seekBack]
  simp [peeksize, File.fread, h, hback]

/-- With less than a size left, the position goes to the end of the file. -/
theorem peeksize_short {f : File} (h : ((f.contents.drop f.pos).take SIZE_T).length ≠ SIZE_T) :
    peeksize ⟨some f⟩ = (0, ⟨some { f with pos := f.pos + (f.contents.drop f.pos).length }⟩) := by
  have htake : (f.contents.drop f.pos).take SIZE_T = f.contents.drop f.pos := by
    apply List.take_of_length_le
    rw [List.length_take] at h
    omega
  rw [htake] at h
  simp only [peeksize, File.fread, htake, if_pos h]

theorem peeksize_stays {d : DiskCache} (h : d.peeksize.1 ≠ 0) : d.peeksize.2 = d := by
  obtain ⟨o⟩ := d
  cases o with
  | none => rfl
  | some f =>
    by_cases hw : ((f.contents.drop f.pos).take SIZE_T).length = SIZE_T
    · rw [peeksize_whole hw]
    · rw [peeksize_short hw] at h
      exact absurd rfl h

/-- A file without a record at its position has none there afterwards. -/
theorem peeksize_again {d : DiskCache} (h : d.peeksize.1 = 0) : d.peeksize.2.peeksize.1 = 0 := by
  obtain ⟨o⟩ := d
  cases o with
  | none => rfl
  | some f =>
    by_cases hw : ((f.contents.drop f.pos).take SIZE_T).length = SIZE_T
    · rw [peeksize_whole hw] at h ⊢
      simp only [peeksize_whole hw]
      exact h
    · rw [peeksize_short hw]
      have hend : f.contents.drop (f.pos + (f.contents.drop f.pos).length) = [] := by
        rw [List.drop_eq_nil_iff, List.length_drop]
        omega
      rw [peeksize_short]
      simp only [hend]
      decide

/-- Where the loop of `flushAll` ends, it would end again. -/
theorem records_end {d : DiskCache} (h : d.peeksize.1 = 0 ∨ SSIZE_MAX < d.peeksize.1) (n : ℕ) :
    d.peeksize.2.records n = [] := by
  have hagain : d.peeksize.2.peeksize.1 = 0 ∨ SSIZE_MAX < d.peeksize.2.peeksize.1 := by
    rcases h with h0 | hlt
    · exact Or.inl (peeksize_again h0)
    · rw [peeksize_stays (Nat.ne_zero_of_lt hlt)]
      exact Or.inr hlt
  cases n with
  | zero => rfl
  | succ n => simp only [records, if_pos hagain]

/-- One round of the loop. -/
theorem records_more (fuel : ℕ) {d : DiskCache} (h : ¬(d.peeksize.1 = 0 ∨ SSIZE_MAX < d.peeksize.1)) :
    d.records (fuel + 1) = if (d.peeksize.2.read d.peeksize.1).1 ≠ d.peeksize.1 then []
      else (d.peeksize.2.read d.peeksize.1).2.1 ::
        (d.peeksize.2.read d.peeksize.1).2.2.records fuel := by
  simp only [records, if_neg h]

theorem records_ne_nil {fuel : ℕ} {d : DiskCache} {e : Bytes} (h : e ∈ d.records fuel) : e ≠ [] := by
  induction fuel generalizing d with
  | zero => cases h
  | succ fuel ih =>
    by_cases hend : d.peeksize.1 = 0 ∨ SSIZE_MAX < d.peeksize.1
    · simp only [records, if_pos hend] at h
      cases h
    · rw [records_more fuel hend] at h
      split at h
      · cases h
      · rename_i hret
        rcases List.mem_cons.mp h with rfl | h
        · exact read_ne_nil (not_not.mp hret) (not_or.mp hend).1
        · exact ih h

/-- A record that is read leaves less of the file. -/
theorem read_ahead {d : DiskCache} {n : ℕ} (hn : n ≠ 0) (h : (d.read n).1 = n) :
    (d.read n).2.2.ahead < d.ahead := by
  obtain ⟨o⟩ := d
  cases o with
  | none =>
    have hz : (0 : ℤ) = n := h
    omega
  | some f =>
    -- the size and the data are both behind the position, so it moves over both
    have hlen := read_length h
    by_cases hw : ((f.contents.drop f.pos).take SIZE_T).length = SIZE_T
    · simp only [DiskCache.read, peeksize_whole hw] at h hlen ⊢
      split
      · rename_i h0
        rw [if_pos h0] at h
        exact absurd (Int.natCast_inj.mp h.symm) hn
      · rename_i h0
        split
        · rename_i hlt
          rw [if_neg h0, if_pos hlt] at h
          simp only at h
          omega
        · rename_i hlt
          rw [if_neg h0, if_neg hlt] at hlen
          simp only [File.fread, File.seekForward] at hlen ⊢
          simp only [ahead]
          rw [hlen]
          simp only [List.length_take, List.length_drop] at hlen
          omega
    · simp only [DiskCache.read, peeksize_short hw] at h
      exact absurd (Int.natCast_inj.mp h.symm) hn

end DiskCache

namespace Cache

/-- The chunks `flushAll` passes to a callback that takes them all and leaves the
cache alone. -/
def offered (c : Cache) : List Bytes :=
  c.mCachedList ++ c.mDiskCache.records (CacheHost.diskFuel c)

theorem offered_ne_nil {c : Cache} (h : ∀ d ∈ c.mCachedList, d ≠ []) : ∀ d ∈ c.offered, d ≠ [] := by
  intro d hm
  rcases List.mem_append.mp hm with hm | hm
  exacts [h d hm, DiskCache.records_ne_nil hm]

/-- Nothing is left to pass on. -/
structure Spent (c : Cache) : Prop where
  list : c.mCachedList = []
  file : ∀ n, c.mDiskCache.records n = []

theorem Spent.offered {c : Cache} (h : c.Spent) : c.offered = [] := by
  rw [Cache.offered, h.list, h.file]
  rfl

theorem Emptied.spent {c : Cache} (h : c.Emptied) : c.Spent := by
  refine ⟨h.list, fun n => ?_⟩
  cases n with
  | zero => rfl
  | succ n => simp [DiskCache.records, DiskCache.peeksize, h.file]

end Cache

namespace CacheHost

variable {σ : Type}

/-- How a flush ends whose callback takes every chunk: all has been passed on, the
`assert` on a record has failed, or the callback has emptied the cache. -/
inductive Exhausts (H : CacheHost σ) (I : List Bytes → σ → Prop) (K : σ → Prop) (r : Bool × σ) :
    Prop where
  | done (inv : I [] r.2) (spent : (H.get r.2).Spent)
  | aborted (s : σ) (inv : I [] s) (eq : r.2 = H.abort s)
  | emptied (inv : K r.2)

section Rule

variable {H : CacheHost σ} {I : List Bytes → σ → Prop} {J K : σ → Prop}
  (hget : ∀ c s, H.get (H.put c s) = c)
  (hI : ∀ q c s, I q s → (H.get s).Drains c → I q (H.put c s))
  (hK : ∀ c s, K s → (H.get s).Drains c → K (H.put c s))
  (hdangling : ∀ s, J s → K (H.dangling s))
  (hchanged : ∀ s, J s → K (H.changed s) ∧ H.get (H.changed s) = H.get s)
  (hfunc : ∀ d q s, I (d :: q) s → H.Answers I (fun _ _ _ => False) J d q s)

include hget hI hdangling hfunc in
theorem flushMem_offers (ds rs : List Bytes) (s : σ) (hl : (H.get s).mCachedList = ds)
    (hi : I (ds ++ rs) s) :
    ((H.flushMem ds s).1 = true ∧ (H.get (H.flushMem ds s).2).mCachedList = [] ∧
        (H.get (H.flushMem ds s).2).mDiskCache = (H.get s).mDiskCache ∧ I rs (H.flushMem ds s).2) ∨
      ((H.flushMem ds s).1 = false ∧ K (H.flushMem ds s).2) := by
  -- on the chunks of the list: the callback either takes the first one or empties the cache
  induction ds generalizing s with
  | nil => exact Or.inl ⟨rfl, hl, rfl, hi⟩
  | cons d ds ih =>
    have ha := hfunc d (ds ++ rs) s hi
    cases hf : H.func d s with
    | mk taken t =>
      cases ha with
      | took hsame hok hinv =>
        rw [hf] at hsame hok hinv
        simp only at hsame hok hinv
        have hstep : H.flushMem (d :: ds) s = H.flushMem ds (H.modify Cache.eraseFront t) := by
          simp [flushMem, hf, hsame, hok]
        have hnext : H.get (H.modify Cache.eraseFront t) = (H.get s).eraseFront := by
          rw [modify, hget, hsame]
        rw [hstep]
        have hrest := ih (H.modify Cache.eraseFront t) (by rw [hnext, Cache.eraseFront, hl]; rfl)
          (hI _ _ _ hinv .erase)
        rwa [hnext] at hrest
      | refused _ _ hno => exact hno.elim
      | emptied hch _ hok hinv =>
        rw [hf] at hch hok hinv
        simp only at hch hok hinv
        have hstep : H.flushMem (d :: ds) s = (false, H.dangling t) := by
          simp [flushMem, hf, hch, hok]
        rw [hstep]
        exact Or.inr ⟨rfl, hdangling _ hinv⟩

omit hget in
include hK in
/-- The loop finds no file. -/
theorem flushDisk_gone (fuel : ℕ) {s : σ} (hf : (H.get s).mDiskCache.mpFile = none) (h : K s) :
    K (H.flushDisk fuel s).2 := by
  cases fuel with
  | zero => exact h
  | succ fuel =>
    have hpeek : (H.get s).mDiskCache.peeksize = (0, (H.get s).mDiskCache) := by
      simp [DiskCache.peeksize, hf]
    have hput := hK _ s h .peek
    rw [hpeek] at hput
    simp only [flushDisk, hpeek, true_or, if_true]
    exact hput

include hget hI hK hchanged hfunc in
theorem flushDisk_offers (fuel : ℕ) (s : σ) (hl : (H.get s).mCachedList = [])
    (hfuel : (H.get s).mDiskCache.ahead < fuel) (hi : I ((H.get s).mDiskCache.records fuel) s) :
    H.Exhausts I K (H.flushDisk fuel s) := by
  -- on the fuel, of which there is more than bytes behind the position
  induction fuel generalizing s with
  | zero => exact absurd hfuel (Nat.not_lt_zero _)
  | succ fuel ih =>
    let d := (H.get s).mDiskCache
    let u := H.modify (fun c => { c with mDiskCache := d.peeksize.2 }) s
    have hu : H.get u = { H.get s with mDiskCache := d.peeksize.2 } := by simp only [u, modify, hget]
    change I (d.records (fuel + 1)) s at hi
    by_cases hend : d.peeksize.1 = 0 ∨ SSIZE_MAX < d.peeksize.1
    · have hround : H.flushDisk (fuel + 1) s = (true, u) := by
        simp only [flushDisk]
        exact if_pos hend
      -- the file has no further record, and the loop leaves it so
      have hnone : d.records (fuel + 1) = [] := by simp only [DiskCache.records, if_pos hend]
      rw [hnone] at hi
      rw [hround]
      exact .done (hI _ _ _ hi .peek) ⟨by rw [hu]; exact hl, by rw [hu]; exact DiskCache.records_end hend⟩
    · -- the state in which the callback is called: only the file position moved
      let v := H.modify (fun c => { c with mDiskCache := (d.peeksize.2.read d.peeksize.1).2.2 }) u
      have hv : H.get v = { H.get s with mDiskCache := (d.peeksize.2.read d.peeksize.1).2.2 } := by
        simp only [v, modify, hget, hu]
      have hread : ∀ q, I q s → I q v := by
        intro q hq
        have hd : (H.get u).mDiskCache = d.peeksize.2 := by rw [hu]
        have hr := hI q _ u (hI q _ s hq .peek) (.read d.peeksize.1)
        rwa [hd] at hr
      rw [DiskCache.records_more fuel hend] at hi
      by_cases hret : (d.peeksize.2.read d.peeksize.1).1 = d.peeksize.1
      · rw [if_neg (not_not.mpr hret)] at hi
        have ha := hfunc _ _ v (hread _ hi)
        have hround : H.flushDisk (fuel + 1) s =
            let r := H.func (d.peeksize.2.read d.peeksize.1).2.1 v
            let t := if (H.get r.2).touched ≠ (H.get v).touched then H.changed r.2 else r.2
            if r.1 then H.flushDisk fuel
              (H.modify (fun c => { c with mLenCacheInFile := c.mLenCacheInFile - d.peeksize.1 }) t)
            else (false, H.modify (fun c => { c with
              mDiskCache := c.mDiskCache.rollback d.peeksize.1 }) t) := by
          simp only [flushDisk]
          rw [if_neg hend, if_neg (not_not.mpr hret)]
        rw [hround]
        cases ha with
        | took hsame hok hinv =>
          simp only [hsame, ne_eq, not_true_eq_false, if_false, hok, if_true]
          have hnext : I ((d.peeksize.2.read d.peeksize.1).2.2.records fuel)
              (H.modify (fun c => { c with mLenCacheInFile := c.mLenCacheInFile - d.peeksize.1 })
                (H.func (d.peeksize.2.read d.peeksize.1).2.1 v).2) := hI _ _ _ hinv (.count _)
          have hless : (d.peeksize.2.read d.peeksize.1).2.2.ahead < d.ahead := by
            have hr := DiskCache.read_ahead (not_or.mp hend).1 hret
            rwa [DiskCache.peeksize_stays (not_or.mp hend).1] at hr ⊢
          apply ih
          · rw [modify, hget, hsame, hv]
            exact hl
          · rw [modify, hget, hsame, hv]
            exact lt_of_lt_of_le hless (Nat.lt_succ_iff.mp hfuel)
          · have hdisk : (H.get (H.modify (fun c => { c with
                mLenCacheInFile := c.mLenCacheInFile - d.peeksize.1 })
                (H.func (d.peeksize.2.read d.peeksize.1).2.1 v).2)).mDiskCache =
                  (d.peeksize.2.read d.peeksize.1).2.2 := by
              rw [modify, hget, hsame, hv]
            rw [hdisk]
            exact hnext
        | refused _ _ hno => exact hno.elim
        | emptied hch hgone hok hinv =>
          obtain ⟨hafter, hkept⟩ := hchanged _ hinv
          simp only [if_pos hch, hok, if_true]
          refine .emptied (flushDisk_gone hK fuel ?_ (hK _ _ hafter (.count _)))
          rw [modify, hget, hkept]
          exact hgone
      · rw [if_pos hret] at hi
        have hround : H.flushDisk (fuel + 1) s = (false, H.abort v) := by
          simp only [flushDisk]
          rw [if_neg hend, if_pos hret]
        -- the record is shorter than its size says: `assert` fails before the callback
        rw [hround]
        exact .aborted v (hread _ hi) rfl

include hget hI hK hdangling hchanged hfunc in
/-- Chunk after chunk is passed on, whatever the file gives back. -/
theorem flushAll_offers (s : σ) (hi : I (H.get s).offered s) : H.Exhausts I K (H.flushAll s) := by
  rcases flushMem_offers hget hI hdangling hfunc _ _ s rfl hi with ⟨hok, hl, hdisk, hinv⟩ | ⟨hok, hinv⟩
  · cases hm : H.flushMem (H.get s).mCachedList s with
    | mk ok t =>
      rw [hm] at hok hl hdisk hinv
      simp only at hok hl hdisk hinv
      subst hok
      have hfuel : diskFuel (H.get t) = diskFuel (H.get s) := by
        unfold diskFuel
        rw [hdisk]
      simp only [flushAll, hm]
      refine flushDisk_offers hget hI hK hchanged hfunc _ t hl (DiskCache.ahead_lt_fuel _) ?_
      rw [hfuel, hdisk]
      exact hinv
  · cases hm : H.flushMem (H.get s).mCachedList s with
    | mk ok t =>
      rw [hm] at hok hinv
      simp only at hok hinv
      subst hok
      simp only [flushAll, hm]
      exact .emptied hinv

end Rule

end CacheHost

end HttpsProxy
