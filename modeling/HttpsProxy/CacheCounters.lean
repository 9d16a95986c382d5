import HttpsProxy.CacheFifo
import Mathlib.Data.List.Induction

/-! The two lengths that `Cache` keeps beside its list and its file. `cache`
and `flushAll` move a length with each chunk. `clear` drops the chunks and
keeps the lengths, so what it drops is counted from then on, by the next
session of a recycled tunnel too. -/
namespace HttpsProxy

namespace Cache

/-- The lengths are those of what is held, but for `m` and `n`. -/
structure Exceeds (c : Cache) (m n : ℕ) : Prop where
  inMem : c.mLenCacheInMem = total c.mCachedList + m
  inFile : c.mLenCacheInFile = total c.mDiskCache.unread + n

theorem new_exceeds : new.Exceeds 0 0 := ⟨rfl, rfl⟩

theorem Holds.on_disk {c : Cache} {q : List Bytes} (h : c.Holds q) :
    c.mDiskCache.Holds c.mDiskCache.unread ∧ (∀ d ∈ c.mDiskCache.unread, Storable d) ∧
      q = c.mCachedList ++ c.mDiskCache.unread := by
  obtain ⟨⟨r, rfl, hr, -⟩, -, hst⟩ := h
  have hr' : ∀ d ∈ r, Storable d := fun d hd => hst d (List.mem_append_right _ hd)
  rw [hr.unread_eq hr']
  exact ⟨hr, hr', rfl⟩

/-- Caching a chunk lengthens what it goes to. -/
theorem cache_exceeds {c : Cache} {q : List Bytes} {d : Bytes} {m n : ℕ} (maxLen : ℕ)
    (h : c.Holds q) (hd : Storable d) (he : c.Exceeds m n) :
    (c.cache maxLen [] d).1.Exceeds m n := by
  obtain ⟨hr, hst, -⟩ := h.on_disk
  obtain ⟨hmem, hfile⟩ := he
  by_cases hdisk : maxLen < c.mLenCacheInMem + d.length ∨ 0 < c.mLenCacheInFile
  · -- on disk the chunk is one more unread record
    obtain ⟨hret, hwrite⟩ := DiskCache.write_holds d hr
    have hunread : (c.mDiskCache.write .ok d).2.unread = c.mDiskCache.unread ++ [d] := by
      apply hwrite.unread_eq
      intro e he
      rcases List.mem_append.mp he with he | he
      · exact hst e he
      · exact (List.mem_singleton.mp he) ▸ hd
    simp only [cache, if_pos hdisk, List.headD_nil, hret, if_true]
    refine ⟨hmem, ?_⟩
    simp only [hunread, total_append, total_cons, total_nil]
    omega
  · simp only [cache, if_neg hdisk, cacheInMem]
    refine ⟨?_, hfile⟩
    simp only [total_append, total_cons, total_nil]
    omega

/-- Clearing adds the lengths of what it drops to what is counted in excess. -/
theorem clear_exceeds {c : Cache} {m n : ℕ} (he : c.Exceeds m n) :
    c.clear.Exceeds (total c.mCachedList + m) (total c.mDiskCache.unread + n) := by
  refine ⟨?_, ?_⟩
  · simp only [clear, he.inMem, total_nil, Nat.zero_add]
  · have hnone : (DiskCache.unread c.mDiskCache.clear) = [] := rfl
    simp only [clear] at hnone ⊢
    rw [hnone, he.inFile, total_nil, Nat.zero_add]

theorem empty_iff {c : Cache} {q : List Bytes} (h : c.Holds q) (he : c.Exceeds 0 0) :
    c.empty = true ↔ c.held = [] := by
  obtain ⟨hmem, hfile⟩ := he
  have hsum : c.empty = true ↔ total c.held = 0 := by
    simp only [empty, held, total_append, Bool.and_eq_true, decide_eq_true_eq, hmem, hfile]
    omega
  rw [hsum]
  constructor
  · exact eq_nil_of_total (h.held_eq ▸ h.storable)
  · intro hnil
    rw [hnil, total_nil]

end Cache

namespace CacheHost

variable {β : Type} (take : Bytes → β → Bool × β)

/-- One round of the loop over the list. -/
theorem flushMem_plain (d : Bytes) (ds : List Bytes) (s : Hosted β) :
    (plainHost take).flushMem (d :: ds) s =
      if (take d s.host).1 then
        (plainHost take).flushMem ds
          { s with cache := s.cache.eraseFront, host := (take d s.host).2 }
      else (false, { s with host := (take d s.host).2 }) := by
  cases hr : (take d s.host).1 with
  | false => simp [flushMem, plainHost, hr]
  | true => simp [flushMem, plainHost, modify, hr]

/-- One round of the loop over the file. -/
theorem flushDisk_plain (fuel : ℕ) (s : Hosted β) {n : ℕ} {e : DiskCache} {z : ℤ} {d : Bytes}
    {e' : DiskCache} (hpeek : s.cache.mDiskCache.peeksize = (n, e)) (hread : e.read n = (z, d, e')) :
    (plainHost take).flushDisk (fuel+1) s =
      if n = 0 ∨ SSIZE_MAX < n then (true, { s with cache := { s.cache with mDiskCache := e } })
      else if z ≠ n then
        (false, ⟨{ s.cache with mDiskCache := e' }, s.host, true⟩)
      else if (take d s.host).1 then
        (plainHost take).flushDisk fuel
          { s with
            cache := { s.cache with
              mDiskCache := e'
              mLenCacheInFile := s.cache.mLenCacheInFile - n }
            host := (take d s.host).2 }
      else
        (false, { s with
          cache := { s.cache with mDiskCache := e'.rollback n }
          host := (take d s.host).2 }) := by
  have hpeek' : ((plainHost take).get s).mDiskCache.peeksize = (n, e) := hpeek
  simp only [flushDisk, hpeek', hread]
  simp [plainHost, modify]

/-- The loop over the list takes off the length of every chunk it erases. -/
theorem flushMem_exceeds (ds : List Bytes) (s : Hosted β) {m n : ℕ}
    (hl : s.cache.mCachedList = ds) (he : s.cache.Exceeds m n) :
    ((plainHost take).flushMem ds s).2.cache.Exceeds m n ∧
      ((plainHost take).flushMem ds s).2.cache.mDiskCache = s.cache.mDiskCache := by
  induction ds generalizing s with
  | nil => exact ⟨he, rfl⟩
  | cons d ds ih =>
    obtain ⟨hmem, hfile⟩ := he
    rw [flushMem_plain]
    split
    · refine ih _ ?_ ⟨?_, hfile⟩
      · simp [Cache.eraseFront, hl]
      · rw [hl, total_cons] at hmem
        simp only [Cache.eraseFront, hl, List.headD_cons, List.tail_cons]
        omega
    · exact ⟨⟨hmem, hfile⟩, rfl⟩

/-- The loop over the file takes off the length of every record taken. -/
theorem flushDisk_exceeds (fuel : ℕ) (q : List Bytes) (s : Hosted β) {m n : ℕ}
    (hh : s.cache.mDiskCache.Holds q) (hst : ∀ d ∈ q, Storable d) (he : s.cache.Exceeds m n) :
    ((plainHost take).flushDisk fuel s).2.cache.Exceeds m n := by
  induction fuel generalizing q s with
  | zero => exact he
  | succ fuel ih =>
    cases q with
    | nil =>
      rw [flushDisk_of_empty fuel s hh]
      exact he
    | cons d q =>
      have hd : Storable d := hst d List.mem_cons_self
      have hq : ∀ x ∈ q, Storable x := fun x hx => hst x (List.mem_cons_of_mem _ hx)
      obtain ⟨e, hread, hrest, hback⟩ := DiskCache.read_cons hh hd (Nat.le_refl _)
      have hpos : ¬(d.length = 0 ∨ SSIZE_MAX < d.length) := by
        have h1 := List.length_pos_iff.mpr hd.1
        have h2 := hd.2
        omega
      obtain ⟨hmem, hfile⟩ := he
      have hunread : s.cache.mDiskCache.unread = d :: q := hh.unread_eq hst
      rw [hunread, total_cons] at hfile
      rw [flushDisk_plain take fuel s (DiskCache.peeksize_cons hh hd) hread, if_neg hpos,
        if_neg (not_not.mpr rfl)]
      -- a record that is refused is put back and stays counted
      split
      · refine ih q _ hrest hq ⟨hmem, ?_⟩
        simp only [hrest.unread_eq hq]
        omega
      · refine ⟨hmem, ?_⟩
        simp only [hback.unread_eq hst, total_cons]
        exact hfile

theorem flushAll_exceeds (s : Hosted β) {q : List Bytes} {m n : ℕ} (hh : s.cache.Holds q)
    (he : s.cache.Exceeds m n) : ((plainHost take).flushAll s).2.cache.Exceeds m n := by
  obtain ⟨hr, hst, -⟩ := hh.on_disk
  obtain ⟨hmem, hdisk⟩ := flushMem_exceeds take s.cache.mCachedList s rfl he
  cases hm : (plainHost take).flushMem s.cache.mCachedList s with
  | mk ok t =>
    rw [hm] at hmem hdisk
    have hm' : (plainHost take).flushMem ((plainHost take).get s).mCachedList s = (ok, t) := hm
    cases ok with
    | false =>
      simp only [flushAll, hm']
      exact hmem
    | true =>
      simp only [flushAll, hm']
      exact flushDisk_exceeds take _ _ t (hdisk ▸ hr) hst hmem

end CacheHost

/-- The same cache and host, after `k` more calls and perhaps a failed `assert`. -/
def Hosted.older {β : Type} (k : ℕ) (a : Bool) (s : Hosted β) : Hosted β :=
  ⟨{ s.cache with touched := s.cache.touched + k }, s.host, s.aborted || a⟩

namespace CacheHost

variable {β : Type} (take : Bytes → β → Bool × β) (k : ℕ) (a : Bool)

theorem flushMem_older (ds : List Bytes) (s : Hosted β) :
    (plainHost take).flushMem ds (s.older k a) =
      (((plainHost take).flushMem ds s).1, ((plainHost take).flushMem ds s).2.older k a) := by
  induction ds generalizing s with
  | nil => rfl
  | cons d ds ih =>
    rw [flushMem_plain, flushMem_plain]
    change (if (take d s.host).1 then _ else _) = _
    split
    · exact ih { s with cache := s.cache.eraseFront, host := (take d s.host).2 }
    · rfl

theorem flushDisk_older (fuel : ℕ) (s : Hosted β) :
    (plainHost take).flushDisk fuel (s.older k a) =
      (((plainHost take).flushDisk fuel s).1, ((plainHost take).flushDisk fuel s).2.older k a) := by
  induction fuel generalizing s with
  | zero => rfl
  | succ fuel ih =>
    rcases hp : s.cache.mDiskCache.peeksize with ⟨n, e⟩
    rcases hr : e.read n with ⟨z, d, e'⟩
    have hp' : (s.older k a).cache.mDiskCache.peeksize = (n, e) := hp
    rw [flushDisk_plain take fuel s hp hr, flushDisk_plain take fuel (s.older k a) hp' hr]
    by_cases hn : n = 0 ∨ SSIZE_MAX < n
    · rw [if_pos hn, if_pos hn]
      rfl
    · rw [if_neg hn, if_neg hn]
      by_cases hz : z ≠ n
      · rw [if_pos hz, if_pos hz]
        simp only [Hosted.older, Bool.true_or]
      · rw [if_neg hz, if_neg hz]
        have hhost : take d (s.older k a).host = take d s.host := rfl
        rw [hhost]
        by_cases ht : (take d s.host).1 = true
        · rw [if_pos ht, if_pos ht]
          exact ih ⟨{ s.cache with
            mDiskCache := e'
            mLenCacheInFile := s.cache.mLenCacheInFile - n }, (take d s.host).2, s.aborted⟩
        · rw [if_neg ht, if_neg ht]
          rfl

/-- A flush looks at neither. -/
theorem flushAll_older (s : Hosted β) :
    (plainHost take).flushAll (s.older k a) =
      (((plainHost take).flushAll s).1, ((plainHost take).flushAll s).2.older k a) := by
  have hmem := flushMem_older take k a s.cache.mCachedList s
  cases hm : (plainHost take).flushMem s.cache.mCachedList s with
  | mk ok t =>
    rw [hm] at hmem
    have hs : (plainHost take).flushMem ((plainHost take).get s).mCachedList s = (ok, t) := hm
    have ho : (plainHost take).flushMem ((plainHost take).get (s.older k a)).mCachedList
        (s.older k a) = (ok, t.older k a) := hmem
    cases ok with
    | false => simp only [flushAll, hs, ho]
    | true =>
      simp only [flushAll, hs, ho]
      exact flushDisk_older take k a (diskFuel t.cache) t

end CacheHost

namespace Cache

theorem cache_older (maxLen k : ℕ) (d : Bytes) (c : Cache) :
    (cache maxLen [] d { c with touched := c.touched + k }).1 =
      { (c.cache maxLen [] d).1 with touched := (c.cache maxLen [] d).1.touched + k } := by
  have hk : c.touched + k + 1 = c.touched + 1 + k := by omega
  simp only [cache, hk]
  split
  · split <;> rfl
  · rfl

end Cache

namespace CacheUse

variable {β : Type}

def older (k : ℕ) (a : Bool) (u : CacheUse β) : CacheUse β :=
  { u with hosted := u.hosted.older k a }

/-- The chunks held in memory and those held on disk. -/
def placement (u : CacheUse β) : List Bytes × List Bytes :=
  (u.hosted.cache.mCachedList, u.hosted.cache.mDiskCache.unread)

/-- Both lengths are those of what is held, and `empty()` tells whether it is nothing. -/
structure Counted (u : CacheUse β) : Prop where
  inMem : u.hosted.cache.mLenCacheInMem = total u.hosted.cache.mCachedList
  inFile : u.hosted.cache.mLenCacheInFile = total u.hosted.cache.mDiskCache.unread
  empty : u.hosted.cache.empty = true ↔ u.held = []

/-- The accounting of a run: the lengths are right in every state, and whatever
is done after a `clear`, each chunk goes where a new cache would put it. -/
structure Accounted (maxLen : ℕ) (take : Bytes → β → Bool × β) (b : β) (ops : List CacheOp) :
    Prop where
  counted : ∀ p, p <+: ops → (run maxLen take b p).Counted
  renewed : ∀ p more, p ++ [.clear] <+: ops →
    (run maxLen take b (p ++ .clear :: more)).placement =
      (run maxLen take (run maxLen take b p).hosted.host.1 more).placement

theorem counted_iff {u : CacheUse β} (h : u.Ordered) :
    u.Counted ↔ u.hosted.cache.Exceeds 0 0 := by
  obtain ⟨q, hq, -⟩ := h
  constructor
  · exact fun hc => ⟨hc.inMem, hc.inFile⟩
  · exact fun he => ⟨he.inMem, he.inFile, Cache.empty_iff hq he⟩

variable (maxLen : ℕ) (take : Bytes → β → Bool × β)

theorem step_older (k : ℕ) (a : Bool) (u : CacheUse β) (op : CacheOp) :
    (u.older k a).step maxLen take op = (u.step maxLen take op).older k a := by
  cases op with
  | cache d =>
    simp only [step, older, Hosted.older]
    rw [Cache.cache_older]
  | flushAll =>
    have hflush := CacheHost.flushAll_older (Fifo.recording take) k a u.hosted
    simp only [step, flush, older]
    rw [hflush]
  | clear =>
    have hk : u.hosted.cache.touched + k + 1 = u.hosted.cache.touched + 1 + k := by omega
    simp only [step, older, Hosted.older, Cache.clear, hk]

theorem steps_older (k : ℕ) (a : Bool) (u : CacheUse β) (ops : List CacheOp) :
    ops.foldl (step maxLen take) (u.older k a) = (ops.foldl (step maxLen take) u).older k a := by
  induction ops generalizing u with
  | nil => rfl
  | cons op ops ih => rw [List.foldl_cons, List.foldl_cons, step_older, ih]

/-- Only `clear` changes by how much the lengths are wrong. -/
theorem step_exceeds {u : CacheUse β} {m n : ℕ} (h : u.Ordered)
    (he : u.hosted.cache.Exceeds m n) {op : CacheOp} (hop : op ≠ .clear) :
    (u.step maxLen take op).hosted.cache.Exceeds m n := by
  obtain ⟨q, hq, -⟩ := h
  cases op with
  | cache d => exact Cache.cache_exceeds maxLen hq d.2 he
  | flushAll => exact CacheHost.flushAll_exceeds (Fifo.recording take) u.hosted hq he
  | clear => exact absurd rfl hop

/-- A cleared cache that held nothing is a new one. -/
theorem step_clear_new {u : CacheUse β} (he : u.hosted.cache.Exceeds 0 0) (hheld : u.held = []) :
    u.step maxLen take .clear =
      (new u.hosted.host.1).older (u.hosted.cache.touched + 1) u.hosted.aborted := by
  obtain ⟨hmem, hfile⟩ := he
  obtain ⟨hl, hd⟩ := List.append_eq_nil_iff.mp hheld
  rw [hl] at hmem
  rw [hd] at hfile
  simp only [step, new, older, Hosted.older, Cache.clear, hmem, hfile, Cache.new, DiskCache.clear,
    DiskCache.new, total_nil, Nat.add_zero, Nat.zero_add, Bool.false_or]

theorem run_concat (b : β) (p more : List CacheOp) (op : CacheOp) :
    run maxLen take b (p ++ op :: more) =
      more.foldl (step maxLen take) ((run maxLen take b p).step maxLen take op) := by
  simp only [run, List.foldl_append, List.foldl_cons]

theorem run_exceeds (b : β) (ops : List CacheOp)
    (hc : ∀ p, p ++ [.clear] <+: ops → (run maxLen take b p).held = []) :
    (run maxLen take b ops).hosted.cache.Exceeds 0 0 := by
  induction ops using List.reverseRecOn with
  | nil => exact Cache.new_exceeds
  | append_singleton ops op ih =>
    have hops : (run maxLen take b ops).hosted.cache.Exceeds 0 0 :=
      ih fun p hp => hc p (hp.trans (List.prefix_append _ _))
    rw [run_concat, List.foldl_nil]
    cases op with
    | clear =>
      rw [step_clear_new maxLen take hops (hc ops List.prefix_rfl)]
      exact ⟨rfl, rfl⟩
    | cache d => exact step_exceeds maxLen take (run_ordered maxLen take b ops) hops nofun
    | flushAll => exact step_exceeds maxLen take (run_ordered maxLen take b ops) hops nofun

/-- A run keeps its accounts exactly if it clears the cache only while the cache
holds nothing. -/
theorem accounted_iff (b : β) (ops : List CacheOp) :
    Accounted maxLen take b ops ↔
      ∀ p, p ++ [.clear] <+: ops → (run maxLen take b p).held = [] := by
  constructor
  · intro h p hp
    have hord := run_ordered maxLen take b p
    have hbefore : (run maxLen take b p).hosted.cache.Exceeds 0 0 :=
      (counted_iff hord).mp (h.counted p ((List.prefix_append _ _).trans hp))
    have hafter := h.counted _ hp
    rw [run_concat, List.foldl_nil] at hafter
    -- right before the `clear`, the lengths are too large after it by what was held
    obtain ⟨hmem, hfile⟩ := Cache.clear_exceeds hbefore
    have hmem' : (run maxLen take b p).hosted.cache.clear.mLenCacheInMem =
        total (run maxLen take b p).hosted.cache.clear.mCachedList := hafter.inMem
    have hfile' : (run maxLen take b p).hosted.cache.clear.mLenCacheInFile =
        total (run maxLen take b p).hosted.cache.clear.mDiskCache.unread := hafter.inFile
    have hm : total (run maxLen take b p).hosted.cache.mCachedList = 0 := by omega
    have hf : total (run maxLen take b p).hosted.cache.mDiskCache.unread = 0 := by omega
    obtain ⟨q, hq, -⟩ := hord
    apply eq_nil_of_total
    · exact fun d hd => hq.storable d (hq.held_eq ▸ hd)
    · simp only [held, Cache.held, total_append, hm, hf]
  · intro hc
    constructor
    · intro p hp
      rw [counted_iff (run_ordered maxLen take b p)]
      exact run_exceeds maxLen take b p fun r hr => hc r (hr.trans hp)
    · intro p more hp
      have he := run_exceeds maxLen take b p fun r hr =>
        hc r (hr.trans ((List.prefix_append _ _).trans hp))
      rw [run_concat, step_clear_new maxLen take he (hc p hp), steps_older]
      rfl

/-- A chunk cached and dropped leaves its length behind. -/
theorem accounted_not_cleared :
    ¬Accounted 4 (fun _ (b : Unit) => (true, b)) ()
      [.cache ⟨[1, 2, 3], by decide, by decide⟩, .clear] := fun h => by
  have hlen := (h.counted _ List.prefix_rfl).inMem
  revert hlen
  decide

end CacheUse

end HttpsProxy
