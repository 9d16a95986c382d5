import HttpsProxy.CacheFifo
import Mathlib.Data.List.Induction

/-! `Cache` when the disk refuses chunks. A chunk whose write fails goes to
memory, and `flushAll` delivers memory before the file. -/
namespace HttpsProxy

namespace DiskCache

/-- What stands on disk; a file not yet created is an empty one. -/
def file (d : DiskCache) : File := d.mpFile.getD File.empty

/-- The write goes through, or it fails and changes neither contents nor position. -/
def Harmless (w : WriteRes) (data : Bytes) (d : DiskCache) : Prop :=
  d.write w data = d.write .ok data ∨
    (d.write w data).1 < 0 ∧ (d.write w data).2.file = d.file

instance (w : WriteRes) (data : Bytes) (d : DiskCache) : Decidable (Harmless w data d) :=
  inferInstanceAs (Decidable (_ ∨ _))

theorem holds_file {d : DiskCache} {r : List Bytes} : d.Holds r ↔ d.file.Holds r := by
  cases hf : d.mpFile with
  | some f => simp [Holds, file, hf]
  | none =>
    simp only [Holds, file, hf, Option.getD_none]
    constructor
    · rintro rfl
      exact ⟨[], rfl, rfl⟩
    · rintro ⟨old, hc, -⟩
      have hnil : frames SIZE_T r = [] := (List.append_eq_nil_iff.mp hc.symm).2
      cases r with
      | nil => rfl
      | cons x r =>
        -- a record has at least its header
        have hlen := congrArg List.length hnil
        rw [frames_cons, List.length_append, leBytes_length] at hlen
        simp [SIZE_T] at hlen

end DiskCache

/-- Moving an element from the end of a list to its front. -/
theorem cons_eq_concat_iff {α : Type} {d : α} {r : List α} : d :: r = r ++ [d] ↔ ∀ e ∈ r, e = d := by
  induction r with
  | nil => simp
  | cons e r ih =>
    rw [List.cons_append, List.cons.injEq, List.forall_mem_cons]
    constructor
    · rintro ⟨rfl, h⟩
      exact ⟨rfl, ih.mp h⟩
    · rintro ⟨rfl, h⟩
      exact ⟨rfl, ih.mpr h⟩

namespace Cache

/-- `cache` does not try the disk, or its write goes through, or the failed
write is noticed (the code differs from the length as an `int`) while no other
chunk waits on disk. -/
def KeepsOrder (maxLen : ℕ) (w : WriteRes) (d : Bytes) (c : Cache) : Prop :=
  (maxLen < c.mLenCacheInMem + d.length ∨ 0 < c.mLenCacheInFile) →
    (c.mDiskCache.write w d).1 < 0 →
      toInt32 (c.mDiskCache.write w d).1 ≠ toInt32 d.length ∧ ∀ e ∈ c.mDiskCache.unread, e = d

instance (maxLen : ℕ) (w : WriteRes) (d : Bytes) (c : Cache) :
    Decidable (KeepsOrder maxLen w d c) :=
  inferInstanceAs (Decidable (_ → _ → _))

/-- After a failed write that is noticed, the chunk stands before what is on disk. -/
theorem cache_fallback {c : Cache} {r : List Bytes} {d : Bytes} {w : WriteRes} (maxLen : ℕ)
    (h : c.Holds (c.mCachedList ++ r)) (hr : c.mDiskCache.Holds r) (hd : Storable d)
    (hdisk : maxLen < c.mLenCacheInMem + d.length ∨ 0 < c.mLenCacheInFile)
    (hfile : (c.mDiskCache.write w d).2.file = c.mDiskCache.file)
    (hcode : toInt32 (c.mDiskCache.write w d).1 ≠ toInt32 d.length) :
    (c.cache maxLen [w] d).1.Holds (c.mCachedList ++ [d] ++ r) := by
  obtain ⟨⟨r', hq, hr', hlen⟩, hmem, hst⟩ := h
  obtain rfl := List.append_cancel_left hq
  simp only [cache, if_pos hdisk, List.headD_cons, hcode, if_false, cacheInMem]
  refine ⟨⟨r, rfl, DiskCache.holds_file.mpr (hfile ▸ DiskCache.holds_file.mp hr), hlen⟩, ?_, ?_⟩
  · simp only [total_append, total_cons, total_nil]
    omega
  · intro e he
    rcases List.mem_append.mp he with he | he
    · rcases List.mem_append.mp he with he | he
      · exact hst e (List.mem_append_left _ he)
      · exact List.mem_singleton.mp he ▸ hd
    · exact hst e (List.mem_append_right _ he)

/-- What is held after `cache`: everything in order exactly under that condition. -/
theorem cache_harmless {c : Cache} {q : List Bytes} {d : Bytes} {w : WriteRes} (maxLen : ℕ)
    (h : c.Holds q) (hd : Storable d) (hw : c.mDiskCache.Harmless w d) :
    ∃ q', (c.cache maxLen [w] d).1.Holds q' ∧ (q' = q ++ [d] ↔ c.KeepsOrder maxLen w d) := by
  have hok : (c.cache maxLen [] d).1.Holds (q ++ [d]) := (cache_holds maxLen h hd (by simp)).1
  by_cases hdisk : maxLen < c.mLenCacheInMem + d.length ∨ 0 < c.mLenCacheInFile
  · rcases hw with hw | ⟨hneg, hfile⟩
    · -- a write that goes through is the write of the case without failures
      obtain ⟨⟨r, -, hr, -⟩, -, -⟩ := h
      have hret := (DiskCache.write_holds d hr).1
      have hsame : (c.cache maxLen [w] d).1 = (c.cache maxLen [] d).1 := by
        simp only [cache, if_pos hdisk, List.headD_cons, List.headD_nil, hw, hret, if_true]
      have hpos : ¬(c.mDiskCache.write w d).1 < 0 := by
        rw [hw, hret]
        omega
      exact ⟨q ++ [d], hsame ▸ hok, iff_of_true rfl fun _ hn => absurd hn hpos⟩
    · obtain ⟨⟨r, hq, hr, hlen⟩, hmem, hst⟩ := h
      have hr' : (c.mDiskCache.write w d).2.Holds r :=
        DiskCache.holds_file.mpr (hfile ▸ DiskCache.holds_file.mp hr)
      by_cases hcode : toInt32 (c.mDiskCache.write w d).1 = toInt32 d.length
      · refine ⟨q, ?_, ?_⟩
        · simp only [cache, if_pos hdisk, List.headD_cons, hcode, if_true]
          exact ⟨⟨r, hq, hr', by change total r ≤ _ + _; omega⟩, hmem, hst⟩
        · refine iff_of_false (fun hself => ?_) fun hk => (hk hdisk hneg).1 hcode
          have := congrArg List.length hself
          simp at this
      · refine ⟨c.mCachedList ++ [d] ++ r, ?_, ?_⟩
        · exact cache_fallback maxLen ⟨⟨r, rfl, hr, hlen⟩, hmem, hq ▸ hst⟩ hr hd hdisk hfile hcode
        · have hun : c.mDiskCache.unread = r :=
            hr.unread_eq fun e he => hst e (hq ▸ List.mem_append_right _ he)
          rw [hq, List.append_assoc, List.append_assoc, List.append_cancel_left_eq,
            List.singleton_append, cons_eq_concat_iff]
          simp only [KeepsOrder, hun]
          exact ⟨fun he _ _ => ⟨hcode, he⟩, fun hk => (hk hdisk hneg).2⟩
  · have hsame : (c.cache maxLen [w] d).1 = (c.cache maxLen [] d).1 := by
      simp only [cache, if_neg hdisk]
    exact ⟨q ++ [d], hsame ▸ hok, iff_of_true rfl fun ht => absurd ht hdisk⟩

end Cache

/-- A call of `cache` with the answers its disk write gets, or of `flushAll`. -/
inductive TryOp where
  | cache (d : Chunk) (w : WriteRes)
  | flushAll

namespace CacheUse

variable {β : Type}

/-- A callback that accepts everything. -/
def accept (take : Bytes → β → β) (d : Bytes) (b : β) : Bool × β := (true, take d b)

def attempt (maxLen : ℕ) (take : Bytes → β → β) (u : CacheUse β) : TryOp → CacheUse β
  | .cache d w =>
    ⟨{ u.hosted with cache := (u.hosted.cache.cache maxLen [w] d.1).1 }, u.cached ++ [d.1]⟩
  | .flushAll => (u.flush (accept take)).2

def attempts (maxLen : ℕ) (take : Bytes → β → β) (b : β) (ops : List TryOp) : CacheUse β :=
  ops.foldl (attempt maxLen take) (new b)

/-- Every write of the run goes through or fails without side effects. -/
def HarmlessRun (maxLen : ℕ) (take : Bytes → β → β) (b : β) (ops : List TryOp) : Prop :=
  ∀ p d w, p ++ [.cache d w] <+: ops →
    (attempts maxLen take b p).hosted.cache.mDiskCache.Harmless w d.1

/-- What has been delivered once the cache is flushed. -/
def delivered (take : Bytes → β → β) (u : CacheUse β) : List Bytes :=
  Fifo.taken (u.flush (accept take)).2.offers

theorem drain_accept (take : Bytes → β → β) (q : List Bytes) (b : β) (l : List (Bytes × Bool)) :
    ∃ b', Fifo.drain (Fifo.recording (accept take)) q (b, l) =
      (true, [], b', l ++ q.map fun d => (d, true)) := by
  induction q generalizing b l with
  | nil => exact ⟨b, by simp [Fifo.drain]⟩
  | cons d q ih =>
    obtain ⟨b', hd⟩ := ih (take d b) (l ++ [(d, true)])
    refine ⟨b', ?_⟩
    have hrec : Fifo.recording (accept take) d (b, l) = (true, take d b, l ++ [(d, true)]) := rfl
    rw [Fifo.drain, hrec]
    simpa using hd

/-- A flush delivers what is held, in the order of the two stores. -/
theorem flush_accept (take : Bytes → β → β) {u : CacheUse β} {q : List Bytes}
    (h : u.hosted.cache.Holds q) :
    u.delivered take = Fifo.taken u.offers ++ q ∧
      (u.flush (accept take)).2.hosted.cache.Holds [] := by
  obtain ⟨-, hhost, hheld⟩ := flushAll_drains (Fifo.recording (accept take)) u.hosted q h
  obtain ⟨b', hd⟩ := drain_accept take q u.hosted.host.1 u.hosted.host.2
  rw [hd] at hhost hheld
  have hoff : (u.flush (accept take)).2.offers = u.offers ++ q.map fun d => (d, true) :=
    congrArg Prod.snd hhost
  refine ⟨?_, hheld⟩
  rw [delivered, hoff, Fifo.taken_append]
  simp [Fifo.taken, List.filter_map, Function.comp_def]

theorem delivered_iff (take : Bytes → β → β) {u : CacheUse β} {q : List Bytes}
    (h : u.hosted.cache.Holds q) : u.delivered take = u.cached ↔ u.Ordered := by
  rw [(flush_accept take h).1]
  constructor
  · exact fun hq => ⟨q, h, hq⟩
  · rintro ⟨r, hr, hord⟩
    rwa [show q = r from h.held_eq.symm.trans hr.held_eq]

/-- What one call does to an ordered cache: `flushAll` keeps the order, `cache`
keeps it exactly under its condition. -/
theorem attempt_ordered (maxLen : ℕ) (take : Bytes → β → β) {u : CacheUse β} (h : u.Ordered)
    (d : Chunk) (w : WriteRes) (hw : u.hosted.cache.mDiskCache.Harmless w d.1) :
    ((u.attempt maxLen take (.cache d w)).delivered take =
        (u.attempt maxLen take (.cache d w)).cached ↔
      u.hosted.cache.KeepsOrder maxLen w d.1) ∧
    (u.hosted.cache.KeepsOrder maxLen w d.1 → (u.attempt maxLen take (.cache d w)).Ordered) := by
  obtain ⟨q, hq, hord⟩ := h
  obtain ⟨q', hq', hiff⟩ := Cache.cache_harmless maxLen hq d.2 hw
  have hv : (u.attempt maxLen take (.cache d w)).hosted.cache.Holds q' := hq'
  have hdel : (u.attempt maxLen take (.cache d w)).delivered take =
      (u.attempt maxLen take (.cache d w)).cached ↔ q' = q ++ [d.1] := by
    rw [(flush_accept take hv).1]
    change Fifo.taken u.offers ++ q' = u.cached ++ [d.1] ↔ _
    rw [← hord, List.append_assoc, List.append_cancel_left_eq]
  exact ⟨hdel.trans hiff, fun hk => (delivered_iff take hv).mp (hdel.mpr (hiff.mpr hk))⟩

theorem attempt_flushAll (maxLen : ℕ) (take : Bytes → β → β) {u : CacheUse β} (h : u.Ordered) :
    (u.attempt maxLen take .flushAll).Ordered := by
  obtain ⟨q, hq, hord⟩ := h
  obtain ⟨hdel, hheld⟩ := flush_accept take hq
  exact ⟨[], hheld, by rw [List.append_nil]; exact hdel.trans hord⟩

theorem attempts_concat (maxLen : ℕ) (take : Bytes → β → β) (b : β) (ops : List TryOp)
    (op : TryOp) : attempts maxLen take b (ops ++ [op]) =
      (attempts maxLen take b ops).attempt maxLen take op := by
  simp [attempts]

/-- A property of all calls of `cache` in a run, at the last operation. -/
theorem forall_cache_concat {P : List TryOp → Chunk → WriteRes → Prop} {ops : List TryOp}
    {op : TryOp} : (∀ p d w, p ++ [.cache d w] <+: ops ++ [op] → P p d w) ↔
      (∀ p d w, p ++ [.cache d w] <+: ops → P p d w) ∧ ∀ d w, op = .cache d w → P ops d w := by
  constructor
  · intro h
    refine ⟨fun p d w hp => h p d w (hp.trans (List.prefix_append ops [op])), ?_⟩
    rintro d w rfl
    exact h ops d w List.prefix_rfl
  · rintro ⟨hinit, hlast⟩ p d w hp
    rcases List.prefix_concat_iff.mp hp with he | hp
    · obtain ⟨rfl, hop⟩ := List.append_inj' he rfl
      exact hlast d w (List.cons.inj hop).1.symm
    · exact hinit p d w hp

/-- As long as every write keeps the order, the cache is ordered. -/
theorem attempts_ordered (maxLen : ℕ) (take : Bytes → β → β) (b : β) (ops : List TryOp)
    (hr : HarmlessRun maxLen take b ops)
    (hk : ∀ p d w, p ++ [.cache d w] <+: ops →
      (attempts maxLen take b p).hosted.cache.KeepsOrder maxLen w d.1) :
    (attempts maxLen take b ops).Ordered := by
  induction ops using List.reverseRecOn with
  | nil => exact ⟨[], Cache.new_emptied.holds, rfl⟩
  | append_singleton ops op ih =>
    obtain ⟨hrinit, hrlast⟩ := forall_cache_concat.mp hr
    obtain ⟨hkinit, hklast⟩ := forall_cache_concat.mp hk
    have hord := ih hrinit hkinit
    rw [attempts_concat]
    cases op with
    | cache d w =>
      exact (attempt_ordered maxLen take hord d w (hrlast d w rfl)).2 (hklast d w rfl)
    | flushAll => exact attempt_flushAll maxLen take hord

theorem ordered_of_delivered (maxLen : ℕ) (take : Bytes → β → β) (b : β) (ops : List TryOp)
    (hr : HarmlessRun maxLen take b ops)
    (hd : ∀ p, p <+: ops → (attempts maxLen take b p).delivered take =
      (attempts maxLen take b p).cached) : (attempts maxLen take b ops).Ordered := by
  induction ops using List.reverseRecOn with
  | nil => exact ⟨[], Cache.new_emptied.holds, rfl⟩
  | append_singleton ops op ih =>
    obtain ⟨hrinit, hrlast⟩ := forall_cache_concat.mp hr
    have hord := ih hrinit fun p hp => hd p (hp.trans (List.prefix_append ops [op]))
    have hlast := hd _ List.prefix_rfl
    rw [attempts_concat] at hlast ⊢
    cases op with
    | cache d w =>
      have hiff := attempt_ordered maxLen take hord d w (hrlast d w rfl)
      exact hiff.2 (hiff.1.mp hlast)
    | flushAll => exact attempt_flushAll maxLen take hord

/-- In a run whose writes may fail without side effects, a flush at any time
completes the delivery of all chunks, each once and in the order in which they
were cached, exactly if every call of `cache` keeps the order. -/
theorem failing_order_iff (maxLen : ℕ) (take : Bytes → β → β) (b : β) (ops : List TryOp)
    (hr : HarmlessRun maxLen take b ops) :
    (∀ p, p <+: ops → (attempts maxLen take b p).delivered take =
        (attempts maxLen take b p).cached) ↔
      ∀ p d w, p ++ [.cache d w] <+: ops →
        (attempts maxLen take b p).hosted.cache.KeepsOrder maxLen w d.1 := by
  constructor
  -- the order before the attempt comes from the delivery of all shorter runs
  · intro hd p d w hp
    have hpre : p <+: ops := (List.prefix_append p _).trans hp
    have hord := ordered_of_delivered maxLen take b p
      (fun p' d' w' hp' => hr p' d' w' (hp'.trans hpre)) fun p' hp' => hd p' (hp'.trans hpre)
    have hnow := hd _ hp
    rw [attempts_concat] at hnow
    exact (attempt_ordered maxLen take hord d w (hr p d w hp)).1.mp hnow
  -- conversely each attempt keeps the order, and an ordered cache is delivered in order
  · intro hk p hp
    obtain ⟨q, hq, hord⟩ := attempts_ordered maxLen take b p
      (fun p' d' w' hp' => hr p' d' w' (hp'.trans hp)) fun p' d' w' hp' => hk p' d' w' (hp'.trans hp)
    rw [(flush_accept take hq).1, hord]

/-- A `ftell` that fails. -/
def noTell : WriteRes := { ftell := false }

/-- Over a threshold of 4 bytes: the disk is refused while it holds nothing, and
used for the chunk after that. -/
def keptRun : List TryOp :=
  [] ++ [.cache ⟨[1, 2, 3], by simp, by decide⟩ .ok] ++
    [.cache ⟨[4, 5, 6], by simp, by decide⟩ noTell] ++ [.cache ⟨[7], by simp, by decide⟩ .ok]

theorem failing_order_iff_kept : HarmlessRun 4 (fun _ (b : Unit) => b) () keptRun ∧
    ∀ p, p <+: keptRun → (attempts 4 (fun _ (b : Unit) => b) () p).delivered (fun _ b => b) =
      (attempts 4 (fun _ (b : Unit) => b) () p).cached := by
  have hharmless : HarmlessRun 4 (fun _ (b : Unit) => b) () keptRun := by
    refine forall_cache_concat.mpr ⟨forall_cache_concat.mpr ⟨forall_cache_concat.mpr
      ⟨fun p d w hp => by simp at hp, ?_⟩, ?_⟩, ?_⟩ <;>
      · rintro d w ⟨⟩
        decide +kernel
  refine ⟨hharmless, (failing_order_iff 4 (fun _ b => b) () keptRun hharmless).mpr ?_⟩
  refine forall_cache_concat.mpr ⟨forall_cache_concat.mpr ⟨forall_cache_concat.mpr
    ⟨fun p d w hp => by simp at hp, ?_⟩, ?_⟩, ?_⟩ <;>
    · rintro d w ⟨⟩
      decide +kernel

theorem write_noTell {d : DiskCache} (data : Bytes) (h : d.mpFile ≠ none) :
    d.write noTell data = (-10, d) := by
  cases hf : d.mpFile with
  | none => exact absurd hf h
  | some f => simp [DiskCache.write, hf, noTell]

/-- A chunk above the tunnel's threshold of 256 KiB, which goes to disk at once,
and one whose write is refused after it. -/
def overtakingRun (big : Chunk) : List TryOp :=
  [] ++ [.cache big .ok] ++ [.cache ⟨[7], by simp, by decide⟩ noTell]

/-- The second chunk is delivered before the first. -/
theorem failing_order_overtakes :
    ∃ big : Chunk, HarmlessRun (256*1024) (fun _ (b : Unit) => b) () (overtakingRun big) ∧
      (attempts (256*1024) (fun _ (b : Unit) => b) () (overtakingRun big)).delivered
        (fun _ b => b) = [[7], big.1] ∧
      (attempts (256*1024) (fun _ (b : Unit) => b) () (overtakingRun big)).cached =
        [big.1, [7]] := by
  obtain ⟨data, hlen⟩ : ∃ data : Bytes, data.length = 262145 :=
    ⟨List.replicate 262145 0, List.length_replicate⟩
  have hbig : Storable data := ⟨List.ne_nil_of_length_eq_add_one hlen, by rw [hlen]; decide⟩
  let c := (Cache.new.cache (256*1024) [.ok] data).1
  have hc : c = { Cache.new with
      mDiskCache := (DiskCache.new.write .ok data).2
      mLenCacheInFile := 262145
      touched := 1 } := by
    have hover : 256*1024 < Cache.new.mLenCacheInMem + data.length ∨
        0 < Cache.new.mLenCacheInFile := by
      rw [hlen]
      decide
    have hret := (DiskCache.write_holds (d := DiskCache.new) data (q := []) rfl).1
    simp only [c, Cache.cache, if_pos hover, List.headD_cons]
    simp only [Cache.new, hret, if_true, hlen, Nat.zero_add]
  have hdisk : c.mDiskCache.Holds [data] := by
    rw [hc]
    exact (DiskCache.write_holds (d := DiskCache.new) data (q := []) rfl).2
  have hnil : c.mCachedList = [] := by
    rw [hc]
    rfl
  have hfile : 0 < c.mLenCacheInFile := by
    rw [hc]
    exact Nat.succ_pos _
  have hholds : c.Holds (c.mCachedList ++ [data]) := by
    rw [hnil]
    change (Cache.new.cache (256*1024) [.ok] data).1.Holds ([] ++ [data])
    exact (Cache.cache_holds (256*1024) Cache.new_emptied.holds hbig (by simp)).1
  have hwrite : c.mDiskCache.write noTell [7] = (-10, c.mDiskCache) := by
    apply write_noTell
    intro hnone
    simp [DiskCache.Holds, hnone] at hdisk
  have hneg : (c.mDiskCache.write noTell [7]).1 = -10 := congrArg Prod.fst hwrite
  have hkeep : (c.mDiskCache.write noTell [7]).2.file = c.mDiskCache.file :=
    congrArg (fun r => DiskCache.file r.2) hwrite
  have hsecond := Cache.cache_fallback (256*1024) hholds hdisk
    (d := [7]) ⟨by simp, by decide⟩ (Or.inr hfile) hkeep (by rw [hneg]; decide)
  rw [hnil] at hsecond
  refine ⟨⟨data, hbig⟩, ?_, ?_, rfl⟩
  · refine forall_cache_concat.mpr ⟨forall_cache_concat.mpr
      ⟨fun p d w hp => by simp at hp, ?_⟩, ?_⟩
    · rintro d w ⟨⟩
      exact Or.inl rfl
    · rintro d w ⟨⟩
      exact Or.inr ⟨hneg.trans_lt (by decide), hkeep⟩
  · exact (flush_accept (fun _ b => b) (u := attempts (256*1024) (fun _ b => b) ()
      (overtakingRun ⟨data, hbig⟩)) hsecond).1

end CacheUse

end HttpsProxy
