import HttpsProxy.Cache
import HttpsProxy.Records
import HttpsProxy.Fifo

/-! While the stdio calls succeed, `DiskCache` holds a queue of records behind
its file position, and `Cache` holds the chunks in memory followed by those. -/
namespace HttpsProxy

/-- A chunk whose size is a positive `ssize_t`. -/
def Storable (d : Bytes) : Prop := d ≠ [] ∧ d.length ≤ SSIZE_MAX

theorem Storable.recordable {d : Bytes} (h : Storable d) : Recordable SIZE_T d := by
  have h2 := h.2
  refine ⟨h.1, ?_⟩
  unfold SSIZE_MAX at h2
  unfold SIZE_T
  omega

/-- The total length of some chunks. -/
def total (q : List Bytes) : ℕ := (q.map List.length).sum

@[simp] theorem total_nil : total [] = 0 := rfl

@[simp] theorem total_cons (d : Bytes) (q : List Bytes) : total (d :: q) = d.length + total q := by
  simp [total]

@[simp] theorem total_append (q r : List Bytes) : total (q ++ r) = total q + total r := by
  simp [total]

theorem eq_nil_of_total {q : List Bytes} (h : ∀ d ∈ q, Storable d) (h0 : total q = 0) : q = [] := by
  cases q with
  | nil => rfl
  | cons d q =>
    have := List.length_pos_iff.mpr (h d List.mem_cons_self).1
    rw [total_cons] at h0
    omega

namespace File

/-- The records behind the position are `q`. -/
def Holds (f : File) (q : List Bytes) : Prop :=
  ∃ old, f.contents = old ++ frames SIZE_T q ∧ f.pos = old.length

theorem Holds.drop {f : File} {q : List Bytes} (h : f.Holds q) :
    f.contents.drop f.pos = frames SIZE_T q := by
  obtain ⟨old, hc, hp⟩ := h
  rw [hc, hp, List.drop_left]

theorem fread_header {f : File} {d : Bytes} {q : List Bytes} (h : f.Holds (d :: q)) :
    f.fread SIZE_T = (leBytes SIZE_T d.length, { f with pos := f.pos + SIZE_T }) := by
  have ht : (f.contents.drop f.pos).take SIZE_T = leBytes SIZE_T d.length := by
    rw [h.drop, frames_cons, List.take_left' (leBytes_length _ _)]
  simp only [fread, ht, leBytes_length]

theorem fread_end {f : File} (h : f.Holds []) : f.fread SIZE_T = ([], f) := by
  have ht : (f.contents.drop f.pos).take SIZE_T = [] := by rw [h.drop]; rfl
  simp only [fread, ht, List.length_nil, Nat.add_zero]

/-- Reading the body behind the header moves on to the next record. -/
theorem fread_body {f : File} {d : Bytes} {q : List Bytes} (h : f.Holds (d :: q)) :
    (f.seekForward SIZE_T).fread d.length =
        (d, { f with pos := f.pos + SIZE_T + d.length }) ∧
      File.Holds { f with pos := f.pos + SIZE_T + d.length } q := by
  have hd : f.contents.drop (f.pos + SIZE_T) = d ++ frames SIZE_T q := by
    rw [← List.drop_drop, h.drop, frames_cons, List.drop_left' (leBytes_length _ _)]
  constructor
  · simp only [fread, seekForward, hd, List.take_left]
  · obtain ⟨old, hc, hp⟩ := h
    refine ⟨old ++ (leBytes SIZE_T d.length ++ d), ?_, ?_⟩
    · simp only [hc, frames_cons, List.append_assoc]
    · simp only [hp, List.length_append, leBytes_length]; omega

end File

namespace DiskCache

/-- The unread records are `q`. -/
def Holds (d : DiskCache) (q : List Bytes) : Prop :=
  match d.mpFile with
  | none => q = []
  | some f => f.Holds q

theorem write_holds {d : DiskCache} {q : List Bytes} (data : Bytes) (h : d.Holds q) :
    (d.write .ok data).1 = data.length ∧ (d.write .ok data).2.Holds (q ++ [data]) := by
  have main : ∀ f : File, f.Holds q →
      ((⟨some f⟩ : DiskCache).write .ok data).1 = data.length ∧
        ((⟨some f⟩ : DiskCache).write .ok data).2.Holds (q ++ [data]) := by
    intro f hf
    obtain ⟨old, hc, hp⟩ := hf
    refine ⟨rfl, old, ?_, hp⟩
    change (f.contents ++ (leBytes SIZE_T data.length).take (leBytes SIZE_T data.length).length) ++
      data.take data.length = _
    rw [List.take_length, List.take_length, hc, frames_append, frames_cons, frames_nil,
      List.append_nil, List.append_assoc, List.append_assoc]
  cases hf : d.mpFile with
  | none =>
    have hq : q = [] := by simpa [Holds, hf] using h
    have hw : d.write .ok data = (⟨some File.empty⟩ : DiskCache).write .ok data := by
      simp [write, hf, _createFile, WriteRes.ok]
    rw [hw]
    exact main File.empty ⟨[], by simp [hq, File.empty], rfl⟩
  | some f =>
    have hd : d = ⟨some f⟩ := by cases d; simpa using hf
    rw [hd]
    exact main f (by simpa [Holds, hf] using h)

theorem peeksize_nil {d : DiskCache} (h : d.Holds []) : d.peeksize = (0, d) := by
  cases hf : d.mpFile with
  | none => simp [peeksize, hf]
  | some f =>
    have hr := File.fread_end (by simpa [Holds, hf] using h : f.Holds [])
    have hd : d = ⟨some f⟩ := by cases d; simpa using hf
    simp only [peeksize, hf, hr, List.length_nil]
    simp [SIZE_T, hd]

theorem peeksize_cons {d : DiskCache} {x : Bytes} {q : List Bytes} (h : d.Holds (x :: q))
    (hx : Storable x) : d.peeksize = (x.length, d) := by
  cases hf : d.mpFile with
  | none => simp [Holds, hf] at h
  | some f =>
    have hr := File.fread_header (by simpa [Holds, hf] using h : f.Holds (x :: q))
    have hd : d = ⟨some f⟩ := by cases d; simpa using hf
    have hsz := ofLe_leBytes SIZE_T x.length hx.recordable.2
    simp only [peeksize, hr, leBytes_length, ne_eq, not_true_eq_false, if_false, hsz, hd]
    simp [File.seekBack]

theorem read_length {d : DiskCache} {n : ℕ} (h : (d.read n).1 = n) :
    (d.read n).2.1.length = n := by
  rw [← Int.natCast_inj, ← h]
  cases hf : d.mpFile with
  | none => simp [read, hf]
  | some f =>
    simp only [read, hf] at h ⊢
    split
    · rfl
    · split
      · rename_i h0 hlt
        simp only [h0, hlt, if_true, if_false] at h
        omega
      · split <;> rfl

/-- A read that returns what was asked for has stored as much. -/
theorem read_ne_nil {d : DiskCache} {n : ℕ} (h : (d.read n).1 = n) (hn : n ≠ 0) :
    (d.read n).2.1 ≠ [] := fun hnil => by
  have hlen := read_length h
  rw [hnil] at hlen
  exact hn hlen.symm
/-- A read of the whole record, and the rollback of that read. -/
theorem read_cons {d : DiskCache} {x : Bytes} {q : List Bytes} {n : ℕ} (h : d.Holds (x :: q))
    (hx : Storable x) (hn : x.length ≤ n) :
    ∃ e : DiskCache, d.read n = ((x.length : ℤ), x, e) ∧ e.Holds q ∧
      (e.rollback x.length).Holds (x :: q) := by
  cases hf : d.mpFile with
  | none => simp [Holds, hf] at h
  | some f =>
    have hf' : f.Holds (x :: q) := by simpa [Holds, hf] using h
    obtain ⟨hb, hq⟩ := File.fread_body hf'
    have hpos := (List.length_pos_iff.mpr hx.1).ne'
    refine ⟨⟨some { f with pos := f.pos + SIZE_T + x.length }⟩, ?_, hq, ?_⟩
    · simp only [read, hf, peeksize_cons h hx, if_neg hpos, if_neg (not_lt.mpr hn), hb]
    · have hback : ({ f with pos := f.pos + SIZE_T + x.length } : File).seekBack
          (x.length + SIZE_T) = f := by
        have hle : x.length + SIZE_T ≤ f.pos + SIZE_T + x.length := by omega
        have hsub : f.pos + SIZE_T + x.length - (x.length + SIZE_T) = f.pos := by omega
        simp only [File.seekBack, if_pos hle, hsub]
      simpa [Holds, rollback, hback] using hf'

end DiskCache

namespace Cache

/-- The chunks held, oldest first, are `q`. The two lengths bound what is held
in memory and on disk; `clear` leaves them too large, never too small. -/
structure Holds (c : Cache) (q : List Bytes) : Prop where
  disk : ∃ r, q = c.mCachedList ++ r ∧ c.mDiskCache.Holds r ∧ total r ≤ c.mLenCacheInFile
  mem : total c.mCachedList ≤ c.mLenCacheInMem
  storable : ∀ d ∈ q, Storable d

/-- Nothing in memory and no file, as in a new cache and after `clear`. -/
structure Emptied (c : Cache) : Prop where
  list : c.mCachedList = []
  file : c.mDiskCache.mpFile = none

theorem new_emptied : Cache.new.Emptied := ⟨rfl, rfl⟩

theorem clear_emptied (c : Cache) : c.clear.Emptied := ⟨rfl, rfl⟩

theorem Emptied.holds {c : Cache} (h : c.Emptied) : c.Holds [] :=
  ⟨⟨[], by rw [h.list]; rfl, by simp [DiskCache.Holds, h.file], Nat.zero_le _⟩,
    by rw [h.list]; exact Nat.zero_le _, by simp⟩

/-- A chunk put into memory goes behind everything held only if the file is empty. -/
theorem cache_holds {c : Cache} {q : List Bytes} {d : Bytes} {ws : List WriteRes} (maxLen : ℕ)
    (h : c.Holds q) (hd : Storable d) (hw : ∀ w ∈ ws, w = .ok) :
    (c.cache maxLen ws d).1.Holds (q ++ [d]) ∧ ∀ w ∈ (c.cache maxLen ws d).2, w = .ok := by
  obtain ⟨⟨r, hq, hr, hlen⟩, hmem, hst⟩ := h
  have hst' : ∀ e ∈ q ++ [d], Storable e := by
    intro e he
    rcases List.mem_append.mp he with he | he
    · exact hst e he
    · exact (List.mem_singleton.mp he) ▸ hd
  by_cases hdisk : maxLen < c.mLenCacheInMem + d.length ∨ 0 < c.mLenCacheInFile
  · have hhead : ws.headD .ok = .ok := by
      cases ws with
      | nil => rfl
      | cons w ws => exact hw w List.mem_cons_self
    obtain ⟨hret, hwrite⟩ := DiskCache.write_holds d hr
    have hc : c.cache maxLen ws d = ({ c with
        mDiskCache := (c.mDiskCache.write .ok d).2
        mLenCacheInFile := c.mLenCacheInFile + d.length
        touched := c.touched + 1 }, ws.tail) := by
      simp only [cache, if_pos hdisk, hhead, hret, if_true]
    rw [hc]
    refine ⟨⟨⟨r ++ [d], ?_, hwrite, ?_⟩, hmem, hst'⟩, fun w h => hw w (List.mem_of_mem_tail h)⟩
    · rw [hq, List.append_assoc]
    · simp only [total_append, total_cons, total_nil]
      omega
  · have hfile : c.mLenCacheInFile = 0 := by omega
    have hr0 : r = [] := by
      apply eq_nil_of_total
      · exact fun e he => hst e (hq ▸ List.mem_append_right _ he)
      · omega
    have hc : c.cache maxLen ws d = ({ c with
        mLenCacheInMem := c.mLenCacheInMem + d.length
        mCachedList := c.mCachedList ++ [d]
        touched := c.touched + 1 }, ws) := by
      simp only [cache, if_neg hdisk, cacheInMem]
    rw [hc]
    refine ⟨⟨⟨[], ?_, hr0 ▸ hr, Nat.zero_le _⟩, ?_, hst'⟩, hw⟩
    · simp [hq, hr0]
    · simp only [total_append, total_cons, total_nil]
      omega

end Cache

end HttpsProxy
