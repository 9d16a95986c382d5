import HttpsProxy.CacheFifo
import HttpsProxy.Refinement

/-! `DiskCache` as a queue of records of which the one just read can be put
back. Its one file position serves for reading and appending; it stands in
front of the first record not yet read whenever no call is running. -/
namespace HttpsProxy

/-- A call of a method of `DiskCache` while stdio works. -/
inductive DiskOp where
  | write (data : Chunk)
  | peeksize
  | read (datalen : ℕ)
  | rollback (n : ℕ)
  | clear

/-- What a caller sees: the value returned and the bytes stored. -/
inductive DiskAnswer where
  | ret (value : ℤ)
  | size (n : ℕ)
  | stored (value : ℤ) (data : Bytes)
  | nothing
  deriving DecidableEq, Repr

/-- The specification: the records to come, and the record read by the last call
if that was a read that succeeded. -/
structure RecordQueue where
  records : List Bytes
  justRead : Option Bytes

namespace RecordQueue

def new : RecordQueue := ⟨[], none⟩

/-- `rollback` is allowed only of the record just read, with its length. -/
def call (q : RecordQueue) : DiskOp → Option (DiskAnswer × RecordQueue)
  | .write d => some (.ret d.1.length, ⟨q.records ++ [d.1], none⟩)
  | .peeksize => some (.size (q.records.headD []).length, ⟨q.records, none⟩)
  | .read n =>
    match q.records with
    | [] => some (.stored 0 [], ⟨[], none⟩)
    | x :: xs =>
      if x.length ≤ n then some (.stored x.length x, ⟨xs, some x⟩)
      else some (.stored (-2) [], ⟨x :: xs, none⟩)
  | .rollback n =>
    match q.justRead with
    | none => none
    | some x => if x.length = n then some (.nothing, ⟨x :: q.records, none⟩) else none
  | .clear => some (.nothing, new)

end RecordQueue

namespace DiskCache

/-- A call as its caller sees it. -/
def call (d : DiskCache) : DiskOp → DiskAnswer × DiskCache
  | .write data => let r := d.write .ok data.1; (.ret r.1, r.2)
  | .peeksize => let r := d.peeksize; (.size r.1, r.2)
  | .read n => let r := d.read n; (.stored r.1 r.2.1, r.2.2)
  | .rollback n => (.nothing, d.rollback n)
  | .clear => (.nothing, d.clear)

theorem read_nil {d : DiskCache} (h : d.Holds []) (n : ℕ) : d.read n = (0, [], d) := by
  cases hf : d.mpFile with
  | none => simp only [read, hf]
  | some f => simp only [read, hf, peeksize_nil h, if_true]

theorem read_short {d : DiskCache} {x : Bytes} {q : List Bytes} {n : ℕ} (h : d.Holds (x :: q))
    (hx : Storable x) (hn : n < x.length) : d.read n = (-2, [], d) := by
  have hpos := (List.length_pos_iff.mpr hx.1).ne'
  cases hf : d.mpFile with
  | none => simp [Holds, hf] at h
  | some f => simp only [read, hf, peeksize_cons h hx, if_neg hpos, if_pos hn]

/-- The file holds the records to come, and going back over the record just
read leads in front of it. -/
structure Queues (d : DiskCache) (q : RecordQueue) : Prop where
  records : d.Holds q.records
  storable : ∀ x ∈ q.records, Storable x
  undo : ∀ x, q.justRead = some x → Storable x ∧ (d.rollback x.length).Holds (x :: q.records)

theorem Queues.of_holds {d : DiskCache} {q : List Bytes} (h : d.Holds q) (hst : ∀ x ∈ q, Storable x) :
    d.Queues ⟨q, none⟩ := ⟨h, hst, by simp⟩

/-- Every call that the specification allows is answered as specified. -/
theorem call_simulates : Refinement.Simulates call RecordQueue.call Queues := by
  rintro d ⟨q, last⟩ op o q' h hop
  have hheld : d.Holds q := h.records
  have hst : ∀ x ∈ q, Storable x := h.storable
  cases op with
  | write data =>
    cases hop
    obtain ⟨hret, hwrite⟩ := write_holds data.1 hheld
    refine ⟨congrArg DiskAnswer.ret hret, .of_holds hwrite fun x hx => ?_⟩
    rcases List.mem_append.mp hx with hx | hx
    · exact hst x hx
    · exact List.mem_singleton.mp hx ▸ data.2
  | peeksize =>
    cases hop
    cases q with
    | nil => simpa [call, peeksize_nil hheld] using Queues.of_holds hheld hst
    | cons x xs =>
      have hx := hst x List.mem_cons_self
      simpa [call, peeksize_cons hheld hx] using Queues.of_holds hheld hst
  | read n =>
    cases q with
    | nil =>
      cases hop
      simpa [call, read_nil hheld] using Queues.of_holds hheld hst
    | cons x xs =>
      have hx := hst x List.mem_cons_self
      simp only [RecordQueue.call] at hop
      split at hop
      · rename_i hn
        cases hop
        obtain ⟨e, hread, hrest, hback⟩ := read_cons hheld hx hn
        simp only [call, hread, true_and]
        refine ⟨hrest, fun y hy => hst y (List.mem_cons_of_mem x hy), ?_⟩
        rintro y ⟨⟩
        exact ⟨hx, hback⟩
      · rename_i hn
        cases hop
        simpa [call, read_short hheld hx (not_le.mp hn)] using Queues.of_holds hheld hst
  | rollback n =>
    cases last with
    | none => cases hop
    | some x =>
      simp only [RecordQueue.call] at hop
      split at hop
      · -- the bytes read are still there, in front of the position
        rename_i hn
        cases hop
        obtain ⟨hx, hback⟩ := h.undo x rfl
        refine ⟨rfl, .of_holds (hn ▸ hback) fun y hy => ?_⟩
        rcases List.mem_cons.mp hy with rfl | hy
        · exact hx
        · exact hst y hy
      · cases hop
  | clear =>
    cases hop
    exact ⟨rfl, .of_holds (show (clear d).Holds [] from rfl) (by simp)⟩

/-- The caller of a new `DiskCache` cannot tell it from the queue, in any
sequence of calls that rolls back only what it has just read. -/
theorem diskCache_refines_queue (ops : List DiskOp) (os : List DiskAnswer) (q : RecordQueue)
    (h : Refinement.asked RecordQueue.call .new ops = some (os, q)) :
    (Refinement.answers call new ops).1 = os :=
  (call_simulates.answers (Queues.of_holds (d := new) (q := []) (by simp [Holds, new]) (by simp)) h).1

/-- A read that is put back, an append at the end of the file, and the reads after it. -/
theorem diskCache_refines_example :
    (Refinement.answers call new [.write ⟨[1, 2], by simp, by decide⟩, .read 4, .rollback 2,
      .write ⟨[3], by simp, by decide⟩, .read 1, .read 2, .peeksize]).1 =
      [.ret 2, .stored 2 [1, 2], .nothing, .ret 1, .stored (-2) [], .stored 2 [1, 2], .size 1] :=
  diskCache_refines_queue _ _ ⟨[[3]], none⟩ rfl

end DiskCache

end HttpsProxy
