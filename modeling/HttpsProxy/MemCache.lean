import HttpsProxy.MemSlab
import Mathlib.Logic.Function.Basic

/-! `IMEMCACHE` of `imembase.c`: objects of one size, cut from the pages of a
supply and kept back in an array for each processor. The mutexes are left out:
the calls come one after the other, each from any processor. A call that fails
an `assert` or reads what is not there has no result. -/
namespace HttpsProxy

/-- The three lists of slabs. -/
inductive SlabQueue where
  | free
  | full
  | partly
deriving DecidableEq

/-- What an `IQUEUEHEAD` pointer leads to: the head of a list or the field
`queue` of the slab at an address. -/
inductive QueueNode where
  | null
  | head (k : SlabQueue)
  | slab (addr : ℕ)
deriving DecidableEq

/-- The links in all `IQUEUEHEAD`s. -/
structure IQueues where
  next : QueueNode → QueueNode
  prev : QueueNode → QueueNode

namespace IQueues

/-- `iqueue_init`. -/
def init (q : IQueues) (n : QueueNode) : IQueues :=
  { next := Function.update q.next n n, prev := Function.update q.prev n n }

/-- `iqueue_add`. -/
def add (q : IQueues) (node head : QueueNode) : Option IQueues :=
  let prev := Function.update q.prev node head
  let next := Function.update q.next node (q.next head)
  if next head = .null then none
  else some { next := Function.update next head node, prev := Function.update prev (next head) node }

/-- `iqueue_add_tail`. -/
def addTail (q : IQueues) (node head : QueueNode) : Option IQueues :=
  let prev := Function.update q.prev node (q.prev head)
  let next := Function.update q.next node head
  if prev head = .null then none
  else some { next := Function.update next (prev head) node, prev := Function.update prev head node }

/-- `iqueue_del`. -/
def del (q : IQueues) (entry : QueueNode) : Option IQueues :=
  if q.next entry = .null ∨ q.prev entry = .null then none
  else
    let prev := Function.update q.prev (q.next entry) (q.prev entry)
    let next := Function.update q.next (prev entry) (q.next entry)
    some { next := Function.update next entry .null, prev := Function.update prev entry .null }

/-- `iqueue_is_empty`. -/
def isEmpty (q : IQueues) (k : SlabQueue) : Bool := q.next (.head k) = .head k

/-- `iqueue_del`, `iqueue_init` and `iqueue_add`, as they stand together. -/
def moveTo (q : IQueues) (p : QueueNode) (k : SlabQueue) : Option IQueues :=
  (q.del p).bind fun q => (q.init p).add p (.head k)

end IQueues

/-- `imemlru_t`. -/
structure IMemLru where
  avial : ℕ
  limit : ℕ
  batchcount : ℕ
  entry : ℕ → ℕ

/-- `IMCACHE_ARRAYLIMIT`. -/
def arrayLimit : ℕ := 128

/-- `sizeof(imemslab_t)`. -/
def slabSize : ℕ := 64

/-- `array->entry[array->avial++] = ptr`. -/
def IMemLru.push (a : IMemLru) (ptr : ℕ) : Option IMemLru :=
  if a.avial < arrayLimit then
    some { a with entry := Function.update a.entry a.avial ptr, avial := a.avial + 1 }
  else none

/-- A processor, as `array_index &= IMCACHE_LRU_COUNT - 1` leaves it. -/
abbrev Processor := Fin 8

/-- Where a cache gets its pages. Outside is a failed `assert`, inside `NULL`. -/
structure PageSupply (σ : Type) where
  alloc : Processor → σ → Option (Option ℕ × σ)
  free : Processor → σ → ℕ → Option σ

/-- Where the descriptors of its slabs come from. Taking one back depends on the
pages, too. -/
structure DescSupply (σ τ : Type) where
  alloc : τ → Option (Option ℕ × τ)
  free : σ → τ → ℕ → Option τ

/-- `imemcache_t`, at the address `self`. -/
structure IMemCache where
  self : ℕ
  objSize : ℕ
  unitSize : ℕ
  pageSize : ℕ
  countPartial : ℤ
  countFull : ℤ
  countFree : ℤ
  freeObjects : ℤ
  freeLimit : ℤ
  colorNext : ℕ
  colorLimit : ℕ
  queues : IQueues
  array : Processor → IMemLru
  batchcount : ℕ
  limit : ℕ
  num : ℕ
  offslab : Bool
  nodrain : Bool
  pagesHiwater : ℤ
  pagesInuse : ℤ
  pagesNew : ℤ
  pagesDel : ℤ

/-- What `imemcache_calculate` finds out. -/
structure CacheSizes where
  offslab : Bool
  limit : ℕ
  batchcount : ℕ
  num : ℕ
  colorLimit : ℕ

/-- `imemcache_calculate`. -/
def imemcacheCalculate (unitSize pageSize : ℕ) : CacheSizes :=
  let mustonslab := roundUp slabSize < unitSize ∧
    roundUp (slabSize + roundSize) ≤ pageSize - pageSize / unitSize * unitSize
  let offslab : Bool := pageSize / 8 ≤ unitSize ∧ ¬ mustonslab
  let limit := if 1024 ≤ unitSize then 32 else if 256 ≤ unitSize then 48
    else if 128 ≤ unitSize then 64 else if 64 ≤ unitSize then 96 else 128
  let num := if offslab then pageSize / unitSize
    else (pageSize - roundUp slabSize - roundSize) / unitSize
  let color := if offslab then pageSize - num * unitSize
    else pageSize - num * unitSize - roundUp slabSize - roundSize
  { offslab, limit, batchcount := (limit + 1) / 2, num,
    colorLimit := if unitSize < color then unitSize else color }

/-- `imemcache_create` and `imemcache_init_list`; the queues are three empty rings. -/
def IMemCache.create (self objSize pageSize : ℕ) : Option IMemCache :=
  if 8 ≤ objSize ∧ roundSize ≤ pageSize ∧ objSize ≤ pageSize - roundSize then
    let unitSize := roundUp (objSize + 8)
    let sizes := imemcacheCalculate unitSize pageSize
    let total := sizes.batchcount + sizes.num
    let limit := if arrayLimit ≤ total then arrayLimit else total
    let queues : IQueues := { next := fun _ => .null, prev := fun _ => .null }
    some
      { self, objSize, unitSize, pageSize, countPartial := 0, countFull := 0, countFree := 0,
        freeObjects := 0, freeLimit := total, colorNext := 0, colorLimit := sizes.colorLimit,
        queues := ((queues.init (.head .free)).init (.head .partly)).init (.head .full),
        array := fun _ => { avial := 0, limit, batchcount := limit / 2, entry := fun _ => 0 },
        batchcount := sizes.batchcount, limit := sizes.limit, num := sizes.num,
        offslab := sizes.offslab, nodrain := false, pagesHiwater := 0, pagesInuse := 0,
        pagesNew := 0, pagesDel := 0 }
  else none

/-- A cache, the memory of its pages, the descriptors of its slabs by their
addresses, and the supplies of pages and of descriptors. -/
structure CacheState (σ τ : Type) where
  cache : IMemCache
  mem : PageWords
  slabs : ℕ → Option IMemSlab
  pages : σ
  descs : τ

namespace CacheState

variable {σ τ : Type} (gfp : PageSupply σ) (set : DescSupply σ τ) (cpu : Processor)

/-- The end of `imemcache_slab_create`: a descriptor at `slab` for the page. -/
def place (s : CacheState σ τ) (slab page coloroff : ℕ) :
    Option (Option (ℕ × ℤ) × CacheState σ τ) :=
  if roundUp slab = slab then
    (IMemSlab.init s.mem page s.cache.pageSize s.cache.unitSize coloroff).map fun r =>
      (some (slab, r.2.2),
        { s with
          mem := r.2.1
          slabs := Function.update s.slabs slab (some { r.1 with extra := s.cache.self })
          cache :=
            { s.cache with
              queues := s.cache.queues.init (.slab slab)
              colorNext := if s.cache.colorLimit ≤ s.cache.colorNext + roundSize then 0
                else s.cache.colorNext + roundSize
              pagesNew := s.cache.pagesNew + 1
              pagesInuse := s.cache.pagesInuse + 1 } })
  else none

/-- `imemcache_slab_create`: where the new slab is and how many units it has. -/
def slabCreate (s : CacheState σ τ) : Option (Option (ℕ × ℤ) × CacheState σ τ) :=
  match gfp.alloc cpu s.pages with
  | none => none
  | some (none, pages) => some (none, { s with pages })
  | some (some page, pages) =>
    if s.cache.offslab then
      match set.alloc s.descs with
      | none => none
      | some (none, descs) =>
        (gfp.free cpu pages page).map fun pages => (none, { s with pages, descs })
      | some (some slab, descs) =>
        place { s with pages, descs } slab page s.cache.colorNext
    else
      let coloroff := roundUp (page + s.cache.colorNext) - page
      place { s with pages } (page + coloroff) page (coloroff + slabSize)

/-- `imemcache_slab_delete`; the descriptor is gone with the page or by itself. -/
def slabDelete (s : CacheState σ τ) (slab : ℕ) (d : IMemSlab) : Option (CacheState σ τ) :=
  (gfp.free cpu s.pages d.membase).bind fun pages =>
    let s := { s with
      pages
      slabs := Function.update s.slabs slab none
      cache := { s.cache with
        pagesDel := s.cache.pagesDel + 1, pagesInuse := s.cache.pagesInuse - 1 } }
    if s.cache.offslab then (set.free s.pages s.descs slab).map fun descs => { s with descs }
    else some s

/-- `while (!IMEMSLAB_ISFULL(slab)) imslab_alloc(slab)`. -/
def exhaust (mem : PageWords) : ℕ → IMemSlab → Option IMemSlab
  | 0, _ => none
  | fuel+1, slab => if slab.isFull then some slab else exhaust mem fuel (slab.alloc mem).2

/-- The slab behind a queue field. -/
def entry (s : CacheState σ τ) : QueueNode → Option (ℕ × IMemSlab)
  | .slab a => (s.slabs a).map fun d => (a, d)
  | _ => none

def setQueues (s : CacheState σ τ) (queues : IQueues) : CacheState σ τ :=
  { s with cache := { s.cache with queues } }

/-- One turn of the loop of `imemcache_drain_list`, for the last slab of the list. -/
def drainOne (k : SlabQueue) (s : CacheState σ τ) : Option (CacheState σ τ) :=
  (s.entry (s.cache.queues.prev (.head k))).bind fun e =>
    (s.cache.queues.del (.slab e.1)).bind fun queues =>
      let s := s.setQueues queues
      if k = .free then
        (exhaust s.mem (e.2.memsize + 1) e.2).bind fun d =>
          slabDelete gfp set cpu
            { s with cache := { s.cache with freeObjects := s.cache.freeObjects - d.inuse } } e.1 d
      else slabDelete gfp set cpu s e.1 e.2

/-- The loop of `imemcache_drain_list`; a negative `tofree` is no bound. -/
def drainLoop (k : SlabQueue) (tofree : ℤ) :
    ℕ → ℤ → CacheState σ τ → Option (ℤ × CacheState σ τ)
  | 0, _, _ => none
  | fuel+1, freeCount, s =>
    if s.cache.queues.isEmpty k then some (freeCount, s)
    else if 0 ≤ tofree ∧ tofree ≤ freeCount then some (freeCount, s)
    else (drainOne gfp set cpu k s).bind fun s => drainLoop k tofree fuel (freeCount + 1) s

/-- `imemcache_drain_list`; there are no more slabs than pages. -/
def drainList (k : SlabQueue) (tofree : ℤ) (s : CacheState σ τ) : Option (ℤ × CacheState σ τ) :=
  (drainLoop gfp set cpu k tofree (s.cache.pagesInuse.toNat + 1) 0 s).map fun r =>
    (r.1,
      { r.2 with
        cache := match k with
          | .free => { r.2.cache with countFree := r.2.cache.countFree - r.1 }
          | .full => { r.2.cache with countFull := r.2.cache.countFull - r.1 }
          | .partly => { r.2.cache with countPartial := r.2.cache.countPartial - r.1 } })

/-- A new slab joins the list of those that are partly free. -/
def enlist (r : Option (ℕ × ℤ) × CacheState σ τ) : Option (Option QueueNode × CacheState σ τ) :=
  match r.1 with
  | none => some (none, r.2)
  | some (slab, num) =>
    (r.2.cache.queues.add (.slab slab) (.head .partly)).map fun queues =>
      (some (.slab slab),
        { r.2 with cache := { r.2.cache with
            queues, freeObjects := r.2.cache.freeObjects + num,
            countPartial := r.2.cache.countPartial + 1 } })

/-- The first half of `imemcache_list_alloc`: a slab that has a free unit. -/
def choose (s : CacheState σ τ) : Option (Option QueueNode × CacheState σ τ) :=
  let p := s.cache.queues.next (.head .partly)
  if p = .head .partly then
    let p := s.cache.queues.next (.head .free)
    if p = .head .free then
      (slabCreate gfp set cpu s).bind enlist
    else
      (s.cache.queues.moveTo p .partly).map fun queues =>
        (some p,
          { s with cache := { s.cache with
              queues, countFree := s.cache.countFree - 1,
              countPartial := s.cache.countPartial + 1 } })
  else some (some p, s)

/-- The second half: a unit of the slab. -/
def takeUnit (s : CacheState σ τ) (p : QueueNode) : Option (ℕ × CacheState σ τ) :=
  (s.entry p).bind fun e =>
    if e.2.isFull then none
    else
      let r := e.2.alloc s.mem
      let cache := { s.cache with
        freeObjects := if s.cache.freeObjects ≠ 0 then s.cache.freeObjects - 1
          else s.cache.freeObjects }
      let s := { s with
        slabs := Function.update s.slabs e.1 (some r.2)
        mem := Function.update s.mem r.1 e.1
        cache }
      if r.2.isFull then
        (s.cache.queues.moveTo p .full).map fun queues =>
          (r.1 + 8,
            { s with cache := { s.cache with
                queues, countPartial := s.cache.countPartial - 1,
                countFull := s.cache.countFull + 1 } })
      else some (r.1 + 8, s)

/-- `imemcache_list_alloc`. -/
def listAlloc (s : CacheState σ τ) : Option (Option ℕ × CacheState σ τ) :=
  (choose gfp set cpu s).bind fun r =>
    match r.1 with
    | none => some (none, r.2)
    | some p => (r.2.takeUnit p).map fun u => (some u.1, u.2)

/-- A full slab goes to the end of the list of those that are partly free. -/
def unfill (s : CacheState σ τ) (slab : ℕ) (d : IMemSlab) : Option (CacheState σ τ) :=
  let p := QueueNode.slab slab
  if d.isFull then
    if s.cache.countFull = 0 then none
    else
      (s.cache.queues.del p).bind fun q => ((q.init p).addTail p (.head .partly)).map fun queues =>
        { s with cache := { s.cache with
            queues, countFull := s.cache.countFull - 1,
            countPartial := s.cache.countPartial + 1 } }
  else some s

/-- The middle of `imemcache_list_free`: the unit is given back to its slab. -/
def giveUnit (s : CacheState σ τ) (slab : ℕ) (d : IMemSlab) (unit : ℕ) : Option (CacheState σ τ) :=
  (s.unfill slab d).bind fun s =>
    (d.free s.mem unit).bind fun r =>
      let s := { s with
        slabs := Function.update s.slabs slab (some r.1)
        mem := r.2
        cache := { s.cache with freeObjects := s.cache.freeObjects + 1 } }
      if r.1.isEmpty then
        (s.cache.queues.moveTo (.slab slab) .free).map fun queues =>
          { s with cache := { s.cache with
              queues, countPartial := s.cache.countPartial - 1,
              countFree := s.cache.countFree + 1 } }
      else some s

/-- `imemcache_list_free`; `cache` may be `NULL`. A slab of another cache is
beyond this model. -/
def listFree (cache : Option ℕ) (ptr : ℕ) (s : CacheState σ τ) : Option (CacheState σ τ) :=
  if ptr < 8 then none
  else
    let unit := ptr - 8
    let slab := s.mem unit
    (s.slabs slab).bind fun d =>
      if slab ≠ 0 ∧ d.membase ≤ unit ∧ unit < d.membase + d.memsize ∧
          (∀ a, cache = some a → a = d.extra) ∧ d.extra = s.cache.self then
        (s.giveUnit slab d unit).bind fun s =>
          if s.cache.nodrain = false ∧ s.cache.freeLimit ≤ s.cache.freeObjects then
            let tofree := s.cache.countFree / 2
            if 0 < tofree then (drainList gfp set cpu .free tofree s).map Prod.snd else some s
          else some s
      else none

def setArray (s : CacheState σ τ) (i : Processor) (a : IMemLru) : CacheState σ τ :=
  { s with cache := { s.cache with array := Function.update s.cache.array i a } }

/-- The loop of `imemcache_fill_batch`. -/
def fillLoop : ℕ → CacheState σ τ → Option (CacheState σ τ)
  | 0, s => some s
  | n+1, s =>
    if (s.cache.array cpu).avial < (s.cache.array cpu).batchcount then
      (listAlloc gfp set cpu s).bind fun r =>
        match r.1 with
        | none => some r.2
        | some ptr =>
          ((r.2.cache.array cpu).push ptr).bind fun a => fillLoop n (r.2.setArray cpu a)
    else some s

/-- `imemcache_fill_batch`, which adds no more than `batchcount` objects. -/
def fillBatch (s : CacheState σ τ) : Option (CacheState σ τ) :=
  (fillLoop gfp set cpu (s.cache.array cpu).batchcount s).map fun s =>
    if s.cache.pagesHiwater < s.cache.pagesInuse then
      { s with cache := { s.cache with pagesHiwater := s.cache.pagesInuse } }
    else s

/-- `IMCACHE_CHECK_MAGIC`. -/
def checkMagic : ℕ := 5

/-- The rest of `imemcache_alloc`: the object kept back last is handed out. -/
def takeObject (s : CacheState σ τ) : Option ℕ × CacheState σ τ :=
  let a := s.cache.array cpu
  if a.avial = 0 then (none, s)
  else
    let ptr := a.entry (a.avial - 1)
    let s := s.setArray cpu { a with avial := a.avial - 1 }
    if ptr = 0 then (none, s)
    else (some ptr,
      { s with mem := Function.update s.mem (ptr - 8) (s.mem (ptr - 8) ||| checkMagic) })

/-- `imemcache_alloc`. -/
def alloc (s : CacheState σ τ) : Option (Option ℕ × CacheState σ τ) :=
  let filled := if (s.cache.array cpu).avial = 0 then fillBatch gfp set cpu s else some s
  filled.map (takeObject cpu)

/-- `for (; array->avial > least; ) imemcache_list_free(cache, array->entry[--array->avial])`. -/
def spillLoop (i : Processor) (least : ℕ) : ℕ → CacheState σ τ → Option (CacheState σ τ)
  | 0, s => some s
  | n+1, s =>
    let a := s.cache.array i
    if least < a.avial then
      (listFree gfp set cpu (some s.cache.self) (a.entry (a.avial - 1))
        (s.setArray i { a with avial := a.avial - 1 })).bind fun s => spillLoop i least n s
    else some s

/-- The end of `imemcache_free`: the object is kept back, or the array spilled. -/
def keepObject (ptr : ℕ) (s : CacheState σ τ) : Option (CacheState σ τ) :=
  let a := s.cache.array cpu
  if a.limit ≤ a.avial then
    (spillLoop gfp set cpu cpu a.batchcount a.avial s).bind fun s =>
      (listFree gfp set cpu (some s.cache.self) ptr s).bind fun s =>
        if s.cache.freeLimit ≤ s.cache.freeObjects ∧ 1 < s.cache.countFree then
          (drainList gfp set cpu .free (s.cache.countFree / 2) s).map Prod.snd
        else some s
  else (a.push ptr).map fun a => s.setArray cpu a

/-- `imemcache_free`; `cache` may be `NULL`. -/
def free (cache : Option ℕ) (ptr : ℕ) (s : CacheState σ τ) : Option (CacheState σ τ) :=
  if ptr < 8 then none
  else
    let linear := s.mem (ptr - 8)
    if linear &&& checkMagic ≠ checkMagic then none
    else
      let slab := linear / roundSize * roundSize
      (s.slabs slab).bind fun d =>
        if (∀ a, cache = some a → a = d.extra) ∧ d.extra = s.cache.self then
          keepObject gfp set cpu ptr { s with mem := Function.update s.mem (ptr - 8) slab }
        else none

/-- `imemcache_shrink`, which sees to the array of the first processor only. -/
def shrink (s : CacheState σ τ) : Option (CacheState σ τ) :=
  (spillLoop gfp set cpu 0 0 (s.cache.array 0).avial s).bind fun s =>
    (drainList gfp set cpu .free (-1) s).map Prod.snd

/-- What `imemcache_release` does to the array of a processor. -/
def releaseArray (i : Processor) (s : CacheState σ τ) : Option (CacheState σ τ) :=
  let a := s.cache.array i
  ((List.range a.avial).map a.entry).foldlM (fun s ptr => listFree gfp set cpu none ptr s)
    (s.setArray i { a with avial := 0 })

/-- `imemcache_destroy_list`. -/
def destroyList (s : CacheState σ τ) : Option (CacheState σ τ) :=
  (drainList gfp set cpu .free (-1) s).bind fun r =>
    (drainList gfp set cpu .full (-1) r.2).bind fun r =>
      (drainList gfp set cpu .partly (-1) r.2).map fun r =>
        { r.2 with cache := { r.2.cache with
            countFree := 0, countFull := 0, countPartial := 0, freeObjects := 0 } }

/-- `imemcache_release`. -/
def release (s : CacheState σ τ) : Option (CacheState σ τ) :=
  ((List.finRange 8).foldlM (fun s i => releaseArray gfp set cpu i s) s).bind
    (destroyList gfp set cpu)

end CacheState

end HttpsProxy
