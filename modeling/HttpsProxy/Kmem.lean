import HttpsProxy.MemSupply

/-! The caches that `ikmem_init` sets up, and which of them serves a request of
`ikmem_core_malloc`. The arrays of caches are lists; what is out of reach of the
tables and the names of the caches is left out. -/
namespace HttpsProxy

/-- An `imemgfp_t *`: `NULL`, or the field `page_supply` of a cache, with what is
looked up in this cache. -/
inductive KmemGfp where
  | default
  | supply (objSize num : ℕ) (gfp : KmemGfp)

structure KmemCache where
  cache : IMemCache
  gfp : KmemGfp

def KmemCache.objSize (c : KmemCache) : ℕ := c.cache.objSize

def KmemCache.pageSupply (c : KmemCache) : KmemGfp := .supply c.cache.objSize c.cache.num c.gfp

/-- The caches in the order of their creation, the same caches by their sizes,
and the two tables. `address` tells where the caches are put. -/
structure Kmem where
  pageShift : ℕ
  pageSize : ℕ
  address : ℕ → ℕ
  array : List KmemCache
  lookup : List KmemCache
  sizeLookup1 : List (Option KmemCache)
  sizeLookup2 : List (Option KmemCache)

/-- `page_size` of a supply. -/
def KmemGfp.pageSize (defaultSize : ℕ) : KmemGfp → ℕ
  | .default => defaultSize
  | .supply objSize _ _ => objSize

/-- The loop of `ikmem_append`: the cache at the index goes to the front, but
never to the very first place. -/
def ikmemSift : ℕ → List KmemCache → List KmemCache
  | k+2, lookup =>
    match lookup[k+2]?, lookup[k+1]? with
    | some a, some b =>
      if a.objSize < b.objSize then lookup else ikmemSift (k + 1) ((lookup.set (k+2) b).set (k+1) a)
    | _, _ => lookup
  | _, lookup => lookup

namespace Kmem

/-- `ikmem_append`. -/
def append (k : Kmem) (size : ℕ) (gfp : KmemGfp) : Option Kmem :=
  (IMemCache.create (k.address k.array.length) size (gfp.pageSize k.pageSize)).map fun cache =>
    { k with
      array := k.array ++ [{ cache, gfp }]
      lookup := ikmemSift k.array.length (k.lookup ++ [{ cache, gfp }]) }

/-- `ikmem_page_waste`. -/
def pageWaste (objSize pageSize : ℕ) : ℕ :=
  let unitSize := roundUp (objSize + 8)
  let sizes := imemcacheCalculate unitSize pageSize
  pageSize - unitSize * sizes.num + if sizes.offslab then roundUp slabSize else 0

/-- `ikmem_gfp_waste`. -/
def gfpWaste (k : Kmem) (objSize : ℕ) : KmemGfp → ℕ
  | .default => pageWaste objSize k.pageSize
  | .supply size num gfp => pageWaste objSize size * num + gfpWaste k size gfp

/-- Whether a cache may supply pages for objects of a size: `lowater` and `hiwater`
are a `size_t`. -/
def mayServe (objSize : ℕ) (c : KmemCache) : Bool :=
  roundUp (objSize + 8) * 8 % 2 ^ 64 ≤ c.objSize ∧ c.objSize ≤ roundUp (objSize + 8) * 64 % 2 ^ 64

/-- `ikmem_choose_gfp`: the first cache with the least waste, if that is less than a page. -/
def chooseGfp (k : Kmem) (objSize : ℕ) : KmemGfp :=
  (k.array.foldl (fun best c =>
    if mayServe objSize c then
      let waste := k.gfpWaste objSize c.pageSupply
      if waste < best.1 then (waste, c.pageSupply) else best
    else best) (k.pageSize, KmemGfp.default)).2

/-- Whether a cache makes another one for objects of a size needless. -/
def covers (objSize : ℕ) (approxy : Bool) (c : KmemCache) : Bool :=
  objSize = c.objSize ∨
    objSize < c.objSize ∧ c.objSize - objSize ≤ objSize / 16 ∧ approxy = true

/-- `ikmem_insert`. -/
def insert (k : Kmem) (objSize : ℕ) (approxy : Bool) : Option Kmem :=
  if k.array.any (covers objSize approxy) then some k
  else k.append objSize (k.chooseGfp objSize)

/-- `ikmem_choose_size`. -/
def chooseSize (k : Kmem) (size : ℕ) : Option KmemCache :=
  if k.pageSize ≤ size then none
  else if k.lookup.head?.any (fun c => c.objSize < size) then none
  else k.lookup.reverse.find? fun c => size ≤ c.objSize

end Kmem

/-- The sizes that are no powers of two. -/
def kmemOdd : List ℕ := [24, 40, 48, 56, 80, 96, 112, 160, 192, 224, 330]

/-- `for (; fib2 < bound; )`. -/
def kmemFib (bound : ℕ) : ℕ → ℕ → ℕ → List ℕ
  | 0, _, _ => []
  | fuel+1, fib1, fib2 =>
    if fib2 < bound then (fib1 + fib2) :: kmemFib bound fuel fib2 (fib1 + fib2) else []

/-- `sizevec` before it is sorted. -/
def kmemSizes (pageShift pageSize : ℕ) : List ℕ :=
  (List.range (pageShift + 1 - 3)).map (fun i => 2 ^ (pageShift - i)) ++ kmemOdd ++
    kmemFib (pageSize / 4) pageSize 168 272

/-- The inner loop of the sort: `x` is entry `i`, and larger ones take its place. -/
def kmemPass : ℕ → List ℕ → ℕ × List ℕ
  | x, [] => (x, [])
  | x, y :: ys =>
    if x < y then ((kmemPass y ys).1, x :: (kmemPass y ys).2)
    else ((kmemPass x ys).1, y :: (kmemPass x ys).2)

/-- The sort of `ikmem_setup_caches`, over `n` entries. -/
def kmemSort : ℕ → List ℕ → List ℕ
  | n+1, x :: xs => (kmemPass x xs).1 :: kmemSort n (kmemPass x xs).2
  | _, xs => xs

namespace Kmem

/-- `ikmem_setup_caches`; the first 0 ends `sizelist`. -/
def setupCaches (k : Kmem) (sizelist : List ℕ) : Option Kmem :=
  let sizevec := kmemSizes k.pageShift k.pageSize
  ((kmemSort sizevec.length sizevec).foldlM (fun (k : Kmem) size => k.insert size true) k).bind
    fun k =>
      ((sizelist.takeWhile (· ≠ 0)).foldlM (fun (k : Kmem) size => k.insert size false) k).map fun k =>
        { k with
          sizeLookup1 := none :: (List.range 256).map fun i => k.chooseSize (4 * (i + 1))
          sizeLookup2 := none :: (List.range 256).map fun i => k.chooseSize (1024 * (i + 1)) }

/-- `ikmem_init`. -/
def init (pageShift : ℤ) (address : ℕ → ℕ) (sizelist : List ℕ) : Option Kmem :=
  (imemPageSize pageShift).bind fun pageSize =>
    let k : Kmem :=
      { pageShift := imemPageShift pageShift, pageSize, address,
        array := [], lookup := [], sizeLookup1 := [], sizeLookup2 := [] }
    (k.append (k.pageSize - roundUp 8) .default).bind fun k => k.setupCaches sizelist

/-- The first half of `ikmem_core_malloc`: the cache that serves a request, if it
gets through the `assert`. -/
def mallocCache (k : Kmem) (waterMark size : ℕ) : Option (Option KmemCache) :=
  if ¬ (0 < size ∧ size ≤ 2 ^ 30) then none
  else
    let round := (size + 3) / 4 * 4
    let round' := (size + 1023) / 1024 * 1024
    let cache :=
      if round ≤ 1024 then (k.sizeLookup1[round / 4]?).join
      else if round' < 256 * 1024 then (k.sizeLookup2[round' / 1024]?).join
      else none
    let cache := cache.or (k.chooseSize size)
    some (if 0 < waterMark ∧ waterMark < size then none else cache)

end Kmem

end HttpsProxy
