import HttpsProxy.DiskCache

/-! `cache.h`: chunks are kept in a list in memory and, once that is full, in
a `DiskCache`. The class template is generic in its host; so is `flushAll`
here, with the host's state and how the cache is found in it as a parameter. -/
namespace HttpsProxy

/-- Conversion of a `ssize_t` or `size_t` to `int`. -/
def toInt32 (n : ℤ) : ℤ := n.bmod (2^32)

/-- Largest value of `ssize_t`. -/
def SSIZE_MAX : ℕ := 2^63 - 1

/-- `touched` counts the calls of `cache` and `clear`, so that a callback that
changes the cache under a running `flushAll` can be told from one that does not. -/
structure Cache where
  mCachedList : List Bytes
  mDiskCache : DiskCache
  mLenCacheInMem : ℕ
  mLenCacheInFile : ℕ
  touched : ℕ
  deriving DecidableEq, Repr

/-- The host of a cache: where the cache is, the callback `mFunc`, a failed
`assert`, and what is recorded when the callback has changed the cache while
`flushAll` held an iterator (`dangling`) or no iterator (`changed`). -/
structure CacheHost (σ : Type) where
  get : σ → Cache
  put : Cache → σ → σ
  func : Bytes → σ → Bool × σ
  abort : σ → σ
  dangling : σ → σ
  changed : σ → σ

namespace Cache

def new : Cache := ⟨[], .new, 0, 0, 0⟩

def empty (c : Cache) : Bool := c.mLenCacheInMem = 0 && c.mLenCacheInFile = 0

/-- The second half of `cache`: keep the chunk in memory. -/
def cacheInMem (data : Bytes) (c : Cache) : Cache :=
  { c with
    mLenCacheInMem := c.mLenCacheInMem + data.length
    mCachedList := c.mCachedList ++ [data] }

/-- `cache(data, len)`, which asserts `len > 0`. A failed disk write falls
through to memory. The list holds the stdio answers still to come. -/
def cache (maxLen : ℕ) (ws : List WriteRes) (data : Bytes) (c : Cache) :
    Cache × List WriteRes :=
  let c := { c with touched := c.touched + 1 }
  if maxLen < c.mLenCacheInMem + data.length ∨ 0 < c.mLenCacheInFile then
    let (ret, disk) := c.mDiskCache.write (ws.headD .ok) data
    let c := { c with mDiskCache := disk }
    if toInt32 ret = toInt32 data.length then
      ({ c with mLenCacheInFile := c.mLenCacheInFile + data.length }, ws.tail)
    else (c.cacheInMem data, ws.tail)
  else (c.cacheInMem data, ws)

/-- `clear()` drops the chunks and leaves both lengths as they are. -/
def clear (c : Cache) : Cache :=
  { c with mCachedList := [], mDiskCache := c.mDiskCache.clear, touched := c.touched + 1 }

/-- `mLenCacheInMem -= (*it).len; free((*it).data); mCachedList.erase(it++);`
at the first element. -/
def eraseFront (c : Cache) : Cache :=
  { c with
    mLenCacheInMem := c.mLenCacheInMem - (c.mCachedList.headD []).length
    mCachedList := c.mCachedList.tail }

end Cache

namespace CacheHost

variable {σ : Type}

def modify (H : CacheHost σ) (f : Cache → Cache) (s : σ) : σ := H.put (f (H.get s)) s

/-- The loop of `flushAll` over `mCachedList`, on the elements from `it` on. -/
def flushMem (H : CacheHost σ) : List Bytes → σ → Bool × σ
  | [], s => (true, s)
  | d :: ds, s =>
    let (taken, t) := H.func d s
    if !taken then (false, t)
    else if (H.get t).touched ≠ (H.get s).touched then (false, H.dangling t)
    else flushMem H ds (H.modify Cache.eraseFront t)

/-- The loop of `flushAll` over the file, run at most `fuel` times. -/
def flushDisk (H : CacheHost σ) : ℕ → σ → Bool × σ
  | 0, s => (true, s)
  | fuel+1, s =>
    let (sz, disk) := (H.get s).mDiskCache.peeksize
    let s := H.modify (fun c => { c with mDiskCache := disk }) s
    if sz = 0 ∨ SSIZE_MAX < sz then (true, s)
    else
      let (ret, data, disk) := disk.read sz
      let s := H.modify (fun c => { c with mDiskCache := disk }) s
      if ret ≠ sz then (false, H.abort s)
      else
        let (taken, t) := H.func data s
        let t := if (H.get t).touched ≠ (H.get s).touched then H.changed t else t
        if taken then
          flushDisk H fuel
            (H.modify (fun c => { c with mLenCacheInFile := c.mLenCacheInFile - sz }) t)
        else
          (false, H.modify (fun c => { c with mDiskCache := c.mDiskCache.rollback sz }) t)

/-- More rounds than the file has records. -/
def diskFuel (c : Cache) : ℕ :=
  match c.mDiskCache.mpFile with
  | none => 1
  | some f => f.contents.length + 1

/-- `flushAll`: memory first, then the file. -/
def flushAll (H : CacheHost σ) (s : σ) : Bool × σ :=
  match H.flushMem (H.get s).mCachedList s with
  | (false, s) => (false, s)
  | (true, s) => H.flushDisk (diskFuel (H.get s)) s

end CacheHost

end HttpsProxy
