import HttpsProxy.Bytes

/-! `disk_cache.cpp`: records in one temporary file that is read and written
through a single position. -/
namespace HttpsProxy

/-- A stdio stream: the file and its one read/write position. -/
structure File where
  contents : Bytes
  pos : ℕ
  deriving DecidableEq, Repr

namespace File

def empty : File := ⟨[], 0⟩

/-- `fread(buf, 1, n, fp)`. -/
def fread (n : ℕ) (f : File) : Bytes × File :=
  let bs := (f.contents.drop f.pos).take n
  (bs, { f with pos := f.pos + bs.length })

/-- `fwrite` at the end of the file, of which `n` bytes arrive. -/
def append (data : Bytes) (n : ℕ) (f : File) : File :=
  ⟨f.contents ++ data.take n, (f.contents ++ data.take n).length⟩

def seekEnd (f : File) : File := { f with pos := f.contents.length }

def seekSet (n : ℕ) (f : File) : File := { f with pos := n }

def seekForward (n : ℕ) (f : File) : File := { f with pos := f.pos + n }

/-- `fseek(fp, -n, SEEK_CUR)`, refused before the start of the file. -/
def seekBack (n : ℕ) (f : File) : File :=
  if n ≤ f.pos then { f with pos := f.pos - n } else f

end File

/-- The answers to the stdio calls of one `DiskCache::write`. A short `fwrite`
says how many bytes arrived. -/
structure WriteRes where
  tmpfile : Bool := true
  ftell : Bool := true
  seekEnd : Bool := true
  shortHeader : Option ℕ := none
  shortBody : Option ℕ := none
  seekSet : Bool := true
  deriving DecidableEq, Repr

/-- Every stdio call succeeds. -/
def WriteRes.ok : WriteRes := {}

/-- `sizeof(size_t)`. -/
def SIZE_T : ℕ := 8

structure DiskCache where
  mpFile : Option File
  deriving DecidableEq, Repr

namespace DiskCache

def new : DiskCache := ⟨none⟩

def _createFile (w : WriteRes) : DiskCache :=
  ⟨if w.tmpfile then some File.empty else none⟩

/-- `fwrite` of `data`, and whether all of it arrived. -/
def fwrite (data : Bytes) (short : Option ℕ) (f : File) : Bool × File :=
  match short with
  | none => (true, f.append data data.length)
  | some k => (data.length ≤ k, f.append data k)

def write (w : WriteRes) (data : Bytes) (d : DiskCache) : ℤ × DiskCache :=
  let d := if d.mpFile = none then _createFile w else d
  match d.mpFile with
  | none => (-1, d)
  | some f =>
    if !w.ftell then (-10, d)
    else
      let curpos := f.pos
      if !w.seekEnd then (-11, d)
      else
        let f := f.seekEnd
        let (whole, f) := fwrite (leBytes SIZE_T data.length) w.shortHeader f
        if !whole then (-2, ⟨some f⟩)
        else
          let (whole, f) := fwrite data w.shortBody f
          if !whole then (-3, ⟨some f⟩)
          else (data.length, ⟨some (if w.seekSet then f.seekSet curpos else f)⟩)

def peeksize (d : DiskCache) : ℕ × DiskCache :=
  match d.mpFile with
  | none => (0, d)
  | some f =>
    let (bs, f) := f.fread SIZE_T
    if bs.length ≠ SIZE_T then (0, ⟨some f⟩)
    else (ofLe bs, ⟨some (f.seekBack SIZE_T)⟩)

/-- The value returned by `read` and the bytes stored at `data`. -/
def read (datalen : ℕ) (d : DiskCache) : ℤ × Bytes × DiskCache :=
  match d.mpFile with
  | none => (0, [], d)
  | some _ =>
    let (peeksz, d) := d.peeksize
    if peeksz = 0 then (0, [], d)
    else if datalen < peeksz then (-2, [], d)
    else match d.mpFile with
      | none => (0, [], d)
      | some f =>
        let (bs, f) := (f.seekForward SIZE_T).fread peeksz
        (bs.length, bs, ⟨some f⟩)

def rollback (n : ℕ) (d : DiskCache) : DiskCache :=
  ⟨d.mpFile.map (File.seekBack (n + SIZE_T))⟩

def clear (_ : DiskCache) : DiskCache := ⟨none⟩

end DiskCache

end HttpsProxy
