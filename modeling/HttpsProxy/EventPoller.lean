import Mathlib.Data.List.AList
import Mathlib.Data.Finset.Basic
import Mathlib.Data.Finset.Insert

/-! `EventPoller` and its only subclass `SelectPoller`: the handler maps, the
descriptor sets given to `select`, and the bookkeeping between them. Pollers
are generic in the handler type, as `InputNotificationHandler` is abstract. -/
namespace HttpsProxy

def FD_SETSIZE : ℤ := 1024

structure SelectPoller (H : Type) where
  mFdReadHandlers : AList (fun _ : ℤ => H)
  mFdWriteHandlers : AList (fun _ : ℤ => H)
  mFdReadSet : Finset ℤ
  mFdWriteSet : Finset ℤ
  mMaxFd : ℤ
  mFdWriteCount : ℤ

namespace SelectPoller

variable {H : Type}

def new : SelectPoller H := ⟨∅, ∅, ∅, ∅, -1, 0⟩

/-- Outside the range an `fd_set` can hold. -/
def invalidFd (fd : ℤ) : Prop := fd < 0 ∨ FD_SETSIZE ≤ fd

instance (fd : ℤ) : Decidable (invalidFd fd) := inferInstanceAs (Decidable (_ ∨ _))

/-- The larger of the two maximal keys, found by walking both handler maps. -/
def recalcMaxFD (p : SelectPoller H) : ℤ :=
  max (p.mFdReadHandlers.keys.foldl max (-1)) (p.mFdWriteHandlers.keys.foldl max (-1))

def doRegisterForRead (fd : ℤ) (p : SelectPoller H) : Bool × SelectPoller H :=
  if invalidFd fd then (false, p)
  else if fd ∈ p.mFdReadSet then (false, p)
  else (true, { p with mFdReadSet := insert fd p.mFdReadSet, mMaxFd := max fd p.mMaxFd })

def doRegisterForWrite (fd : ℤ) (p : SelectPoller H) : Bool × SelectPoller H :=
  if invalidFd fd then (false, p)
  else if fd ∈ p.mFdWriteSet then (false, p)
  else (true, { p with
    mFdWriteSet := insert fd p.mFdWriteSet
    mMaxFd := max fd p.mMaxFd
    mFdWriteCount := p.mFdWriteCount + 1 })

def doDeregisterForRead (fd : ℤ) (p : SelectPoller H) : Bool × SelectPoller H :=
  if invalidFd fd then (false, p)
  else if fd ∉ p.mFdReadSet then (false, p)
  else
    let q := { p with mFdReadSet := p.mFdReadSet.erase fd }
    (true, if fd = q.mMaxFd then { q with mMaxFd := q.recalcMaxFD } else q)

def doDeregisterForWrite (fd : ℤ) (p : SelectPoller H) : Bool × SelectPoller H :=
  if invalidFd fd then (false, p)
  else if fd ∉ p.mFdWriteSet then (false, p)
  else
    let q := { p with mFdWriteSet := p.mFdWriteSet.erase fd }
    let q := if fd = q.mMaxFd then { q with mMaxFd := q.recalcMaxFD } else q
    (true, { q with mFdWriteCount := q.mFdWriteCount - 1 })

def registerForRead (fd : ℤ) (h : H) (p : SelectPoller H) : Bool × SelectPoller H :=
  match p.doRegisterForRead fd with
  | (false, q) => (false, q)
  | (true, q) => (true, { q with mFdReadHandlers := q.mFdReadHandlers.insert fd h })

def registerForWrite (fd : ℤ) (h : H) (p : SelectPoller H) : Bool × SelectPoller H :=
  match p.doRegisterForWrite fd with
  | (false, q) => (false, q)
  | (true, q) => (true, { q with mFdWriteHandlers := q.mFdWriteHandlers.insert fd h })

/-- The handler is erased before the subclass is asked, so `recalcMaxFD`
already runs without it. -/
def deregisterForRead (fd : ℤ) (p : SelectPoller H) : Bool × SelectPoller H :=
  { p with mFdReadHandlers := p.mFdReadHandlers.erase fd }.doDeregisterForRead fd

def deregisterForWrite (fd : ℤ) (p : SelectPoller H) : Bool × SelectPoller H :=
  { p with mFdWriteHandlers := p.mFdWriteHandlers.erase fd }.doDeregisterForWrite fd

def findForRead (fd : ℤ) (p : SelectPoller H) : Option H := p.mFdReadHandlers.lookup fd

def findForWrite (fd : ℤ) (p : SelectPoller H) : Option H := p.mFdWriteHandlers.lookup fd

end SelectPoller

end HttpsProxy
