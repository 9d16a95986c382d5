import HttpsProxy.Bytes
import HttpsProxy.EventPoller

/-! The part of the process outside the objects: `errno`, the poller, the
answers the kernel gives to the system calls of one notification, and the log
of what has been asked and answered so far. -/
namespace HttpsProxy

/-- The `errno` values the code tells apart. -/
inductive Errno where
  | EAGAIN
  | EWOULDBLOCK
  | EINPROGRESS
  | ECONNREFUSED
  | EPIPE
  | ECONNRESET
  | ENOBUFS
  | other (code : ℤ)
  deriving DecidableEq, Repr

/-- `EAGAIN == err || EWOULDBLOCK == err`. -/
def Errno.again (e : Errno) : Prop := e = .EAGAIN ∨ e = .EWOULDBLOCK

instance (e : Errno) : Decidable e.again := inferInstanceAs (Decidable (_ ∨ _))

/-- Address of a `ProxyTunnel` object. -/
abbrev TunId := ℕ

/-- The two connections of a tunnel. -/
inductive Side where
  | loc
  | proxy
  deriving DecidableEq, Repr

def Side.other : Side → Side
  | .loc => .proxy
  | .proxy => .loc

@[simp] theorem Side.other_other (side : Side) : side.other.other = side := by
  cases side <;> rfl

theorem Side.other_ne (side : Side) : side.other ≠ side := by
  cases side <;> simp [Side.other]

theorem Side.eq_other {s side : Side} (h : s ≠ side) : s = side.other := by
  cases s <;> cases side <;> first | rfl | exact absurd rfl h

/-- Address of a `Connection` object. -/
structure ConnId where
  tun : TunId
  side : Side
  deriving DecidableEq, Repr

/-- What the poller can call back. -/
inductive Watcher where
  | listener
  | conn (c : ConnId)
  deriving DecidableEq, Repr

/-- Answer to `::send`: how many bytes were taken (never more than were
offered, see `Sys.send`), or -1. -/
inductive SendRes where
  | sent (n : ℕ)
  | fail (e : Errno)
  deriving DecidableEq, Repr

/-- Answer to `recv`: the bytes read, none at end of stream, or -1. -/
inductive RecvRes where
  | data (bs : Bytes)
  | fail (e : Errno)
  deriving DecidableEq, Repr

/-- Answer to a call that only succeeds or fails. -/
inductive CallRes where
  | ok
  | fail (e : Errno)
  deriving DecidableEq, Repr

/-- Answer to a call that makes a descriptor: `socket`, `accept`. -/
inductive FdRes where
  | fd (n : ℕ)
  | fail (e : Errno)
  deriving DecidableEq, Repr

/-- Answer to `getsockopt(SO_ERROR)`; `pending` is a successful call that
reports a non-zero error. -/
inductive SockoptRes where
  | ok
  | pending (e : Errno)
  | fail (e : Errno)
  deriving DecidableEq, Repr

/-- `sockaddr_in` of the proxy server. -/
structure SockAddr where
  port : ℕ
  addr : ℕ
  deriving DecidableEq, Repr

/-- The answers the kernel will give, in the order of the calls. A script that
has run out would block (`EAGAIN`) on `send`, `recv` and `accept`. -/
structure Env where
  sends : List SendRes := []
  recvs : List RecvRes := []
  sockopts : List SockoptRes := []
  fcntls : List CallRes := []
  sockets : List FdRes := []
  connects : List CallRes := []
  accepts : List FdRes := []
  deriving DecidableEq, Repr

/-- Which `Connection` method calls the handler's `onError`. -/
inductive Caller where
  | send
  | input
  | output
  deriving DecidableEq, Repr

/-- One entry of the log. `sockSend` keeps what `errno` reads after the call;
`sockRecv` keeps the room left in the buffer. -/
inductive Ev where
  | sendCall (c : ConnId) (data : Bytes)
  | sockSend (c : ConnId) (data : Bytes) (r : SendRes) (errno : Errno)
  | sockRecv (c : ConnId) (room : ℕ) (r : RecvRes)
  | sockopt (c : ConnId) (r : SockoptRes)
  | accepted (fd : ℤ)
  | opened (c : ConnId) (fd : ℤ)
  | connect (c : ConnId) (sa : SockAddr) (r : CallRes)
  | close (fd : ℤ)
  | onConnected (c : ConnId)
  | onDisconnected (c : ConnId)
  | onRecv (c : ConnId) (data : Bytes)
  | onError (c : ConnId) (by_ : Caller)
  | established (t : TunId)
  | flushing (t : TunId)
  | flushTouched (t : TunId)
  | onClosed (t : TunId)
  | onBroken (t : TunId)
  | created (t : TunId)
  | deleted (t : TunId)
  deriving DecidableEq, Repr

/-- Everything a `Connection` works on besides its own fields. `aborted` is a
failed `assert`. -/
structure Sys where
  errno : Errno
  env : Env
  poller : SelectPoller Watcher
  trace : List Ev
  aborted : Bool

namespace Sys

def log (e : Ev) (s : Sys) : Sys := { s with trace := s.trace ++ [e] }

def setErrno (e : Errno) (s : Sys) : Sys := { s with errno := e }

/-- `::send(fd, data, len, 0)`; `none` is -1. -/
def send (c : ConnId) (data : Bytes) (s : Sys) : Option ℕ × Sys :=
  let t := { s with env.sends := s.env.sends.tail }
  match s.env.sends.headD (.fail .EAGAIN) with
  | .sent n =>
    let k := min n data.length
    (some k, t.log (.sockSend c data (.sent k) t.errno))
  | .fail e => (none, (t.setErrno e).log (.sockSend c data (.fail e) e))

/-- `recv(fd, buf, MAXLEN, 0)`; `none` is -1. -/
def recv (c : ConnId) (maxlen room : ℕ) (s : Sys) : Option Bytes × Sys :=
  let t := { s with env.recvs := s.env.recvs.tail }
  match s.env.recvs.headD (.fail .EAGAIN) with
  | .data bs => (some (bs.take maxlen), t.log (.sockRecv c room (.data (bs.take maxlen))))
  | .fail e => (none, (t.setErrno e).log (.sockRecv c room (.fail e)))

/-- `getsockopt(fd, SOL_SOCKET, SO_ERROR, &err, &errlen) < 0 || err != 0`,
with `errno = err` done for a pending error. -/
def sockError (c : ConnId) (s : Sys) : Bool × Sys :=
  let r := s.env.sockopts.headD .ok
  let t := { s with env.sockopts := s.env.sockopts.tail }.log (.sockopt c r)
  match r with
  | .ok => (false, t)
  | .pending e => (true, t.setErrno e)
  | .fail e => (true, t.setErrno e)

/-- One `fcntl` call. -/
def fcntl (s : Sys) : Bool × Sys :=
  let t := { s with env.fcntls := s.env.fcntls.tail }
  match s.env.fcntls.headD .ok with
  | .ok => (true, t)
  | .fail e => (false, t.setErrno e)

/-- `socket(AF_INET, SOCK_STREAM, 0)`. -/
def socket (s : Sys) : ℤ × Sys :=
  let t := { s with env.sockets := s.env.sockets.tail }
  match s.env.sockets.headD (.fail (.other 0)) with
  | .fd n => (n, t)
  | .fail e => (-1, t.setErrno e)

/-- `::connect(fd, sa, salen) == 0`. -/
def connect (c : ConnId) (sa : SockAddr) (s : Sys) : Bool × Sys :=
  let r := s.env.connects.headD (.fail .EINPROGRESS)
  let t := { s with env.connects := s.env.connects.tail }.log (.connect c sa r)
  match r with
  | .ok => (true, t)
  | .fail e => (false, t.setErrno e)

/-- `accept(fd, ...)`. -/
def accept (s : Sys) : ℤ × Sys :=
  let t := { s with env.accepts := s.env.accepts.tail }
  match s.env.accepts.headD (.fail .EAGAIN) with
  | .fd n => (n, t.log (.accepted n))
  | .fail e => (-1, t.setErrno e)

/-- `setNonblocking` of `proxy_common.cpp`: read the flags, then set them. -/
def setNonblocking (s : Sys) : Bool × Sys :=
  let (got, s) := s.fcntl
  if !got then (false, s)
  else
    let (set, s) := s.fcntl
    if !set then (false, s) else (true, s)

end Sys

end HttpsProxy
