import HttpsProxy.Syscalls

/-! `connection.cpp`. A method that calls its handler does so as its last act,
so a method here returns the callback it makes and the owner of the connection
runs it; `handleInputNotification` makes two and is split at the first. -/
namespace HttpsProxy

inductive EConnStatus where
  | Closed
  | Error
  | Connecting
  | Connected
  deriving DecidableEq, Repr

/-- `buflen` is the length of `buf`. -/
structure TcpPacket where
  buf : Bytes
  sentlen : ℕ
  deriving DecidableEq, Repr

/-- The bytes of a packet not yet taken by the socket. -/
def TcpPacket.rest (p : TcpPacket) : Bytes := p.buf.drop p.sentlen

/-- `mHandler` says whether a handler is installed. -/
structure Connection where
  this : ConnId
  mFd : ℤ
  mConnStatus : EConnStatus
  mHandler : Bool
  mbRegForRead : Bool
  mbRegForWrite : Bool
  mTcpPacketList : List TcpPacket
  deriving DecidableEq, Repr

/-- Call of a method of `Connection::Handler`. -/
inductive Callback where
  | onConnected
  | onDisconnected
  | onRecv (data : Bytes)
  | onError
  deriving DecidableEq, Repr

/-- A connection together with what its methods work on. -/
structure Ctx where
  conn : Connection
  sys : Sys

namespace Connection

def MAXLEN : ℕ := 8*1024
def LIMIT_LEN : ℕ := 1024*1024

def new (this : ConnId) : Connection := ⟨this, -1, .Closed, false, false, false, []⟩

/-- The queued bytes, in the order in which they will be sent. -/
def pending (c : Connection) : Bytes := c.mTcpPacketList.flatMap TcpPacket.rest

def isConnected (c : Connection) : Bool := c.mConnStatus = .Connected

def setEventHandler (h : Bool) (c : Connection) : Connection := { c with mHandler := h }

end Connection

namespace Ctx

open Connection

def log (e : Ev) (x : Ctx) : Ctx := { x with sys := x.sys.log e }

def setStatus (st : EConnStatus) (x : Ctx) : Ctx := { x with conn.mConnStatus := st }

def tryRegReadEvent (x : Ctx) : Ctx :=
  if x.conn.mbRegForRead then x
  else { x with
    conn.mbRegForRead := true
    sys.poller := (x.sys.poller.registerForRead x.conn.mFd (.conn x.conn.this)).2 }

def tryUnregReadEvent (x : Ctx) : Ctx :=
  if x.conn.mbRegForRead then { x with
    conn.mbRegForRead := false
    sys.poller := (x.sys.poller.deregisterForRead x.conn.mFd).2 }
  else x

def tryRegWriteEvent (x : Ctx) : Ctx :=
  if x.conn.mbRegForWrite then x
  else { x with
    conn.mbRegForWrite := true
    sys.poller := (x.sys.poller.registerForWrite x.conn.mFd (.conn x.conn.this)).2 }

def tryUnregWriteEvent (x : Ctx) : Ctx :=
  if x.conn.mbRegForWrite then { x with
    conn.mbRegForWrite := false
    sys.poller := (x.sys.poller.deregisterForWrite x.conn.mFd).2 }
  else x

/-- `close(mFd); mFd = -1;` -/
def closeFd (x : Ctx) : Ctx :=
  { conn := { x.conn with mFd := -1 }, sys := x.sys.log (.close x.conn.mFd) }

def shutdown (x : Ctx) : Ctx :=
  if x.conn.mFd < 0 then x
  else
    let x := x.tryUnregWriteEvent.tryUnregReadEvent.closeFd.setStatus .Closed
    { x with conn.mTcpPacketList := [] }

def acceptConnection (connfd : ℤ) (x : Ctx) : Bool × Ctx :=
  if 0 ≤ x.conn.mFd then (false, x)
  else
    let x := { x with conn.mFd := connfd }.log (.opened x.conn.this connfd)
    let (ok, s) := x.sys.setNonblocking
    let x := { x with sys := s }
    if !ok then (false, x.closeFd)
    else (true, x.tryRegReadEvent.setStatus .Connected)

/-- `connect(const sockaddr *sa, socklen_t salen)`. -/
def connect (sa : SockAddr) (x : Ctx) : Bool × Ctx × Option Callback :=
  let x := if 0 ≤ x.conn.mFd then x.shutdown else x
  if 0 ≤ x.conn.mFd then (false, x, none)
  else
    let (fd, s) := x.sys.socket
    let x : Ctx := ⟨{ x.conn with mFd := fd }, s⟩
    if fd < 0 then (false, x, none)
    else
      let x := x.log (.opened x.conn.this fd)
      let (ok, s) := x.sys.setNonblocking
      let x := { x with sys := s }
      if !ok then (false, x.closeFd, none)
      else
        let (ok, s) := x.sys.connect x.conn.this sa
        let x := { x with sys := s }
        if ok then
          let x := x.tryRegReadEvent.setStatus .Connected
          if x.conn.mHandler then (true, x.log (.onConnected x.conn.this), some .onConnected)
          else (true, x, none)
        else if x.sys.errno = .EINPROGRESS then
          (true, (x.setStatus .Connecting).tryRegWriteEvent, none)
        else (false, x.closeFd, none)

/-- The loop of `tryFlushRemainPacket`: send packet after packet, stop at the
first one that is not taken whole. The list keeps what is left. -/
def flushPackets (c : ConnId) : List TcpPacket → Sys → List TcpPacket × Sys
  | [], s => ([], s)
  | p :: ps, s =>
    if p.buf.length ≤ p.sentlen then (p :: ps, { s with aborted := true })
    else
      let (sentlen, s) := s.send c p.rest
      if sentlen = some p.rest.length then flushPackets c ps s
      else ({ p with sentlen := p.sentlen + sentlen.getD 0 } :: ps, s)

def tryFlushRemainPacket (x : Ctx) : Bool × Ctx :=
  if x.conn.mTcpPacketList = [] then (true, x)
  else
    let (ps, s) := flushPackets x.conn.this x.conn.mTcpPacketList x.sys
    let x : Ctx := ⟨{ x.conn with mTcpPacketList := ps }, s⟩
    if ps = [] then (true, x.tryUnregWriteEvent) else (false, x)

def cachePacket (data : Bytes) (x : Ctx) : Ctx :=
  { x with conn.mTcpPacketList := x.conn.mTcpPacketList ++ [⟨data, 0⟩] }

/-- Drop both registrations and call `mHandler->onError(this)`. -/
def raiseError (by_ : Caller) (x : Ctx) : Ctx × Option Callback :=
  (x.tryUnregReadEvent.tryUnregWriteEvent.log (.onError x.conn.this by_), some .onError)

/-- `checkSocketErrors`: whatever `errno` holds is taken for the result of the
last call, whether or not that call failed. -/
def checkSocketErrors (by_ : Caller) (x : Ctx) : Bool × Ctx × Option Callback :=
  if x.sys.errno.again then (false, x, none)
  else if x.conn.mHandler then (true, x.raiseError by_) else (true, x, none)

/-- `::send(mFd, data, datalen, 0)` of `send`. -/
def sendDirect (data : Bytes) (x : Ctx) : Option ℕ × Ctx :=
  let (sentlen, s) := x.sys.send x.conn.this data
  (sentlen, { x with sys := s })

/-- The end of `send`, with the data that has not been taken. -/
def sendRest (rest : Bytes) (x : Ctx) : Ctx × Option Callback :=
  let (err, x, cb) := x.checkSocketErrors .send
  if err then (x, cb) else ((x.cachePacket rest).tryRegWriteEvent, none)

def send (data : Bytes) (x : Ctx) : Ctx × Option Callback :=
  let x := x.log (.sendCall x.conn.this data)
  if x.conn.mFd < 0 then (x, none)
  else if x.conn.mConnStatus ≠ .Connected then (x, none)
  else
    let (flushed, x) := x.tryFlushRemainPacket
    if flushed then
      let (sentlen, x) := x.sendDirect data
      if sentlen = some data.length then (x, none)
      else x.sendRest (data.drop (sentlen.getD 0))
    else x.sendRest data

/-- The `recv` loop, on the bytes read so far and the room of `buf`; the list
holds the answers still to come. A short read ends it, and so does
`LIMIT_LEN`. The result carries the connection status the last read asks for. -/
def recvLoop (c : ConnId) : List RecvRes → Bytes → ℕ → Sys → Bytes × Option EConnStatus × Sys
  | [], buf, cap, s =>
    let (_, s) := s.recv c MAXLEN (cap - buf.length)
    (buf, none, s)
  | _ :: rs, buf, cap, s =>
    match s.recv c MAXLEN (cap - buf.length) with
    | (none, s) => (buf, if s.errno.again then none else some .Error, s)
    | (some bs, s) =>
      let buf := buf ++ bs
      if MAXLEN ≤ bs.length then
        if LIMIT_LEN ≤ buf.length then (buf, none, s)
        else recvLoop c rs buf (buf.length + MAXLEN) s
      else (buf, if bs = [] then some .Closed else none, s)

/-- `handleInputNotification` up to and with the call of `onRecv`. -/
def inputRecv (x : Ctx) : Ctx × Option Callback :=
  let (buf, st, s) := recvLoop x.conn.this x.sys.env.recvs [] MAXLEN x.sys
  let x : Ctx := ⟨{ x.conn with mConnStatus := st.getD x.conn.mConnStatus }, s⟩
  if buf ≠ [] ∧ x.conn.mHandler then
    (x.log (.onRecv x.conn.this buf), some (.onRecv buf))
  else (x, none)

/-- `handleInputNotification` behind the call of `onRecv`. -/
def inputFinish (x : Ctx) : Ctx × Option Callback :=
  if x.conn.mHandler then
    if x.conn.mConnStatus = .Error then x.raiseError .input
    else if x.conn.mConnStatus = .Closed then
      (x.tryUnregReadEvent.tryUnregWriteEvent.log (.onDisconnected x.conn.this),
        some .onDisconnected)
    else (x, none)
  else (x, none)

def handleOutputNotification (x : Ctx) : Ctx × Option Callback :=
  if x.conn.mConnStatus = .Connecting then
    let x := x.tryUnregWriteEvent
    let (err, s) := x.sys.sockError x.conn.this
    let x := { x with sys := s }
    if err then
      let x := x.setStatus .Error
      if x.conn.mHandler then x.raiseError .output else (x, none)
    else
      let x := x.tryRegReadEvent.setStatus .Connected
      if x.conn.mHandler then (x.log (.onConnected x.conn.this), some .onConnected)
      else (x, none)
  else if x.conn.mConnStatus = .Connected then
    let (_, x) := x.tryFlushRemainPacket
    let (_, x, cb) := x.checkSocketErrors .output
    (x, cb)
  else (x, none)

end Ctx

/-- An object that owns a connection and is installed as its handler. -/
structure Owner (σ : Type) where
  ctx : σ → Ctx
  put : Ctx → σ → σ
  handler : Callback → σ → σ

namespace Owner

variable {σ : Type}

/-- Store what a method left behind and run the callback it made. -/
def run (o : Owner σ) (r : Ctx × Option Callback) (s : σ) : σ :=
  match r.2 with
  | none => o.put r.1 s
  | some cb => o.handler cb (o.put r.1 s)

def handleInputNotification (o : Owner σ) (s : σ) : σ :=
  if (o.ctx s).conn.mConnStatus ≠ .Connected then s
  else
    let s := o.run (o.ctx s).inputRecv s
    o.run (o.ctx s).inputFinish s

def handleOutputNotification (o : Owner σ) (s : σ) : σ :=
  o.run (o.ctx s).handleOutputNotification s

end Owner

end HttpsProxy
