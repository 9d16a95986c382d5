import HttpsProxy.Connection
import HttpsProxy.Cache
import HttpsProxy.ProxyCommon

/-! `proxy_tunnel.cpp`, with the two callbacks of `ProxyClient` that a tunnel
can run from inside its own methods. The order of the definitions is that of
the possible nesting: closing, then errors of the proxy connection, then
whatever sends to the proxy, then whatever sends to the client. -/
namespace HttpsProxy

inductive EProxyStatus where
  | Closed
  | Error
  | Connecting
  | Connected
  deriving DecidableEq, Repr

def HTTP_HEADER_SIZE : ℕ := 1024
def HTTP_LINE_SIZE : ℕ := 256
def ADDR_SIZE : ℕ := 256
def MAX_LEN_CACHE_IN_MEM : ℕ := 256*1024

def SSL_CONNECTION_RESPONSE_OK : Bytes := ascii "200 Connection established"

/-- `mHandler` says whether the client has been installed as handler;
`mHttpHeader` is the whole buffer. -/
structure ProxyTunnel where
  this : TunId
  mHandler : Bool
  mLocalConn : Connection
  mProxyConn : Connection
  mLocalCache : Cache
  mProxySvrAddr : SockAddr
  mDestSvrHost : Bytes
  mDestSvrPort : ℤ
  mProxyStatus : EProxyStatus
  mHttpHeader : Bytes
  mUsername : Bytes
  mPassword : Bytes
  deriving DecidableEq, Repr

namespace ProxyTunnel

def new (this : TunId) : ProxyTunnel :=
  { this := this
    mHandler := false
    mLocalConn := .new ⟨this, .loc⟩
    mProxyConn := .new ⟨this, .proxy⟩
    mLocalCache := .new
    mProxySvrAddr := ⟨0, 0⟩
    mDestSvrHost := []
    mDestSvrPort := 0
    mProxyStatus := .Closed
    mHttpHeader := List.replicate HTTP_HEADER_SIZE 0
    mUsername := []
    mPassword := [] }

/-- The text of `mHttpHeader`. -/
def header (t : ProxyTunnel) : Bytes := cstr t.mHttpHeader

/-- `HTTP_METHOD_CONNECT "\r\n" HTTP_FIELD_HOST "\r\n"`. -/
def requestLines (t : ProxyTunnel) : Bytes :=
  ascii "CONNECT " ++ cstr t.mDestSvrHost ++ ascii ":" ++ decimal t.mDestSvrPort ++
    ascii " HTTP/1.1" ++ CRLF ++
  ascii "Host: " ++ cstr t.mDestSvrHost ++ ascii ":" ++ decimal t.mDestSvrPort ++ CRLF

/-- `encBuf`, the token of `BASIC_PROXY_AUTHORIZATION`. -/
def authToken (t : ProxyTunnel) : Bytes :=
  let buf := cstr (snprintf HTTP_LINE_SIZE (cstr t.mUsername ++ ascii ":" ++ cstr t.mPassword))
  cstr (Base64Encode buf (HTTP_LINE_SIZE - 1)).2

/-- The request of `onConnected`, as far as `strlen(header)`. -/
def connectRequest (t : ProxyTunnel) : Bytes :=
  if t.mUsername = [] then cstr (snprintf HTTP_HEADER_SIZE (t.requestLines ++ CRLF))
  else cstr (snprintf HTTP_HEADER_SIZE (t.requestLines ++
    ascii "Proxy-Authorization: Basic " ++ t.authToken ++ CRLF ++ CRLF))

end ProxyTunnel

/-- `inet_pton(AF_INET, ip, &sin_addr)`: 1 with the address stored, 0, or -1. -/
inductive PtonRes where
  | valid (addr : ℕ)
  | invalid
  | error
  deriving DecidableEq, Repr

/-- A tunnel together with what its methods work on. `dangling` records that
`flushAll` went on with an iterator into a list that had been cleared. -/
structure TunCtx where
  tun : ProxyTunnel
  sys : Sys
  stdio : List WriteRes
  mBrokenTuns : List TunId
  dangling : Bool

namespace TunCtx

def log (e : Ev) (m : TunCtx) : TunCtx := { m with sys := m.sys.log e }

def conn : Side → TunCtx → Connection
  | .loc, m => m.tun.mLocalConn
  | .proxy, m => m.tun.mProxyConn

def setConn : Side → Connection → TunCtx → TunCtx
  | .loc, c, m => { m with tun.mLocalConn := c }
  | .proxy, c, m => { m with tun.mProxyConn := c }

def ctx (side : Side) (m : TunCtx) : Ctx := ⟨m.conn side, m.sys⟩

def put (side : Side) (x : Ctx) (m : TunCtx) : TunCtx := { m.setConn side x.conn with sys := x.sys }

def setStatus (st : EProxyStatus) (m : TunCtx) : TunCtx := { m with tun.mProxyStatus := st }

/-- `mLocalConn.setEventHandler(h)` or `mProxyConn.setEventHandler(h)`. -/
def setEventHandler (side : Side) (h : Bool) (m : TunCtx) : TunCtx :=
  m.setConn side ((m.conn side).setEventHandler h)

def shutdown (side : Side) (m : TunCtx) : TunCtx := m.put side (m.ctx side).shutdown

/-- `mXConn.setEventHandler(NULL); mXConn.shutdown();` -/
def detach (side : Side) (m : TunCtx) : TunCtx := (m.setEventHandler side false).shutdown side

def clearCache (m : TunCtx) : TunCtx := { m with tun.mLocalCache := m.tun.mLocalCache.clear }

def cleanup (m : TunCtx) : TunCtx := ((m.clearCache.detach .loc).setStatus .Closed).detach .proxy

/-- `mBrokenTuns.insert(tun)`. -/
def insertBroken (m : TunCtx) : TunCtx :=
  { m with mBrokenTuns :=
      if m.tun.this ∈ m.mBrokenTuns then m.mBrokenTuns else m.mBrokenTuns ++ [m.tun.this] }

/-- `ProxyClient::onClosed`. -/
def clientOnClosed (m : TunCtx) : TunCtx := m.cleanup.insertBroken

/-- `ProxyClient::onError`. -/
def clientOnError (m : TunCtx) : TunCtx := m.cleanup.insertBroken

def _onClose (m : TunCtx) : TunCtx :=
  if m.tun.mHandler then (m.log (.onClosed m.tun.this)).clientOnClosed else m

def _onError (m : TunCtx) : TunCtx :=
  if m.tun.mHandler then (m.log (.onBroken m.tun.this)).clientOnError else m

/-- `onError(&mProxyConn)`. -/
def onErrorProxy (m : TunCtx) : TunCtx :=
  let m := (m.detach .proxy).clearCache
  (m.detach .loc)._onError

/-- A connection whose handler is only asked for `onError`, as by `send`. -/
def errorOwner (side : Side) (onError : TunCtx → TunCtx) : Owner TunCtx where
  ctx := ctx side
  put := put side
  handler
    | .onError => onError
    | _ => id

/-- `mProxyConn.send(data, datalen)`. -/
def sendProxy (data : Bytes) (m : TunCtx) : TunCtx :=
  (errorOwner .proxy onErrorProxy).run ((m.ctx .proxy).send data) m

def onFlushLocal (data : Bytes) (m : TunCtx) : Bool × TunCtx := (true, m.sendProxy data)

/-- The tunnel as the host of `mLocalCache`. -/
def cacheHost : CacheHost TunCtx where
  get m := m.tun.mLocalCache
  put c m := { m with tun.mLocalCache := c }
  func := onFlushLocal
  abort m := { m with sys.aborted := true }
  dangling m := { m.log (.flushTouched m.tun.this) with dangling := true }
  changed m := m.log (.flushTouched m.tun.this)

def flushLocal (m : TunCtx) : TunCtx :=
  if m.tun.mProxyStatus = .Connected then (cacheHost.flushAll (m.log (.flushing m.tun.this))).2
  else m

/-- `onError(&mLocalConn)`. -/
def onErrorLocal (m : TunCtx) : TunCtx :=
  let m := m.shutdown .loc
  let m := if m.tun.mProxyStatus = .Connected then m.flushLocal else m
  ((m.setStatus .Closed).detach .proxy)._onError

def onError : Side → TunCtx → TunCtx
  | .loc => onErrorLocal
  | .proxy => onErrorProxy

/-- `mLocalConn.send(data, datalen)`. -/
def sendLocal (data : Bytes) (m : TunCtx) : TunCtx :=
  (errorOwner .loc onErrorLocal).run ((m.ctx .loc).send data) m

def onConnected (side : Side) (m : TunCtx) : TunCtx :=
  match side with
  | .proxy =>
    let m := { m.setStatus .Connecting with
      tun.mHttpHeader := memcpy m.tun.mHttpHeader 0 [0] }
    m.sendProxy m.tun.connectRequest
  | .loc => { m with sys.aborted := true }

def onDisconnected (side : Side) (m : TunCtx) : TunCtx :=
  match side with
  | .loc =>
    let m := m.shutdown .loc
    let m := if m.tun.mProxyStatus = .Connected then m.flushLocal else m
    ((m.setStatus .Closed).shutdown .proxy)._onClose
  | .proxy =>
    let m := (m.shutdown .proxy).clearCache
    (m.shutdown .loc)._onClose

/-- The line loop of `parseHttpHeader` from `line_head` on, run at most `fuel`
times; true when it meets an empty line. -/
def lineLoop : ℕ → Bytes → Bool
  | 0, _ => false
  | fuel+1, line =>
    match strstr CRLF line with
    | none => false
    | some 0 => true
    | some k => lineLoop fuel (line.drop (k+2))

/-- `full_header` for the text of `mHttpHeader`. -/
def fullHeader (text : Bytes) : Bool := lineLoop (text.length + 1) text

/-- The search of `parseHttpHeader` for `SSL_CONNECTION_RESPONSE_OK`. -/
def acceptsHeader (text : Bytes) : Bool :=
  (strstrICase SSL_CONNECTION_RESPONSE_OK text).isSome

def parseHttpHeader (m : TunCtx) : TunCtx :=
  if fullHeader m.tun.header then
    if acceptsHeader m.tun.header then
      ((m.setStatus .Connected).log (.established m.tun.this)).flushLocal
    else
      ((m.setStatus .Error).setEventHandler .proxy false)._onError
  else m

/-- `mLocalCache->cache(data, datalen)`. -/
def cacheLocal (data : Bytes) (m : TunCtx) : TunCtx :=
  let (c, ws) := m.tun.mLocalCache.cache MAX_LEN_CACHE_IN_MEM m.stdio data
  { m with tun.mLocalCache := c, stdio := ws }

/-- The error exits of `onRecv`: detach the proxy connection and report. -/
def dropProxy (m : TunCtx) : TunCtx := (m.setEventHandler .proxy false)._onError

def onRecv (side : Side) (data : Bytes) (m : TunCtx) : TunCtx :=
  match side with
  | .loc =>
    if m.tun.mProxyStatus = .Connected then m.sendProxy data else m.cacheLocal data
  | .proxy =>
    match m.tun.mProxyStatus with
    | .Connecting =>
      let ptr := strlen m.tun.mHttpHeader
      let endptr := HTTP_HEADER_SIZE - 1
      if endptr - ptr < data.length then m.dropProxy
      else
        let buf := memcpy m.tun.mHttpHeader ptr data
        let buf := memcpy buf (ptr + data.length) [0]
        { m with tun.mHttpHeader := buf }.parseHttpHeader
    | .Connected =>
      if !m.tun.mLocalConn.isConnected then m.dropProxy else m.sendLocal data
    | _ => m.dropProxy

/-- The tunnel as the handler of its two connections. -/
def handler (side : Side) : Callback → TunCtx → TunCtx
  | .onConnected => onConnected side
  | .onDisconnected => onDisconnected side
  | .onRecv data => onRecv side data
  | .onError => onError side

def owner (side : Side) : Owner TunCtx where
  ctx := ctx side
  put := put side
  handler := handler side

def acceptLocal (connfd : ℤ) (m : TunCtx) : Bool × TunCtx :=
  let (ok, x) := (m.ctx .loc).acceptConnection connfd
  let m := m.put .loc x
  if !ok then (false, m)
  else
    let m := m.setEventHandler .loc true
    let m := (m.setStatus .Closed).setEventHandler .proxy true
    let (ok, r) := (m.ctx .proxy).connect m.tun.mProxySvrAddr
    let m := (owner .proxy).run r m
    if !ok then
      let m := (m.setEventHandler .loc false).shutdown .loc
      (false, m.setEventHandler .proxy false)
    else (true, m)

def setProxyServer (pton : Bytes → PtonRes) (ip : Bytes) (port : ℤ) (m : TunCtx) :
    Bool × TunCtx :=
  let m := { m with tun.mProxySvrAddr.port := (port % 65536).toNat }
  match pton ip with
  | .error => (false, m)
  | .invalid => (true, m)
  | .valid a => (true, { m with tun.mProxySvrAddr.addr := a })

def setDestServer (hostname : Bytes) (port : ℤ) (m : TunCtx) : TunCtx :=
  { m with
    tun.mDestSvrHost := snprintf ADDR_SIZE hostname
    tun.mDestSvrPort := port }

/-- No step follows a failed `assert` or a dangling iterator. -/
def halted (m : TunCtx) : Bool := m.dangling || m.sys.aborted

end TunCtx

end HttpsProxy
