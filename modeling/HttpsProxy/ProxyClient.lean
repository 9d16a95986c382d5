import HttpsProxy.Session
import HttpsProxy.Watching

/-! `proxy_client.cpp` and `listener.cpp`: the tunnels there are, the two lists
they wait in, and the callbacks the poller makes between two `select`s. -/
namespace HttpsProxy

def CACHE_TUN_SIZE : ℕ := 64

/-- What a callback finds in `errno`, and the answers its calls will get. -/
structure Answers where
  errno : Errno
  env : Env
  stdio : List WriteRes

/-- A return of `newTunnel`: the tunnel, if it is still there, and `mBrokenTuns`
at that moment. -/
structure Obtained where
  tun : TunId
  object : Option ProxyTunnel
  mBrokenTuns : List TunId

/-- A `delete` in `reclaimTunnel`: the poller, and the tunnels with a method on
the call stack, at that moment. -/
structure Deletion where
  tun : TunId
  poller : SelectPoller Watcher
  stack : List TunId

/-- The client with the process around it. `tunnels` are the objects there are;
an address is not used again. `stack`, `obtained` and `deletions` are not in the
code: they record calls. -/
structure ProxyClient where
  tunnels : TunId → Option ProxyTunnel
  nextTun : TunId
  mFreeTuns : List TunId
  mBrokenTuns : List TunId
  sys : Sys
  stdio : List WriteRes
  dangling : Bool
  stack : List TunId
  obtained : List Obtained
  deletions : List Deletion

namespace ProxyClient

/-- No tunnel yet. -/
def start (p : SelectPoller Watcher) : ProxyClient :=
  { tunnels := fun _ => none
    nextTun := 0
    mFreeTuns := []
    mBrokenTuns := []
    sys := ⟨.other 0, {}, p, [], false⟩
    stdio := []
    dangling := false
    stack := []
    obtained := []
    deletions := [] }

/-- `initialise`, with the listener's descriptor; `none` if it fails. -/
def initialise (mFd : ℤ) : Option ProxyClient :=
  match SelectPoller.new.registerForRead mFd .listener with
  | (false, _) => none
  | (true, p) => some (start p)

/-- No step follows a failed `assert` or the use of a dangling pointer. -/
def halted (w : ProxyClient) : Bool := w.dangling || w.sys.aborted

def resume (a : Answers) (w : ProxyClient) : ProxyClient :=
  { w with
    sys := { w.sys with errno := a.errno, env := a.env }
    stdio := a.stdio }

/-- What the methods of a tunnel work on. -/
def enter (w : ProxyClient) (tun : ProxyTunnel) : TunCtx :=
  ⟨tun, w.sys, w.stdio, w.mBrokenTuns, w.dangling⟩

/-- What a method of the tunnel `t` leaves behind. -/
def leave (t : TunId) (m : TunCtx) (w : ProxyClient) : ProxyClient :=
  { w with
    tunnels := Function.update w.tunnels t (some m.tun)
    sys := m.sys
    stdio := m.stdio
    mBrokenTuns := m.mBrokenTuns
    dangling := m.dangling }

/-- A method of the tunnel `t`, on the call stack while it runs. The two methods
of the client that it can call, `onClosed` and `onError`, delete nothing. -/
def call {α : Type} (t : TunId) (f : TunCtx → α × TunCtx) (w : ProxyClient) : Option α × ProxyClient :=
  match w.tunnels t with
  | none => (none, { w with dangling := true })
  | some tun =>
    let w := { w with stack := t :: w.stack }
    let (a, m) := f (w.enter tun)
    let w := w.leave t m
    (some a, { w with stack := w.stack.tail })

/-- `newTunnel`; the address is that of a new object if none is free. -/
def newTunnel (w : ProxyClient) : TunId × ProxyClient :=
  match w.mFreeTuns with
  | [] =>
    (w.nextTun,
      { w with
        tunnels := Function.update w.tunnels w.nextTun (some (.new w.nextTun))
        nextTun := w.nextTun + 1
        obtained := w.obtained ++ [⟨w.nextTun, some (.new w.nextTun), w.mBrokenTuns⟩] })
  | t :: ts =>
    (t, { w with
      mFreeTuns := ts
      obtained := w.obtained ++ [⟨t, w.tunnels t, w.mBrokenTuns⟩] })

/-- `delete tun`: the destructors of the two connections, the last one first. -/
def deleteTunnel (t : TunId) (w : ProxyClient) : ProxyClient :=
  let w : ProxyClient := { w with deletions := w.deletions ++ [⟨t, w.sys.poller, w.stack⟩] }
  let (_, w) := w.call t fun m => ((), (m.shutdown .proxy).shutdown .loc)
  { w with tunnels := Function.update w.tunnels t none }

def reclaimTunnel (t : TunId) (w : ProxyClient) : ProxyClient :=
  if CACHE_TUN_SIZE ≤ w.mFreeTuns.length then w.deleteTunnel t
  else { w with mFreeTuns := w.mFreeTuns ++ [t] }

/-- `onAccept`. A method of the tunnel is on the stack as long as it runs, but no
longer when `reclaimTunnel` is called. -/
def onAccept (cfg : Config) (connfd : ℤ) (w : ProxyClient) : ProxyClient :=
  let (t, w) := w.newTunnel
  match w.call t (TunCtx.onAccept cfg connfd) with
  | (some .illegalProxy, w) => w.reclaimTunnel t
  | (_, w) => w

/-- One iteration of the loop of `Listener::handleInputNotification`; false if it
breaks. -/
def acceptOne (cfg : Config) (w : ProxyClient) : Bool × ProxyClient :=
  let (connfd, s) := w.sys.accept
  let w := { w with sys := s }
  if connfd < 0 then (false, w) else (true, w.onAccept cfg connfd)

def acceptLoop (cfg : Config) : ℕ → ProxyClient → ProxyClient
  | 0, w => w
  | n+1, w =>
    let (more, w) := w.acceptOne cfg
    if more && !w.halted then acceptLoop cfg n w else w

/-- `Listener::handleInputNotification`. -/
def handleInputNotification (cfg : Config) (w : ProxyClient) : ProxyClient := w.acceptLoop cfg 32

/-- The call of the handler the poller has found. -/
def dispatch (cfg : Config) (w : ProxyClient) : Interest → Watcher → ProxyClient
  | .read, .listener => w.handleInputNotification cfg
  | .write, .listener => w
  | .read, .conn c => (w.call c.tun fun m => ((), m.notify (.input c.side))).2
  | .write, .conn c => (w.call c.tun fun m => ((), m.notify (.output c.side))).2

/-- `triggerRead` or `triggerWrite`. -/
def trigger (cfg : Config) (i : Interest) (fd : ℤ) (w : ProxyClient) : ProxyClient :=
  match w.sys.poller.find i fd with
  | none => w
  | some h => w.dispatch cfg i h

/-- The end of an iteration of `runLoop`. `mBrokenTuns` is sorted by address, so
its order is anything. -/
def reclaimBroken (order : List TunId) (w : ProxyClient) : ProxyClient :=
  { order.foldl (fun w t => w.reclaimTunnel t) w with mBrokenTuns := [] }

end ProxyClient

/-- What happens next in `runLoop`: `processPendingEvents` makes one more
callback, or it has returned. -/
inductive ClientAction where
  | callback (i : Interest) (fd : ℤ) (a : Answers)
  | reclaim (order : List TunId)

namespace ProxyClient

def Enabled (w : ProxyClient) : ClientAction → Prop
  | .callback _ _ _ => w.halted = false
  | .reclaim order => w.halted = false ∧ order.Perm w.mBrokenTuns

def next (cfg : Config) (w : ProxyClient) : ClientAction → ProxyClient
  | .callback i fd a => (w.resume a).trigger cfg i fd
  | .reclaim order => w.reclaimBroken order

/-- The states of `runLoop`, callbacks coming in any order, in runs whose steps
all meet `S`. -/
inductive Reaches (cfg : Config) (S : ProxyClient → ClientAction → Prop) : ProxyClient → Prop where
  | start (mFd : ℤ) (w : ProxyClient) (h : initialise mFd = some w) : Reaches cfg S w
  | step {w : ProxyClient} (a : ClientAction) (h : Reaches cfg S w) (he : w.Enabled a) (hs : S w a) :
      Reaches cfg S (w.next cfg a)

/-- All the states of `runLoop`. -/
abbrev Reachable (cfg : Config) : ProxyClient → Prop := Reaches cfg fun _ _ => True

end ProxyClient

end HttpsProxy
