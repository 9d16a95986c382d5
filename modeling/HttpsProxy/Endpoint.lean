import HttpsProxy.ClientRule
import HttpsProxy.ConnectionRule
import HttpsProxy.Decimal
import HttpsProxy.TunnelRule
import HttpsProxy.TunnelPool

/-! Which endpoint the tunnels connect to. `inet_pton` answers 0 where the text is
no address, and the client asks whether the answer is negative: it accepts every
text and every port, and cuts both to fit. -/
namespace HttpsProxy

def IPv4_SIZE : ℕ := 16

/-- `ProxyClient::setProxyServer`. -/
def Config.setProxyServer (ip : Bytes) (port : ℤ) (cfg : Config) : Bool × Config :=
  match cfg.pton ip with
  | .error => (false, cfg)
  | _ => (true, { cfg with mProxyIp := snprintf IPv4_SIZE ip, mProxyPort := port })

/-- A decimal number from 0 to 255 in at most three digits. -/
def IsOctet (ds : Bytes) : Prop :=
  ds ≠ [] ∧ ds.length ≤ 3 ∧ (∀ d ∈ ds, 48 ≤ d.toNat ∧ d.toNat ≤ 57) ∧ digitsValue ds ≤ 255

instance (ds : Bytes) : Decidable (IsOctet ds) := inferInstanceAs (Decidable (_ ∧ _))

def octetsValue (octets : List Bytes) : ℕ := octets.foldl (fun a o => 256*a + digitsValue o) 0

/-- `s` is the dotted quad of the address `addr`. -/
def DottedQuad (s : Bytes) (addr : ℕ) : Prop :=
  ∃ octets : List Bytes, octets.length = 4 ∧ (∀ o ∈ octets, IsOctet o) ∧
    s = [46].intercalate octets ∧ addr = octetsValue octets

/-- What is known of `inet_pton(AF_INET, ...)`: it does not fail, and takes dotted
quads only. Whether a number may start with a zero is left open. -/
structure InetPton (pton : Bytes → PtonRes) : Prop where
  answers : ∀ s, pton s ≠ .error
  quad : ∀ s a, pton s = .valid a → DottedQuad s a

/-- The dotted quads, zeros in front allowed. -/
def inetPton (s : Bytes) : PtonRes :=
  let octets := s.splitOn 46
  if octets.length = 4 ∧ ∀ o ∈ octets, IsOctet o then .valid (octetsValue octets) else .invalid

theorem inetPton_valid_iff {s : Bytes} {a : ℕ} : inetPton s = .valid a ↔ DottedQuad s a := by
  unfold inetPton
  simp only
  constructor
  · intro h
    split at h
    · rename_i hquad
      exact ⟨s.splitOn 46, hquad.1, hquad.2, (List.intercalate_splitOn 46).symm, (PtonRes.valid.inj h).symm⟩
    · cases h
  · rintro ⟨octets, hfour, hoctets, rfl, rfl⟩
    have hdot : ∀ o ∈ octets, (46 : UInt8) ∉ o := fun o ho hmem =>
      absurd ((hoctets o ho).2.2.1 46 hmem).1 (by decide)
    have hsplit : ([46].intercalate octets).splitOn 46 = octets := by
      apply List.splitOn_intercalate 46 hdot
      rintro rfl
      cases hfour
    rw [hsplit, if_pos ⟨hfour, hoctets⟩]

theorem inetPton_inetPton : InetPton inetPton where
  answers s := by
    unfold inetPton
    simp only
    split <;> exact fun h => nomatch h
  quad _ _ h := inetPton_valid_iff.mp h

/-- A dotted quad fits into `mProxyIp`. -/
theorem DottedQuad.length_lt {s : Bytes} {addr : ℕ} (h : DottedQuad s addr) : s.length < IPv4_SIZE := by
  obtain ⟨octets, hfour, hoctets, rfl, -⟩ := h
  obtain ⟨p, q, r, t, rfl⟩ := List.length_eq_four.mp hfour
  have hp := (hoctets p (by simp)).2.1
  have hq := (hoctets q (by simp)).2.1
  have hr := (hoctets r (by simp)).2.1
  have ht := (hoctets t (by simp)).2.1
  simp only [List.intercalate_cons_cons, List.intercalate_singleton, List.length_append, List.length_cons,
    List.length_nil, IPv4_SIZE]
  omega

/-- From `s` to `t` connections have been asked for with `A` only. -/
def DialsOnly (A : SockAddr → Prop) (s t : Sys) : Prop :=
  ∃ evs, t.trace = s.trace ++ evs ∧ ∀ c sa a, .connect c sa a ∈ evs → A sa

namespace DialsOnly

variable {A : SockAddr → Prop} {s t u : Sys}

theorem of_eq (h : t.trace = s.trace) : DialsOnly A s t :=
  ⟨[], by rw [h, List.append_nil], fun _ _ _ hm => nomatch hm⟩

theorem trans (h : DialsOnly A s t) (k : DialsOnly A t u) : DialsOnly A s u := by
  obtain ⟨es, ht, he⟩ := h
  obtain ⟨fs, hu, hf⟩ := k
  refine ⟨es ++ fs, by rw [hu, ht, List.append_assoc], fun c sa a hm => ?_⟩
  rcases List.mem_append.mp hm with hm | hm
  · exact he c sa a hm
  · exact hf c sa a hm

theorem entry {e : Ev} (h : t.trace = s.trace ++ [e]) (he : ∀ c sa a, e = .connect c sa a → A sa) :
    DialsOnly A s t :=
  ⟨[e], h, fun c sa a hm => he c sa a (List.mem_singleton.mp hm).symm⟩

theorem imp {B : SockAddr → Prop} (h : DialsOnly A s t) (hAB : ∀ sa, A sa → B sa) : DialsOnly B s t := by
  obtain ⟨evs, ht, he⟩ := h
  exact ⟨evs, ht, fun c sa a hm => hAB sa (he c sa a hm)⟩

end DialsOnly

section Rules

variable {A : SockAddr → Prop}

/-- None of the methods that find a connection open asks for another one. -/
theorem Ctx.dialsOnly_rule : Ctx.Rule fun x y => DialsOnly A x.sys y.sys where
  refl _ := .of_eq rfl
  trans h k := h.trans k
  regRead x := .of_eq x.tryRegReadEvent_sys.2.2.1
  unregRead x := .of_eq x.tryUnregReadEvent_sys.2.2.1
  regWrite x := .of_eq x.tryRegWriteEvent_sys.2.2.1
  unregWrite x := .of_eq x.tryUnregWriteEvent_sys.2.2.1
  setStatus _ _ := .of_eq rfl
  packets _ _ := .of_eq rfl
  log e he x := .entry rfl fun _ _ _ h => by rw [h] at he; exact he.elim
  sysSend c data x := by
    unfold Sys.send
    cases x.sys.env.sends.headD (.fail .EAGAIN) <;> exact .entry rfl fun _ _ _ h => nomatch h
  sysRecv c maxlen room x := by
    unfold Sys.recv
    cases x.sys.env.recvs.headD (.fail .EAGAIN) <;> exact .entry rfl fun _ _ _ h => nomatch h
  sockError c x := by
    unfold Sys.sockError
    cases x.sys.env.sockopts.headD .ok <;> exact .entry rfl fun _ _ _ h => nomatch h
  aborted _ := .of_eq rfl

theorem Ctx.shutdown_dialsOnly (x : Ctx) : DialsOnly A x.sys x.shutdown.sys := by
  by_cases h : x.conn.mFd < 0
  · rw [Ctx.shutdown_of_closed x h]
    exact .of_eq rfl
  · exact .entry (x.shutdown_sys (not_lt.mp h)).2.2.1 fun _ _ _ h => nomatch h

theorem Ctx.acceptConnection_dialsOnly (connfd : ℤ) (x : Ctx) :
    DialsOnly A x.sys (x.acceptConnection connfd).2.sys := by
  unfold Ctx.acceptConnection
  split
  · exact .of_eq rfl
  · let y := Ctx.log (.opened x.conn.this connfd) { x with conn.mFd := connfd }
    have hopened : DialsOnly A x.sys y.sys := .entry rfl fun _ _ _ h => nomatch h
    have hflags : DialsOnly A x.sys y.sys.setNonblocking.2 := hopened.trans (.of_eq y.sys.setNonblocking_trace)
    simp only
    split
    · exact hflags.trans (.entry (e := .close connfd) rfl fun _ _ _ h => nomatch h)
    · exact hflags.trans (.of_eq (Ctx.tryRegReadEvent_sys _).2.2.1)

theorem Ctx.dial_dialsOnly (sa : SockAddr) (x : Ctx) : DialsOnly (· = sa) x.sys (x.dial sa).2.1.sys := by
  obtain ⟨a, ha⟩ := x.sys.connect_trace x.conn.this sa
  have hasked : DialsOnly (· = sa) x.sys (x.sys.connect x.conn.this sa).2 :=
    .entry ha fun _ _ _ h => by cases h; rfl
  unfold Ctx.dial
  simp only
  split
  · have hreg := hasked.trans (.of_eq (Ctx.tryRegReadEvent_sys ⟨x.conn, (x.sys.connect x.conn.this sa).2⟩).2.2.1)
    unfold Ctx.established
    simp only
    split
    · exact hreg.trans (.entry rfl fun _ _ _ h => nomatch h)
    · exact hreg
  · split
    · exact hasked.trans (.of_eq (Ctx.tryRegWriteEvent_sys _).2.2.1)
    · exact hasked.trans (.entry (e := .close x.conn.mFd) rfl fun _ _ _ h => nomatch h)

/-- `connect` asks for the address it is given. -/
theorem Ctx.connect_dialsOnly (sa : SockAddr) (x : Ctx) : DialsOnly (· = sa) x.sys (x.connect sa).2.1.sys := by
  have hclosed (x : Ctx) (hx : x.conn.mFd < 0) : DialsOnly (· = sa) x.sys (x.connect sa).2.1.sys := by
    rw [Ctx.connect_closed sa x hx]
    simp only
    split
    · exact .of_eq x.sys.socket_trace
    · let y := Ctx.log (.opened x.conn.this x.sys.socket.1)
        ⟨{ x.conn with mFd := x.sys.socket.1 }, x.sys.socket.2⟩
      have hopened : DialsOnly (· = sa) x.sys y.sys :=
        (DialsOnly.of_eq x.sys.socket_trace).trans (.entry rfl fun _ _ _ h => nomatch h)
      have hflags := hopened.trans (.of_eq y.sys.setNonblocking_trace)
      split
      · exact hflags.trans (.entry (e := .close x.sys.socket.1) rfl fun _ _ _ h => nomatch h)
      · exact hflags.trans (Ctx.dial_dialsOnly sa _)
  by_cases hx : x.conn.mFd < 0
  · exact hclosed x hx
  · obtain ⟨hfd, heq⟩ := Ctx.connect_of_open sa x (not_lt.mp hx)
    rw [heq]
    exact x.shutdown_dialsOnly.trans (hclosed _ hfd)

theorem TunCtx.dialsOnly_put (side : Side) {x : Ctx} {m : TunCtx} (h : DialsOnly A m.sys x.sys) :
    DialsOnly A m.sys (m.put side x).sys := by
  cases side <;> exact h

theorem TunCtx.dialsOnly_rule : TunCtx.Rule fun m n => DialsOnly A m.sys n.sys where
  refl _ := .of_eq rfl
  trans h k := h.trans k
  shutdown side m := dialsOnly_put side (m.ctx side).shutdown_dialsOnly
  send side data m := dialsOnly_put side (Ctx.dialsOnly_rule.send data (m.ctx side))
  inputRecv side m := dialsOnly_put side (Ctx.dialsOnly_rule.inputRecv (m.ctx side))
  inputFinish side m := dialsOnly_put side (Ctx.dialsOnly_rule.inputFinish (m.ctx side))
  output side m := dialsOnly_put side (Ctx.dialsOnly_rule.handleOutputNotification (m.ctx side))
  setEventHandler side _ _ := by cases side <;> exact .of_eq rfl
  setStatus _ _ := .of_eq rfl
  cache _ _ _ := .of_eq rfl
  restart _ := .of_eq rfl
  take _ _ _ := .of_eq rfl
  insertBroken _ := .of_eq rfl
  log e he m := .entry rfl fun _ _ _ h => by rw [h] at he; exact he.elim
  dangling _ := .of_eq rfl
  aborted _ := .of_eq rfl

/-- `onAccept` asks for the address it has configured. -/
theorem TunCtx.onAccept_dialsOnly (cfg : Config) (connfd : ℤ) (m : TunCtx)
    (hA : A (m.configured cfg).tun.mProxySvrAddr) : DialsOnly A m.sys (m.onAccept cfg connfd).2.sys := by
  obtain ⟨-, -, -, -, -, hsys⟩ := m.configured_same cfg
  apply TunCtx.dialsOnly_rule.onAccept cfg connfd (.of_eq (congrArg Sys.trace hsys))
  · intro n
    exact .entry rfl fun _ _ _ h => nomatch h
  · intro n
    exact .of_eq rfl
  · intro n
    exact dialsOnly_put .loc (Ctx.acceptConnection_dialsOnly connfd _)
  · intro n hn
    apply dialsOnly_put .proxy
    apply (Ctx.connect_dialsOnly _ _).imp
    intro sa hsa
    rw [hsa, hn]
    exact hA

namespace ProxyClient

theorem call_dialsOnly {α : Type} (t : TunId) {f : TunCtx → α × TunCtx} (w : ProxyClient)
    (hf : ∀ m, DialsOnly A m.sys (f m).2.sys) : DialsOnly A w.sys (w.call t f).2.sys := by
  unfold ProxyClient.call
  split
  · exact .of_eq rfl
  · rename_i tun _
    exact hf (enter { w with stack := t :: w.stack } tun)

/-- A run of the client asks for the addresses that its configuration gives. -/
theorem dialsOnly_rule {cfg : Config} (hA : ∀ m : TunCtx, A (m.configured cfg).tun.mProxySvrAddr) :
    Rule cfg fun w v => DialsOnly A w.sys v.sys where
  refl _ := .of_eq rfl
  trans h k := h.trans k
  resume _ _ := .of_eq rfl
  accept w := by
    unfold Sys.accept
    cases w.sys.env.accepts.headD (.fail .EAGAIN) with
    | fd n => exact .entry (e := .accepted n) rfl fun _ _ _ h => nomatch h
    | fail e => exact .of_eq rfl
  newTunnel w := by
    unfold ProxyClient.newTunnel
    split <;> exact .of_eq rfl
  onAccept t connfd w := call_dialsOnly t w fun m => m.onAccept_dialsOnly cfg connfd (hA m)
  notify t n w := call_dialsOnly t w fun m => TunCtx.dialsOnly_rule.notify n m
  deleteTunnel t w := by
    have hdown (m : TunCtx) : DialsOnly A m.sys ((m.shutdown .proxy).shutdown .loc).sys :=
      TunCtx.dialsOnly_rule.trans (TunCtx.dialsOnly_rule.shutdown .proxy m)
        (TunCtx.dialsOnly_rule.shutdown .loc _)
    exact call_dialsOnly t (f := fun m => ((), (m.shutdown .proxy).shutdown .loc))
      { w with deletions := w.deletions ++ [⟨t, w.sys.poller, w.stack⟩] } hdown
  lists _ _ _ := .of_eq rfl

end ProxyClient

end Rules

section Kept

open ProxyClient

variable {cfg : Config} {ip : Bytes} {port : ℤ}

theorem setProxyServer_true (h : ∀ s, cfg.pton s ≠ .error) (ip : Bytes) (port : ℤ) :
    cfg.setProxyServer ip port = (true, { cfg with mProxyIp := snprintf IPv4_SIZE ip, mProxyPort := port }) := by
  unfold Config.setProxyServer
  split
  · rename_i herror
    exact absurd herror (h ip)
  · rfl

/-- Once `setProxyServer` has taken `ip` and `port`, connections are asked for with
the address of `ip` and with `port` only; it takes nothing that is no endpoint. -/
structure EndpointKept (cfg : Config) (ip : Bytes) (port : ℤ) : Prop where
  kept : (cfg.setProxyServer ip port).1 = true → ∀ w v, Later (cfg.setProxyServer ip port).2 w v →
    DialsOnly (fun sa => cfg.pton ip = .valid sa.addr ∧ (sa.port : ℤ) = port) w.sys v.sys
  rejected : (¬∃ a, cfg.pton ip = .valid a) ∨ isValidPort port = false →
    (cfg.setProxyServer ip port).1 = false

/-- A dotted quad and a port come unchanged to `connect`. -/
theorem configured_endpoint {a : ℕ} (ha : cfg.pton ip = .valid a) (hip : ip.length < IPv4_SIZE)
    (hport : isValidPort port = true) (m : TunCtx) :
    (m.configured { cfg with mProxyIp := snprintf IPv4_SIZE ip, mProxyPort := port }).tun.mProxySvrAddr =
      ⟨port.toNat, a⟩ := by
  have hwhole : snprintf IPv4_SIZE ip = ip := List.take_of_length_le (by omega)
  have hnarrow : port % 65536 = port := by
    simp only [isValidPort, Bool.and_eq_true, decide_eq_true_eq] at hport
    omega
  unfold TunCtx.configured TunCtx.setProxyServer
  rw [hwhole]
  simp only [ha, hnarrow]

/-- Exactly what `setProxyServer` does not ask for decides whether the endpoint is kept. -/
theorem setProxyServer_endpoint_iff (cfg : Config) (h : InetPton cfg.pton) (ip : Bytes) (port : ℤ) :
    EndpointKept cfg ip port ↔ (∃ a, cfg.pton ip = .valid a) ∧ isValidPort port = true := by
  have hset := setProxyServer_true h.answers ip port
  constructor
  -- `setProxyServer` never refuses, so nothing may be wrong with what it got
  · intro hkept
    by_contra hnot
    have hfalse : (cfg.setProxyServer ip port).1 = false := by
      apply hkept.rejected
      rw [← Bool.not_eq_true]
      exact not_and_or.mp hnot
    rw [hset] at hfalse
    cases hfalse
  · rintro ⟨⟨a, ha⟩, hport⟩
    refine ⟨fun _ w v hrun => ?_, fun hbad => ?_⟩
    · rw [hset] at hrun
      -- a good address is the only one ever dialled, on any run
      apply (dialsOnly_rule fun m => ?_).later hrun
      rw [configured_endpoint ha (h.quad ip a ha).length_lt hport]
      have hpos : 0 < port := by
        simp only [isValidPort, Bool.and_eq_true, decide_eq_true_eq] at hport
        exact hport.1
      exact ⟨ha, Int.toNat_of_nonneg hpos.le⟩
    · rcases hbad with hbad | hbad
      · exact absurd ⟨a, ha⟩ hbad
      · rw [hport] at hbad
        cases hbad

/-- The example with an `inet_pton` of its own. -/
def quadConfig : Config := { exampleConfig with pton := inetPton }

theorem setProxyServer_endpoint_loopback : EndpointKept quadConfig (ascii "127.0.0.1") 3128 :=
  (setProxyServer_endpoint_iff quadConfig inetPton_inetPton (ascii "127.0.0.1") 3128).mpr
    ⟨⟨0x7f000001, by decide +kernel⟩, by decide⟩

/-- No dotted quad, but one once it is cut to fifteen characters. -/
def overlongIp : Bytes := ascii "192.168.100.2001"

/-- The client once it has accepted a connection with that text and a port beyond
the last one. -/
def misled : ProxyClient :=
  listening.next (quadConfig.setProxyServer overlongIp 65616).2
    (.callback .read 3 ⟨.other 0, { accepts := [.fd 4], sockets := [.fd 5] }, []⟩)

/-- The client connects to port 80 of 192.168.100.200. -/
theorem setProxyServer_endpoint_fails : (quadConfig.setProxyServer overlongIp 65616).1 = true ∧
    Reachable (quadConfig.setProxyServer overlongIp 65616).2 misled ∧
    (∃ c a, Ev.connect c ⟨80, 0xc0a864c8⟩ a ∈ misled.sys.trace) ∧
    ¬EndpointKept quadConfig overlongIp 65616 := by
  have htaken : (quadConfig.setProxyServer overlongIp 65616).1 = true := by decide +kernel
  refine ⟨htaken, .step _ (.start 3 listening rfl) rfl trivial, ?_, fun hkept => ?_⟩
  · exact ⟨⟨0, .proxy⟩, .fail .EINPROGRESS, by decide +kernel⟩
  · have hfalse := hkept.rejected (Or.inr (by decide))
    rw [htaken] at hfalse
    cases hfalse

end Kept

end HttpsProxy
