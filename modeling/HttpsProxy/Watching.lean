import HttpsProxy.ConnectionMoves
import HttpsProxy.SelectPollerSpec
import Mathlib.Logic.Function.Basic

/-! A poller and the connections attached to it both keep who is registered for
what. The two directions are treated as one here. -/
namespace HttpsProxy

inductive Interest where
  | read
  | write
  deriving DecidableEq

/-- `mbRegForRead` or `mbRegForWrite`. -/
def Connection.reg : Interest → Connection → Bool
  | .read, c => c.mbRegForRead
  | .write, c => c.mbRegForWrite

namespace SelectPoller

variable {H : Type}

def find : Interest → ℤ → SelectPoller H → Option H
  | .read, fd, p => p.findForRead fd
  | .write, fd, p => p.findForWrite fd

def register : Interest → ℤ → H → SelectPoller H → SelectPoller H
  | .read, fd, h, p => (p.registerForRead fd h).2
  | .write, fd, h, p => (p.registerForWrite fd h).2

def deregister : Interest → ℤ → SelectPoller H → SelectPoller H
  | .read, fd, p => (p.deregisterForRead fd).2
  | .write, fd, p => (p.deregisterForWrite fd).2

theorem register_sound {p : SelectPoller H} (h : p.Sound) (i : Interest) (fd : ℤ) (hd : H) :
    (p.register i fd hd).Sound := by
  cases i
  exacts [registerForRead_sound h fd hd, registerForWrite_sound h fd hd]

theorem deregister_sound {p : SelectPoller H} (h : p.Sound) (i : Interest) (fd : ℤ) :
    (p.deregister i fd).Sound := by
  cases i
  exacts [deregisterForRead_sound h fd, deregisterForWrite_sound h fd]

theorem register_find {p : SelectPoller H} (h : p.Sound) (i j : Interest) (fd x : ℤ) (hd : H) :
    (p.register i fd hd).find j x =
      if j = i ∧ x = fd ∧ ¬invalidFd fd ∧ p.find i fd = none then some hd else p.find j x := by
  cases i <;> cases j
  · simpa [find, register] using (registerForRead_find h fd hd x).1
  · simpa [find, register] using (registerForRead_find h fd hd x).2
  · simpa [find, register] using (registerForWrite_find h fd hd x).2
  · simpa [find, register] using (registerForWrite_find h fd hd x).1

theorem deregister_find (p : SelectPoller H) (i j : Interest) (fd x : ℤ) :
    (p.deregister i fd).find j x = if j = i ∧ x = fd then none else p.find j x := by
  cases i <;> cases j
  · simpa [find, deregister] using (deregisterForRead_find p fd x).1
  · simpa [find, deregister] using (deregisterForRead_find p fd x).2
  · simpa [find, deregister] using (deregisterForWrite_find p fd x).2
  · simpa [find, deregister] using (deregisterForWrite_find p fd x).1

/-- Only descriptors of an `fd_set` have handlers. -/
theorem valid_of_find {p : SelectPoller H} (h : p.Sound) {i : Interest} {fd : ℤ} {hd : H}
    (hf : p.find i fd = some hd) : ¬invalidFd fd := by
  refine h.valid fd (mem_registered.mpr ?_)
  cases i with
  | read =>
    refine Or.inl (not_not.mp fun hn => ?_)
    rw [find, (findForRead_eq_none h fd).mpr hn] at hf
    cases hf
  | write =>
    refine Or.inr (not_not.mp fun hn => ?_)
    rw [find, (findForWrite_eq_none h fd).mpr hn] at hf
    cases hf

end SelectPoller

namespace Ctx

/-- `tryRegReadEvent` or `tryRegWriteEvent`. -/
def tryReg : Interest → Ctx → Ctx
  | .read, x => x.tryRegReadEvent
  | .write, x => x.tryRegWriteEvent

/-- `tryUnregReadEvent` or `tryUnregWriteEvent`. -/
def tryUnreg : Interest → Ctx → Ctx
  | .read, x => x.tryUnregReadEvent
  | .write, x => x.tryUnregWriteEvent

variable (i : Interest) (x : Ctx)

theorem tryReg_fd : (x.tryReg i).conn.this = x.conn.this ∧ (x.tryReg i).conn.mFd = x.conn.mFd := by
  cases i <;> simp [tryReg]

theorem tryUnreg_fd : (x.tryUnreg i).conn.this = x.conn.this ∧ (x.tryUnreg i).conn.mFd = x.conn.mFd := by
  cases i <;> simp [tryUnreg]

theorem tryReg_reg (j : Interest) : (x.tryReg i).conn.reg j = if j = i then true else x.conn.reg j := by
  cases i <;> cases j <;> simp [tryReg, Connection.reg]

theorem tryUnreg_reg (j : Interest) :
    (x.tryUnreg i).conn.reg j = if j = i then false else x.conn.reg j := by
  cases i <;> cases j <;> simp [tryUnreg, Connection.reg]

theorem tryReg_poller : (x.tryReg i).sys.poller =
    if x.conn.reg i then x.sys.poller else x.sys.poller.register i x.conn.mFd (.conn x.conn.this) := by
  cases i
  · change x.tryRegReadEvent.sys.poller = if x.conn.mbRegForRead then _ else _
    unfold tryRegReadEvent
    split <;> rfl
  · change x.tryRegWriteEvent.sys.poller = if x.conn.mbRegForWrite then _ else _
    unfold tryRegWriteEvent
    split <;> rfl

theorem tryUnreg_poller : (x.tryUnreg i).sys.poller =
    if x.conn.reg i then x.sys.poller.deregister i x.conn.mFd else x.sys.poller := by
  cases i
  · change x.tryUnregReadEvent.sys.poller = if x.conn.mbRegForRead then _ else _
    unfold tryUnregReadEvent
    split <;> rfl
  · change x.tryUnregWriteEvent.sys.poller = if x.conn.mbRegForWrite then _ else _
    unfold tryUnregWriteEvent
    split <;> rfl

end Ctx

open SelectPoller

/-- The poller is sound, and whoever it would call for a descriptor owns that
descriptor and takes itself for registered. -/
structure Watched (conn : ConnId → Connection) (p : SelectPoller Watcher) : Prop where
  sound : p.Sound
  held : ∀ i fd d, p.find i fd = some (.conn d) → (conn d).mFd = fd ∧ (conn d).reg i = true

/-- Besides, whoever takes itself for registered is called, no two connections
share a descriptor, and all descriptors fit in an `fd_set`. -/
structure Agreed (conn : ConnId → Connection) (p : SelectPoller Watcher) : Prop
    extends Watched conn p where
  called : ∀ i d, (conn d).reg i = true → 0 ≤ (conn d).mFd → p.find i (conn d).mFd = some (.conn d)
  apart : ∀ c d, 0 ≤ (conn c).mFd → (conn d).mFd = (conn c).mFd → d = c
  conns : ∀ i fd w, p.find i fd = some w → ∃ d, w = .conn d
  small : ∀ d, 0 ≤ (conn d).mFd → (conn d).mFd < FD_SETSIZE

/-- The descriptors that are not those of another connection. -/
def Spare (conn : ConnId → Connection) (c : ConnId) (fd : ℤ) : Prop :=
  fd < FD_SETSIZE ∧ ∀ d, d ≠ c → (conn d).mFd ≠ fd

/-- The descriptor is neither the listener's, if there is one, nor that of another
connection. -/
def Unshared (lis : Option ℤ) (conn : ConnId → Connection) (c : ConnId) (fd : ℤ) : Prop :=
  lis ≠ some fd ∧ ∀ d, d ≠ c → (conn d).mFd ≠ fd

/-- The poller calls the listener on `lis` and whoever takes itself for registered
with a descriptor that fits in an `fd_set`. No two of them share a descriptor. -/
structure Alert (lis : Option ℤ) (conn : ConnId → Connection) (p : SelectPoller Watcher) : Prop
    extends Watched conn p where
  called : ∀ i d, (conn d).reg i = true → 0 ≤ (conn d).mFd → (conn d).mFd < FD_SETSIZE →
    p.find i (conn d).mFd = some (.conn d)
  unshared : ∀ c, 0 ≤ (conn c).mFd → Unshared lis conn c (conn c).mFd
  listener : ∀ fd, lis = some fd → p.find .read fd = some .listener
  lone : ∀ i fd, p.find i fd = some .listener → i = .read ∧ lis = some fd

section Move

variable {lis : Option ℤ} {conn : ConnId → Connection} {c : ConnId} {F : ℤ → Prop} {x y : Ctx}

theorem Ctx.Move.this (h : Ctx.Move F x y) : y.conn.this = x.conn.this := by
  cases h with
  | aside _ reg => exact reg.this
  | regRead => exact (x.tryReg_fd .read).1
  | unregRead => exact (x.tryUnreg_fd .read).1
  | regWrite => exact (x.tryReg_fd .write).1
  | unregWrite => exact (x.tryUnreg_fd .write).1
  | closed => rfl
  | opened => rfl
  | refused _ _ conn => rw [conn]

theorem Ctx.Moves.this (h : Ctx.Moves F x y) : y.conn.this = x.conn.this := by
  induction h with
  | refl => rfl
  | tail _ hstep ih => exact hstep.this.trans ih

/-- Only the connection `c` has changed. -/
theorem Watched.change {p q : SelectPoller Watcher} {k : Connection} (h : Watched conn p) (sound : q.Sound)
    (own : ∀ i fd, q.find i fd = some (.conn c) → k.mFd = fd ∧ k.reg i = true)
    (others : ∀ i fd d, d ≠ c → q.find i fd = some (.conn d) → p.find i fd = some (.conn d)) :
    Watched (Function.update conn c k) q := by
  refine ⟨sound, fun i fd d hd => ?_⟩
  by_cases hdc : d = c
  · subst hdc
    rw [Function.update_self]
    exact own i fd hd
  · rw [Function.update_of_ne hdc]
    exact h.held i fd d (others i fd d hdc hd)

theorem Watched.tryReg (i : Interest) (h : Watched conn x.sys.poller) (hc : conn c = x.conn)
    (ht : x.conn.this = c) : Watched (Function.update conn c (x.tryReg i).conn) (x.tryReg i).sys.poller := by
  obtain ⟨-, hfd⟩ := x.tryReg_fd i
  have hown : ∀ j fd, x.sys.poller.find j fd = some (.conn c) →
      (x.tryReg i).conn.mFd = fd ∧ (x.tryReg i).conn.reg j = true := fun j fd hj => by
    obtain ⟨h1, h2⟩ := h.held j fd c hj
    rw [hc] at h1 h2
    exact ⟨hfd.trans h1, by rw [Ctx.tryReg_reg, h2, ite_self]⟩
  rw [x.tryReg_poller i]
  split
  · exact h.change h.sound hown fun _ _ _ _ => id
  · refine h.change (register_sound h.sound i _ _) (fun j fd hj => ?_) fun j fd d hd hj => ?_
    · rw [register_find h.sound] at hj
      split at hj
      · rename_i hnew
        exact ⟨hfd.trans hnew.2.1.symm, by rw [Ctx.tryReg_reg, if_pos hnew.1]⟩
      · exact hown j fd hj
    · rw [register_find h.sound] at hj
      split at hj
      · injection hj with hj
        injection hj with hj
        exact absurd (hj.symm.trans ht) hd
      · exact hj

theorem Watched.tryUnreg (i : Interest) (h : Watched conn x.sys.poller) (hc : conn c = x.conn) :
    Watched (Function.update conn c (x.tryUnreg i).conn) (x.tryUnreg i).sys.poller := by
  obtain ⟨-, hfd⟩ := x.tryUnreg_fd i
  rw [x.tryUnreg_poller i]
  split
  · refine h.change (deregister_sound h.sound i _) (fun j fd hj => ?_) fun j fd d _ hj => ?_
    · rw [deregister_find] at hj
      split at hj
      · cases hj
      · rename_i hold
        obtain ⟨h1, h2⟩ := h.held j fd c hj
        rw [hc] at h1 h2
        refine ⟨hfd.trans h1, ?_⟩
        rw [Ctx.tryUnreg_reg, if_neg fun hji => hold ⟨hji, h1.symm⟩, h2]
    · rw [deregister_find] at hj
      split at hj
      · cases hj
      · exact hj
  · rename_i hoff
    refine h.change h.sound (fun j fd hj => ?_) fun _ _ _ _ => id
    obtain ⟨h1, h2⟩ := h.held j fd c hj
    rw [hc] at h1 h2
    refine ⟨hfd.trans h1, ?_⟩
    rw [Ctx.tryUnreg_reg, if_neg (fun hji : j = i => hoff (hji ▸ h2)), h2]

/-- No step of a connection leaves a stale handler behind. -/
theorem Watched.move (h : Watched conn x.sys.poller) (hc : conn c = x.conn) (ht : x.conn.this = c)
    (hm : Ctx.Move F x y) : Watched (Function.update conn c y.conn) y.sys.poller := by
  -- without registrations it is nobody's handler
  have hnone : x.conn.mbRegForRead = false → x.conn.mbRegForWrite = false → ∀ j fd,
      x.sys.poller.find j fd ≠ some (.conn c) := fun hr hw j fd hj => by
    obtain ⟨-, h2⟩ := h.held j fd c hj
    rw [hc] at h2
    cases j
    exacts [absurd (hr.symm.trans h2) (by simp), absurd (hw.symm.trans h2) (by simp)]
  cases hm with
  | aside _ reg sys =>
    rw [sys.poller]
    refine h.change h.sound (fun j fd hj => ?_) fun _ _ _ _ => id
    obtain ⟨h1, h2⟩ := h.held j fd c hj
    rw [hc] at h1 h2
    refine ⟨reg.fd.trans h1, ?_⟩
    cases j
    exacts [reg.read.trans h2, reg.write.trans h2]
  | regRead => exact h.tryReg .read hc ht
  | unregRead => exact h.tryUnreg .read hc
  | regWrite => exact h.tryReg .write hc ht
  | unregWrite => exact h.tryUnreg .write hc
  | closed _ hr hw =>
    exact h.change h.sound (fun j fd hj => absurd hj (hnone hr hw j fd)) fun _ _ _ _ => id
  | opened _ _ _ _ hr hw =>
    exact h.change h.sound (fun j fd hj => absurd hj (hnone hr hw j fd)) fun _ _ _ _ => id
  | refused _ down _ poller =>
    rw [poller]
    refine h.change h.sound (fun j fd hj => ?_) fun _ _ _ _ => id
    obtain ⟨h1, -⟩ := h.held j fd c hj
    rw [hc] at h1
    exact absurd (Or.inl (h1 ▸ down)) (valid_of_find h.sound hj)

theorem Watched.moves (h : Watched conn x.sys.poller) (hc : conn c = x.conn) (ht : x.conn.this = c)
    (hm : Ctx.Moves F x y) : Watched (Function.update conn c y.conn) y.sys.poller := by
  induction hm with
  | refl => rwa [← hc, Function.update_eq_self]
  | tail hpre hstep ih =>
    have hnext := ih.move (Function.update_self ..) ((Ctx.Moves.this hpre).trans ht) hstep
    rwa [Function.update_idem] at hnext

/-- Only the connection `c` has changed, perhaps to a descriptor nobody has. -/
theorem Alert.change {p q : SelectPoller Watcher} {k : Connection} (h : Alert lis conn p)
    (hw : Watched (Function.update conn c k) q) (spare : 0 ≤ k.mFd → Unshared lis conn c k.mFd)
    (own : ∀ i, k.reg i = true → 0 ≤ k.mFd → k.mFd < FD_SETSIZE → q.find i k.mFd = some (.conn c))
    (others : ∀ i fd, fd ≠ k.mFd ∨ k.mFd < 0 → q.find i fd = p.find i fd)
    (lone : ∀ i fd, q.find i fd = some .listener → p.find i fd = some .listener) :
    Alert lis (Function.update conn c k) q := by
  -- either nobody else has the descriptor, or it is none
  have hfree : Unshared lis conn c k.mFd ∨ k.mFd < 0 := (le_or_gt 0 k.mFd).imp_left spare
  refine ⟨hw, fun i d hd hpos hfits => ?_, fun d hd => ?_, fun fd hfd => ?_,
    fun i fd hl => h.lone i fd (lone i fd hl)⟩
  · by_cases hdc : d = c
    · subst hdc
      rw [Function.update_self] at hd hpos hfits ⊢
      exact own i hd hpos hfits
    · rw [Function.update_of_ne hdc] at hd hpos hfits ⊢
      rw [others i _ (hfree.imp_left fun hk => hk.2 d hdc)]
      exact h.called i d hd hpos hfits
  · by_cases hdc : d = c
    · subst hdc
      rw [Function.update_self] at hd ⊢
      refine ⟨(spare hd).1, fun e he => ?_⟩
      rw [Function.update_of_ne he]
      exact (spare hd).2 e he
    · rw [Function.update_of_ne hdc] at hd ⊢
      refine ⟨(h.unshared d hd).1, fun e he => ?_⟩
      by_cases hec : e = c
      · subst hec
        rw [Function.update_self]
        exact fun hsame => (spare (hsame ▸ hd)).2 d hdc hsame.symm
      · rw [Function.update_of_ne hec]
        exact (h.unshared d hd).2 e he
  · rw [others .read fd (hfree.imp_left fun hk he => hk.1 (he ▸ hfd))]
    exact h.listener fd hfd

/-- Nobody is called for what a connection is not registered for. -/
theorem Alert.find_own {p : SelectPoller Watcher} (h : Alert lis conn p) (hfd : 0 ≤ (conn c).mFd)
    {i : Interest} (hr : ¬(conn c).reg i = true) : p.find i (conn c).mFd = none := by
  refine Option.eq_none_iff_forall_ne_some.mpr fun w hw => ?_
  cases w with
  | listener => exact (h.unshared c hfd).1 (h.lone i _ hw).2
  | conn d =>
    obtain ⟨h1, h2⟩ := h.held i _ d hw
    by_cases hdc : d = c
    · exact hr (hdc ▸ h2)
    · exact (h.unshared c hfd).2 d hdc h1

theorem Alert.tryReg (i : Interest) (h : Alert lis conn x.sys.poller) (hc : conn c = x.conn)
    (ht : x.conn.this = c) : Alert lis (Function.update conn c (x.tryReg i).conn) (x.tryReg i).sys.poller := by
  obtain ⟨-, hfd⟩ := x.tryReg_fd i
  have hw := h.toWatched.tryReg i hc ht
  have hspare : 0 ≤ x.conn.mFd → Unshared lis conn c x.conn.mFd := by
    rw [← hc]
    exact h.unshared c
  have hcalled : ∀ j, x.conn.reg j = true → 0 ≤ x.conn.mFd → x.conn.mFd < FD_SETSIZE →
      x.sys.poller.find j x.conn.mFd = some (.conn c) := by
    rw [← hc]
    exact fun j => h.called j c
  -- the poller registers what the connection asks for, unless it takes itself for registered
  rw [x.tryReg_poller i] at hw ⊢
  refine h.change hw (by rwa [hfd]) (fun j hj hpos hfits => ?_) (fun j fd hne => ?_) fun j fd hl => ?_
  · rw [hfd] at hpos hfits ⊢
    rw [Ctx.tryReg_reg] at hj
    split
    · rename_i hr
      refine hcalled j ?_ hpos hfits
      split at hj
      · rename_i hji
        rw [hji]
        exact hr
      · exact hj
    · rename_i hr
      -- `x` was not registered, so nobody is called there and the poller accepts it
      have hvalid : ¬invalidFd x.conn.mFd := not_or.mpr ⟨not_lt.mpr hpos, not_le.mpr hfits⟩
      have hnone : x.sys.poller.find i x.conn.mFd = none := by
        rw [← hc] at hr hpos ⊢
        exact h.find_own hpos hr
      rw [register_find h.sound]
      by_cases hji : j = i
      · rw [if_pos ⟨hji, rfl, hvalid, hnone⟩, ht]
      · rw [if_neg fun hn => hji hn.1]
        exact hcalled j (by simpa [hji] using hj) hpos hfits
  · rw [hfd] at hne
    split
    · rfl
    · rw [register_find h.sound, if_neg]
      -- the poller changes at the descriptor of `x` only, and refuses a negative one
      rintro ⟨-, he, hv, -⟩
      exact hne.elim (fun hne => hne he) fun hneg => hv (Or.inl hneg)
  · split at hl
    · exact hl
    · rw [register_find h.sound] at hl
      split at hl
      · cases hl
      · exact hl

theorem Alert.tryUnreg (i : Interest) (h : Alert lis conn x.sys.poller) (hc : conn c = x.conn) :
    Alert lis (Function.update conn c (x.tryUnreg i).conn) (x.tryUnreg i).sys.poller := by
  obtain ⟨-, hfd⟩ := x.tryUnreg_fd i
  have hw := h.toWatched.tryUnreg i hc
  rw [x.tryUnreg_poller i] at hw ⊢
  refine h.change hw (fun hpos => ?_) (fun j hj hpos hfits => ?_) (fun j fd hne => ?_) fun j fd hl => ?_
  · rw [hfd, ← hc] at hpos ⊢
    exact h.unshared c hpos
  · rw [Ctx.tryUnreg_reg] at hj
    have hji : j ≠ i := fun hji => by simp [hji] at hj
    rw [if_neg hji, ← hc] at hj
    rw [hfd, ← hc] at hpos hfits ⊢
    split
    · rw [deregister_find, if_neg fun hn => hji hn.1]
      exact h.called j c hj hpos hfits
    · exact h.called j c hj hpos hfits
  · rw [hfd] at hne
    split
    · rw [deregister_find]
      split
      · rename_i hsame
        rcases hne with hne | hneg
        · exact absurd hsame.2 hne
        · refine (Option.eq_none_iff_forall_ne_some.mpr fun w hw => ?_).symm
          exact valid_of_find h.sound hw (Or.inl (hsame.2 ▸ hneg))
      · rfl
    · rfl
  · split at hl
    · rw [deregister_find] at hl
      split at hl
      · cases hl
      · exact hl
    · exact hl

/-- A step of a connection leaves the poller right, if nobody has the descriptor it
may take over. -/
theorem Alert.move (h : Alert lis conn x.sys.poller) (hc : conn c = x.conn) (ht : x.conn.this = c)
    (hF : ∀ fd, F fd → 0 ≤ fd → Unshared lis conn c fd) (hm : Ctx.Move F x y) :
    Alert lis (Function.update conn c y.conn) y.sys.poller := by
  have hw := h.toWatched.move hc ht hm
  -- a connection that closes or opens is registered for nothing
  have hoff : ∀ {k : Connection} (i : Interest), k.mbRegForRead = false → k.mbRegForWrite = false →
      k.reg i ≠ true := fun i hr hw hi => by
    cases i
    exacts [absurd (hr.symm.trans hi) (by simp), absurd (hw.symm.trans hi) (by simp)]
  -- only registering changes the poller, only closing and opening the descriptor
  cases hm with
  | aside _ reg sys =>
    rw [sys.poller] at hw ⊢
    refine h.change hw (fun hpos => ?_) (fun j hj hpos hfits => ?_) (fun _ _ _ => rfl) fun _ _ => id
    · rw [reg.fd, ← hc] at hpos ⊢
      exact h.unshared c hpos
    · have hj' : (conn c).reg j = true := by
        rw [hc]
        cases j
        exacts [reg.read.symm.trans hj, reg.write.symm.trans hj]
      rw [reg.fd, ← hc] at hpos hfits ⊢
      exact h.called j c hj' hpos hfits
  | regRead => exact h.tryReg .read hc ht
  | unregRead => exact h.tryUnreg .read hc
  | regWrite => exact h.tryReg .write hc ht
  | unregWrite => exact h.tryUnreg .write hc
  | closed _ hr hwr =>
    exact h.change hw (fun hpos => absurd hpos (by simp [Ctx.closeFd]))
      (fun j hj => absurd hj (hoff j hr hwr)) (fun _ _ _ => rfl) fun _ _ => id
  | opened fd hfd free _ hr hwr =>
    exact h.change hw (fun _ => hF fd free hfd) (fun j hj => absurd hj (hoff j hr hwr))
      (fun _ _ _ => rfl) fun _ _ => id
  | refused _ _ hconn poller =>
    rw [poller] at hw ⊢
    have hneg : ¬0 ≤ y.conn.mFd := by rw [hconn]; simp
    exact h.change hw (fun hpos => absurd hpos hneg) (fun _ _ hpos => absurd hpos hneg)
      (fun _ _ _ => rfl) fun _ _ => id

theorem Alert.moves (h : Alert lis conn x.sys.poller) (hc : conn c = x.conn) (ht : x.conn.this = c)
    (hF : ∀ fd, F fd → 0 ≤ fd → Unshared lis conn c fd) (hm : Ctx.Moves F x y) :
    Alert lis (Function.update conn c y.conn) y.sys.poller := by
  induction hm with
  | refl => rwa [← hc, Function.update_eq_self]
  | @tail u v hpre hstep ih =>
    have hspare : ∀ fd, F fd → 0 ≤ fd → Unshared lis (Function.update conn c u.conn) c fd := fun fd hf hpos =>
      ⟨(hF fd hf hpos).1, fun d hd => by
        rw [Function.update_of_ne hd]
        exact (hF fd hf hpos).2 d hd⟩
    have hnext := ih.move (Function.update_self ..) ((Ctx.Moves.this hpre).trans ht) hspare hstep
    rwa [Function.update_idem] at hnext

/-- The descriptor stays, is given up, or is one that may be taken over. -/
theorem Ctx.Move.fd (h : Ctx.Move F x y) : y.conn.mFd = x.conn.mFd ∨ y.conn.mFd < 0 ∨ F y.conn.mFd := by
  cases h with
  | aside _ reg => exact Or.inl reg.fd
  | regRead => exact Or.inl (x.tryReg_fd .read).2
  | unregRead => exact Or.inl (x.tryUnreg_fd .read).2
  | regWrite => exact Or.inl (x.tryReg_fd .write).2
  | unregWrite => exact Or.inl (x.tryUnreg_fd .write).2
  | closed => exact Or.inr (Or.inl neg_one_lt_zero)
  | opened fd _ free => exact Or.inr (Or.inr free)
  | refused _ _ hconn =>
    rw [hconn]
    exact Or.inr (Or.inl neg_one_lt_zero)

theorem Ctx.Moves.fd (h : Ctx.Moves F x y) : y.conn.mFd = x.conn.mFd ∨ y.conn.mFd < 0 ∨ F y.conn.mFd := by
  induction h with
  | refl => exact Or.inl rfl
  | tail _ hstep ih =>
    rcases Ctx.Move.fd hstep with hsame | hother
    · rwa [hsame]
    · exact Or.inr hother

/-- To agree is to be right without a listener, with descriptors that fit. -/
theorem agreed_iff {p : SelectPoller Watcher} :
    Agreed conn p ↔ Alert none conn p ∧ ∀ d, 0 ≤ (conn d).mFd → (conn d).mFd < FD_SETSIZE := by
  constructor
  · intro h
    refine ⟨⟨h.toWatched, fun i d hd hpos _ => h.called i d hd hpos, fun c hc => ?_, nofun,
      fun i fd hl => ?_⟩, h.small⟩
    · exact ⟨nofun, fun d hd he => hd (h.apart c d hc he)⟩
    · obtain ⟨d, hd⟩ := h.conns i fd _ hl
      cases hd
  · rintro ⟨h, small⟩
    refine ⟨h.toWatched, fun i d hd hpos => h.called i d hd hpos (small d hpos), fun c d hc he => ?_,
      fun i fd w hw => ?_, small⟩
    · by_contra hne
      exact (h.unshared c hc).2 d hne he
    · cases w with
      | listener => cases (h.lone i fd hw).2
      | conn d => exact ⟨d, rfl⟩

/-- The steps of a connection keep the agreement, if the descriptors it may take
over are spare. -/
theorem Agreed.moves (h : Agreed conn x.sys.poller) (hc : conn c = x.conn) (ht : x.conn.this = c)
    (hF : ∀ fd, F fd → 0 ≤ fd → Spare conn c fd) (hm : Ctx.Moves F x y) :
    Agreed (Function.update conn c y.conn) y.sys.poller := by
  -- without a listener; it remains to see that the descriptors still fit
  obtain ⟨ha, hsmall⟩ := agreed_iff.mp h
  have hnone : ∀ fd, F fd → 0 ≤ fd → Unshared none conn c fd := fun fd hf hpos =>
    ⟨nofun, (hF fd hf hpos).2⟩
  refine agreed_iff.mpr ⟨ha.moves hc ht hnone hm, fun d hd => ?_⟩
  by_cases hdc : d = c
  · subst hdc
    rw [Function.update_self] at hd ⊢
    rcases hm.fd with he | hneg | hf
    · rw [he, ← hc] at hd ⊢
      exact hsmall d hd
    · exact absurd hd (not_le.mpr hneg)
    · exact (hF _ hf hd).1
  · rw [Function.update_of_ne hdc] at hd ⊢
    exact hsmall d hd

end Move

end HttpsProxy
