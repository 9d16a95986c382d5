import HttpsProxy.Watching

/-! One pass of `SelectPoller::processPendingEvents`. The loop goes by what
`select` has reported, and looks the handlers up as it comes to them; a handler
may register and deregister whatever it likes. -/
namespace HttpsProxy

/-- What `select` returns and leaves in the two sets. -/
structure SelectRes where
  countReady : ℤ
  readFDs : Finset ℤ
  writeFDs : Finset ℤ

/-- One call of a handler: the poller it finds, and what it does to it. -/
structure HandlerCall (H : Type) where
  interest : Interest
  fd : ℤ
  handler : H
  before : SelectPoller H
  ops : List (PollerOp H)

/-- The state of a pass. `script` holds what the handlers still to be called
will do, one call after the other. -/
structure Pass (H : Type) where
  poller : SelectPoller H
  countReady : ℤ
  script : List (List (PollerOp H))
  calls : List (HandlerCall H)

namespace Pass

variable {H : Type}

/-- `triggerRead` and `triggerWrite`. -/
def trigger (i : Interest) (fd : ℤ) (s : Pass H) : Pass H :=
  match s.poller.find i fd with
  | none => s
  | some h =>
    let ops := s.script.headD []
    { s with
      poller := ops.foldl SelectPoller.apply s.poller
      script := s.script.tail
      calls := s.calls ++ [⟨i, fd, h, s.poller, ops⟩] }

/-- `if (FD_ISSET(fd, &fds)) { --countReady; ... }`. -/
def notify (i : Interest) (fds : Finset ℤ) (fd : ℤ) (s : Pass H) : Pass H :=
  if fd ∈ fds then trigger i fd { s with countReady := s.countReady - 1 } else s

/-- The loop from `fd` on, run at most `fuel` times. -/
def loop (readFDs writeFDs : Finset ℤ) : ℕ → ℤ → Pass H → Pass H
  | 0, _, s => s
  | fuel+1, fd, s =>
    if fd ≤ s.poller.mMaxFd ∧ 0 < s.countReady then
      loop readFDs writeFDs fuel (fd + 1) ((s.notify .read readFDs fd).notify .write writeFDs fd)
    else s

def handleNotifications (readFDs writeFDs : Finset ℤ) (s : Pass H) : Pass H :=
  loop readFDs writeFDs FD_SETSIZE.toNat 0 s

end Pass

namespace SelectPoller

variable {H : Type}

/-- The sets `handleNotifications` goes by. Without write interest `select` is
not given the second one, which is then a copy of `mFdWriteSet`. -/
def ready (p : SelectPoller H) (r : SelectRes) : Interest → Finset ℤ
  | .read => r.readFDs
  | .write => if p.mFdWriteCount ≠ 0 then r.writeFDs else p.mFdWriteSet

/-- What `processPendingEvents` does once `select` has returned `r`, when the
handlers it calls do what is in `script`. -/
def processPendingEvents (r : SelectRes) (script : List (List (PollerOp H))) (p : SelectPoller H) : Pass H :=
  let s : Pass H := ⟨p, r.countReady, script, []⟩
  if 0 < r.countReady then s.handleNotifications (p.ready r .read) (p.ready r .write) else s

end SelectPoller

/-- The order in which the loop comes to the descriptors and directions. -/
def Before (t u : Interest × ℤ) : Prop := t.2 < u.2 ∨ t.2 = u.2 ∧ t.1 = .read ∧ u.1 = .write

instance (t u : Interest × ℤ) : Decidable (Before t u) := inferInstanceAs (Decidable (_ ∨ _))

namespace HandlerCall

variable {H : Type}

def turn (k : HandlerCall H) : Interest × ℤ := (k.interest, k.fd)

def after (k : HandlerCall H) : SelectPoller H := k.ops.foldl SelectPoller.apply k.before

end HandlerCall

/-- What `select` can return for the sets of `p`: nothing, or some of the
descriptors it was given, and how many. -/
def SelectRes.Answers {H : Type} (p : SelectPoller H) (r : SelectRes) : Prop :=
  r.countReady ≤ 0 ∨ p.ready r .read ⊆ p.mFdReadSet ∧ p.ready r .write ⊆ p.mFdWriteSet ∧
    r.countReady = (p.ready r .read).card + (p.ready r .write).card

namespace Pass

variable {H : Type}

section Ends

/-- Whatever the handlers do, the poller stays sound. -/
theorem trigger_sound (i : Interest) (fd : ℤ) {s : Pass H} (h : s.poller.Sound) :
    (s.trigger i fd).poller.Sound := by
  unfold trigger
  split
  · exact h
  · exact SelectPoller.applyAll_sound h _

theorem notify_sound (i : Interest) (fds : Finset ℤ) (fd : ℤ) {s : Pass H} (h : s.poller.Sound) :
    (s.notify i fds fd).poller.Sound := by
  unfold notify
  split
  · exact trigger_sound i fd h
  · exact h

theorem maxFd_lt {p : SelectPoller H} (h : p.Sound) : p.mMaxFd < FD_SETSIZE := by
  rcases h.greatest.1 with hm | hm
  · rw [hm]
    decide
  · have hv := h.valid _ hm
    rw [SelectPoller.invalidFd, not_or, not_le] at hv
    exact hv.2

/-- The loop ends by itself: a handler may raise `mMaxFd`, but never to
`FD_SETSIZE`. -/
theorem loop_ends (readFDs writeFDs : Finset ℤ) (fuel : ℕ) (fd : ℤ) {s : Pass H} (h : s.poller.Sound)
    (hfuel : FD_SETSIZE ≤ fd + fuel) :
    loop readFDs writeFDs (fuel + 1) fd s = loop readFDs writeFDs fuel fd s := by
  -- on the fuel, which with `fd` reaches `FD_SETSIZE`
  induction fuel generalizing fd s with
  | zero =>
    have hlt := maxFd_lt h
    rw [loop, loop, if_neg]
    rintro ⟨hle, -⟩
    simp only [Nat.cast_zero, add_zero] at hfuel
    omega
  | succ fuel ih =>
    rw [loop]
    conv_rhs => rw [loop]
    split
    · refine ih (fd + 1) (notify_sound _ _ _ (notify_sound _ _ _ h)) ?_
      push_cast at hfuel
      omega
    · rfl

end Ends

/-! The loop visits every descriptor and direction in turn: where it stops,
there is nothing left to call. -/

/-- The turns of `n` descriptors from `fd` on. -/
def turnsFrom : ℕ → ℤ → List (Interest × ℤ)
  | 0, _ => []
  | n+1, fd => (.read, fd) :: (.write, fd) :: turnsFrom n (fd + 1)

/-- Every turn is taken, whatever `mMaxFd` and `countReady` say. -/
def visitAll (ready : Interest → Finset ℤ) (ts : List (Interest × ℤ)) (s : Pass H) : Pass H :=
  ts.foldl (fun s t => s.notify t.1 (ready t.1) t.2) s

theorem mem_turnsFrom {n : ℕ} {fd : ℤ} {t : Interest × ℤ} :
    t ∈ turnsFrom n fd ↔ fd ≤ t.2 ∧ t.2 < fd + n := by
  induction n generalizing fd with
  | zero => simp [turnsFrom]
  | succ n ih =>
    rw [turnsFrom, List.mem_cons, List.mem_cons, ih]
    push_cast
    constructor
    · rintro (rfl | rfl | h)
      · simp only
        omega
      · simp only
        omega
      · omega
    · rintro ⟨h1, h2⟩
      by_cases he : t.2 = fd
      · obtain ⟨i, x⟩ := t
        simp only at he
        subst he
        cases i <;> simp
      · exact Or.inr (Or.inr ⟨by omega, by omega⟩)

theorem turnsFrom_sorted (n : ℕ) (fd : ℤ) : (turnsFrom n fd).Pairwise Before := by
  induction n generalizing fd with
  | zero => exact List.Pairwise.nil
  | succ n ih =>
    have hlater : ∀ t ∈ turnsFrom n (fd + 1), fd < t.2 := fun t ht => by
      have := (mem_turnsFrom.mp ht).1
      omega
    rw [turnsFrom, List.pairwise_cons, List.pairwise_cons]
    refine ⟨fun t ht => ?_, fun t ht => Or.inl (hlater t ht), ih (fd + 1)⟩
    rcases List.mem_cons.mp ht with rfl | ht
    · exact Or.inr ⟨rfl, rfl, rfl⟩
    · exact Or.inl (hlater t ht)

theorem visitAll_idle {ready : Interest → Finset ℤ} {ts : List (Interest × ℤ)} (s : Pass H)
    (h : ∀ t ∈ ts, t.2 ∈ ready t.1 → s.poller.find t.1 t.2 = none) :
    (visitAll ready ts s).calls = s.calls := by
  -- a turn that finds no handler still counts down
  suffices hs : ∀ c, (visitAll ready ts { s with countReady := c }).calls = s.calls from hs s.countReady
  induction ts with
  | nil => exact fun _ => rfl
  | cons t ts ih =>
    intro c
    have hrest := ih fun u hu => h u (List.mem_cons_of_mem t hu)
    by_cases hr : t.2 ∈ ready t.1
    · have hnone := h t List.mem_cons_self hr
      have hstep : Pass.notify t.1 (ready t.1) t.2 { s with countReady := c } =
          { s with countReady := c - 1 } := by
        simp only [Pass.notify, if_pos hr, trigger, hnone]
      rw [visitAll, List.foldl_cons, hstep]
      exact hrest (c - 1)
    · have hstep : Pass.notify t.1 (ready t.1) t.2 { s with countReady := c } =
          { s with countReady := c } := by
        simp only [Pass.notify, if_neg hr]
      rw [visitAll, List.foldl_cons, hstep]
      exact hrest c

/-- How many ready descriptors are still to come. -/
def toCome (ready : Interest → Finset ℤ) (fd : ℤ) : ℤ :=
  ((ready .read).filter (fd ≤ ·)).card + ((ready .write).filter (fd ≤ ·)).card

theorem toCome_step (ready : Interest → Finset ℤ) (fd : ℤ) :
    toCome ready fd = toCome ready (fd + 1) + (if fd ∈ ready .read then 1 else 0) +
      if fd ∈ ready .write then 1 else 0 := by
  have hset : ∀ S : Finset ℤ, ((S.filter (fd ≤ ·)).card : ℤ) =
      (S.filter (fd + 1 ≤ ·)).card + if fd ∈ S then 1 else 0 := fun S => by
    have hsplit : S.filter (fd ≤ ·) = S.filter (fd + 1 ≤ ·) ∪ S.filter (fd = ·) := by
      ext x
      simp only [Finset.mem_union, Finset.mem_filter]
      constructor
      · rintro ⟨hx, hle⟩
        rcases hle.eq_or_lt with he | hlt
        · exact Or.inr ⟨hx, he⟩
        · exact Or.inl ⟨hx, hlt⟩
      · rintro (⟨hx, hlt⟩ | ⟨hx, he⟩)
        · exact ⟨hx, by omega⟩
        · exact ⟨hx, he.le⟩
    have hdisj : Disjoint (S.filter (fd + 1 ≤ ·)) (S.filter (fd = ·)) := by
      rw [Finset.disjoint_left]
      intro x hx hx'
      have h1 := (Finset.mem_filter.mp hx).2
      have h2 := (Finset.mem_filter.mp hx').2
      omega
    rw [hsplit, Finset.card_union_of_disjoint hdisj, Finset.filter_eq]
    split <;> simp
  simp only [toCome, hset]
  ring

theorem notify_count (i : Interest) (fds : Finset ℤ) (fd : ℤ) (s : Pass H) :
    (s.notify i fds fd).countReady = s.countReady - if fd ∈ fds then 1 else 0 := by
  unfold Pass.notify
  split
  · unfold trigger
    split <;> rfl
  · rw [sub_zero]

theorem loop_visits (ready : Interest → Finset ℤ) (fuel : ℕ) (fd : ℤ) {s : Pass H} (h : s.poller.Sound)
    (hcount : s.countReady = toCome ready fd) :
    (loop (ready .read) (ready .write) fuel fd s).calls = (visitAll ready (turnsFrom fuel fd) s).calls := by
  induction fuel generalizing fd s with
  | zero => rfl
  | succ fuel ih =>
    rw [loop]
    split
    · rw [ih (fd + 1) (notify_sound _ _ _ (notify_sound _ _ _ h)) ?_]
      · rfl
      · rw [notify_count, notify_count, hcount, toCome_step ready fd]
        ring
    · -- nobody is registered from here on, or nobody is ready
      rename_i hstop
      refine (visitAll_idle s fun t ht hr => ?_).symm
      have hge := (mem_turnsFrom.mp ht).1
      refine Option.eq_none_iff_forall_ne_some.mpr fun hd hfind => hstop ⟨?_, ?_⟩
      · have hmem : t.2 ∈ s.poller.registered := by
          refine SelectPoller.mem_registered.mpr ?_
          by_contra hno
          obtain ⟨h1, h2⟩ := not_or.mp hno
          have hnone : s.poller.find t.1 t.2 = none := by
            cases t.1
            exacts [(SelectPoller.findForRead_eq_none h _).mpr h1,
              (SelectPoller.findForWrite_eq_none h _).mpr h2]
          exact absurd (hnone.symm.trans hfind) (by simp)
        exact hge.trans (h.greatest.2 (Or.inr hmem))
      · rw [hcount, toCome]
        have hpos : 0 < ((ready t.1).filter (fd ≤ ·)).card :=
          Finset.card_pos.mpr ⟨t.2, Finset.mem_filter.mpr ⟨hr, hge⟩⟩
        cases hi : t.1 <;> rw [hi] at hpos <;> omega

/-- A turn calls the handler that is registered as it comes, if there is one. -/
inductive Turn (t : Interest × ℤ) (fds : Finset ℤ) (s s' : Pass H) : Prop where
  | skipped (idle : t.2 ∈ fds → s.poller.find t.1 t.2 = none) (calls : s'.calls = s.calls)
      (poller : s'.poller = s.poller) : Turn t fds s s'
  | called (k : HandlerCall H) (ready : t.2 ∈ fds) (turn : k.turn = t)
      (found : s.poller.find t.1 t.2 = some k.handler) (calls : s'.calls = s.calls ++ [k])
      (poller : s'.poller = k.after) : Turn t fds s s'

theorem notify_turn (t : Interest × ℤ) (fds : Finset ℤ) (s : Pass H) :
    Turn t fds s (s.notify t.1 fds t.2) := by
  by_cases hr : t.2 ∈ fds
  · cases hf : s.poller.find t.1 t.2 with
    | none =>
      exact .skipped (fun _ => hf) (by simp [Pass.notify, hr, trigger, hf])
        (by simp [Pass.notify, hr, trigger, hf])
    | some h =>
      exact .called ⟨t.1, t.2, h, s.poller, s.script.headD []⟩ hr rfl hf
        (by simp [Pass.notify, hr, trigger, hf]) (by simp [Pass.notify, hr, trigger, hf, HandlerCall.after])
  · exact .skipped (fun h => absurd h hr) (by simp [Pass.notify, hr]) (by simp [Pass.notify, hr])

/-- The poller as the last of `calls` has left it. -/
def lastAfter (p : SelectPoller H) (calls : List (HandlerCall H)) : SelectPoller H :=
  (calls.getLast?.map HandlerCall.after).getD p

variable {ready : Interest → Finset ℤ}

/-- The calls made on some turns. -/
theorem visitAll_calls (ready : Interest → Finset ℤ) (ts : List (Interest × ℤ)) (s : Pass H) :
    ∃ new, (visitAll ready ts s).calls = s.calls ++ new ∧ ∀ k ∈ new, k.turn ∈ ts ∧ k.fd ∈ ready k.interest := by
  induction ts generalizing s with
  | nil => exact ⟨[], (List.append_nil _).symm, by simp⟩
  | cons t ts ih =>
    obtain ⟨new, hcalls, hnew⟩ := ih (s.notify t.1 (ready t.1) t.2)
    have hlater : ∀ k ∈ new, k.turn ∈ t :: ts ∧ k.fd ∈ ready k.interest := fun k hk =>
      ⟨List.mem_cons_of_mem t (hnew k hk).1, (hnew k hk).2⟩
    cases notify_turn t (ready t.1) s with
    | skipped _ calls _ =>
      exact ⟨new, hcalls.trans (by rw [calls]), hlater⟩
    | called k hr turn _ calls _ =>
      refine ⟨k :: new, hcalls.trans (by rw [calls, List.append_assoc]; rfl), fun u hu => ?_⟩
      rcases List.mem_cons.mp hu with rfl | hu
      · subst turn
        exact ⟨List.mem_cons_self, hr⟩
      · exact hlater u hu

theorem notify_applied (i : Interest) (fds : Finset ℤ) (fd : ℤ) (s : Pass H) :
    ∃ new, (s.notify i fds fd).calls = s.calls ++ new ∧
      (s.notify i fds fd).poller = (new.flatMap HandlerCall.ops).foldl SelectPoller.apply s.poller := by
  unfold Pass.notify
  split
  · unfold trigger
    split
    · exact ⟨[], (List.append_nil _).symm, rfl⟩
    · exact ⟨[_], rfl, by simp⟩
  · exact ⟨[], (List.append_nil _).symm, rfl⟩

/-- The poller is what the handlers called have made of it, one after the other. -/
theorem visitAll_applied (ready : Interest → Finset ℤ) (ts : List (Interest × ℤ)) (s : Pass H) :
    ∃ new, (visitAll ready ts s).calls = s.calls ++ new ∧
      (visitAll ready ts s).poller = (new.flatMap HandlerCall.ops).foldl SelectPoller.apply s.poller := by
  induction ts generalizing s with
  | nil => exact ⟨[], (List.append_nil _).symm, rfl⟩
  | cons t ts ih =>
    obtain ⟨first, hcalls, hpoller⟩ := notify_applied t.1 (ready t.1) t.2 s
    obtain ⟨new, hcalls', hpoller'⟩ := ih (s.notify t.1 (ready t.1) t.2)
    refine ⟨first ++ new, ?_, ?_⟩
    · rw [← List.append_assoc, ← hcalls]
      exact hcalls'
    · rw [List.flatMap_append, List.foldl_append, ← hpoller]
      exact hpoller'

theorem visitAll_poller {p : SelectPoller H} (ts : List (Interest × ℤ)) {s : Pass H}
    (h : s.poller = lastAfter p s.calls) :
    (visitAll ready ts s).poller = lastAfter p (visitAll ready ts s).calls := by
  induction ts generalizing s with
  | nil => exact h
  | cons t ts ih =>
    refine ih ?_
    cases notify_turn t (ready t.1) s with
    | skipped _ calls poller => rw [poller, calls, h]
    | called k _ _ _ calls poller => rw [poller, calls, lastAfter, List.getLast?_concat]; rfl

theorem not_before_self (t : Interest × ℤ) : ¬Before t t := by
  rintro (h | ⟨-, h1, h2⟩)
  · exact lt_irrefl _ h
  · exact absurd (h1.symm.trans h2) (by simp)

/-- The calls of a pass around the turn `t`: those before it, its own if it
finds a handler, and those behind it. -/
structure Around (fds : Finset ℤ) (p : SelectPoller H) (t : Interest × ℤ)
    (calls early own late : List (HandlerCall H)) : Prop where
  split : calls = early ++ own ++ late
  before : ∀ k ∈ early, Before k.turn t
  behind : ∀ k ∈ late, Before t k.turn
  applied : lastAfter p early = (early.flatMap HandlerCall.ops).foldl SelectPoller.apply p
  turn : own = [] ∧ (t.2 ∈ fds → (lastAfter p early).find t.1 t.2 = none) ∨
    ∃ k, own = [k] ∧ k.turn = t ∧ (lastAfter p early).find t.1 t.2 = some k.handler

theorem visitAll_around (ready : Interest → Finset ℤ) {p : SelectPoller H} {ts : List (Interest × ℤ)}
    (hts : ts.Pairwise Before) (c : ℤ) (script : List (List (PollerOp H))) {t : Interest × ℤ}
    (ht : t ∈ ts) : ∃ early own late,
      Around (ready t.1) p t (visitAll ready ts ⟨p, c, script, []⟩).calls early own late := by
  obtain ⟨us, vs, rfl⟩ := List.append_of_mem ht
  obtain ⟨-, htv, hcross⟩ := List.pairwise_append.mp hts
  obtain ⟨htv, -⟩ := List.pairwise_cons.mp htv
  -- the turns before `t`, then `t` itself, then the rest
  let s₁ := visitAll ready us ⟨p, c, script, []⟩
  let s₂ := s₁.notify t.1 (ready t.1) t.2
  have hsplit : visitAll ready (us ++ t :: vs) ⟨p, c, script, []⟩ = visitAll ready vs s₂ := by
    rw [visitAll, List.foldl_append, List.foldl_cons]
    rfl
  obtain ⟨early, hearly, hbefore⟩ := visitAll_calls ready us (⟨p, c, script, []⟩ : Pass H)
  obtain ⟨late, hlate, hbehind⟩ := visitAll_calls ready vs s₂
  obtain ⟨new, hnew, happlied⟩ := visitAll_applied ready us (⟨p, c, script, []⟩ : Pass H)
  rw [List.nil_append] at hearly hnew
  have hpoller : s₁.poller = lastAfter p early := by
    rw [← hearly]
    exact visitAll_poller us rfl
  have hchain : lastAfter p early = (early.flatMap HandlerCall.ops).foldl SelectPoller.apply p := by
    rw [← hpoller, ← hearly, hnew]
    exact happlied
  have hlt : ∀ k ∈ early, Before k.turn t := fun k hk => hcross _ (hbefore k hk).1 t List.mem_cons_self
  have hgt : ∀ k ∈ late, Before t k.turn := fun k hk => htv _ (hbehind k hk).1
  rw [hsplit, hlate]
  cases notify_turn t (ready t.1) s₁ with
  | skipped idle calls _ =>
    refine ⟨early, [], late, ?_, hlt, hgt, hchain, Or.inl ⟨rfl, fun hr => hpoller ▸ idle hr⟩⟩
    rw [List.append_nil, ← hearly]
    exact congrArg (· ++ late) calls
  | called k _ turn found calls _ =>
    refine ⟨early, [k], late, ?_, hlt, hgt, hchain, Or.inr ⟨k, rfl, turn, hpoller ▸ found⟩⟩
    rw [← hearly]
    exact congrArg (· ++ late) calls

theorem Around.own_turn {fds : Finset ℤ} {p : SelectPoller H} {t : Interest × ℤ}
    {calls early own late : List (HandlerCall H)} (h : Around fds p t calls early own late) :
    ∀ k ∈ own, k.turn = t := by
  intro k hk
  rcases h.turn with ⟨rfl, -⟩ | ⟨u, rfl, hu, -⟩
  · cases hk
  · rwa [List.mem_singleton.mp hk]

/-- The calls on the turn `t` are its own. -/
theorem Around.filter_turn {fds : Finset ℤ} {p : SelectPoller H} {t : Interest × ℤ}
    {calls early own late : List (HandlerCall H)} (h : Around fds p t calls early own late) :
    calls.filter (fun k => k.turn = t) = own := by
  have hearly : early.filter (fun k => k.turn = t) = [] :=
    List.filter_eq_nil_iff.mpr fun k hk hd =>
      not_before_self t (by simpa [of_decide_eq_true hd] using h.before k hk)
  have hlate : late.filter (fun k => k.turn = t) = [] :=
    List.filter_eq_nil_iff.mpr fun k hk hd =>
      not_before_self t (by simpa [of_decide_eq_true hd] using h.behind k hk)
  have hown : own.filter (fun k => k.turn = t) = own :=
    List.filter_eq_self.mpr fun k hk => decide_eq_true (h.own_turn k hk)
  rw [h.split, List.filter_append, List.filter_append, hearly, hown, hlate, List.nil_append,
    List.append_nil]

end Pass

/-- What has become of the handler that a descriptor and direction had when
`select` returned. -/
inductive Fate (H : Type) where
  | kept
  | released
  | taken (h : H)

namespace Fate

variable {H : Type}

/-- Only what has been released can be registered again. -/
def take (h : H) : Fate H → Fate H
  | .released => .taken h
  | f => f

def step (t : Interest × ℤ) (f : Fate H) : PollerOp H → Fate H
  | .registerForRead fd h => if t = (.read, fd) then f.take h else f
  | .registerForWrite fd h => if t = (.write, fd) then f.take h else f
  | .deregisterForRead fd => if t = (.read, fd) then .released else f
  | .deregisterForWrite fd => if t = (.write, fd) then .released else f

/-- The handler there is now, where `h` was the one at first. -/
def handler (h : H) : Fate H → Option H
  | .kept => some h
  | .released => none
  | .taken h' => some h'

end Fate

/-- What `ops` make of a registration for `t`. -/
def fate {H : Type} (t : Interest × ℤ) (ops : List (PollerOp H)) : Fate H := ops.foldl (Fate.step t) .kept

namespace SelectPoller

variable {H : Type}

/-- The turns of what `select` has reported, in the order of the loop. -/
def reported (p : SelectPoller H) (r : SelectRes) : List (Interest × ℤ) :=
  if 0 < r.countReady then (Pass.turnsFrom FD_SETSIZE.toNat 0).filter fun t => t.2 ∈ p.ready r t.1 else []

/-- Of the turns `ts`, none that a handler has released is registered for
another handler when it comes. The handlers called before have done `done`;
those of the turns not released do what is in the script. -/
def NoTakeover (p : SelectPoller H) : List (Interest × ℤ) → List (PollerOp H) → List (List (PollerOp H)) → Prop
  | [], _, _ => True
  | t :: ts, done, script =>
    match fate t done with
    | .released => NoTakeover p ts done script
    | .kept => NoTakeover p ts (done ++ script.headD []) script.tail
    | .taken h => p.find t.1 t.2 = some h ∧ NoTakeover p ts (done ++ script.headD []) script.tail

theorem apply_fate {p : SelectPoller H} (hp : p.Sound) {t : Interest × ℤ} (hv : ¬invalidFd t.2) {f : Fate H}
    {h : H} (hf : p.find t.1 t.2 = f.handler h) (op : PollerOp H) :
    (p.apply op).find t.1 t.2 = (f.step t op).handler h := by
  have hreg : ∀ i fd (hd : H), (p.register i fd hd).find t.1 t.2 =
      (if t = (i, fd) then f.take hd else f).handler h := fun i fd hd => by
    rw [register_find hp]
    by_cases ht : t = (i, fd)
    · subst ht
      simp only at hf hv
      cases f <;> simp [hf, hv, Fate.take, Fate.handler]
    · rw [if_neg ht, if_neg, hf]
      exact fun h => ht (Prod.ext h.1 h.2.1)
  have hdereg : ∀ i fd, (p.deregister i fd).find t.1 t.2 =
      (if t = (i, fd) then .released else f : Fate H).handler h := fun i fd => by
    rw [deregister_find]
    by_cases ht : t = (i, fd)
    · subst ht
      simp [Fate.handler]
    · rw [if_neg ht, if_neg, hf]
      exact fun h => ht (Prod.ext h.1 h.2)
  cases op with
  | registerForRead fd hd => exact hreg .read fd hd
  | registerForWrite fd hd => exact hreg .write fd hd
  | deregisterForRead fd => exact hdereg .read fd
  | deregisterForWrite fd => exact hdereg .write fd

theorem applyAll_fate {p : SelectPoller H} (hp : p.Sound) {t : Interest × ℤ} (hv : ¬invalidFd t.2) {f : Fate H}
    {h : H} (hf : p.find t.1 t.2 = f.handler h) (ops : List (PollerOp H)) :
    (ops.foldl apply p).find t.1 t.2 = (ops.foldl (Fate.step t) f).handler h := by
  induction ops generalizing p f with
  | nil => exact hf
  | cons op ops ih => exact ih (apply_sound hp op) (apply_fate hp hv hf op)

/-- The handler that a registered descriptor has after the calls `ops`. -/
theorem find_fate {p : SelectPoller H} (hp : p.Sound) {t : Interest × ℤ} {h : H}
    (hf : p.find t.1 t.2 = some h) (ops : List (PollerOp H)) :
    (ops.foldl apply p).find t.1 t.2 = (fate t ops).handler h :=
  applyAll_fate hp (valid_of_find hp hf) (f := .kept) hf ops

end SelectPoller

namespace Pass

variable {H : Type}

theorem notify_none {i : Interest} {fds : Finset ℤ} {fd : ℤ} {s : Pass H} (hr : fd ∈ fds)
    (hf : s.poller.find i fd = none) :
    s.notify i fds fd = { s with countReady := s.countReady - 1 } := by
  simp only [notify, if_pos hr, trigger, hf]

theorem notify_some {i : Interest} {fds : Finset ℤ} {fd : ℤ} {s : Pass H} {h : H} (hr : fd ∈ fds)
    (hf : s.poller.find i fd = some h) :
    s.notify i fds fd =
      ⟨(s.script.headD []).foldl SelectPoller.apply s.poller, s.countReady - 1, s.script.tail,
        s.calls ++ [⟨i, fd, h, s.poller, s.script.headD []⟩]⟩ := by
  simp only [notify, if_pos hr, trigger, hf]

/-- The poller is what the handlers called so far have made of `p`, so the fate
of a reported descriptor decides who is called on its turn. -/
theorem visitAll_current {p : SelectPoller H} (hp : p.Sound) (ready : Interest → Finset ℤ)
    {ts : List (Interest × ℤ)} (hts : ∀ t ∈ ts, t.2 ∈ ready t.1 → ∃ h, p.find t.1 t.2 = some h)
    (s : Pass H) {done : List (PollerOp H)} (hs : s.poller = done.foldl SelectPoller.apply p) :
    (∀ k ∈ (visitAll ready ts s).calls, p.find k.interest k.fd = some k.handler) ↔
      (∀ k ∈ s.calls, p.find k.interest k.fd = some k.handler) ∧
        p.NoTakeover (ts.filter fun t => t.2 ∈ ready t.1) done s.script := by
  induction ts generalizing s done with
  | nil => simp [visitAll, SelectPoller.NoTakeover]
  | cons t ts ih =>
    have ih := fun s done hs => @ih (fun u hu => hts u (List.mem_cons_of_mem t hu)) s done hs
    rw [visitAll, List.foldl_cons]
    by_cases hr : t.2 ∈ ready t.1
    swap
    · rw [List.filter_cons_of_neg (by simpa using hr)]
      have hsame : s.notify t.1 (ready t.1) t.2 = s := by simp only [Pass.notify, if_neg hr]
      rw [hsame]
      exact ih s done hs
    -- `t` is reported, so it was registered; its fate says who is called
    obtain ⟨h₀, hfind⟩ := hts t List.mem_cons_self hr
    have hnow : s.poller.find t.1 t.2 = (fate t done).handler h₀ := hs ▸ SelectPoller.find_fate hp hfind done
    rw [List.filter_cons_of_pos (by simpa using hr), SelectPoller.NoTakeover]
    -- a handler that is there is called, and does the next thing of the script
    have hcalled : ∀ h, s.poller.find t.1 t.2 = some h →
        ((∀ k ∈ (visitAll ready ts (s.notify t.1 (ready t.1) t.2)).calls,
            p.find k.interest k.fd = some k.handler) ↔
          ((∀ k ∈ s.calls, p.find k.interest k.fd = some k.handler) ∧ p.find t.1 t.2 = some h) ∧
            p.NoTakeover (ts.filter fun t => t.2 ∈ ready t.1) (done ++ s.script.headD []) s.script.tail) := by
      intro h hh
      rw [notify_some hr hh]
      refine (ih _ (done ++ s.script.headD []) (by rw [List.foldl_append, ← hs])).trans ?_
      simp only [List.forall_mem_append, List.forall_mem_singleton]
    cases hfate : fate t done with
    | kept =>
      rw [hfate] at hnow
      rw [← visitAll, hcalled h₀ hnow, and_iff_left hfind]
    | released =>
      rw [hfate] at hnow
      rw [notify_none hr hnow]
      exact ih _ done hs
    | taken h =>
      rw [hfate] at hnow
      rw [← visitAll, hcalled h hnow, and_assoc]

end Pass

namespace SelectPoller

variable {H : Type}

/-- No descriptor reported is negative, so the loop starts with all that
`select` has counted still to come. -/
theorem toCome_start {p : SelectPoller H} {r : SelectRes} (hvalid : ∀ i, ∀ fd ∈ p.ready r i, ¬invalidFd fd)
    (hcard : r.countReady = (p.ready r .read).card + (p.ready r .write).card) :
    r.countReady = Pass.toCome (p.ready r) 0 := by
  have hnonneg : ∀ i, ∀ fd ∈ p.ready r i, (0 : ℤ) ≤ fd := fun i fd hfd => by
    have hv := hvalid i fd hfd
    rw [invalidFd, not_or] at hv
    exact not_lt.mp hv.1
  rw [hcard, Pass.toCome, Finset.filter_true_of_mem (hnonneg .read),
    Finset.filter_true_of_mem (hnonneg .write)]

/-- Every turn of an `fd_set` is taken in a pass over what `select` has counted. -/
theorem processPendingEvents_visits {p : SelectPoller H} (hp : p.Sound) {r : SelectRes}
    (hcount : r.countReady = Pass.toCome (p.ready r) 0) (hpos : 0 < r.countReady)
    (script : List (List (PollerOp H))) :
    (p.processPendingEvents r script).calls =
      (Pass.visitAll (p.ready r) (Pass.turnsFrom FD_SETSIZE.toNat 0) ⟨p, r.countReady, script, []⟩).calls := by
  simp only [processPendingEvents, if_pos hpos]
  exact Pass.loop_visits (p.ready r) _ 0 (s := ⟨p, r.countReady, script, []⟩) hp hcount

/-- Who `select` reports has a handler. -/
theorem find_of_ready {p : SelectPoller H} (hp : p.Sound) {r : SelectRes} (hr : r.Answers p)
    (hpos : 0 < r.countReady) (i : Interest) (fd : ℤ) (hfd : fd ∈ p.ready r i) : ∃ h, p.find i fd = some h := by
  obtain ⟨hread, hwrite, -⟩ := hr.resolve_left (not_le.mpr hpos)
  refine Option.ne_none_iff_exists'.mp fun hnone => ?_
  cases i
  exacts [(findForRead_eq_none hp fd).mp hnone (hread hfd), (findForWrite_eq_none hp fd).mp hnone (hwrite hfd)]

/-- Every handler called in a pass was registered for its descriptor and
direction when `select` returned, exactly if no reported descriptor and
direction that a handler releases is another handler's when its turn comes. -/
theorem dispatch_current_iff (p : SelectPoller H) (hp : p.Sound) (r : SelectRes) (hr : r.Answers p)
    (script : List (List (PollerOp H))) :
    (∀ k ∈ (p.processPendingEvents r script).calls, p.find k.interest k.fd = some k.handler) ↔
      p.NoTakeover (p.reported r) [] script := by
  by_cases hpos : 0 < r.countReady
  swap
  · have hnone : (p.processPendingEvents r script).calls = [] := by
      simp only [processPendingEvents, if_neg hpos]
    rw [hnone, reported, if_neg hpos]
    exact iff_of_true (by simp) trivial
  have hfind := find_of_ready hp hr hpos
  have hcount : r.countReady = Pass.toCome (p.ready r) 0 :=
    toCome_start (fun i fd hfd => valid_of_find hp (hfind i fd hfd).choose_spec)
      (hr.resolve_left (not_le.mpr hpos)).2.2
  rw [processPendingEvents_visits hp hcount hpos, reported, if_pos hpos]
  have hts := fun (t : Interest × ℤ) (_ : t ∈ Pass.turnsFrom FD_SETSIZE.toNat 0) => hfind t.1 t.2
  have hstart : (⟨p, r.countReady, script, []⟩ : Pass H).poller = List.foldl apply p [] := rfl
  refine (Pass.visitAll_current hp (p.ready r) hts _ hstart).trans ?_
  exact and_iff_right fun k hk => absurd hk List.not_mem_nil

/-- A tunnel on the descriptors 4 and 6, with data waiting for the latter, and
the listener between them. -/
def busyPoller : SelectPoller Watcher :=
  [.registerForRead 5 .listener, .registerForRead 4 (.conn ⟨0, .loc⟩), .registerForRead 6 (.conn ⟨0, .proxy⟩),
    .registerForWrite 6 (.conn ⟨0, .proxy⟩)].foldl apply new

theorem busyPoller_sound : busyPoller.Sound := applyAll_sound new_sound _

/-- The client is gone, another one has come, and 6 takes data again. -/
def busyRes : SelectRes := ⟨3, {4, 5}, {6}⟩

theorem busyRes_answers : busyRes.Answers busyPoller :=
  Or.inr ⟨by decide +kernel, by decide +kernel, by decide +kernel⟩

/-- The tunnel is closed. -/
def closeTunnel : List (PollerOp Watcher) := [.deregisterForRead 4, .deregisterForWrite 6, .deregisterForRead 6]

/-- The next client gets a tunnel on the same descriptors, whose `connect` is in
progress. -/
def openTunnel : List (PollerOp Watcher) :=
  [.registerForRead 4 (.conn ⟨1, .loc⟩), .registerForWrite 6 (.conn ⟨1, .proxy⟩)]

theorem busyPoller_reported : busyPoller.reported busyRes = [(.read, 4), (.read, 5), (.write, 6)] := by
  decide +kernel

theorem dispatch_current_closing :
    (busyPoller.processPendingEvents busyRes [closeTunnel]).calls.length = 2 ∧
      ∀ k ∈ (busyPoller.processPendingEvents busyRes [closeTunnel]).calls,
        busyPoller.find k.interest k.fd = some k.handler := by
  refine ⟨by decide +kernel,
    (dispatch_current_iff busyPoller busyPoller_sound busyRes busyRes_answers [closeTunnel]).mpr ?_⟩
  rw [busyPoller_reported]
  -- 4 and 5 still have their handlers, 6 has none
  trivial

/-- The connection of the new tunnel is told that its `connect` is done. -/
theorem dispatch_stale : ¬∀ (p : SelectPoller Watcher), p.Sound → ∀ r : SelectRes, r.Answers p →
    ∀ script, ∀ k ∈ (p.processPendingEvents r script).calls, p.find k.interest k.fd = some k.handler := by
  intro h
  have hk := h busyPoller busyPoller_sound busyRes busyRes_answers [closeTunnel, openTunnel]
  have hcall : ∃ k ∈ (busyPoller.processPendingEvents busyRes [closeTunnel, openTunnel]).calls,
      (k.interest, k.fd, k.handler) = (.write, 6, .conn ⟨1, .proxy⟩) ∧
        busyPoller.find k.interest k.fd ≠ some k.handler := by
    decide +kernel
  obtain ⟨k, hmem, -, hne⟩ := hcall
  exact hne (hk k hmem)

end SelectPoller

end HttpsProxy
