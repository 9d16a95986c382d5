import HttpsProxy.CacheFlush

/-! `Cache` as a queue: under a host whose callback leaves the cache alone, and
while the stdio calls succeed, `flushAll` drains the queue of the chunks held. -/
namespace HttpsProxy

namespace DiskCache

/-- The records between the file position and the end of the file. -/
def unread (d : DiskCache) : List Bytes :=
  match d.mpFile with
  | none => []
  | some f => unframe SIZE_T f.contents.length (f.contents.drop f.pos)

theorem Holds.unread_eq {d : DiskCache} {r : List Bytes} (h : d.Holds r)
    (hst : ∀ e ∈ r, Storable e) : d.unread = r := by
  cases hf : d.mpFile with
  | none =>
    have : r = [] := by simpa [Holds, hf] using h
    simp [unread, hf, this]
  | some f =>
    have hfr : f.Holds r := by simpa [Holds, hf] using h
    have hrec : ∀ e ∈ r, Recordable SIZE_T e := fun e he => (hst e he).recordable
    obtain ⟨old, hc, -⟩ := id hfr
    have hlen := frames_length_le hrec
    simp only [unread, hf, hfr.drop]
    apply unframe_frames (by decide) hrec
    rw [hc, List.length_append]
    omega

end DiskCache

namespace Cache

/-- The chunks held, oldest first. -/
def held (c : Cache) : List Bytes := c.mCachedList ++ c.mDiskCache.unread

theorem Holds.held_eq {c : Cache} {q : List Bytes} (h : c.Holds q) : c.held = q := by
  obtain ⟨⟨r, hq, hr, -⟩, -, hst⟩ := h
  rw [held, hr.unread_eq fun d hd => hst d (hq ▸ List.mem_append_right _ hd), hq]

end Cache

/-- A cache, the state of a host that does not touch it, and a failed `assert`. -/
structure Hosted (β : Type) where
  cache : Cache
  host : β
  aborted : Bool

variable {β : Type}

/-- The host whose callback is `take`. -/
def plainHost (take : Bytes → β → Bool × β) : CacheHost (Hosted β) where
  get := Hosted.cache
  put c s := { s with cache := c }
  func d s := ((take d s.host).1, { s with host := (take d s.host).2 })
  abort s := { s with aborted := true }
  dangling := id
  changed := id

/-- `flushAll` is `Fifo.drain` on the chunks held. -/
theorem flushAll_drains (take : Bytes → β → Bool × β) (s : Hosted β) (q : List Bytes)
    (h : s.cache.Holds q) :
    let r := (plainHost take).flushAll s
    r.1 = (Fifo.drain take q s.host).1 ∧ r.2.host = (Fifo.drain take q s.host).2.2 ∧
      r.2.cache.Holds (Fifo.drain take q s.host).2.1 := by
  let final := Fifo.drain take q s.host
  have hends := CacheHost.flushAll_rule (H := plainHost take)
    (I := fun q' t => Fifo.drain take q' t.host = final)
    (R := fun d q' t => final = (false, d :: q', t.host)) (J := fun _ => False)
    (fun _ _ => rfl) (fun _ _ _ h => h) (fun _ _ _ _ h => h) (fun _ _ h => h) (fun _ h => h)
    (fun _ h => h.elim) (fun d q' t _ hi => ?_) q s h rfl
  · rcases hends with ⟨hok, hinv, hheld⟩ | ⟨d, q', hok, hinv, hheld⟩ | hf
    · have hfin : final = (true, [], ((plainHost take).flushAll s).2.host) := hinv.symm
      exact ⟨hok.trans (by rw [show Fifo.drain take q s.host = final from rfl, hfin]),
        by rw [show Fifo.drain take q s.host = final from rfl, hfin],
        by rw [show Fifo.drain take q s.host = final from rfl, hfin]; exact hheld⟩
    · exact ⟨hok.trans (by rw [show Fifo.drain take q s.host = final from rfl, hinv]),
        by rw [show Fifo.drain take q s.host = final from rfl, hinv],
        by rw [show Fifo.drain take q s.host = final from rfl, hinv]; exact hheld⟩
    · exact hf.elim
  · cases hr : take d t.host with
    | mk ok b =>
      have hf : (plainHost take).func d t = (ok, { t with host := b }) := by
        simp only [plainHost, hr]
      rw [Fifo.drain, hr] at hi
      cases ok with
      | true => exact .took (by rw [hf]; rfl) (by rw [hf]) (by rw [hf]; exact hi)
      | false => exact .refused (by rw [hf]; rfl) (by rw [hf]) (by rw [hf]; exact hi.symm)

/-- A non-empty chunk whose size a `ssize_t` can hold, as every object's can. -/
abbrev Chunk := { d : Bytes // Storable d }

inductive CacheOp where
  | cache (d : Chunk)
  | flushAll
  | clear

/-- A cache in use. `cached` and `offers` are the chunks cached and the answers
of the callback since the last `clear`. -/
structure CacheUse (β : Type) where
  hosted : Hosted (β × List (Bytes × Bool))
  cached : List Bytes

namespace CacheUse

def new (b : β) : CacheUse β := ⟨⟨.new, (b, []), false⟩, []⟩

def offers (u : CacheUse β) : List (Bytes × Bool) := u.hosted.host.2

def held (u : CacheUse β) : List Bytes := u.hosted.cache.held

/-- `flushAll`, with the answers of the callback recorded. -/
def flush (take : Bytes → β → Bool × β) (u : CacheUse β) : Bool × CacheUse β :=
  let r := (plainHost (Fifo.recording take)).flushAll u.hosted
  (r.1, { u with hosted := r.2 })

def step (maxLen : ℕ) (take : Bytes → β → Bool × β) (u : CacheUse β) : CacheOp → CacheUse β
  | .cache d =>
    ⟨{ u.hosted with cache := (u.hosted.cache.cache maxLen [] d.1).1 }, u.cached ++ [d.1]⟩
  | .flushAll => (u.flush take).2
  | .clear => ⟨{ u.hosted with cache := u.hosted.cache.clear, host := (u.hosted.host.1, []) }, []⟩

def run (maxLen : ℕ) (take : Bytes → β → Bool × β) (b : β) (ops : List CacheOp) : CacheUse β :=
  ops.foldl (step maxLen take) (new b)

/-- What is cached and not yet taken is held, in order. -/
def Ordered (u : CacheUse β) : Prop :=
  ∃ q, u.hosted.cache.Holds q ∧ Fifo.taken u.offers ++ q = u.cached

/-- What one `flushAll` does to an ordered cache. -/
theorem flush_spec (take : Bytes → β → Bool × β) {u : CacheUse β} (h : u.Ordered) :
    ∃ now, (u.flush take).2.offers = u.offers ++ now ∧ (u.flush take).2.cached = u.cached ∧
      (u.flush take).2.Ordered ∧ now.head?.map Prod.fst = u.held.head? ∧
      ((u.flush take).1 = true ↔ ∀ o ∈ now, o.2 = true) ∧
      ((u.flush take).1 = true → (u.flush take).2.held = []) ∧
      ((u.flush take).1 = false → ∃ d, now.getLast? = some (d, false) ∧
        (u.flush take).2.held.head? = some d) := by
  obtain ⟨q, hq, hord⟩ := h
  obtain ⟨hret, hhost, hheld⟩ := flushAll_drains (Fifo.recording take) u.hosted q hq
  obtain ⟨now, hnow, htaken, hfirst, hall, hsome⟩ :=
    Fifo.drain_recording take q u.hosted.host.1 u.hosted.host.2
  let D := Fifo.drain (Fifo.recording take) q u.hosted.host
  have hoff : (u.flush take).2.offers = u.offers ++ now := by
    change ((plainHost (Fifo.recording take)).flushAll u.hosted).2.host.2 = _
    rw [hhost]
    exact hnow
  have hkeep : (u.flush take).2.held = D.2.1 := hheld.held_eq
  have hb : (u.flush take).1 = D.1 := hret
  have hold : u.held = q := hq.held_eq
  refine ⟨now, hoff, rfl, ⟨D.2.1, hheld, ?_⟩, by rw [hold]; exact hfirst, ?_, ?_, ?_⟩
  · rw [hoff, Fifo.taken_append, List.append_assoc]
    exact (congrArg _ htaken).trans hord
  · rw [hb]
    constructor
    · exact fun hok => (hall hok).1
    · intro ha
      cases hD : D.1 with
      | true => rfl
      | false =>
        obtain ⟨a, init, hi, -, -⟩ := hsome hD
        have := ha (a, false) (by rw [hi]; simp)
        simp at this
  · intro hok
    rw [hkeep]
    exact (hall (hb ▸ hok)).2
  · intro hno
    obtain ⟨a, init, hi, -, hh⟩ := hsome (hb ▸ hno)
    exact ⟨a, by rw [hi]; simp, by rw [hkeep]; exact hh⟩

theorem cache_ordered (maxLen : ℕ) (take : Bytes → β → Bool × β) {u : CacheUse β}
    (h : u.Ordered) (d : Chunk) : (u.step maxLen take (.cache d)).Ordered := by
  obtain ⟨q, hq, hord⟩ := h
  refine ⟨q ++ [d.1], (Cache.cache_holds maxLen hq d.2 (by simp)).1, ?_⟩
  change Fifo.taken u.offers ++ (q ++ [d.1]) = u.cached ++ [d.1]
  rw [← List.append_assoc, hord]

/-- Every operation keeps the order, whatever the threshold. -/
theorem step_ordered (maxLen : ℕ) (take : Bytes → β → Bool × β) {u : CacheUse β}
    (h : u.Ordered) (op : CacheOp) : (u.step maxLen take op).Ordered := by
  cases op with
  | cache d => exact cache_ordered maxLen take h d
  | flushAll =>
    obtain ⟨-, -, -, hord, -⟩ := flush_spec take h
    exact hord
  | clear => exact ⟨[], (Cache.clear_emptied _).holds, rfl⟩

theorem run_ordered (maxLen : ℕ) (take : Bytes → β → Bool × β) (b : β) (ops : List CacheOp) :
    (run maxLen take b ops).Ordered :=
  List.foldlRecOn ops (step maxLen take) ⟨[], Cache.new_emptied.holds, rfl⟩
    fun _ h op _ => step_ordered maxLen take h op

theorem Ordered.taken_held {u : CacheUse β} (h : u.Ordered) :
    Fifo.taken u.offers ++ u.held = u.cached := by
  obtain ⟨q, hq, hord⟩ := h
  rw [show u.held = q from hq.held_eq, hord]

/-- Caching more does not change what is offered next. -/
theorem held_head_of_cached (maxLen : ℕ) (take : Bytes → β → Bool × β) {u : CacheUse β}
    (h : u.Ordered) {a : Bytes} (ha : u.held.head? = some a) (more : List Chunk) :
    ((more.map CacheOp.cache).foldl (step maxLen take) u).Ordered ∧
      ((more.map CacheOp.cache).foldl (step maxLen take) u).held.head? = some a := by
  induction more generalizing u with
  | nil => exact ⟨h, ha⟩
  | cons d more ih =>
    have hd := cache_ordered maxLen take h d
    apply ih hd
    obtain ⟨q, hq, -⟩ := h
    have hheld : (u.step maxLen take (.cache d)).held = u.held ++ [d.1] := by
      rw [show u.held = q from hq.held_eq]
      exact (Cache.cache_holds maxLen hq d.2 (by simp)).1.held_eq
    rw [hheld, List.head?_append, ha]
    rfl

/-- The spill cache is a queue. After any operations on a new cache, the chunks
taken since the last `clear` and the chunks held are the chunks cached since
then; a `flushAll` succeeds exactly if nothing it offers is refused, and then
holds nothing; the chunk it is refused is the first one offered next. -/
theorem spill_cache_fifo (maxLen : ℕ) (take : Bytes → β → Bool × β) (b : β)
    (ops : List CacheOp) :
    let u := run maxLen take b ops
    Fifo.taken u.offers ++ u.held = u.cached ∧
      ∃ now, (u.flush take).2.offers = u.offers ++ now ∧
        ((u.flush take).1 = true ↔ ∀ o ∈ now, o.2 = true) ∧
        ((u.flush take).1 = true → (u.flush take).2.held = []) ∧
        ((u.flush take).1 = false → ∃ d, now.getLast? = some (d, false) ∧
          ∀ more : List Chunk,
            let v := (more.map CacheOp.cache).foldl (step maxLen take) (u.flush take).2
            ∃ next, (v.flush take).2.offers = v.offers ++ next ∧
              next.head?.map Prod.fst = some d) := by
  intro u
  have hu : u.Ordered := run_ordered maxLen take b ops
  -- what has been cached is in order, so one `flush` offers it oldest first
  obtain ⟨now, hoff, -, hord, -, hiff, hdone, hstop⟩ := flush_spec take hu
  refine ⟨hu.taken_held, now, hoff, hiff, hdone, fun hno => ?_⟩
  obtain ⟨d, hlast, hhead⟩ := hstop hno
  refine ⟨d, hlast, fun more => ?_⟩
  -- whatever is cached after a refusal, the refused block stays at the head
  obtain ⟨hv, hhv⟩ := held_head_of_cached maxLen take hord hhead more
  obtain ⟨next, hnext, -, -, hfirst, -⟩ := flush_spec take hv
  exact ⟨next, hnext, hfirst.trans hhv⟩

end CacheUse

end HttpsProxy
