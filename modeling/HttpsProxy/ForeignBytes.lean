import HttpsProxy.Base64

/-! `Base64Decode` on arbitrary bytes. The bytes outside the alphabet are to be
ignored; those from 128 on are used as a negative index instead. -/
namespace HttpsProxy

/-- Whether a byte is one of the base 64 digits. -/
def inAlphabet (c : UInt8) : Bool := (List.range 64).any fun v => base64Char v = c

/-- `Base64Decode` with its check of `size`. -/
def Base64DecodeChecked (inp : Bytes) (size : ℤ) : Option (ℤ × Bytes) :=
  if size < 0 then some (-1, []) else Base64Decode inp size.toNat

theorem inAlphabet_iff (c : UInt8) : inAlphabet c = true ↔ ∃ v < 64, base64Char v = c := by
  simp [inAlphabet]

set_option maxRecDepth 4000 in
theorem base64Char_lt : ∀ v < 64, base64Char v < 128 := by decide

set_option maxRecDepth 8000 in
/-- Below 128 the decode table knows the digits from the other bytes. -/
theorem table_foreign : ∀ n < 128, inAlphabet n.toUInt8 = false → b64Index n.toUInt8 = some (-1) := by
  decide +kernel

theorem b64Index_foreign {c : UInt8} (hc : c < 128) (ha : inAlphabet c = false) :
    b64Index c = some (-1) := by
  have hn : c.toNat.toUInt8 = c := UInt8.ofNat_toNat
  have h := table_foreign c.toNat hc
  rw [hn] at h
  exact h ha

/-- From 128 on there is nothing to read in the table. -/
theorem b64Index_high {c : UInt8} (hc : 128 ≤ c) : b64Index c = none :=
  if_neg (UInt8.not_lt.mpr hc)

theorem inAlphabet_high {c : UInt8} (hc : 128 ≤ c) : inAlphabet c = false := by
  by_contra ha
  obtain ⟨v, hv, rfl⟩ := (inAlphabet_iff c).mp (Bool.eq_true_of_not_eq_false ha)
  exact absurd (base64Char_lt v hv) (UInt8.not_lt.mpr hc)

/-- One round of the loop on a digit, behind `k` others: the first of a group
writes nothing, the others write one byte if there is room. -/
theorem b64DecodeLoop_digit (size : ℕ) {c : UInt8} (hc : inAlphabet c = true) (k prev_d : ℕ) :
    ∃ d, (k % 4 = 0 ∧ ∀ cs space, b64DecodeLoop size (c :: cs) (k % 4) prev_d space =
        b64DecodeLoop size cs ((k + 1) % 4) d space) ∨
      (k % 4 ≠ 0 ∧ ∃ b, ∀ cs space, b64DecodeLoop size (c :: cs) (k % 4) prev_d space =
        if space.length < size then b64DecodeLoop size cs ((k + 1) % 4) d (space ++ [b])
        else some (-1, space)) := by
  obtain ⟨v, hv, rfl⟩ := (inAlphabet_iff c).mp hc
  have hne : (v : ℤ) ≠ -1 := by omega
  refine ⟨v, ?_⟩
  rcases (show k % 4 = 0 ∨ k % 4 = 1 ∨ k % 4 = 2 ∨ k % 4 = 3 by omega) with h | h | h | h
  · refine Or.inl ⟨h, fun cs space => ?_⟩
    rw [h, show (k + 1) % 4 = 1 by omega]
    exact b64DecodeLoop_zero hv prev_d
  · refine Or.inr ⟨by omega, (prev_d <<< 2 ||| (v &&& 0x30) >>> 4).toUInt8, fun cs space => ?_⟩
    rw [h, show (k + 1) % 4 = 2 by omega]
    by_cases hroom : space.length < size
    · simp only [b64DecodeLoop, (tables_agree v hv).2.2, if_neg hne, Int.toNat_natCast, b64Put, if_pos hroom]
    · simp only [b64DecodeLoop, (tables_agree v hv).2.2, if_neg hne, Int.toNat_natCast, b64Put, if_neg hroom]
  · refine Or.inr ⟨by omega, ((prev_d &&& 0xf) <<< 4 ||| (v &&& 0x3c) >>> 2).toUInt8, fun cs space => ?_⟩
    rw [h, show (k + 1) % 4 = 3 by omega]
    by_cases hroom : space.length < size
    · simp only [b64DecodeLoop, (tables_agree v hv).2.2, if_neg hne, Int.toNat_natCast, b64Put, if_pos hroom]
    · simp only [b64DecodeLoop, (tables_agree v hv).2.2, if_neg hne, Int.toNat_natCast, b64Put, if_neg hroom]
  · refine Or.inr ⟨by omega, ((prev_d &&& 0x03) <<< 6 ||| v).toUInt8, fun cs space => ?_⟩
    rw [h, show (k + 1) % 4 = 0 by omega]
    by_cases hroom : space.length < size
    · simp only [b64DecodeLoop, (tables_agree v hv).2.2, if_neg hne, Int.toNat_natCast, b64Put, if_pos hroom]
    · simp only [b64DecodeLoop, (tables_agree v hv).2.2, if_neg hne, Int.toNat_natCast, b64Put, if_neg hroom]

/-- Only the first digit of a group completes no byte. -/
theorem bytes_of_digits (k : ℕ) : 3 * (k + 1) / 4 = if k % 4 = 0 then 3 * k / 4 else 3 * k / 4 + 1 := by
  rcases (show k % 4 = 0 ∨ k % 4 = 1 ∨ k % 4 = 2 ∨ k % 4 = 3 by omega) with h | h | h | h
  · rw [if_pos h]
    omega
  · rw [if_neg (by omega)]
    omega
  · rw [if_neg (by omega)]
    omega
  · rw [if_neg (by omega)]
    omega

theorem b64DecodeLoop_foreign (size : ℕ) {c : UInt8} (hc : c < 128) (ha : inAlphabet c = false)
    (cs : Bytes) (phase prev_d : ℕ) (space : Bytes) :
    b64DecodeLoop size (c :: cs) phase prev_d space = b64DecodeLoop size cs phase prev_d space := by
  simp only [b64DecodeLoop, b64Index_foreign hc ha, if_pos]

/-- The digits of a string, in order. -/
def digitsOf (x : Bytes) : Bytes := x.filter inAlphabet

/-- Behind `k` digits: the decoder has given up for lack of room before it comes
to a byte from 128 on. -/
def GivesUpBefore (size : ℤ) (k : ℕ) (x : Bytes) : Prop :=
  ∀ p c s, x = p ++ c :: s → 128 ≤ c → size < (3 * (k + (digitsOf p).length) / 4 : ℕ)

theorem givesUpBefore_foreign {size : ℤ} {k : ℕ} {c : UInt8} {cs : Bytes} (hc : c < 128)
    (ha : inAlphabet c = false) : GivesUpBefore size k (c :: cs) ↔ GivesUpBefore size k cs := by
  have hskip (p : Bytes) : digitsOf (c :: p) = digitsOf p := by
    simp [digitsOf, ha]
  constructor
  · intro h p d s hx hd
    have := h (c :: p) d s (by rw [hx]; rfl) hd
    rwa [hskip] at this
  · intro h p d s hx hd
    cases p with
    | nil =>
      obtain ⟨rfl, -⟩ := List.cons.inj hx
      exact absurd hc (UInt8.not_lt.mpr hd)
    | cons e p =>
      obtain ⟨rfl, hcs⟩ := List.cons.inj hx
      rw [hskip]
      exact h p d s hcs hd

theorem givesUpBefore_digit {size : ℤ} {k : ℕ} {c : UInt8} {cs : Bytes} (ha : inAlphabet c = true) :
    GivesUpBefore size k (c :: cs) ↔ GivesUpBefore size (k + 1) cs := by
  have htake (p : Bytes) : k + (digitsOf (c :: p)).length = k + 1 + (digitsOf p).length := by
    simp only [digitsOf, List.filter_cons_of_pos ha, List.length_cons]
    omega
  constructor
  · intro h p d s hx hd
    have := h (c :: p) d s (by rw [hx]; rfl) hd
    rwa [htake] at this
  · intro h p d s hx hd
    cases p with
    | nil =>
      obtain ⟨rfl, -⟩ := List.cons.inj hx
      rw [inAlphabet_high hd] at ha
      cases ha
    | cons e p =>
      obtain ⟨rfl, hcs⟩ := List.cons.inj hx
      rw [htake]
      exact h p d s hcs hd

/-- What the loop makes of the rest `x` behind `k` digits: it reads the table within
its bounds exactly if it gives up in time; and then the digits alone give the same
result. -/
structure LoopSpec (size : ℕ) (x : Bytes) (k prev_d : ℕ) (space : Bytes) : Prop where
  inBounds : b64DecodeLoop size x (k % 4) prev_d space ≠ none ↔ GivesUpBefore size k x
  result : ∀ r, b64DecodeLoop size x (k % 4) prev_d space = some r →
    b64DecodeLoop size (digitsOf x) (k % 4) prev_d space = some r ∧
    r.1 ≤ r.2.length ∧ r.2.length ≤ 3 * (k + x.length) / 4 ∧ r.2.length ≤ size

section Steps

variable {size k prev_d : ℕ} {space : Bytes} {c : UInt8} {cs : Bytes}

theorem loopSpec_nil (hlen : space.length = 3 * k / 4) (hsize : space.length ≤ size) :
    LoopSpec size [] k prev_d space := by
  refine ⟨iff_of_true (by simp [b64DecodeLoop]) fun p c s hx => by simp at hx, fun r hr => ?_⟩
  have hr' : r = ((space.length : ℤ), space) := by simpa [b64DecodeLoop] using hr.symm
  exact ⟨hr, by rw [hr'], by rw [hr']; exact hlen.le, by rw [hr']; exact hsize⟩

/-- The table is read outside its bounds, and the decoder has not given up yet. -/
theorem loopSpec_high (hc : 128 ≤ c) (hlen : space.length = 3 * k / 4) (hsize : space.length ≤ size) :
    LoopSpec size (c :: cs) k prev_d space := by
  have hnone : b64DecodeLoop size (c :: cs) (k % 4) prev_d space = none := by
    simp only [b64DecodeLoop, b64Index_high hc]
  refine ⟨iff_of_false (by simp [hnone]) fun h => ?_, fun r hr => by rw [hnone] at hr; cases hr⟩
  have hroom := h [] c cs rfl hc
  simp only [digitsOf, List.filter_nil, List.length_nil, Nat.add_zero] at hroom
  omega

theorem LoopSpec.foreign (h : LoopSpec size cs k prev_d space) (hc : c < 128) (ha : inAlphabet c = false) :
    LoopSpec size (c :: cs) k prev_d space := by
  have hskip : digitsOf (c :: cs) = digitsOf cs := by simp [digitsOf, ha]
  have heq := b64DecodeLoop_foreign size hc ha cs (k % 4) prev_d space
  refine ⟨by rw [heq, givesUpBefore_foreign hc ha]; exact h.inBounds, fun r hr => ?_⟩
  rw [heq] at hr
  obtain ⟨hsame, hfst, hbound, hin⟩ := h.result r hr
  refine ⟨by rw [hskip]; exact hsame, hfst, ?_, hin⟩
  rw [List.length_cons]
  omega

/-- A digit after which the loop goes on with `space'`. -/
theorem LoopSpec.digit {d : ℕ} {space' : Bytes} (h : LoopSpec size cs (k + 1) d space')
    (ha : inAlphabet c = true)
    (hstep : ∀ cs, b64DecodeLoop size (c :: cs) (k % 4) prev_d space =
      b64DecodeLoop size cs ((k + 1) % 4) d space') :
    LoopSpec size (c :: cs) k prev_d space := by
  have htake : digitsOf (c :: cs) = c :: digitsOf cs := List.filter_cons_of_pos ha
  refine ⟨by rw [hstep, givesUpBefore_digit ha]; exact h.inBounds, fun r hr => ?_⟩
  rw [hstep] at hr
  obtain ⟨hsame, hfst, hbound, hin⟩ := h.result r hr
  refine ⟨by rw [htake, hstep]; exact hsame, hfst, ?_, hin⟩
  rw [List.length_cons]
  omega

/-- A digit with whose byte the room is used up: every later place is behind the
end. -/
theorem loopSpec_full (ha : inAlphabet c = true) (hbytes : size < 3 * (k + 1) / 4)
    (hlen : space.length = 3 * k / 4) (hsize : space.length ≤ size)
    (hstep : ∀ cs, b64DecodeLoop size (c :: cs) (k % 4) prev_d space = some (-1, space)) :
    LoopSpec size (c :: cs) k prev_d space := by
  have htake : digitsOf (c :: cs) = c :: digitsOf cs := List.filter_cons_of_pos ha
  refine ⟨?_, fun r hr => ?_⟩
  · rw [hstep, givesUpBefore_digit ha]
    refine iff_of_true (by simp) fun p e s _ _ => ?_
    have hmono : 3 * (k + 1) / 4 ≤ 3 * (k + 1 + (digitsOf p).length) / 4 :=
      Nat.div_le_div_right (by omega)
    exact_mod_cast hbytes.trans_le hmono
  · rw [hstep] at hr
    obtain rfl : ((-1 : ℤ), space) = r := Option.some.inj hr
    refine ⟨by rw [htake, hstep], by simp, ?_, hsize⟩
    rw [hlen]
    exact Nat.div_le_div_right (by omega)

end Steps

/-- Behind `k` digits the loop has written `3 * k / 4` bytes. -/
theorem b64DecodeLoop_spec (size : ℕ) (x : Bytes) (k prev_d : ℕ) (space : Bytes)
    (hlen : space.length = 3 * k / 4) (hsize : space.length ≤ size) :
    LoopSpec size x k prev_d space := by
  induction x generalizing k prev_d space with
  | nil => exact loopSpec_nil hlen hsize
  | cons c cs ih =>
    by_cases hc : c < 128
    swap
    · exact loopSpec_high (UInt8.not_lt.mp hc) hlen hsize
    cases ha : inAlphabet c with
    | false => exact (ih k prev_d space hlen hsize).foreign hc ha
    | true =>
      have hbytes := bytes_of_digits k
      obtain ⟨d, ⟨hk, hstep⟩ | ⟨hk, b, hstep⟩⟩ := b64DecodeLoop_digit size ha k prev_d
      · rw [if_pos hk] at hbytes
        exact (ih (k + 1) d space (hlen.trans hbytes.symm) hsize).digit ha fun cs => hstep cs space
      · rw [if_neg hk] at hbytes
        by_cases hroom : space.length < size
        · have hnext : (space ++ [b]).length = space.length + 1 := by simp
          apply (ih (k + 1) d (space ++ [b]) (by omega) (by omega)).digit ha
          intro cs
          rw [hstep, if_pos hroom]
        · apply loopSpec_full ha (by omega) hlen hsize
          intro cs
          rw [hstep, if_neg hroom]

theorem Base64Decode_eq_loop (x : Bytes) (size : ℕ) :
    Base64Decode x size = b64DecodeLoop size x 0 0 [] := by
  unfold Base64Decode
  split
  · rename_i hx
    rw [hx, b64DecodeLoop]
    rfl
  · rfl

/-- At most three bytes come out of four. -/
theorem Base64Decode_length {x : Bytes} {size : ℕ} {r : ℤ × Bytes} (h : Base64Decode x size = some r) :
    r.2.length ≤ 3 * x.length / 4 := by
  have hspec := (b64DecodeLoop_spec size x 0 0 [] rfl (Nat.zero_le _)).result r
  rw [Nat.zero_mod, ← Base64Decode_eq_loop, Nat.zero_add] at hspec
  exact (hspec h).2.2.1

/-- What is promised of `Base64Decode` for one input: the table is read within
its bounds, bytes outside the alphabet make no difference, and at most three
bytes come out of four and no more than there is room for. -/
structure DecodesSafely (x : Bytes) (size : ℤ) : Prop where
  inBounds : Base64DecodeChecked x size ≠ none
  ignores : Base64DecodeChecked x size = Base64DecodeChecked (digitsOf x) size
  bound : ∀ r, Base64DecodeChecked x size = some r →
    r.1 ≤ r.2.length ∧ r.2.length ≤ 3 * x.length / 4 ∧ (r.2 = [] ∨ (r.2.length : ℤ) ≤ size)

/-- `Base64Decode` keeps its promise exactly on the strings in which it has given
up for lack of room before it comes to a byte from 128 on. -/
theorem decodesSafely_iff (x : Bytes) (size : ℤ) : DecodesSafely x size ↔
    ∀ p c s, x = p ++ c :: s → 128 ≤ c → size < (3 * (digitsOf p).length / 4 : ℕ) := by
  have hcond : (∀ p c s, x = p ++ c :: s → 128 ≤ c → size < (3 * (digitsOf p).length / 4 : ℕ)) ↔
      GivesUpBefore size 0 x := by
    simp only [GivesUpBefore, Nat.zero_add]
  rw [hcond]
  -- a negative size is refused at once, whatever the input
  by_cases hneg : size < 0
  · have hall (y : Bytes) : Base64DecodeChecked y size = some (-1, []) := if_pos hneg
    refine iff_of_true ⟨by simp [hall], by rw [hall, hall], fun r hr => ?_⟩ fun p c s _ _ => by omega
    rw [hall] at hr
    obtain rfl := Option.some.inj hr
    simp
  obtain ⟨n, rfl⟩ := Int.eq_ofNat_of_zero_le (not_lt.mp hneg)
  have hloop (y : Bytes) : Base64DecodeChecked y n = b64DecodeLoop n y 0 0 [] := by
    rw [Base64DecodeChecked, if_neg hneg, Int.toNat_natCast, Base64Decode_eq_loop]
  -- else the loop decides: it must run out of room before it meets such a byte
  obtain ⟨hiff, hres⟩ := b64DecodeLoop_spec n x 0 0 [] rfl (Nat.zero_le _)
  rw [Nat.zero_mod, ← hloop] at hiff
  rw [Nat.zero_mod, ← hloop, ← hloop, Nat.zero_add] at hres
  refine ⟨fun h => hiff.mp h.inBounds, fun h => ?_⟩
  obtain ⟨r, hr⟩ := Option.ne_none_iff_exists'.mp (hiff.mpr h)
  obtain ⟨hsame, hfst, hbound, hin⟩ := hres r hr
  refine ⟨hiff.mpr h, hr.trans hsame.symm, fun r' hr' => ?_⟩
  obtain rfl : r = r' := Option.some.inj (hr.symm.trans hr')
  exact ⟨hfst, hbound, Or.inr (by exact_mod_cast hin)⟩

/-- A single byte `0xFF` indexes the table at -1. -/
theorem decodesSafely_fails : ¬DecodesSafely [255] 4 := by
  intro h
  exact h.inBounds (by decide)

end HttpsProxy
