import HttpsProxy.FileLog
import HttpsProxy.ResponseText

/-! The names of the log files: the date in a name is read back, a file with such
a name is passed over by no loop, and later dates have greater numbers. -/
namespace HttpsProxy

namespace UtilDay

/-- The days of the month `m` in the year `y`. -/
def monthLength (y : ℤ) (m : ℕ) : ℕ :=
  [0, 31, if isLeap y then 29 else 28, 31, 30, 31, 30, 31, 31, 30, 31, 30, 31].getD m 0

/-- A day of the calendar, with a year of four digits. -/
structure Real (d : UtilDay) : Prop where
  year : d.year < 10^4
  month_pos : 1 ≤ d.month
  month : d.month ≤ 12
  day_pos : 1 ≤ d.day
  day : d.day ≤ monthLength d.year d.month

instance (d : UtilDay) : Decidable d.Real :=
  decidable_of_iff (d.year < 10^4 ∧ 1 ≤ d.month ∧ d.month ≤ 12 ∧ 1 ≤ d.day ∧
      d.day ≤ monthLength d.year d.month)
    ⟨fun h => ⟨h.1, h.2.1, h.2.2.1, h.2.2.2.1, h.2.2.2.2⟩,
      fun h => ⟨h.year, h.month_pos, h.month, h.day_pos, h.day⟩⟩

/-- `d` comes before `e` in the calendar. -/
def Before (d e : UtilDay) : Prop :=
  d.year < e.year ∨ d.year = e.year ∧ (d.month < e.month ∨ d.month = e.month ∧ d.day < e.day)

instance (d e : UtilDay) : Decidable (d.Before e) := inferInstanceAs (Decidable (_ ∨ _))

theorem monthLength_le (y : ℤ) {m : ℕ} (hm : m ≤ 12) : monthLength y m ≤ 31 := by
  unfold monthLength
  cases isLeap y <;> revert m <;> decide

theorem month_end (y : ℤ) {m n : ℕ} (hm : 1 ≤ m) (hmn : m < n) (hn : n ≤ 12) :
    daysBeforeMonth y m + monthLength y m ≤ daysBeforeMonth y n := by
  have hall : ∀ b : Bool, ∀ n ≤ 12, ∀ m < n, 1 ≤ m →
      ([0, 0, 31, 59, 90, 120, 151, 181, 212, 243, 273, 304, 334].getD m (0:ℤ) +
          if 2 < m && b then 1 else 0) +
        (([0, 31, if b then 29 else 28, 31, 30, 31, 30, 31, 31, 30, 31, 30, 31].getD m 0 : ℕ) : ℤ) ≤
      [0, 0, 31, 59, 90, 120, 151, 181, 212, 243, 273, 304, 334].getD n (0:ℤ) +
          if 2 < n && b then 1 else 0 := by decide
  exact hall (isLeap y) n hn m hmn hm

theorem daysBeforeMonth_nonneg (y : ℤ) {m : ℕ} (hm : m ≤ 12) : 0 ≤ daysBeforeMonth y m := by
  have hall : ∀ b : Bool, ∀ m ≤ 12,
      0 ≤ [0, 0, 31, 59, 90, 120, 151, 181, 212, 243, 273, 304, 334].getD m (0:ℤ) +
        if 2 < m && b then 1 else 0 := by decide
  exact hall (isLeap y) m hm

theorem year_end (y : ℤ) {m : ℕ} (hm : 1 ≤ m) (hm12 : m ≤ 12) :
    daysBeforeMonth y m + monthLength y m ≤ 365 + if isLeap y then 1 else 0 := by
  have hall : ∀ b : Bool, ∀ m ≤ 12, 1 ≤ m →
      ([0, 0, 31, 59, 90, 120, 151, 181, 212, 243, 273, 304, 334].getD m (0:ℤ) +
          if 2 < m && b then 1 else 0) +
        (([0, 31, if b then 29 else 28, 31, 30, 31, 30, 31, 31, 30, 31, 30, 31].getD m 0 : ℕ) : ℤ) ≤
      365 + if b then 1 else 0 := by decide
  exact hall (isLeap y) m hm12 hm

theorem daysBeforeYear_succ (y : ℤ) :
    daysBeforeYear (y + 1) = daysBeforeYear y + 365 + if isLeap y then 1 else 0 := by
  have hleap : isLeap y = true ↔ y % 4 = 0 ∧ (y % 100 ≠ 0 ∨ y % 400 = 0) := by simp [isLeap]
  unfold daysBeforeYear
  by_cases h : isLeap y = true
  · rw [if_pos h]
    have := hleap.mp h
    omega
  · rw [if_neg h]
    have := mt hleap.mpr h
    omega

theorem daysBeforeYear_mono {y z : ℤ} (h : y ≤ z) : daysBeforeYear y ≤ daysBeforeYear z := by
  unfold daysBeforeYear
  omega

/-- The numbering follows the calendar. -/
theorem number_lt {d e : UtilDay} (hd : d.Real) (he : e.Real) (h : d.Before e) : d.number < e.number := by
  have hdm : d.month ≠ 0 := Nat.one_le_iff_ne_zero.mp hd.month_pos
  have hem : e.month ≠ 0 := Nat.one_le_iff_ne_zero.mp he.month_pos
  have hday := hd.day
  have heday := he.day_pos
  have hfirst := daysBeforeMonth_nonneg e.year he.month
  rw [number, number, if_neg hdm, if_neg hem]
  rcases h with hy | ⟨hy, hm | ⟨hm, hdd⟩⟩
  · have hend := year_end d.year hd.month_pos hd.month
    have hsucc := daysBeforeYear_succ d.year
    have hmono := daysBeforeYear_mono (show (d.year : ℤ) + 1 ≤ e.year by omega)
    omega
  · have hend := month_end e.year hd.month_pos hm he.month
    rw [hy] at hday ⊢
    omega
  · rw [hy, hm]
    omega

theorem parseDigits_eq {s : Bytes} (hs : ∀ c ∈ s, 48 ≤ c.toNat ∧ c.toNat ≤ 57) {n : ℕ}
    (hn : s ≠ [] → n = 10^(s.length - 1)) (rest : Bytes) :
    parseDigits n s.length (s ++ rest) = some (digitsValue s, rest) := by
  induction s generalizing n with
  | nil => rfl
  | cons c s ih =>
    have hn' : n = 10^s.length := hn (by simp)
    have hnext : s ≠ [] → n / 10 = 10^(s.length - 1) := by
      intro hs'
      obtain ⟨k, hk⟩ := Nat.exists_eq_succ_of_ne_zero (mt List.length_eq_zero_iff.mp hs')
      rw [hn', hk, Nat.pow_succ, Nat.succ_sub_one, Nat.mul_div_cancel _ (by decide)]
    have hc : 48 ≤ c ∧ c ≤ 57 := hs c List.mem_cons_self
    rw [List.length_cons, List.cons_append, parseDigits, if_pos hc,
      ih (fun d hd => hs d (List.mem_cons_of_mem _ hd)) hnext, digitsValue_cons, hn']
    rfl

theorem parseDigits_zeroPadded {w n k : ℕ} (hw : 0 < w) (hn : n < 10^w) (hk : k = 10^(w - 1))
    (rest : Bytes) : parseDigits k w (zeroPadded w n ++ rest) = some (n, rest) := by
  have hlen := zeroPadded_length hw hn
  have h := parseDigits_eq (s := zeroPadded w n) (fun c hc => zeroPadded_chars hc)
    (n := k) (fun _ => by rw [hlen, hk]) rest
  rwa [hlen, digitsValue_zeroPadded] at h

/-- The date in a name is read back, whatever follows it. -/
theorem parse_date {d : UtilDay} (h : d.Real) (rest : Bytes) : parse (d.date ++ rest) = some d := by
  have hmonth := h.month
  have hday := h.day.trans (monthLength_le d.year h.month)
  have hy := parseDigits_zeroPadded (k := 1000) (by decide) h.year (by decide)
    (zeroPadded 2 d.month ++ (zeroPadded 2 d.day ++ rest))
  have hm := parseDigits_zeroPadded (w := 2) (n := d.month) (k := 10) (by decide) (by omega) (by decide)
    (zeroPadded 2 d.day ++ rest)
  have hd := parseDigits_zeroPadded (w := 2) (n := d.day) (k := 10) (by decide) (by omega) (by decide) rest
  rw [parse, date, List.append_assoc, List.append_assoc, hy]
  simp only
  rw [hm]
  simp only
  rw [if_neg (by omega), hd]
  simp only
  rw [if_neg (by omega)]

theorem date_length {d : UtilDay} (h : d.Real) : d.date.length = 8 := by
  have hmonth := h.month
  have hday := h.day.trans (monthLength_le d.year h.month)
  rw [date, List.length_append, List.length_append, zeroPadded_length (by decide) h.year,
    zeroPadded_length (by decide) (by omega), zeroPadded_length (by decide) (by omega)]

theorem Real.valid {d : UtilDay} (h : d.Real) : d.valid = true := by
  have hm : d.month ≠ 0 := Nat.one_le_iff_ne_zero.mp h.month_pos
  simp [UtilDay.valid, hm]

end UtilDay

theorem strstr_append (n rest : Bytes) : strstr n (n ++ rest) = some 0 := by
  cases h : n ++ rest with
  | nil => rw [strstr, if_pos (List.append_eq_nil_iff.mp h).1]
  | cons b s =>
    have hp : n <+: b :: s := h ▸ List.prefix_append n rest
    rw [strstr, if_pos (List.isPrefixOf_iff_prefix.mpr hp)]

theorem strstr_of_suffix (front n : Bytes) : strstr n (front ++ n) ≠ none := by
  intro h
  by_cases hn : n = []
  · have h0 := strstr_append n (front ++ n)
    rw [hn, List.nil_append] at h0
    rw [hn, h0] at h
    cases h
  · apply strstr_none hn h front.length
    rw [List.drop_left]

theorem joinPath_inj {dir a b : Bytes} : joinPath dir a = joinPath dir b ↔ a = b := by
  rw [joinPath, joinPath, List.append_cancel_left_eq]

namespace FileLogImpl

variable (l : FileLogImpl)

theorem fileDate_fileName (filePrefix : Bytes) (d : UtilDay) :
    fileDate filePrefix (l.fileName filePrefix d) = some (d.date ++ (ascii "." ++ l.mSuffix)) := by
  have hname : l.fileName filePrefix d = filePrefix ++ (d.date ++ (ascii "." ++ l.mSuffix)) := by
    rw [fileName, List.append_assoc, List.append_assoc]
  rw [fileDate, hname, strstr_append, if_pos rfl, List.drop_left]

/-- A file of the day `d` is listed. -/
def Listed (filePrefix : Bytes) (names : List Bytes) (d : UtilDay) : Prop :=
  d.Real ∧ l.fileName filePrefix d ∈ names

/-- No loop passes over a file with such a name. -/
theorem skips_fileName (filePrefix : Bytes) {d : UtilDay} (hd : d.Real) :
    l.skips (l.fileName filePrefix d) = false := by
  have hlen : 8 < (l.fileName filePrefix d).length := by
    have hdate := UtilDay.date_length hd
    have hdot : (ascii ".").length = 1 := by decide
    simp only [fileName, List.length_append]
    omega
  have hdot : l.fileName filePrefix d ≠ ascii "." := fun h => by
    rw [h] at hlen
    exact absurd hlen (by decide)
  have hdots : l.fileName filePrefix d ≠ ascii ".." := fun h => by
    rw [h] at hlen
    exact absurd hlen (by decide)
  have hsuffix : strstr l.mSuffix (l.fileName filePrefix d) ≠ none := strstr_of_suffix _ _
  have hten : (ascii "20170201").length = 8 := by decide
  rw [skips, decide_eq_false hdot, decide_eq_false hdots, decide_eq_false hsuffix, hten,
    decide_eq_false (not_le.mpr hlen)]
  rfl

/-- Two days do not share a name. -/
theorem fileName_inj {filePrefix : Bytes} {d e : UtilDay} (hd : d.Real) (he : e.Real)
    (h : l.fileName filePrefix d = l.fileName filePrefix e) : d = e := by
  have hdate := congrArg (fileDate filePrefix) h
  rw [fileDate_fileName, fileDate_fileName, Option.some.injEq] at hdate
  have hparse := congrArg UtilDay.parse hdate
  rw [UtilDay.parse_date hd, UtilDay.parse_date he] at hparse
  exact Option.some.inj hparse

end FileLogImpl

/-- A directory of empty files. -/
def Disk.ofNames (dir : Bytes) (names : List Bytes) : Disk where
  entries path := if path = dir then some names else none
  files path := if path.length < PATH_MAX ∧ path ∈ names.map (joinPath dir) then some ⟨0, []⟩ else none
  next := 1
  unlinks _ := true
  opens _ := true
  sound p f h := by
    split at h
    · rename_i hp
      rw [← Option.some.inj h]
      exact ⟨Nat.zero_lt_one, hp.1⟩
    · cases h

/-- The names as they are set in `log_reg_filelog`. -/
def FileLogImpl.sample : FileLogImpl :=
  ⟨ascii "/var/log", ascii "http-proxy-", ascii "/var/log/old", ascii "http-proxy-old-", ascii "log"⟩

end HttpsProxy
