import HttpsProxy.LogNames

/-! `openRecentFile` at startup. The loop finds the newest log and the other ones
are removed, but the file opened in the end is the last one the loop has looked
at: the newest log is picked exactly when it is listed last. -/
namespace HttpsProxy

namespace Disk

theorem unlink_of_unlinks {path : Bytes} {disk : Disk} (h : disk.unlinks path = true) :
    (disk.unlink path).files = Function.update disk.files path none ∧
      (disk.unlink path).unlinks = disk.unlinks ∧ (disk.unlink path).opens = disk.opens ∧
        (disk.unlink path).next = disk.next := by
  rw [unlink, if_pos h]
  exact ⟨rfl, rfl, rfl, rfl⟩

/-- The loop over `flist` of `openRecentFile`. -/
def unlinkOthers (paths : List Bytes) (target : Bytes) (disk : Disk) : Disk :=
  paths.foldl (fun disk path => if path ≠ target then disk.unlink path else disk) disk

theorem unlinkOthers_spec (paths : List Bytes) (target : Bytes) {disk : Disk}
    (hunlink : ∀ path, disk.unlinks path = true) :
    (disk.unlinkOthers paths target).opens = disk.opens ∧
      (disk.unlinkOthers paths target).next = disk.next ∧
        ∀ p, (disk.unlinkOthers paths target).files p =
          if p ∈ paths ∧ p ≠ target then none else disk.files p := by
  induction paths generalizing disk with
  | nil => exact ⟨rfl, rfl, fun p => by simp [unlinkOthers]⟩
  | cons path paths ih =>
    simp only [unlinkOthers, List.foldl_cons]
    by_cases ht : path ≠ target
    · obtain ⟨hfiles, hunlinks, hopens, hnext⟩ := unlink_of_unlinks (hunlink path)
      have hstill : ∀ p, (disk.unlink path).unlinks p = true := by
        rw [hunlinks]
        exact hunlink
      have hrest := ih hstill
      rw [if_pos ht]
      refine ⟨hrest.1.trans hopens, hrest.2.1.trans hnext, fun p => (hrest.2.2 p).trans ?_⟩
      rw [hfiles]
      by_cases hp : p = path
      · rw [hp, Function.update_self, ite_self, if_pos ⟨List.mem_cons_self, ht⟩]
      · rw [Function.update_of_ne hp]
        simp [hp]
    · rw [if_neg ht]
      refine ⟨(ih hunlink).1, (ih hunlink).2.1, fun p => ((ih hunlink).2.2 p).trans ?_⟩
      rw [not_ne_iff] at ht
      by_cases hp : p = target <;> simp [ht, hp]

theorem fopen_of_access {path : Bytes} {disk : Disk} (ha : disk.access path = true)
    (ho : disk.opens path = true) : disk.fopen path = (true, disk) := by
  obtain ⟨f, hf⟩ := Option.isSome_iff_exists.mp ha
  rw [fopen, dif_pos ⟨(disk.sound path f hf).2, ho⟩, if_pos ha]

/-- A file that has been there all along was there before `fopen`. -/
theorem fopen_kept {path : Bytes} {disk : Disk} {f : DiskFile}
    (h : (disk.fopen path).2.files path = some f) (hf : f.id < disk.next) :
    disk.files path = some f := by
  rw [fopen] at h
  split at h
  · split at h
    · exact h
    · simp only [Function.update_self, Option.some.injEq] at h
      rw [← h] at hf
      exact absurd hf (lt_irrefl _)
  · exact h

end Disk

namespace FileLogImpl

variable (l : FileLogImpl)

/-- The day of an entry that the loop of `openRecentFile` does not pass over. -/
def entryDay (name : Bytes) : Option UtilDay :=
  if l.skips name then none else (l._todayFileDate name).bind UtilDay.parse

/-- What the loop looks at, in the order of the listing. -/
def candidates (names : List Bytes) : List (Bytes × UtilDay) :=
  names.filterMap fun name => (l.entryDay name).map fun d => (name, d)

/-- The newest of the logs listed is that of the day `d`. -/
def Newest (names : List Bytes) (d : UtilDay) : Prop :=
  l.Listed l.mCurFilePrefix names d ∧ ∀ e, l.Listed l.mCurFilePrefix names e → e ≠ d → e.Before d

def currentPath (d : UtilDay) : Bytes := joinPath l.mCurFileDir (l.fileName l.mCurFilePrefix d)

/-- The log of the day `d` is open and has been kept, and the other ones have
been removed. -/
structure KeepsOnly (names : List Bytes) (d : UtilDay) (disk : Disk) (after : FileLog × Disk) : Prop where
  opened : after.1.mLogFile = some (l.currentPath d)
  day : after.1.mCurDay = d
  kept : after.2.files (l.currentPath d) = disk.files (l.currentPath d)
  removed : ∀ e, l.Listed l.mCurFilePrefix names e → e ≠ d → after.2.files (l.currentPath e) = none

theorem entryDay_fileName {d : UtilDay} (hd : d.Real) :
    l.entryDay (l.fileName l.mCurFilePrefix d) = some d := by
  rw [entryDay, skips_fileName l _ hd, if_neg Bool.false_ne_true, _todayFileDate, fileDate_fileName,
    Option.bind_some, UtilDay.parse_date hd]

theorem mem_candidates {names : List Bytes} {c : Bytes × UtilDay} :
    c ∈ l.candidates names ↔ c.1 ∈ names ∧ l.entryDay c.1 = some c.2 := by
  rw [candidates, List.mem_filterMap]
  constructor
  · rintro ⟨name, hname, hc⟩
    obtain ⟨d, hd, rfl⟩ := Option.map_eq_some_iff.mp hc
    exact ⟨hname, hd⟩
  · rintro ⟨hname, hd⟩
    exact ⟨c.1, hname, by rw [hd, Option.map_some]⟩

theorem candidates_nodup {names : List Bytes} (h : names.Nodup) : (l.candidates names).Nodup := by
  refine h.filterMap ?_
  intro a b c ha hb
  obtain ⟨d, -, rfl⟩ := Option.map_eq_some_iff.mp ha
  obtain ⟨e, -, he⟩ := Option.map_eq_some_iff.mp hb
  exact (congrArg Prod.fst he).symm

section Scan

variable (today : UtilDay)

/-- The candidate the loop has chosen: the first one of the latest day, among
those of less than 999999 days ago. -/
def chosen (cs : List (Bytes × UtilDay)) : Option (Bytes × UtilDay) :=
  cs.foldl (fun best c => if today.sub c.2 < best.elim 999999 fun b => today.sub b.2 then some c else best) none

/-- What the loop has found behind the candidates `cs`. -/
def scanned (cs : List (Bytes × UtilDay)) : RecentScan where
  minDiff := (chosen today cs).elim 999999 fun c => today.sub c.2
  latest_day := (chosen today cs).elim {} Prod.snd
  target := (chosen today cs).elim [] fun c => joinPath l.mCurFileDir c.1
  pathname := cs.getLast?.elim [] fun c => joinPath l.mCurFileDir c.1
  flist := cs.map fun c => joinPath l.mCurFileDir c.1

theorem chosen_concat (cs : List (Bytes × UtilDay)) (c : Bytes × UtilDay) :
    chosen today (cs ++ [c]) =
      if today.sub c.2 < (chosen today cs).elim 999999 (fun b => today.sub b.2) then some c
      else chosen today cs := by
  rw [chosen, List.foldl_append, List.foldl_cons, List.foldl_nil, ← chosen]

theorem mem_of_chosen {cs : List (Bytes × UtilDay)} {c : Bytes × UtilDay} (h : chosen today cs = some c) :
    c ∈ cs := by
  induction cs using List.reverseRecOn with
  | nil => cases h
  | append_singleton cs b ih =>
    rw [chosen_concat] at h
    split at h
    · rw [← Option.some.inj h]
      exact List.mem_append_right cs (List.mem_singleton_self b)
    · exact List.mem_append_left [b] (ih h)

theorem recentStep_scanned {disk : Disk} {name : Bytes} (cs : List (Bytes × UtilDay))
    (hacc : disk.access (joinPath l.mCurFileDir name) = true) :
    l.recentStep today disk (l.scanned today cs) name =
      l.scanned today (cs ++ l.candidates [name]) := by
  have hfits : snprintf PATH_MAX (joinPath l.mCurFileDir name) = joinPath l.mCurFileDir name := by
    obtain ⟨f, hf⟩ := Option.isSome_iff_exists.mp hacc
    exact List.take_of_length_le (Nat.le_sub_one_of_lt (disk.sound _ f hf).2)
  cases hday : l.entryDay name with
  | none =>
    have hsame : l.candidates [name] = [] := by simp [candidates, hday]
    rw [hsame, List.append_nil, recentStep]
    rw [entryDay] at hday
    split at hday
    · rename_i hs
      rw [if_pos hs]
    · rename_i hs
      rw [if_neg hs]
      cases hdate : l._todayFileDate name with
      | none => rfl
      | some datestr =>
        rw [hdate, Option.bind_some] at hday
        simp only [hday]
  | some d =>
    have hone : l.candidates [name] = [(name, d)] := by simp [candidates, hday]
    rw [entryDay] at hday
    split at hday
    · cases hday
    · rename_i hs
      obtain ⟨datestr, hdate, hparse⟩ := Option.bind_eq_some_iff.mp hday
      rw [hone, recentStep, if_neg hs, hdate]
      simp only [hparse, hfits, hacc, if_true]
      rw [scanned, scanned, chosen_concat, List.getLast?_concat, List.map_append]
      split
      · rfl
      · rfl

theorem scan_candidates {disk : Disk} {names : List Bytes}
    (hacc : ∀ name ∈ names, disk.access (joinPath l.mCurFileDir name) = true) :
    names.foldl (l.recentStep today disk) ⟨999999, {}, [], [], []⟩ =
      l.scanned today (l.candidates names) := by
  have hrun (cs : List (Bytes × UtilDay)) : names.foldl (l.recentStep today disk) (l.scanned today cs) =
      l.scanned today (cs ++ l.candidates names) := by
    induction names generalizing cs with
    | nil => rw [candidates, List.filterMap_nil, List.append_nil, List.foldl_nil]
    | cons name names ih =>
      have hsplit : l.candidates (name :: names) = l.candidates [name] ++ l.candidates names :=
        List.filterMap_append (l := [name])
      rw [List.foldl_cons, recentStep_scanned l today cs (hacc name List.mem_cons_self),
        ih (fun n hn => hacc n (List.mem_cons_of_mem _ hn)), hsplit, List.append_assoc]
  exact hrun []

theorem lt_chosen {n : ℤ} (cs : List (Bytes × UtilDay)) :
    n < (chosen today cs).elim 999999 (fun b => today.sub b.2) ↔
      n < 999999 ∧ ∀ b ∈ cs, n < today.sub b.2 := by
  induction cs using List.reverseRecOn with
  | nil => simp [chosen]
  | append_singleton cs c ih =>
    have hmem : (∀ b ∈ cs ++ [c], n < today.sub b.2) ↔ (∀ b ∈ cs, n < today.sub b.2) ∧ n < today.sub c.2 := by
      simp only [List.mem_append, List.mem_singleton, or_imp, forall_and, forall_eq]
    rw [hmem, ← and_assoc, ← ih, chosen_concat]
    split
    · simp only [Option.elim_some]
      omega
    · omega

/-- The last candidate is chosen when it is later than the ones before it. -/
theorem chosen_last {cs : List (Bytes × UtilDay)} {c : Bytes × UtilDay} (hc : c ∉ cs) :
    chosen today (cs ++ [c]) = some c ↔
      today.sub c.2 < 999999 ∧ ∀ b ∈ cs, b.2.number < c.2.number := by
  have hnot : chosen today cs ≠ some c := fun h => hc (mem_of_chosen today h)
  have horder (b : Bytes × UtilDay) : today.sub c.2 < today.sub b.2 ↔ b.2.number < c.2.number := by
    rw [UtilDay.sub, UtilDay.sub]
    omega
  rw [chosen_concat]
  by_cases hlt : today.sub c.2 < (chosen today cs).elim 999999 fun b => today.sub b.2
  · have hall := (lt_chosen today cs).mp hlt
    rw [if_pos hlt]
    exact ⟨fun _ => ⟨hall.1, fun b hb => (horder b).mp (hall.2 b hb)⟩, fun _ => rfl⟩
  · rw [if_neg hlt]
    refine ⟨fun h => absurd h hnot, fun h => absurd ?_ hlt⟩
    exact (lt_chosen today cs).mpr ⟨h.1, fun b hb => (horder b).mpr (h.2 b hb)⟩

end Scan

section Startup

variable {l} {names : List Bytes} {d : UtilDay} {disk : Disk}

/-- What is left when the loop over `flist` is done. -/
def leftOver (l : FileLogImpl) (today : UtilDay) (cs : List (Bytes × UtilDay)) (disk : Disk) : Disk :=
  disk.unlinkOthers (l.scanned today cs).flist (l.scanned today cs).target

theorem openRecentFile_eq (today : UtilDay) (hdir : disk.readdir l.mCurFileDir = some names)
    (hacc : ∀ name ∈ names, disk.access (joinPath l.mCurFileDir name) = true) :
    l.openRecentFile today {} disk =
      let s := l.scanned today (l.candidates names)
      let opened := (l.leftOver today (l.candidates names) disk).fopen s.pathname
      if s.latest_day.valid then
        if opened.1 then (⟨some s.pathname, s.latest_day⟩, opened.2) else ({}, opened.2)
      else ({}, l.leftOver today (l.candidates names) disk) := by
  rw [openRecentFile, hdir]
  simp only [scan_candidates l today hacc]
  rfl

theorem currentPath_inj {d e : UtilDay} (hd : d.Real) (he : e.Real) :
    l.currentPath d = l.currentPath e ↔ d = e :=
  ⟨fun h => fileName_inj l hd he (joinPath_inj.mp h), fun h => by rw [h]⟩

theorem candidate_unique {c : Bytes × UtilDay} (hd : d.Real) (hc : c ∈ l.candidates names)
    (hpath : joinPath l.mCurFileDir c.1 = l.currentPath d) : c = (l.fileName l.mCurFilePrefix d, d) := by
  have hname := joinPath_inj.mp hpath
  have hday := ((mem_candidates l).mp hc).2
  rw [hname, entryDay_fileName l hd] at hday
  exact Prod.ext hname (Option.some.inj hday).symm

theorem leftOver_files (today : UtilDay) (cs : List (Bytes × UtilDay))
    (hunlink : ∀ path, disk.unlinks path = true) (p : Bytes) :
    (l.leftOver today cs disk).files p =
      if p ∈ (l.scanned today cs).flist ∧ p ≠ (l.scanned today cs).target then none else disk.files p :=
  (Disk.unlinkOthers_spec _ _ hunlink).2.2 p

/-- Listed last and the latest of all, the newest log is picked. -/
theorem keepsOnly_of_last (today : UtilDay) {older : List (Bytes × UtilDay)}
    (hunlink : ∀ path, disk.unlinks path = true) (hopen : ∀ path, disk.opens path = true)
    (hdir : disk.readdir l.mCurFileDir = some names)
    (hacc : ∀ name ∈ names, disk.access (joinPath l.mCurFileDir name) = true)
    (hd : l.Listed l.mCurFilePrefix names d)
    (holder : l.candidates names = older ++ [(l.fileName l.mCurFilePrefix d, d)])
    (hchosen : chosen today (l.candidates names) = some (l.fileName l.mCurFilePrefix d, d)) :
    l.KeepsOnly names d disk (l.openRecentFile today {} disk) := by
  have htarget : (l.scanned today (l.candidates names)).target = l.currentPath d := by
    rw [scanned, hchosen]
    rfl
  have hday : (l.scanned today (l.candidates names)).latest_day = d := by
    rw [scanned, hchosen]
    rfl
  have hpath : (l.scanned today (l.candidates names)).pathname = l.currentPath d := by
    rw [scanned, holder, List.getLast?_concat]
    rfl
  have hleft : (l.leftOver today (l.candidates names) disk).files (l.currentPath d) =
      disk.files (l.currentPath d) := by
    rw [leftOver_files today _ hunlink, if_neg (fun h => h.2 htarget.symm)]
  have hfopen : (l.leftOver today (l.candidates names) disk).fopen (l.currentPath d) =
      (true, l.leftOver today (l.candidates names) disk) := by
    apply Disk.fopen_of_access
    · rw [Disk.access, hleft]
      exact hacc _ hd.2
    · rw [leftOver, (Disk.unlinkOthers_spec _ _ hunlink).1]
      exact hopen _
  rw [openRecentFile_eq today hdir hacc]
  simp only [hday, hpath, hd.1.valid, hfopen, if_true]
  refine ⟨rfl, rfl, hleft, fun e he hne => ?_⟩
  have hlisted : (l.fileName l.mCurFilePrefix e, e) ∈ l.candidates names :=
    (mem_candidates l).mpr ⟨he.2, entryDay_fileName l he.1⟩
  rw [leftOver_files today _ hunlink, if_pos]
  refine ⟨List.mem_map.mpr ⟨_, hlisted, rfl⟩, ?_⟩
  rw [htarget]
  exact fun h => hne ((currentPath_inj he.1 hd.1).mp h)

/-- The file opened is the last one, and only the chosen one is still there. -/
theorem last_of_keepsOnly (today : UtilDay) (hunlink : ∀ path, disk.unlinks path = true)
    (hdir : disk.readdir l.mCurFileDir = some names)
    (hacc : ∀ name ∈ names, disk.access (joinPath l.mCurFileDir name) = true)
    (hd : l.Listed l.mCurFilePrefix names d)
    (h : l.KeepsOnly names d disk (l.openRecentFile today {} disk)) :
    (l.candidates names).getLast? = some (l.fileName l.mCurFilePrefix d, d) ∧
      chosen today (l.candidates names) = some (l.fileName l.mCurFilePrefix d, d) := by
  obtain ⟨f, hf⟩ := Option.isSome_iff_exists.mp (hacc _ hd.2)
  have hopened := h.opened
  have hkept := h.kept
  rw [openRecentFile_eq today hdir hacc] at hopened hkept
  simp only at hopened hkept
  split at hopened
  · rename_i hvalid
    split at hopened
    · rename_i hfopen
      rw [if_pos hvalid, if_pos hfopen] at hkept
      have hpath := Option.some.inj hopened
      rw [hpath, currentPath, hf] at hkept
      have hnext := (Disk.unlinkOthers_spec (l.scanned today (l.candidates names)).flist
        (l.scanned today (l.candidates names)).target hunlink).2.1
      have hleft := Disk.fopen_kept hkept (hnext ▸ (disk.sound _ f hf).1)
      have hlisted : (l.fileName l.mCurFilePrefix d, d) ∈ l.candidates names :=
        (mem_candidates l).mpr ⟨hd.2, entryDay_fileName l hd.1⟩
      have htarget : l.currentPath d = (l.scanned today (l.candidates names)).target := by
        by_contra hne
        rw [leftOver_files today _ hunlink,
          if_pos ⟨List.mem_map.mpr ⟨_, hlisted, rfl⟩, hne⟩] at hleft
        cases hleft
      constructor
      · have hcs : l.candidates names ≠ [] := List.ne_nil_of_mem hlisted
        rw [scanned, List.getLast?_eq_some_getLast hcs] at hpath
        rw [List.getLast?_eq_some_getLast hcs,
          candidate_unique hd.1 (List.getLast_mem hcs) hpath]
      · cases hchosen : chosen today (l.candidates names) with
        | none =>
          rw [scanned, hchosen] at hvalid
          cases hvalid
        | some c =>
          have hc := mem_of_chosen today hchosen
          rw [scanned, hchosen] at htarget
          rw [candidate_unique hd.1 hc htarget.symm]
    · cases hopened
  · cases hopened

/-- The newest log is picked when it is listed behind all that the loop looks at,
and the other entries the loop looks at are of earlier days. -/
theorem openRecentFile_newest_iff (today : UtilDay) (hdir : disk.readdir l.mCurFileDir = some names)
    (hnames : names.Nodup)
    (hacc : ∀ name ∈ names, disk.access (joinPath l.mCurFileDir name) = true)
    (hunlink : ∀ path, disk.unlinks path = true) (hopen : ∀ path, disk.opens path = true)
    (hd : l.Newest names d) :
    l.KeepsOnly names d disk (l.openRecentFile today {} disk) ↔
      ∃ older, l.candidates names = older ++ [(l.fileName l.mCurFilePrefix d, d)] ∧
        today.sub d < 999999 ∧ ∀ c ∈ older, c.2.number < d.number := by
  -- each file is a candidate once, so the newest one is not among the older
  have hnodup := candidates_nodup l hnames
  have hnotin (older : List (Bytes × UtilDay))
      (holder : l.candidates names = older ++ [(l.fileName l.mCurFilePrefix d, d)]) :
      (l.fileName l.mCurFilePrefix d, d) ∉ older := by
    intro hin
    rw [holder] at hnodup
    exact List.disjoint_of_nodup_append hnodup hin (List.mem_singleton_self _)
  constructor
  -- only the last candidate can be kept, and it is kept if the choice falls on it
  · intro h
    obtain ⟨hlast, hchosen⟩ := last_of_keepsOnly today hunlink hdir hacc hd.1 h
    obtain ⟨older, holder⟩ := List.getLast?_eq_some_iff.mp hlast
    rw [holder] at hchosen
    exact ⟨older, holder, (chosen_last today (hnotin older holder)).mp hchosen⟩
  · rintro ⟨older, holder, hlt⟩
    have hchosen := (chosen_last today (hnotin older holder)).mpr hlt
    rw [← holder] at hchosen
    exact keepsOnly_of_last today hunlink hopen hdir hacc hd.1 holder hchosen

theorem newest_of_pair {e : UtilDay} (hd : d.Real) (he : e.Real) (h : e.Before d)
    (hnames : ∀ name, name ∈ names ↔
      name = l.fileName l.mCurFilePrefix e ∨ name = l.fileName l.mCurFilePrefix d) : l.Newest names d := by
  refine ⟨⟨hd, (hnames _).mpr (Or.inr rfl)⟩, fun a ha hne => ?_⟩
  rcases (hnames _).mp ha.2 with heq | heq
  · rw [fileName_inj l ha.1 he heq]
    exact h
  · exact absurd (fileName_inj l ha.1 hd heq) hne

end Startup

end FileLogImpl

theorem FileLogImpl.openRecentFile_newest_sample :
    FileLogImpl.sample.KeepsOnly [ascii "http-proxy-20170131.log", ascii "http-proxy-20170201.log"]
      ⟨2017, 2, 1⟩
      (Disk.ofNames (ascii "/var/log") [ascii "http-proxy-20170131.log", ascii "http-proxy-20170201.log"])
      (FileLogImpl.sample.openRecentFile ⟨2017, 2, 3⟩ {} (Disk.ofNames (ascii "/var/log")
        [ascii "http-proxy-20170131.log", ascii "http-proxy-20170201.log"])) :=
  (openRecentFile_newest_iff ⟨2017, 2, 3⟩ (by decide +kernel) (by decide +kernel) (by decide +kernel)
    (fun _ => rfl) (fun _ => rfl)
    (newest_of_pair (e := ⟨2017, 1, 31⟩) (by decide) (by decide) (by decide) (by
      simp only [List.mem_cons, List.not_mem_nil, or_false]
      exact fun name => Iff.rfl))).mpr
    ⟨[(ascii "http-proxy-20170131.log", ⟨2017, 1, 31⟩)], by decide +kernel, by decide, by decide +kernel⟩

/-- Listed first, the newest log is not the one that is opened. -/
theorem FileLogImpl.openRecentFile_newest_fails :
    FileLogImpl.sample.Newest [ascii "http-proxy-20170201.log", ascii "http-proxy-20170131.log"]
        ⟨2017, 2, 1⟩ ∧
      ¬FileLogImpl.sample.KeepsOnly [ascii "http-proxy-20170201.log", ascii "http-proxy-20170131.log"]
        ⟨2017, 2, 1⟩
        (Disk.ofNames (ascii "/var/log") [ascii "http-proxy-20170201.log", ascii "http-proxy-20170131.log"])
        (FileLogImpl.sample.openRecentFile ⟨2017, 2, 3⟩ {} (Disk.ofNames (ascii "/var/log")
          [ascii "http-proxy-20170201.log", ascii "http-proxy-20170131.log"])) := by
  constructor
  · apply newest_of_pair (e := ⟨2017, 1, 31⟩) (by decide) (by decide) (by decide)
    simp only [List.mem_cons, List.not_mem_nil, or_false]
    exact fun name => Or.comm
  · intro h
    have hopened := h.opened
    revert hopened
    decide +kernel

end HttpsProxy
