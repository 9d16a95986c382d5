import HttpsProxy.AnswerSteps

/-! The line loop of `parseHttpHeader` ends on every text, and `Connecting` is
left with the chunk that brings the empty line and not before. -/
namespace HttpsProxy

namespace TunCtx

/-- A run of the line loop from `line_head` on, with the `full_header` it ends with. -/
inductive LineRun : Bytes → Bool → Prop where
  | noLine {line : Bytes} (tail : strstr CRLF line = none) : LineRun line false
  | emptyLine {line : Bytes} (tail : strstr CRLF line = some 0) : LineRun line true
  | nextLine {line : Bytes} {k : ℕ} {full : Bool} (tail : strstr CRLF line = some (k + 1))
      (rest : LineRun (line.drop (k + 1 + 2)) full) : LineRun line full

/-- Every line takes some bytes, so no run is longer than the text. -/
theorem lineRun_lineLoop {fuel : ℕ} {line : Bytes} (h : line.length < fuel) :
    LineRun line (lineLoop fuel line) := by
  induction fuel generalizing line with
  | zero => omega
  | succ fuel ih =>
    rw [lineLoop]
    split
    · rename_i htail
      exact .noLine htail
    · rename_i htail
      exact .emptyLine htail
    · rename_i k hne htail
      obtain ⟨k, rfl⟩ := Nat.exists_eq_succ_of_ne_zero hne
      refine .nextLine htail (ih ?_)
      have hpos : line ≠ [] := by
        rintro rfl
        cases htail
      have hlen := List.length_pos_iff.mpr hpos
      rw [List.length_drop]
      omega

theorem LineRun.unique {line : Bytes} {b c : Bool} (h : LineRun line b) (k : LineRun line c) :
    b = c := by
  induction h with
  | noLine tail =>
    cases k with
    | noLine => rfl
    | emptyLine tail' => cases tail.symm.trans tail'
    | nextLine tail' => cases tail.symm.trans tail'
  | emptyLine tail =>
    cases k with
    | noLine tail' => cases tail.symm.trans tail'
    | emptyLine => rfl
    | nextLine tail' => cases tail.symm.trans tail'
  | nextLine tail _ ih =>
    cases k with
    | noLine tail' => cases tail.symm.trans tail'
    | emptyLine tail' => cases tail.symm.trans tail'
    | nextLine tail' rest' =>
      cases tail.symm.trans tail'
      exact ih rest'

/-- The line loop has one run on a text, which finds what `fullHeader` says. -/
theorem lineRun_iff (text : Bytes) (full : Bool) : LineRun text full ↔ full = fullHeader text := by
  have hrun : LineRun text (fullHeader text) := lineRun_lineLoop (Nat.lt_succ_self _)
  exact ⟨fun h => h.unique hrun, fun h => h ▸ hrun⟩

theorem blank_iff_infix (text : Bytes) : Blank text ↔ CRLF <+: text ∨ CRLF ++ CRLF <:+: text := by
  refine or_congr_right ?_
  constructor
  · rintro ⟨j, h⟩
    exact h.isInfix.trans (List.drop_suffix j text).isInfix
  · rintro ⟨s, t, rfl⟩
    refine ⟨s.length, t, ?_⟩
    rw [List.append_assoc s, List.drop_left, List.append_assoc]

/-- The tunnel does not wait for the answer. -/
def Past (m : TunCtx) : Prop := m.tun.mProxyStatus ≠ .Connecting

section Past

/-! Only `onConnected` makes a tunnel wait. -/

variable {m : TunCtx}

theorem Past.detach (h : m.Past) (side : Side) : (m.detach side).Past := by
  cases side <;> exact h

theorem cleanup_past (m : TunCtx) : m.cleanup.Past := by
  change EProxyStatus.Closed ≠ .Connecting
  simp

theorem Past._onError (h : m.Past) : m._onError.Past := by
  unfold TunCtx._onError
  split
  · exact cleanup_past _
  · exact h

theorem Past.dropProxy (h : m.Past) : m.dropProxy.Past :=
  Past._onError (m := m.setEventHandler .proxy false) h

theorem Past.onErrorProxy (h : m.Past) : m.onErrorProxy.Past :=
  Past._onError (Past.detach (m := (m.detach .proxy).clearCache) h .loc)

theorem Past.sendProxy (h : m.Past) (data : Bytes) : (m.sendProxy data).Past := by
  have hsend : (m.put .proxy ((m.ctx .proxy).send data).1).Past := h
  simp only [TunCtx.sendProxy, Owner.run, errorOwner]
  cases ((m.ctx .proxy).send data).2 with
  | none => exact hsend
  | some cb =>
    cases cb with
    | onError => exact hsend.onErrorProxy
    | _ => exact hsend

theorem Past.flushLocal (h : m.Past) : m.flushLocal.Past := by
  unfold TunCtx.flushLocal
  split
  · exact cacheHost.flushAll_preserves (P := Past) (fun _ _ => rfl) (fun _ _ h _ => h)
      (fun d _ h => h.sendProxy d) (fun _ h => h) (fun _ h => h) (fun _ h => h) _ h
  · exact h

theorem onErrorLocal_past (m : TunCtx) : m.onErrorLocal.Past :=
  Past._onError (Past.detach (m := setStatus .Closed _) (by change EProxyStatus.Closed ≠ _; simp) .proxy)

theorem Past.sendLocal (h : m.Past) (data : Bytes) : (m.sendLocal data).Past := by
  have hsend : (m.put .loc ((m.ctx .loc).send data).1).Past := h
  simp only [TunCtx.sendLocal, Owner.run, errorOwner]
  cases ((m.ctx .loc).send data).2 with
  | none => exact hsend
  | some cb =>
    cases cb with
    | onError => exact onErrorLocal_past _
    | _ => exact hsend

end Past

/-- Whatever else comes from the proxy server does not make the tunnel wait again. -/
theorem Past.onRecv {m : TunCtx} (h : m.Past) (data : Bytes) : (m.onRecv .proxy data).Past := by
  simp only [TunCtx.onRecv]
  split
  · rename_i hst
    exact absurd hst h
  · split
    · exact h.dropProxy
    · exact h.sendLocal data
  · exact h.dropProxy

/-- A chunk of text that fits is collected as long as it brings no empty line. -/
theorem onRecv_text {m : TunCtx} {data : Bytes} (hst : m.tun.mProxyStatus = .Connecting)
    (hz : 0 ∉ data) (hfit : m.tun.header.length + data.length ≤ HEADER_MAX) :
    ¬Blank (m.tun.header ++ data) ∧ (m.onRecv .proxy data).tun.mProxyStatus = .Connecting ∧
        (m.onRecv .proxy data).tun.header = m.tun.header ++ data ∨
      Blank (m.tun.header ++ data) ∧ (m.onRecv .proxy data).Past := by
  obtain ⟨buf, hbuf, hn⟩ := onRecv_fits hst
    (show ¬HEADER_MAX - m.tun.header.length < data.length by omega)
  have hheader : ProxyTunnel.header { m.tun with mHttpHeader := buf } = m.tun.header ++ data := by
    rw [ProxyTunnel.header, hbuf, cstr_eq_self hz]
  rw [hn, parseHttpHeader, hheader]
  by_cases hfull : fullHeader (m.tun.header ++ data) = true
  · refine Or.inr ⟨(fullHeader_iff _).mp hfull, ?_⟩
    rw [if_pos hfull]
    split
    · refine Past.flushLocal ?_
      change EProxyStatus.Connected ≠ .Connecting
      simp
    · refine Past.dropProxy (m := setStatus .Error _) ?_
      change EProxyStatus.Error ≠ .Connecting
      simp
  · rw [if_neg hfull]
    exact Or.inl ⟨mt (fullHeader_iff _).mpr hfull, hst, hheader⟩

/-- A chunk of the answer, with what the callback finds around the tunnel. -/
def hearProxy (m : TunCtx) (a : Entry × Bytes) : TunCtx := (m.enter a.1).onRecv .proxy a.2

theorem Past.hear_all {m : TunCtx} (h : m.Past) (as : List (Entry × Bytes)) :
    (as.foldl hearProxy m).Past := by
  induction as generalizing m with
  | nil => exact h
  | cons a as ih => exact ih (Past.onRecv (m := m.enter a.1) h a.2)

/-- The chunks collected so far decide whether the tunnel still waits. -/
theorem connecting_iff {m : TunCtx} (as : List (Entry × Bytes))
    (hst : m.tun.mProxyStatus = .Connecting) (hopen : ¬Blank m.tun.header)
    (hz : 0 ∉ (as.map Prod.snd).flatten)
    (hfit : m.tun.header.length + (as.map Prod.snd).flatten.length ≤ HEADER_MAX) :
    (as.foldl hearProxy m).tun.mProxyStatus = .Connecting ↔
      ¬Blank (m.tun.header ++ (as.map Prod.snd).flatten) := by
  induction as generalizing m with
  | nil => simpa using iff_of_true hst hopen
  | cons a as ih =>
    simp only [List.map_cons, List.flatten_cons, List.length_append, List.mem_append, not_or]
      at hz hfit ⊢
    rw [← List.append_assoc, List.foldl_cons]
    have hroom : m.tun.header.length + a.2.length ≤ HEADER_MAX := by omega
    have hstep : ¬Blank (m.tun.header ++ a.2) ∧ (m.hearProxy a).tun.mProxyStatus = .Connecting ∧
          (m.hearProxy a).tun.header = m.tun.header ++ a.2 ∨
        Blank (m.tun.header ++ a.2) ∧ (m.hearProxy a).Past :=
      onRecv_text (m := m.enter a.1) hst hz.1 hroom
    rcases hstep with ⟨hno, hst', hheader⟩ | ⟨hyes, hpast⟩
    · rw [← hheader] at hno ⊢
      refine ih hst' hno hz.2 ?_
      rw [hheader, List.length_append]
      omega
    · exact iff_of_false (Past.hear_all hpast as) (not_not_intro (Blank.append hyes _))

/-- The line loop of `parseHttpHeader` ends on every content of the buffer, with
`full_header` exactly on an empty line; and a tunnel that waits for the answer
goes on waiting, however the answer is cut, exactly as long as what has come in
has no empty line. -/
theorem header_complete_iff (m : TunCtx) (as : List (Entry × Bytes))
    (hst : m.tun.mProxyStatus = .Connecting) (hnew : m.tun.header = [])
    (hz : 0 ∉ (as.map Prod.snd).flatten) (hfit : (as.map Prod.snd).flatten.length ≤ HEADER_MAX) :
    (∀ (buf : Bytes) (full : Bool), LineRun (cstr buf) full ↔ full = fullHeader (cstr buf)) ∧
    (∀ buf : Bytes, fullHeader (cstr buf) = true ↔
      CRLF <+: cstr buf ∨ CRLF ++ CRLF <:+: cstr buf) ∧
    ((as.foldl hearProxy m).tun.mProxyStatus = .Connecting ↔
      ¬(CRLF <+: (as.map Prod.snd).flatten ∨ CRLF ++ CRLF <:+: (as.map Prod.snd).flatten)) := by
  refine ⟨fun buf full => lineRun_iff (cstr buf) full, fun buf => ?_, ?_⟩
  · rw [fullHeader_iff, blank_iff_infix]
  -- nothing has been read yet, so no blank line either
  · have hopen : ¬Blank m.tun.header := by
      rw [hnew, ← fullHeader_iff]
      decide
    have h := connecting_iff as hst hopen hz (by rw [hnew]; simpa using hfit)
    rwa [hnew, List.nil_append, blank_iff_infix] at h

/-- The acceptance in two chunks, the empty line cut in the middle. -/
theorem header_complete_of_acceptance :
    (∀ (buf : Bytes) (full : Bool), LineRun (cstr buf) full ↔ full = fullHeader (cstr buf)) ∧
    (∀ buf : Bytes, fullHeader (cstr buf) = true ↔
      CRLF <+: cstr buf ∨ CRLF ++ CRLF <:+: cstr buf) ∧
    (([(⟨.EAGAIN, {}, .new, []⟩, ascii "HTTP/1.1 200 Connection established\r\n\r"),
        (⟨.EAGAIN, {}, .new, []⟩, ascii "\n")].foldl hearProxy
        (askingSession.run exampleConfig (.new 0))).tun.mProxyStatus = .Connecting ↔
      ¬(CRLF <+: ([ascii "HTTP/1.1 200 Connection established\r\n\r", ascii "\n"] : List Bytes).flatten ∨
        CRLF ++ CRLF <:+:
          ([ascii "HTTP/1.1 200 Connection established\r\n\r", ascii "\n"] : List Bytes).flatten)) :=
  header_complete_iff (askingSession.run exampleConfig (.new 0))
    [(⟨.EAGAIN, {}, .new, []⟩, ascii "HTTP/1.1 200 Connection established\r\n\r"),
      (⟨.EAGAIN, {}, .new, []⟩, ascii "\n")]
    (by decide +kernel) (by decide +kernel) (by decide +kernel) (by decide +kernel)

end TunCtx

end HttpsProxy
