import HttpsProxy.ResponseText
import HttpsProxy.TunnelSteps

/-! When `parseHttpHeader` takes the tunnel for established. It searches the
whole text for the phrase, so the status line decides only if the phrase does
not also occur behind it. -/
namespace HttpsProxy

/-- The bytes before the first line end. -/
def statusLine (text : Bytes) : Bytes :=
  match strstr CRLF text with
  | none => text
  | some k => text.take k

/-- The bytes behind the first line end: header fields and what follows them. -/
def behindStatusLine (text : Bytes) : Bytes :=
  match strstr CRLF text with
  | none => []
  | some k => text.drop (k + 2)

/-- The search of `parseHttpHeader` looks into the status line and behind it. -/
theorem acceptsHeader_lines (text : Bytes) : TunCtx.acceptsHeader text = true ↔
    ContainsICase SSL_CONNECTION_RESPONSE_OK (statusLine text) ∨
      ContainsICase SSL_CONNECTION_RESPONSE_OK (behindStatusLine text) := by
  unfold statusLine behindStatusLine
  rw [← acceptsHeader_iff, ← acceptsHeader_iff]
  have hnil : TunCtx.acceptsHeader [] ≠ true := by decide +kernel
  cases h : strstr CRLF text with
  | none => exact ⟨Or.inl, fun h => h.resolve_right hnil⟩
  | some k =>
    obtain ⟨r, hr⟩ := (strstr_some h).1
    have hsplit : text = text.take k ++ CRLF ++ text.drop (k + 2) := by
      have hd : text.drop (k + 2) = r := by
        rw [← List.drop_drop, ← hr]
        rfl
      rw [hd, List.append_assoc, hr, List.take_append_drop]
    calc TunCtx.acceptsHeader text = true
        ↔ TunCtx.acceptsHeader (text.take k ++ CRLF ++ text.drop (k + 2)) = true := by rw [← hsplit]
      _ ↔ _ := acceptsHeader_split _ _

theorem Quiet.extends {m n : TunCtx} (h : Quiet m n) : m.sys.trace <+: n.sys.trace := by
  obtain ⟨-, evs, ht, -⟩ := h
  exact ⟨evs, ht.symm⟩

namespace TunCtx

theorem send_extends (data : Bytes) (x : Ctx) :
    x.sys.trace <+: (x.send data).1.sys.trace := by
  have hlog : x.sys.trace <+: (x.sys.log (.sendCall x.conn.this data)).trace := List.prefix_append _ _
  have hspec := Ctx.send_spec data x
  generalize x.send data = r at hspec ⊢
  obtain ⟨y, cb⟩ := r
  cases hspec with
  | refused _ eq => exact eq ▸ hlog
  | kept bs _ _ _ wire =>
    obtain ⟨evs, ht, -⟩ := wire
    exact hlog.trans ⟨evs, ht.symm⟩
  | failed z bs _ _ _ wire _ _ eq =>
    obtain ⟨evs, ht, -⟩ := wire
    obtain ⟨-, -, -, -, hz, -⟩ := z.raiseError_spec .send
    rw [← eq] at hz
    exact (hlog.trans ⟨evs, ht.symm⟩).trans ⟨_, hz.symm⟩
  | unheard bs _ _ _ _ wire =>
    obtain ⟨evs, ht, -⟩ := wire
    exact hlog.trans ⟨evs, ht.symm⟩

theorem sendProxy_extends (data : Bytes) (m : TunCtx) :
    m.sys.trace <+: (m.sendProxy data).sys.trace := by
  have hsend : m.sys.trace <+: (m.put .proxy ((m.ctx .proxy).send data).1).sys.trace :=
    send_extends data (m.ctx .proxy)
  simp only [sendProxy, Owner.run, errorOwner]
  cases ((m.ctx .proxy).send data).2 with
  | none => exact hsend
  | some cb =>
    cases cb with
    | onError => exact hsend.trans (onErrorProxy_quiet _).extends
    | _ => exact hsend

/-- A flush only adds to the log. -/
theorem flushLocal_extends (m : TunCtx) : m.sys.trace <+: m.flushLocal.sys.trace := by
  unfold flushLocal
  split
  · exact cacheHost.flushAll_preserves (P := fun s => m.sys.trace <+: s.sys.trace)
      (fun _ _ => rfl) (fun _ _ h _ => h) (fun d s h => h.trans (sendProxy_extends d s))
      (fun _ h => h) (fun _ h => h.trans (List.prefix_append _ _))
      (fun _ h => h.trans (List.prefix_append _ _)) _ (List.prefix_append _ _)
  · exact List.prefix_refl _

/-- `parseHttpHeader` sets `mProxyStatus` to `Connected`, which leaves its mark
in the log. -/
def Establishes (m : TunCtx) : Prop :=
  ∃ evs, m.parseHttpHeader.sys.trace = m.sys.trace ++ evs ∧ .established m.tun.this ∈ evs

theorem establishes_iff (m : TunCtx) : m.Establishes ↔
    fullHeader m.tun.header = true ∧ acceptsHeader m.tun.header = true := by
  unfold Establishes parseHttpHeader
  split
  swap
  · rename_i hf
    refine iff_of_false ?_ fun h => hf h.1
    rintro ⟨evs, ht, hm⟩
    rw [List.self_eq_append_right.mp ht] at hm
    cases hm
  rename_i hf
  split
  · rename_i ha
    refine iff_of_true ?_ ⟨hf, ha⟩
    obtain ⟨evs, ht⟩ := flushLocal_extends ((m.setStatus .Connected).log (.established m.tun.this))
    refine ⟨.established m.tun.this :: evs, ?_, List.mem_cons_self⟩
    rw [← ht, List.append_cons]
    rfl
  · rename_i ha
    refine iff_of_false ?_ fun h => ha h.2
    rintro ⟨evs, ht, hm⟩
    obtain ⟨-, es, hes, hq⟩ := (setStatus_quiet m .Error).trans (dropProxy_quiet _)
    have he : evs = es := List.append_cancel_left (ht.symm.trans hes)
    exact hq _ (he ▸ hm)

/-- For a text with a complete header, the status line alone decides unless the
phrase also stands behind it. -/
theorem status_line_decides_iff (m : TunCtx) (h : fullHeader m.tun.header = true) :
    (m.Establishes → ContainsICase SSL_CONNECTION_RESPONSE_OK (statusLine m.tun.header)) ↔
      ContainsICase SSL_CONNECTION_RESPONSE_OK (statusLine m.tun.header) ∨
        ¬ContainsICase SSL_CONNECTION_RESPONSE_OK (behindStatusLine m.tun.header) := by
  rw [establishes_iff, acceptsHeader_lines]
  tauto

/-- A tunnel that has received this much of the answer. -/
def answered (text : Bytes) : TunCtx :=
  ⟨{ ProxyTunnel.new 0 with
      mHttpHeader := memcpy (ProxyTunnel.new 0).mHttpHeader 0 text
      mProxyStatus := .Connecting },
    ⟨.EAGAIN, {}, .new, [], false⟩, [], [], false⟩

theorem status_line_decides_plain :
    (answered (ascii "HTTP/1.1 200 Connection established\r\n\r\n")).Establishes ∧
      ((answered (ascii "HTTP/1.1 403 Forbidden\r\n\r\n")).Establishes →
        ContainsICase SSL_CONNECTION_RESPONSE_OK
          (statusLine (answered (ascii "HTTP/1.1 403 Forbidden\r\n\r\n")).tun.header)) := by
  refine ⟨(establishes_iff _).mpr (by decide +kernel),
    (status_line_decides_iff _ (by decide +kernel)).mpr (Or.inr ?_)⟩
  rw [← acceptsHeader_iff]
  decide +kernel

/-- A refusal with the phrase in a header field is taken for an acceptance. -/
theorem refusal_accepted : ¬∀ m : TunCtx, fullHeader m.tun.header = true → m.Establishes →
    ContainsICase SSL_CONNECTION_RESPONSE_OK (statusLine m.tun.header) := by
  intro h
  let m := answered (ascii "HTTP/1.1 403 Forbidden\r\nVia: not 200 Connection established\r\n\r\n")
  have hfull : fullHeader m.tun.header = true := by decide +kernel
  have hline := h m hfull ((establishes_iff m).mpr (by decide +kernel))
  rw [← acceptsHeader_iff] at hline
  revert hline
  decide +kernel

end TunCtx

end HttpsProxy
