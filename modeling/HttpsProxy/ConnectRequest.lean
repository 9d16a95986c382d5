import HttpsProxy.Decimal
import HttpsProxy.ForeignBytes
import HttpsProxy.ProxyTunnel

/-! The CONNECT request: its lines always fit the buffer, but the credentials
pass through two buffers of `HTTP_LINE_SIZE` bytes, and what does not fit is lost. -/
namespace HttpsProxy

/-- No byte of the text ends a string or a line. -/
def OneLine (s : Bytes) : Prop := ∀ b ∈ s, b ≠ 0 ∧ b ≠ CR ∧ b ≠ LF

instance (s : Bytes) : Decidable (OneLine s) := List.decidableBAll _ s

theorem OneLine.append {s t : Bytes} (hs : OneLine s) (ht : OneLine t) : OneLine (s ++ t) := by
  intro b hb
  rcases List.mem_append.mp hb with hb | hb
  · exact hs b hb
  · exact ht b hb

theorem OneLine.notMem {s : Bytes} (h : OneLine s) : 0 ∉ s := fun h0 => (h 0 h0).1 rfl

/-- Lines, each with its end of line. -/
def unlines (ls : List Bytes) : Bytes := ls.flatMap (· ++ CRLF)

/-- Only the empty line begins with an end of line. -/
theorem unlines_begin {ls : List Bytes} (h : ∀ l ∈ ls, l ≠ [] ∧ OneLine l) {b : Bytes}
    (hb : unlines ls ++ CRLF = CRLF ++ b) : b = [] := by
  cases ls with
  | nil => simpa [unlines] using hb.symm
  | cons l ls =>
    obtain ⟨hne, hone⟩ := h l List.mem_cons_self
    obtain ⟨c, l, rfl⟩ := List.exists_cons_of_ne_nil hne
    have hc : c = CR := by
      simp only [unlines, List.flatMap_cons, List.cons_append, CRLF] at hb
      exact (List.cons.inj hb).1
    exact absurd hc (hone c List.mem_cons_self).2.1

/-- Behind lines that are not empty the empty line comes last. -/
theorem unlines_end {ls : List Bytes} (h : ∀ l ∈ ls, l ≠ [] ∧ OneLine l) {a b : Bytes}
    (hab : unlines ls ++ CRLF = a ++ (CRLF ++ CRLF) ++ b) : b = [] := by
  induction ls generalizing a with
  | nil =>
    have hlen := congrArg List.length hab
    simp only [unlines, List.flatMap_nil, List.nil_append, List.length_append, CRLF, List.length_cons,
      List.length_nil] at hlen
    omega
  | cons l ls ih =>
    have hone := (h l List.mem_cons_self).2
    have hls := fun k hk => h k (List.mem_cons_of_mem _ hk)
    have hcons : l ++ (CRLF ++ (unlines ls ++ CRLF)) = a ++ (CRLF ++ (CRLF ++ b)) := by
      simpa only [unlines, List.flatMap_cons, List.append_assoc] using hab
    rcases List.append_eq_append_iff.mp hcons with ⟨w, rfl, hw⟩ | ⟨w, rfl, hw⟩
    · match w, hw with
      | [], hw => exact unlines_begin hls (List.append_cancel_left hw)
      | [c], hw =>
        simp only [CRLF, List.cons_append, List.nil_append] at hw
        have hcr : LF = CR := (List.cons.inj (List.cons.inj hw).2).1
        exact absurd hcr (by decide)
      | c :: d :: w, hw =>
        apply ih hls (a := w)
        simp only [CRLF, List.cons_append, List.nil_append] at hw ⊢
        simpa using (List.cons.inj (List.cons.inj hw).2).2
    · -- nothing of the first line is part of the empty line
      cases w with
      | nil => exact unlines_begin hls (List.append_cancel_left hw.symm)
      | cons c w =>
        have hc : c = CR := by
          simp only [CRLF, List.cons_append] at hw
          exact ((List.cons.inj hw).1).symm
        exact absurd hc (hone c (by simp)).2.1

theorem decimal_oneLine (n : ℤ) : OneLine (decimal n) := by
  intro b hb
  rcases decimal_chars hb with rfl | ⟨hlo, -⟩
  · decide
  · refine ⟨fun h => ?_, fun h => ?_, fun h => ?_⟩
    all_goals
      rw [h] at hlo
      revert hlo
      decide

section Token

/-! What `Base64Encode` leaves in `encBuf`, whether or not it fails. -/

theorem b64Put_length {size : ℕ} {c : UInt8} {space space' : Bytes}
    (h : b64Put size c space = some space') : space'.length ≤ size ∧ space' ≠ [] := by
  unfold b64Put at h
  split at h
  · obtain rfl := Option.some.inj h
    simp only [List.length_append, List.length_singleton]
    exact ⟨by omega, by simp⟩
  · cases h

theorem b64Pad_length {size k : ℕ} {space : Bytes} (h : space.length ≤ size) :
    (b64Pad size k space).2.length ≤ size := by
  induction k generalizing space with
  | zero => exact h
  | succ k ih =>
    unfold b64Pad
    cases hput : b64Put size 61 space with
    | none => exact h
    | some space' => exact ih (b64Put_length hput).1

theorem b64Or_length (bits : ℕ) {space : Bytes} (h : space ≠ []) :
    (b64Or bits space).length = space.length := by
  have hpos := List.length_pos_iff.mpr h
  rw [b64Or, List.length_append, List.length_dropLast, List.length_singleton]
  omega

/-- Nothing is written beyond `size`. -/
theorem b64Loop_length {size : ℕ} (x : Bytes) {phase : ℕ} {space : Bytes} (h : space.length ≤ size)
    (hne : phase = 0 ∨ space ≠ []) : (b64Loop size x phase space).2.length ≤ size := by
  induction x generalizing phase space with
  | nil => exact b64Pad_length h
  | cons b bs ih =>
    unfold b64Loop
    rcases phase with _ | _ | n
    · simp only
      cases hput : b64Put size (b64Char (b.toNat >>> 2)) space with
      | none => exact h
      | some space =>
        cases hput' : b64Put size (b64Char ((b.toNat &&& 3) <<< 4)) space with
        | none =>
          simp only [hput']
          exact (b64Put_length hput).1
        | some space =>
          simp only [hput']
          exact ih (b64Put_length hput').1 (Or.inr (b64Put_length hput').2)
    · simp only
      have hor := b64Or_length (b.toNat >>> 4) (hne.resolve_left (by decide))
      cases hput : b64Put size (b64Char ((b.toNat &&& 15) <<< 2)) (b64Or (b.toNat >>> 4) space) with
      | none => exact hor.le.trans h
      | some space => exact ih (b64Put_length hput).1 (Or.inr (b64Put_length hput).2)
    · simp only
      have hor := b64Or_length (b.toNat >>> 6) (hne.resolve_left (by omega))
      cases hput : b64Put size (b64Char (b.toNat &&& 63)) (b64Or (b.toNat >>> 6) space) with
      | none => exact hor.le.trans h
      | some space => exact ih (b64Put_length hput).1 (Or.inl rfl)

theorem Base64Encode_length (x : Bytes) (size : ℕ) : (Base64Encode x size).2.length ≤ size := by
  unfold Base64Encode
  split
  · exact Nat.zero_le _
  · exact b64Loop_length x (Nat.zero_le _) (Or.inl rfl)

/-- As much of the padding is written as there is room for. -/
theorem b64Pad_snd (size k : ℕ) (space : Bytes) :
    ∃ n, (b64Pad size k space).2 = space ++ List.replicate n 61 := by
  induction k generalizing space with
  | zero => exact ⟨0, by simp [b64Pad]⟩
  | succ k ih =>
    unfold b64Pad
    cases hput : b64Put size 61 space with
    | none => exact ⟨0, by simp⟩
    | some space' =>
      have hspace : space' = space ++ [61] := by
        unfold b64Put at hput
        split at hput
        · exact (Option.some.inj hput).symm
        · cases hput
      obtain ⟨n, hn⟩ := ih space'
      exact ⟨n + 1, by rw [hn, hspace, List.replicate_succ, List.append_assoc, List.singleton_append]⟩

/-- With room for the digits they are all there, and decoding gives `x` back. -/
theorem Base64Encode_token {x : Bytes} (size : ℕ) (hx : x ≠ []) (h : (sextets x).length ≤ size) :
    ∃ n, (Base64Encode x size).2 = (sextets x).map base64Char ++ List.replicate n 61 := by
  rw [Base64Encode, if_neg hx, b64Loop_eq x [] (by simpa using h), List.nil_append]
  exact b64Pad_snd size _ _

theorem base64_oneLine (vs : List ℕ) (hvs : ∀ v ∈ vs, v < 64) (n : ℕ) :
    OneLine (vs.map base64Char ++ List.replicate n 61) := by
  have hdigit : ∀ v < 64, base64Char v ≠ 0 ∧ base64Char v ≠ CR ∧ base64Char v ≠ LF := by decide
  refine OneLine.append (fun b hb => ?_) fun b hb => ?_
  · obtain ⟨v, hv, rfl⟩ := List.mem_map.mp hb
    exact hdigit v (hvs v hv)
  · rw [List.eq_of_mem_replicate hb]
    decide

/-- 255 characters hold the digits of 191 bytes. -/
theorem sextets_fit_iff (x : Bytes) : (sextets x).length ≤ 255 ↔ x.length ≤ 191 := by
  have hlen := sextets_length x
  unfold padding at hlen
  omega

end Token

namespace ProxyTunnel

/-- What the token stands for. -/
def credentials (t : ProxyTunnel) : Bytes := t.mUsername ++ ascii ":" ++ t.mPassword

/-- The line `BASIC_PROXY_AUTHORIZATION`, without its end. -/
def authLine (t : ProxyTunnel) : Bytes := ascii "Proxy-Authorization: Basic " ++ t.authToken

/-- The lines of the request. -/
def lines (t : ProxyTunnel) : List Bytes :=
  [ascii "CONNECT " ++ cstr t.mDestSvrHost ++ ascii ":" ++ decimal t.mDestSvrPort ++ ascii " HTTP/1.1",
    ascii "Host: " ++ cstr t.mDestSvrHost ++ ascii ":" ++ decimal t.mDestSvrPort] ++
  if t.mUsername = [] then [] else [t.authLine]

/-- The request is the lines it should have and an empty line, which comes last;
and the token, if there is one, stands for the credentials. -/
structure AsksWell (t : ProxyTunnel) : Prop where
  whole : t.connectRequest = unlines t.lines ++ CRLF
  ends : CRLF ++ CRLF <:+ t.connectRequest
  once : ∀ a b, t.connectRequest = a ++ (CRLF ++ CRLF) ++ b → b = []
  token : t.mUsername ≠ [] → ∀ size, t.credentials.length ≤ size →
    Base64Decode t.authToken size = some ((t.credentials.length : ℤ), t.credentials)

/-- A tunnel that has been told where to connect to, and as whom. -/
def told (m : TunCtx) (hostname : Bytes) (port : ℤ) (username password : Bytes) : ProxyTunnel :=
  { (m.setDestServer hostname port).tun with mUsername := username, mPassword := password }

theorem connectRequest_eq (t : ProxyTunnel) :
    t.connectRequest = cstr (snprintf HTTP_HEADER_SIZE (unlines t.lines ++ CRLF)) := by
  have happ : ∀ a b : Bytes, unlines [a, b] = a ++ CRLF ++ b ++ CRLF := fun a b => by simp [unlines]
  unfold connectRequest
  split
  · rename_i hu
    rw [lines, if_pos hu, List.append_nil, happ, requestLines]
    simp only [List.append_assoc]
  · rename_i hu
    rw [lines, if_neg hu, unlines, List.flatMap_append, ← unlines, happ, requestLines]
    simp [authLine, List.append_assoc]

theorem credentials_length (t : ProxyTunnel) :
    t.credentials.length = t.mUsername.length + 1 + t.mPassword.length := by
  have hcolon : (ascii ":").length = 1 := by decide
  rw [credentials, List.length_append, List.length_append, hcolon]

/-- The token has no more than 255 characters, and fewer bytes come out of them
than 192. -/
theorem AsksWell.credentials_le {t : ProxyTunnel} (h : t.AsksWell) (hu : t.mUsername ≠ []) :
    t.credentials.length ≤ 191 := by
  have htok : t.authToken.length ≤ 255 :=
    (cstr_length_le _).trans (Base64Encode_length _ (HTTP_LINE_SIZE - 1))
  have hshort := Base64Decode_length (h.token hu t.credentials.length le_rfl)
  simp only at hshort
  omega

section Told

variable (m : TunCtx) {hostname : Bytes} {port : ℤ} {username password : Bytes}

theorem cstr_credentials (huser : 0 ∉ username) (hpass : 0 ∉ password) :
    cstr username ++ ascii ":" ++ cstr password =
      (told m hostname port username password).credentials := by
  rw [cstr_eq_self huser, cstr_eq_self hpass]
  rfl

/-- Credentials of at most 191 bytes come back from the token. -/
theorem authToken_of_le (huser : 0 ∉ username) (hpass : 0 ∉ password)
    (hlen : (told m hostname port username password).credentials.length ≤ 191) :
    ∃ n, (told m hostname port username password).authToken =
      (sextets (told m hostname port username password).credentials).map base64Char ++
        List.replicate n 61 := by
  set t := told m hostname port username password with ht
  have hzero : 0 ∉ t.credentials := by
    rw [← cstr_credentials m huser hpass]
    simp only [List.mem_append, not_or]
    exact ⟨⟨zero_notMem_cstr _, by decide⟩, zero_notMem_cstr _⟩
  have hbuf : cstr (snprintf HTTP_LINE_SIZE (cstr t.mUsername ++ ascii ":" ++ cstr t.mPassword)) =
      t.credentials := by
    rw [show cstr t.mUsername ++ ascii ":" ++ cstr t.mPassword = t.credentials from
      cstr_credentials m huser hpass, snprintf, List.take_of_length_le (by simp only [HTTP_LINE_SIZE]; omega),
      cstr_eq_self hzero]
  have hne : t.credentials ≠ [] := by
    apply List.ne_nil_of_length_pos
    rw [credentials_length]
    omega
  obtain ⟨n, hn⟩ := Base64Encode_token (HTTP_LINE_SIZE - 1) hne
    ((sextets_fit_iff t.credentials).mpr hlen)
  refine ⟨n, ?_⟩
  rw [authToken, hbuf, hn]
  exact cstr_eq_self (base64_oneLine _ (fun v hv => sextets_lt hv) n).notMem

theorem lines_oneLine (hhost : ∀ b ∈ cstr (snprintf ADDR_SIZE hostname), b ≠ CR ∧ b ≠ LF)
    (hauth : username ≠ [] → OneLine (told m hostname port username password).authToken) :
    ∀ l ∈ (told m hostname port username password).lines, l ≠ [] ∧ OneLine l := by
  have hstored : OneLine (cstr (snprintf ADDR_SIZE hostname)) := fun b hb =>
    ⟨fun h0 => zero_notMem_cstr _ (h0 ▸ hb), hhost b hb⟩
  have hfield (s : Bytes) (hs : OneLine s) :
      OneLine (s ++ cstr (snprintf ADDR_SIZE hostname) ++ ascii ":" ++ decimal port) :=
    ((hs.append hstored).append (by decide)).append (decimal_oneLine port)
  intro l hl
  simp only [lines, List.mem_append, List.mem_cons, List.not_mem_nil, or_false] at hl
  rcases hl with (rfl | rfl) | hl
  · exact ⟨by simp [ascii], (hfield _ (by decide)).append (by decide)⟩
  · exact ⟨by simp [ascii], hfield _ (by decide)⟩
  · split at hl
    · cases hl
    · rename_i hu
      rw [List.mem_singleton.mp hl]
      exact ⟨by simp [authLine, ascii], OneLine.append (by decide) (hauth hu)⟩

/-- The buffer of the request is large enough for every host, port and token. -/
theorem lines_fit (hport : -2^31 ≤ port ∧ port < 2^31) :
    (unlines (told m hostname port username password).lines ++ CRLF).length ≤ HTTP_HEADER_SIZE - 1 := by
  set t := told m hostname port username password with ht
  have hhost : (cstr t.mDestSvrHost).length ≤ 255 := by
    refine (cstr_length_le _).trans ?_
    change (hostname.take 255).length ≤ 255
    exact List.length_take_le _ _
  have hdec : (decimal t.mDestSvrPort).length ≤ 11 := decimal_length (by change port.natAbs ≤ _; omega)
  have htok : t.authToken.length ≤ 255 :=
    (cstr_length_le _).trans (Base64Encode_length _ (HTTP_LINE_SIZE - 1))
  have h1 : (ascii "CONNECT ").length = 8 := by decide
  have h2 : (ascii " HTTP/1.1").length = 9 := by decide
  have h3 : (ascii "Host: ").length = 6 := by decide
  have h4 : (ascii ":").length = 1 := by decide
  have h5 : (ascii "Proxy-Authorization: Basic ").length = 27 := by decide
  have h6 : CRLF.length = 2 := rfl
  have hrest : (unlines (if t.mUsername = [] then [] else [t.authLine])).length ≤ 284 := by
    split
    · exact Nat.zero_le _
    · simp only [unlines, List.flatMap_cons, List.flatMap_nil, List.append_nil, List.length_append,
        authLine, h5, h6]
      omega
  rw [lines, unlines, List.flatMap_append, ← unlines, ← unlines]
  simp only [unlines, List.flatMap_cons, List.flatMap_nil, List.append_nil, List.length_append, h1, h2,
    h3, h4, h6, HTTP_HEADER_SIZE] at hrest ⊢
  omega

end Told

/-- The request is well formed exactly if there are no credentials, or no more
than 191 bytes of them: `encBuf` has room for the digits of so many, and what
`Base64Encode` returns is not looked at. -/
theorem asksWell_iff (m : TunCtx) (hostname : Bytes) (port : ℤ) (username password : Bytes)
    (hhost : ∀ b ∈ cstr (snprintf ADDR_SIZE hostname), b ≠ CR ∧ b ≠ LF)
    (hport : -2^31 ≤ port ∧ port < 2^31) (huser : 0 ∉ username) (hpass : 0 ∉ password) :
    (told m hostname port username password).AsksWell ↔
      username = [] ∨ username.length + 1 + password.length ≤ 191 := by
  set t := told m hostname port username password with ht
  have hlen : t.credentials.length = username.length + 1 + password.length := t.credentials_length
  constructor
  · intro h
    by_contra hno
    rw [not_or, not_le] at hno
    -- what decodes back must have fitted in the buffers
    have hfits := h.credentials_le hno.1
    omega
  · intro hcond
    have hauth : username ≠ [] → ∃ n, t.authToken =
        (sextets t.credentials).map base64Char ++ List.replicate n 61 := fun hu =>
      authToken_of_le m huser hpass (hlen.le.trans (hcond.resolve_left hu))
    -- no field can break its line, so the lines are those of the source
    have hlines : ∀ l ∈ t.lines, l ≠ [] ∧ OneLine l := lines_oneLine m hhost fun hu => by
      obtain ⟨n, hn⟩ := hauth hu
      rw [← ht, hn]
      exact base64_oneLine _ (fun v hv => sextets_lt hv) n
    have hone : 0 ∉ unlines t.lines ++ CRLF := by
      simp only [unlines, List.mem_append, List.mem_flatMap, not_or, not_exists, not_and]
      exact ⟨fun l hl => ⟨(hlines l hl).2.notMem, by decide⟩, by decide⟩
    -- the buffer holds them all, so `snprintf` cuts nothing off
    have hwhole : t.connectRequest = unlines t.lines ++ CRLF := by
      rw [connectRequest_eq, snprintf, List.take_of_length_le (lines_fit m hport), cstr_eq_self hone]
    refine ⟨hwhole, ?_, fun a b hab => unlines_end hlines (hwhole ▸ hab), fun hu size hsize => ?_⟩
    · obtain ⟨ls, l, hls⟩ : ∃ ls l, t.lines = ls ++ [l] := by
        refine ⟨t.lines.dropLast, t.lines.getLast (by simp [lines]), ?_⟩
        exact (List.dropLast_append_getLast _).symm
      refine ⟨unlines ls ++ l, ?_⟩
      rw [hwhole, hls]
      simp [unlines]
    -- the token decodes to the credentials, with whatever padding
    · obtain ⟨n, hn⟩ := hauth hu
      have hoct := octets_sextets t.credentials
      rw [hn, Base64Decode_eq_loop, b64DecodeLoop_eq _ _ _ _ (fun v hv => sextets_lt hv)
        (by rw [hoct]; simpa using hsize), List.nil_append, hoct]

theorem asksWell_alice :
    (told ⟨.new 0, ⟨.other 0, {}, .new, [], false⟩, [], [], false⟩ (ascii "example.org") 443
      (ascii "alice") (ascii "secret")).AsksWell :=
  (asksWell_iff _ _ _ _ _ (by decide +kernel) (by decide) (by decide) (by decide)).mpr
    (Or.inr (by decide))

/-- The credentials that are one byte too long. -/
theorem asksWell_fails :
    ¬(told ⟨.new 0, ⟨.other 0, {}, .new, [], false⟩, [], [], false⟩ (ascii "example.org") 443
      (List.replicate 100 97) (List.replicate 91 98)).AsksWell := by
  intro h
  have hfits := h.credentials_le (by decide)
  rw [credentials_length] at hfits
  revert hfits
  decide +kernel

end ProxyTunnel

end HttpsProxy
