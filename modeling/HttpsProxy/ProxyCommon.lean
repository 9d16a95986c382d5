import HttpsProxy.Bytes

/-! The helpers of `proxy_common.cpp` that the tunnel uses, and the two
searches it makes in the response of the proxy server. -/
namespace HttpsProxy

/-- `strstr` on C strings: the offset of the first occurrence. -/
def strstr (needle : Bytes) : Bytes → Option ℕ
  | [] => if needle = [] then some 0 else none
  | b :: bs => if needle.isPrefixOf (b :: bs) then some 0 else (strstr needle bs).map (· + 1)

/-- What `strstrICase` adds to a letter to get the letter of the other case. -/
def tmpDiff (c : UInt8) : ℤ :=
  if 97 ≤ c ∧ c ≤ 122 then -32 else if 65 ≤ c ∧ c ≤ 90 then 32 else 0

/-- `(*p1 == *q) || (*p1) + tmpDiff == *q`. -/
def eqICase (c q : UInt8) : Bool := c = q || (c.toNat : ℤ) + tmpDiff c = q.toNat

/-- The inner loop of `strstrICase`: whether it reaches the end of the needle. -/
def matchICase : Bytes → Bytes → Bool
  | _, [] => true
  | [], _ :: _ => false
  | c :: cs, q :: qs => eqICase c q && matchICase cs qs

/-- `strstrICase` on the range `hay`: the offset of the match. -/
def strstrICase (needle : Bytes) : Bytes → Option ℕ
  | [] => none
  | c :: cs =>
    if matchICase (c :: cs) needle then some 0 else (strstrICase needle cs).map (· + 1)

def isValidPort (port : ℤ) : Bool := 0 < port && port ≤ 65535

def B64_ENCODE_TABLE : Bytes :=
  ascii "ABCDEFGHIJKLMNOPQRSTUVWXYZabcdefghijklmnopqrstuvwxyz0123456789+/"

def B64_DECODE_TABLE : List ℤ := [
    -1,-1,-1,-1,-1,-1,-1,-1,-1,-1,-1,-1,-1,-1,-1,-1,
    -1,-1,-1,-1,-1,-1,-1,-1,-1,-1,-1,-1,-1,-1,-1,-1,
    -1,-1,-1,-1,-1,-1,-1,-1,-1,-1,-1,62,-1,-1,-1,63,
    52,53,54,55,56,57,58,59,60,61,-1,-1,-1,-1,-1,-1,
    -1, 0, 1, 2, 3, 4, 5, 6, 7, 8, 9,10,11,12,13,14,
    15,16,17,18,19,20,21,22,23,24,25,-1,-1,-1,-1,-1,
    -1,26,27,28,29,30,31,32,33,34,35,36,37,38,39,40,
    41,42,43,44,45,46,47,48,49,50,51,-1,-1,-1,-1,-1,
    -1,-1,-1,-1,-1,-1,-1,-1,-1,-1,-1,-1,-1,-1,-1,-1,
    -1,-1,-1,-1,-1,-1,-1,-1,-1,-1,-1,-1,-1,-1,-1,-1,
    -1,-1,-1,-1,-1,-1,-1,-1,-1,-1,-1,-1,-1,-1,-1,-1,
    -1,-1,-1,-1,-1,-1,-1,-1,-1,-1,-1,-1,-1,-1,-1,-1,
    -1,-1,-1,-1,-1,-1,-1,-1,-1,-1,-1,-1,-1,-1,-1,-1,
    -1,-1,-1,-1,-1,-1,-1,-1,-1,-1,-1,-1,-1,-1,-1,-1,
    -1,-1,-1,-1,-1,-1,-1,-1,-1,-1,-1,-1,-1,-1,-1,-1,
    -1,-1,-1,-1,-1,-1,-1,-1,-1,-1,-1,-1,-1,-1,-1,-1]

def b64Char (i : ℕ) : UInt8 := B64_ENCODE_TABLE.getD i 0

/-- `B64_DECODE_TABLE[c]` of a character the encoder wrote itself. -/
def b64Value (c : UInt8) : ℕ := (B64_DECODE_TABLE.getD c.toNat (-1)).toNat

/-- Write one more character, or fail when `size` is reached. -/
def b64Put (size : ℕ) (c : UInt8) (space : Bytes) : Option Bytes :=
  if space.length < size then some (space ++ [c]) else none

/-- Or further bits into the last character written. -/
def b64Or (bits : ℕ) (space : Bytes) : Bytes :=
  space.dropLast ++ [b64Char (b64Value (space.getLastD 0) ||| bits)]

/-- `while (phase++ < 3)` writes a `'='`; the first argument counts the rounds left. -/
def b64Pad (size : ℕ) : ℕ → Bytes → ℤ × Bytes
  | 0, space => (space.length, space)
  | n+1, space =>
    match b64Put size 61 space with
    | none => (-1, space)
    | some space => b64Pad size n space

/-- The loop of `Base64Encode` with its `phase`, on what is written so far. -/
def b64Loop (size : ℕ) : Bytes → ℕ → Bytes → ℤ × Bytes
  | [], phase, space => b64Pad size (3 - phase) space
  | b :: bs, phase, space =>
    let v := b.toNat
    match phase with
    | 0 =>
      match b64Put size (b64Char (v >>> 2)) space with
      | none => (-1, space)
      | some space =>
        match b64Put size (b64Char ((v &&& 0x3) <<< 4)) space with
        | none => (-1, space)
        | some space => b64Loop size bs 1 space
    | 1 =>
      let space := b64Or (v >>> 4) space
      match b64Put size (b64Char ((v &&& 0xf) <<< 2)) space with
      | none => (-1, space)
      | some space => b64Loop size bs 2 space
    | _ =>
      let space := b64Or (v >>> 6) space
      match b64Put size (b64Char (v &&& 0x3f)) space with
      | none => (-1, space)
      | some space => b64Loop size bs 0 space

/-- `Base64Encode`: the value returned and the bytes written to `space`. -/
def Base64Encode (ptr : Bytes) (size : ℕ) : ℤ × Bytes :=
  if ptr = [] then (0, []) else b64Loop size ptr 0 []

/-- `B64_DECODE_TABLE[(int) *cp]`; as a `char` is signed, a byte from 128 on
indexes before the table. -/
def b64Index (c : UInt8) : Option ℤ :=
  if c < 128 then B64_DECODE_TABLE[c.toNat]? else none

/-- The loop of `Base64Decode` with its `phase` and `prev_d`, on what is written
so far; `none` when the table is read outside its bounds. -/
def b64DecodeLoop (size : ℕ) : Bytes → ℕ → ℕ → Bytes → Option (ℤ × Bytes)
  | [], _, _, space => some (space.length, space)
  | c :: cs, phase, prev_d, space =>
    match b64Index c with
    | none => none
    | some d =>
      if d = -1 then b64DecodeLoop size cs phase prev_d space
      else
        let d := d.toNat
        match phase with
        | 0 => b64DecodeLoop size cs 1 d space
        | 1 =>
          match b64Put size ((prev_d <<< 2) ||| ((d &&& 0x30) >>> 4)).toUInt8 space with
          | none => some (-1, space)
          | some space => b64DecodeLoop size cs 2 d space
        | 2 =>
          match b64Put size (((prev_d &&& 0xf) <<< 4) ||| ((d &&& 0x3c) >>> 2)).toUInt8 space with
          | none => some (-1, space)
          | some space => b64DecodeLoop size cs 3 d space
        | _ =>
          match b64Put size (((prev_d &&& 0x03) <<< 6) ||| d).toUInt8 space with
          | none => some (-1, space)
          | some space => b64DecodeLoop size cs 0 d space

/-- `Base64Decode`: the value returned and the bytes written to `space`. -/
def Base64Decode (inp : Bytes) (size : ℕ) : Option (ℤ × Bytes) :=
  if inp = [] then some (0, []) else b64DecodeLoop size inp 0 0 []

/-- `snprintf(buf, size, ...)` of a formatted text: what the buffer then holds. -/
def snprintf (size : ℕ) (text : Bytes) : Bytes := text.take (size - 1)

/-- `%d`. -/
def decimal (n : ℤ) : Bytes := ascii (toString n)

end HttpsProxy
