import CommCentral.JsMime.HeaderEmitter

/-!
# The decoder of encoded words

`decodeRFC2047Words` of `mailnews/mime/jsmime/jsmime.js`, with the decoders of
quoted-printable and base64.

* Binary strings have code units below 256, and are bytes when their text is
  decoded.
* A match of a regular expression is found at the first unit of it; the units
  behind are then skipped.
* `MimeTextDecoder` is a parameter.
* `atob` throws on what is not base64, and so do its callers.
-/

namespace CommCentral.JsMime

open JsString HeaderEmitter

/-! ## Quoted-printable -/

/-- `parseInt` of a hexadecimal digit. -/
def hexDigit (c : UInt16) : Option ℕ :=
  if 0x30 ≤ c ∧ c ≤ 0x39 then some (c.toNat - 0x30)
  else if 0x41 ≤ c ∧ c ≤ 0x46 then some (c.toNat - 0x41 + 10)
  else if 0x61 ≤ c ∧ c ≤ 0x66 then some (c.toNat - 0x61 + 10)
  else none

/-- Two hexadecimal digits in front of a string. -/
def hexPair : JsString → Option ℕ
  | c :: d :: _ => do
    let high ← hexDigit c
    let low ← hexDigit d
    return high * 16 + low
  | _ => none

/-- The length of `[ \t]*(\r\n|[\r\n]|$)` in front of a string. -/
def softBreak (s : JsString) : Option ℕ :=
  let blanks := (s.takeWhile fun c => c == 0x20 || c == 0x09).length
  match s.drop blanks with
  | [] => some blanks
  | c :: rest =>
    if c = 0x0d ∧ rest.head? = some 0x0a then some (blanks + 2)
    else if c = 0x0d ∨ c = 0x0a then some (blanks + 1)
    else none

/-- The replacement behind a `=`, and how many units it replaces. -/
def qpMatch (s : JsString) : Option (JsString × ℕ) :=
  match hexPair s with
  | some value => some ([value.toUInt16], 2)
  | none => (softBreak s).map fun length => ([], length)

/-- The replacements of `decode_qp`, after some units that have been replaced. -/
def decodeQpFrom : JsString → ℕ → JsString
  | [], _ => []
  | _ :: s, skip + 1 => decodeQpFrom s skip
  | c :: s, 0 =>
    if c = 0x3d then
      match qpMatch s with
      | some (text, length) => text ++ decodeQpFrom s length
      | none => c :: decodeQpFrom s 0
    else c :: decodeQpFrom s 0

def decodeQp (buffer : JsString) : JsString := decodeQpFrom buffer 0

/-! ## Base64 -/

/-- The number of a character of base64. -/
def base64Value (c : UInt16) : Option ℕ :=
  if c ∈ base64Chars then some (base64Chars.idxOf c) else none

/-- The bytes of groups of four characters, and of a shorter last one. -/
def base64Groups : JsString → Option JsString
  | [] => some []
  | [_] => none
  | [c, d] => do
    let c ← base64Value c
    let d ← base64Value d
    return [(c * 4 + d / 16).toUInt16]
  | [c, d, e] => do
    let c ← base64Value c
    let d ← base64Value d
    let e ← base64Value e
    return [(c * 4 + d / 16).toUInt16, (d % 16 * 16 + e / 4).toUInt16]
  | c :: d :: e :: f :: s => do
    let c ← base64Value c
    let d ← base64Value d
    let e ← base64Value e
    let f ← base64Value f
    let rest ← base64Groups s
    return (c * 4 + d / 16).toUInt16 :: (d % 16 * 16 + e / 4).toUInt16 ::
      (e % 4 * 64 + f).toUInt16 :: rest

/-- The `=` at the end of a string. -/
def padding (s : JsString) : ℕ := (s.reverse.takeWhile (· == 0x3d)).length

/-- `atob`, of a string without white space. -/
def atob (s : JsString) : Option JsString :=
  base64Groups (if s.length % 4 = 0 then s.take (s.length - min 2 (padding s)) else s)

/-- `replace(/=+([A-Za-z0-9+\/])/g, "$1")`, of a string without other characters. -/
def dropInnerPadding : JsString → JsString
  | [] => []
  | c :: s => if c = 0x3d ∧ ∃ d ∈ s, d ≠ 0x3d then dropInnerPadding s else c :: dropInnerPadding s

/-- `decode_base64`; the second part of the result is kept for the next call. -/
def decodeBase64 (buffer : JsString) (more : Bool) : Option (JsString × JsString) :=
  let sanitize := dropInnerPadding (buffer.filter fun c => c ∈ base64Chars ∨ c = 0x3d)
  let excess := sanitize.length % 4
  let buffer := if excess ≠ 0 ∧ more then sanitize.drop (sanitize.length - excess) else []
  let sanitize := sanitize.take (sanitize.length - excess)
  let sanitize := sanitize.take (sanitize.length - padding sanitize / 4 * 4)
  (atob sanitize).map fun decoded => (decoded, buffer)

/-! ## Tokens -/

/-- `MimeTextDecoder`. -/
structure TextDecoders (σ : Type) where
  /-- `new MimeTextDecoder(charset)`, which throws on an unknown charset. -/
  create : JsString → Option σ
  /-- `decode`, of bytes and the `stream` option. -/
  decode : σ → List UInt8 → Bool → σ × JsString

/-- `lastCharset` and `currentDecoder`. -/
structure DecodeState (σ : Type) where
  lastCharset : JsString
  currentDecoder : Option σ

/-- `toUpperCase`, as far as it leads to the letters of ASCII. -/
def upperCase (s : JsString) : JsString :=
  s.map fun c =>
    if 0x61 ≤ c ∧ c ≤ 0x7a then c - 0x20
    else if c = 0x131 then 0x49
    else if c = 0x17f then 0x53
    else c

/-- The buffer of a token; `some none` when the token is not valid. -/
def tokenBuffer (encoding text : JsString) : Option (Option JsString) :=
  if encoding = js "B" ∨ encoding = js "b" then
    if ∃ c ∈ text, c ≠ 0x20 ∧ c ∉ base64Chars ∧ c ≠ 0x3d then some none
    else (decodeBase64 text false).map fun decoded => some decoded.1
  else if encoding = js "Q" ∨ encoding = js "q" then
    some (some (decodeQp (text.map fun c => if c = 0x5f then 0x20 else c)))
  else some none

section

variable {σ : Type} (decoders : TextDecoders σ)

/-- What is left in the current decoder. -/
def flushDecoder (state : DecodeState σ) : JsString :=
  match state.currentDecoder with
  | some decoder => (decoders.decode decoder [] false).2
  | none => []

def decodeBuffer (state : DecodeState σ) (charset buffer : JsString) (isLastToken : Bool) :
    DecodeState σ × Option JsString :=
  let (output, currentDecoder) :=
    if charset ≠ state.lastCharset then (flushDecoder decoders state, none)
    else ([], state.currentDecoder)
  match currentDecoder <|> decoders.create charset with
  | none => (⟨charset, none⟩, none)
  | some decoder =>
    let stream := !(isLastToken ||
      (upperCase charset == js "ISO-2022-JP" && (js "\x1b(B").isSuffixOf buffer))
    let (decoder, text) := decoders.decode decoder (buffer.map UInt16.toUInt8) stream
    (⟨charset, some decoder⟩, some (output ++ text))

/-- `decode2047Token`; `none` in the result stands for `false`. -/
def decode2047Token (state : DecodeState σ) (token : JsString) (isLastToken : Bool) :
    Option (DecodeState σ × Option JsString) :=
  match split 0x3f token with
  | [_, charset, encoding, text, tokenEnd] =>
    if tokenEnd ≠ js "=" then some (state, none)
    else
      (tokenBuffer encoding text).map fun buffer =>
        match buffer with
        | none => (state, none)
        | some buffer =>
          decodeBuffer decoders state ((split 0x2a charset).headD []) buffer isLastToken
  | _ => some (state, none)

/-! ## Components -/

/-- The length of `=\?[^?]*\?[BQbq]\?[^?]*\?=` in front of a string. -/
def wordLength (s : JsString) : Option ℕ :=
  if s.take 2 ≠ js "=?" then none
  else
    let charset := ((s.drop 2).takeWhile (· ≠ 0x3f)).length
    match s.drop (2 + charset) with
    | 0x3f :: encoding :: 0x3f :: rest =>
      let text := (rest.takeWhile (· ≠ 0x3f)).length
      if encoding ∈ js "BQbq" ∧ (rest.drop text).take 2 = js "?=" then
        some (2 + charset + 3 + text + 2)
      else none
    | _ => none

/-- A unit in front of the first component. -/
def consFirst (c : UInt16) : List JsString → List JsString
  | [] => [[c]]
  | component :: components => (c :: component) :: components

/-- `headerValue.split(...)`, inside a match when some of its units are left. -/
def splitComponents : JsString → ℕ → List JsString
  | [], _ => [[]]
  | c :: s, 0 =>
    match wordLength (c :: s) with
    | some length => [] :: consFirst c (splitComponents s (length - 1))
    | none => consFirst c (splitComponents s 0)
  | c :: s, 1 => [c] :: splitComponents s 0
  | c :: s, skip + 2 => consFirst c (splitComponents s (skip + 1))

def isToken (component : JsString) : Bool := component.take 2 == js "=?"

/-- The loop over the components; a token is the last when there is none behind. -/
def decodeComponents : DecodeState σ → List JsString → Option JsString
  | _, [] => some []
  | state, component :: components =>
    let flushed (state : DecodeState σ) : Option JsString :=
      (decodeComponents ⟨[], none⟩ components).map fun decoded =>
        flushDecoder decoders state ++ component ++ decoded
    if isToken component then
      match decode2047Token decoders state component (!components.any isToken) with
      | none => none
      | some (state, some text) => (decodeComponents state components).map (text ++ ·)
      | some (state, none) => flushed state
    else if component.all isBlank then decodeComponents state components
    else flushed state

def decodeRFC2047Words (headerValue : JsString) : Option JsString :=
  decodeComponents decoders ⟨[], none⟩ (splitComponents headerValue 0)

end

end CommCentral.JsMime
