import CommCentral.Lib.JsString

/-!
# The header emitter

`HeaderEmitter` of `mailnews/mime/jsmime/jsmime.js`, for addressing and
unstructured headers.

* A call returns or throws, and changes the emitter in both cases, since
  `addPhrase` catches what `addText` throws.
* The loop of `encodeRFC2047Phrase` runs on fuel; a call that does not come to
  an end is `running`.
* The texts that `addText` adds and the reservations are noted in `tokens` and
  `reservations`, of which the code keeps no record.
* The members of a group are addresses.  The encoder of a header is
  `addAddresses` or `addUnstructured`, and its preferred spelling is given.
-/

namespace CommCentral.JsMime

open JsString

/-! ## Margins -/

/-- `clamp`, of an option that may be missing. -/
def clamp (value : Option ℤ) (min max dflt : ℤ) : ℤ :=
  match value with
  | none => dflt
  | some value => if value < min then min else if value > max then max else value

structure EmitterOptions where
  useASCII : Bool := true
  softMargin : Option ℤ := none
  hardMargin : Option ℤ := none

/-- A call of `_reserveTokenSpace`, with the line it starts from. -/
structure Reservation where
  currentLine : JsString
  preferredBreakpoint : ℤ
  length : ℕ

structure HeaderEmitter where
  useASCII : Bool
  softMargin : ℤ
  hardMargin : ℤ
  currentLine : JsString
  preferredBreakpoint : ℤ
  /-- What the handler was given, without the line ends. -/
  delivered : List JsString
  tokens : List (JsString × Bool)
  reservations : List Reservation

inductive CallStatus where
  | returned
  | threw
  | running
  deriving DecidableEq, Repr

structure EmitterResult where
  emitter : HeaderEmitter
  status : CallStatus

/-- A further call, after one that returned. -/
def EmitterResult.andThen (result : EmitterResult) (call : HeaderEmitter → EmitterResult) :
    EmitterResult :=
  match result.status with
  | .returned => call result.emitter
  | _ => result

namespace HeaderEmitter

def create (options : EmitterOptions) : HeaderEmitter :=
  let softMargin := clamp options.softMargin 30 900 78
  ⟨options.useASCII, softMargin, clamp options.hardMargin softMargin 998 332, [], 0, [], [], []⟩

def ok (emitter : HeaderEmitter) : EmitterResult := ⟨emitter, .returned⟩

/-! ## Lines and texts -/

def commitLine (emitter : HeaderEmitter) (count : Option ℕ) : HeaderEmitter :=
  match count with
  | some count =>
    { emitter with
      delivered := emitter.delivered ++ [trimRight (emitter.currentLine.take count)]
      currentLine := js " " ++ trimLeft (emitter.currentLine.drop count)
      preferredBreakpoint := 0 }
  | none =>
    { emitter with
      delivered := emitter.delivered ++ [trimRight emitter.currentLine]
      currentLine := []
      preferredBreakpoint := 0 }

/-- The last steps of `_reserveTokenSpace`, when the soft margin does not hold. -/
def reserveHard (emitter : HeaderEmitter) (length : ℕ) : HeaderEmitter × Bool :=
  if emitter.currentLine.length + length ≤ emitter.hardMargin then (emitter, true)
  else
    let emitter :=
      if emitter.currentLine.length > 0 then emitter.commitLine (some emitter.currentLine.length)
      else emitter
    (emitter, emitter.currentLine.length + length ≤ emitter.hardMargin)

def note (emitter : HeaderEmitter) (length : ℕ) : HeaderEmitter :=
  { emitter with
    reservations := emitter.reservations ++
      [⟨emitter.currentLine, emitter.preferredBreakpoint, length⟩] }

def reserveTokenSpace (emitter : HeaderEmitter) (length : ℕ) : HeaderEmitter × Bool :=
  let emitter := emitter.note length
  if emitter.currentLine.length + length ≤ emitter.softMargin then (emitter, true)
  else if emitter.preferredBreakpoint > 0 then
    let emitter := emitter.commitLine (some emitter.preferredBreakpoint.toNat)
    if emitter.currentLine.length + length ≤ emitter.softMargin then (emitter, true)
    else emitter.reserveHard length
  else emitter.reserveHard length

def addText (emitter : HeaderEmitter) (text : JsString) (mayBreakAfter : Bool) : EmitterResult :=
  match emitter.reserveTokenSpace text.length with
  | (emitter, false) => ⟨emitter, .threw⟩
  | (emitter, true) =>
    let line := emitter.currentLine ++ text
    ok { emitter with
      currentLine :=
        if mayBreakAfter ∧ text.getLast? ≠ some 0x20 then line ++ js " " else line
      preferredBreakpoint := if mayBreakAfter then line.length else emitter.preferredBreakpoint
      tokens := emitter.tokens ++ [(text, mayBreakAfter)] }

/-! ## Phrases -/

/-- `text.replace(/["\\]/g, "\\$&")`. -/
def escape (text : JsString) : JsString :=
  text.flatMap fun c => if c = 0x22 ∨ c = 0x5c then [0x5c, c] else [c]

/-- The text that `addQuotable` adds. -/
def quote (text qchars : JsString) : JsString :=
  if ¬ (text.head? = some 0x22 ∧ text.getLast? = some 0x22) ∧ ∃ c ∈ text, c ∈ qchars then
    js "\"" ++ escape text ++ js "\""
  else text

def addQuotable (emitter : HeaderEmitter) (text qchars : JsString) (mayBreakAfter : Bool) :
    EmitterResult :=
  if text.length = 0 then ok emitter else emitter.addText (quote text qchars) mayBreakAfter

/-- `[ \t\r\n]`. -/
def isBlank (c : UInt16) : Bool := c == 0x20 || c == 0x09 || c == 0x0d || c == 0x0a

/-- `text.replace(/[ \t\r\n]+/g, " ")`. -/
def collapse : JsString → JsString
  | [] => []
  | c :: text =>
    if isBlank c then
      match collapse text with
      | 0x20 :: rest => 0x20 :: rest
      | rest => 0x20 :: rest
    else c :: collapse text

/-- `nonAsciiRe`. -/
def isNonAscii (c : UInt16) : Bool := !(0x20 ≤ c && c ≤ 0x7e)

/-! ## Encoded words -/

def b64Prelude : JsString := js "=?UTF-8?B?"

def qpPrelude : JsString := js "=?UTF-8?Q?"

def qpForbidden : JsString := js "\"#$%&'(),.:;<=>?@[\\]^_\x60\x7b|\x7d~"

def hexString : JsString := js "0123456789abcdef"

def base64Chars : JsString :=
  js "ABCDEFGHIJKLMNOPQRSTUVWXYZabcdefghijklmnopqrstuvwxyz0123456789+/"

/-- The character of a number below 64. -/
def base64Char (n : ℕ) : UInt16 := base64Chars.getD n 0

def btoa : List UInt8 → JsString
  | [] => []
  | [a] => [base64Char (a.toNat / 4), base64Char (a.toNat % 4 * 16), 0x3d, 0x3d]
  | [a, b] =>
    [base64Char (a.toNat / 4), base64Char (a.toNat % 4 * 16 + b.toNat / 16),
      base64Char (b.toNat % 16 * 4), 0x3d]
  | a :: b :: c :: rest =>
    base64Char (a.toNat / 4) :: base64Char (a.toNat % 4 * 16 + b.toNat / 16) ::
      base64Char (b.toNat % 16 * 4 + c.toNat / 64) :: base64Char (c.toNat % 64) :: btoa rest

/-- The scalar values of a string; a lone surrogate is replaced. -/
def scalarValues : JsString → List Char
  | [] => []
  | [c] => [if 0xd800 ≤ c ∧ c ≤ 0xdfff then '\ufffd' else Char.ofNat c.toNat]
  | c :: d :: text =>
    if 0xd800 ≤ c ∧ c ≤ 0xdbff ∧ 0xdc00 ≤ d ∧ d ≤ 0xdfff then
      Char.ofNat (0x10000 + (c.toNat - 0xd800) * 0x400 + (d.toNat - 0xdc00)) :: scalarValues text
    else if 0xd800 ≤ c ∧ c ≤ 0xdfff then '\ufffd' :: scalarValues (d :: text)
    else Char.ofNat c.toNat :: scalarValues (d :: text)

/-- `new TextEncoder("UTF-8").encode(text)`. -/
def utf8Encode (text : JsString) : List UInt8 := (scalarValues text).flatMap String.utf8EncodeChar

/-- The byte has to be encoded in quoted-printable. -/
def needsHex (byte : UInt8) : Bool :=
  byte < 0x20 || byte ≥ 0x7f || byte.toUInt16 ∈ qpForbidden

/-- The text of a byte in a quoted-printable word. -/
def qpByte (byte : UInt8) : JsString :=
  if needsHex byte then
    [0x3d, hexString.getD (byte.toNat / 16) 0, hexString.getD (byte.toNat % 16) 0]
  else if byte = 0x20 then js "_"
  else [byte.toUInt16]

/-- The token of `_addRFC2047Word`. -/
def rfc2047Word (encodedText : List UInt8) (useQP : Bool) : JsString :=
  if useQP then qpPrelude ++ encodedText.flatMap qpByte ++ js "?="
  else b64Prelude ++ btoa encodedText ++ js "?="

def addRFC2047Word (emitter : HeaderEmitter) (encodedText : List UInt8) (useQP mayBreakAfter : Bool) :
    EmitterResult :=
  emitter.addText (rfc2047Word encodedText useQP) mayBreakAfter

/-- The index of the first byte of a character, `i` being the index of one of its bytes. -/
def charStart (encodedText : List UInt8) : ℕ → ℕ
  | 0 => 0
  | i + 1 =>
    if (encodedText.getD (i + 1) 0) &&& 0xc0 = 0x80 then charStart encodedText i else i + 1

/-- The loop of `encodeRFC2047Phrase`, and the word behind it. -/
def encodeWords (encodedText : List UInt8) (mayBreakAfter : Bool) :
    ℕ → HeaderEmitter → ℕ → ℕ → ℤ → ℤ → ℤ → EmitterResult
  | 0, emitter, _, _, _, _, _ => ⟨emitter, .running⟩
  | fuel + 1, emitter, i, start, b64Len, qpLen, maxChars =>
    match encodedText[i]? with
    | none => emitter.addRFC2047Word (encodedText.drop start) (b64Len ≥ qpLen) mayBreakAfter
    | some byte =>
      let b64Inc : ℤ := if (i - start) % 3 = 0 then 4 else 0
      let qpInc : ℤ := if needsHex byte then 3 else 1
      if b64Len + b64Inc > maxChars ∧ qpLen + qpInc > maxChars then
        let i := charStart encodedText i
        (emitter.addRFC2047Word ((encodedText.drop start).take (i - start)) (b64Len ≥ qpLen)
          true).andThen fun emitter =>
            encodeWords encodedText mayBreakAfter fuel emitter i i 0 0
              (emitter.softMargin - b64Prelude.length - 3)
      else
        encodeWords encodedText mayBreakAfter fuel emitter (i + 1) start (b64Len + b64Inc)
          (qpLen + qpInc) maxChars

def encodeRFC2047Phrase (emitter : HeaderEmitter) (text : JsString) (mayBreakAfter : Bool) :
    EmitterResult :=
  let encodedText := utf8Encode text
  let emitter :=
    match emitter.reserveTokenSpace (b64Prelude.length + 10) with
    | (emitter, true) => emitter
    | (emitter, false) => emitter.commitLine (some emitter.currentLine.length)
  encodeWords encodedText mayBreakAfter (5 * encodedText.length + 8) emitter 0 0 0 0
    (emitter.softMargin - emitter.currentLine.length - (b64Prelude.length + 2))

/-! ## Headers -/

/-- The loop over the words of a phrase. -/
def addWords (qchars : JsString) (mayBreakAfter : Bool) : HeaderEmitter → List JsString →
    EmitterResult
  | emitter, [] => ok emitter
  | emitter, [word] => emitter.addQuotable word qchars mayBreakAfter
  | emitter, word :: words =>
    (emitter.addQuotable word qchars true).andThen fun emitter =>
      addWords qchars mayBreakAfter emitter words

/-- The last steps of `addPhrase` on a text that was added at once. -/
def breakAtLastSpace (emitter : HeaderEmitter) (text : JsString) : HeaderEmitter :=
  if emitter.preferredBreakpoint = 0 ∧ 0x20 ∈ text ∧ emitter.currentLine.getLast? ≠ some 0x22 then
    { emitter with preferredBreakpoint := lastIndexOf 0x20 emitter.currentLine }
  else emitter

def addPhrase (emitter : HeaderEmitter) (text qchars : JsString) (mayBreakAfter : Bool) :
    EmitterResult :=
  let text := collapse text
  if emitter.useASCII ∧ ∃ c ∈ text, isNonAscii c then
    emitter.encodeRFC2047Phrase text mayBreakAfter
  else if emitter.currentLine.length + text.length < emitter.softMargin then
    let result := emitter.addQuotable text qchars mayBreakAfter
    match result.status with
    | .returned => ok (result.emitter.breakAtLastSpace text)
    | .threw => addWords qchars mayBreakAfter result.emitter (split 0x20 text)
    | .running => result
  else addWords qchars mayBreakAfter emitter (split 0x20 text)

def addHeaderName (emitter : HeaderEmitter) (name : JsString) : EmitterResult :=
  let emitter := { emitter with currentLine := trimRight emitter.currentLine }
  let emitter := if emitter.currentLine.length > 0 then emitter.commitLine none else emitter
  emitter.addText (name ++ js ": ") false

structure Address where
  name : JsString
  email : JsString
  deriving DecidableEq

inductive AddressItem where
  | address (addr : Address)
  | group (name : JsString) (group : List Address)
  deriving DecidableEq

/-- The characters that are quoted in a display name. -/
def nameQchars : JsString := js ",()<>[]:;@.\""

/-- The characters that are quoted in a local part. -/
def localQchars : JsString := js "()<>[]:;@\\,\" !"

/-- The local part of an email address, and the rest. -/
def splitEmail (email : JsString) : JsString × JsString :=
  let at' := lastIndexOf 0x40 email
  if at' = -1 then (email, []) else email.splitAt at'.toNat

/-- The email address of `addAddress`. -/
def addEmail (emitter : HeaderEmitter) (addr : Address) : EmitterResult :=
  (emitter.addQuotable (splitEmail addr.email).1 localQchars false).andThen fun emitter =>
    emitter.addText ((splitEmail addr.email).2 ++ if addr.name ≠ [] then js ">" else []) false

def addAddress (emitter : HeaderEmitter) (addr : Address) : EmitterResult :=
  if addr.name ≠ [] then
    let emitter := (emitter.reserveTokenSpace (addr.name.length + addr.email.length + 3)).1
    (emitter.addPhrase addr.name nameQchars true).andThen fun emitter =>
      if addr.email = [] then ok emitter
      else (emitter.addText (js "<") false).andThen fun emitter => emitter.addEmail addr
  else emitter.addEmail addr

/-- The loop of `addAddresses`. -/
def addSeparated {α : Type} (add : HeaderEmitter → α → EmitterResult) :
    HeaderEmitter → Bool → List α → EmitterResult
  | emitter, _, [] => ok emitter
  | emitter, needsComma, addr :: addresses =>
    ((if needsComma then emitter.addText (js ", ") true else ok emitter).andThen fun emitter =>
      add emitter addr).andThen fun emitter => addSeparated add emitter true addresses

/-- `addAddresses`, of the members of a group. -/
def addMembers (emitter : HeaderEmitter) (addresses : List Address) : EmitterResult :=
  addSeparated addAddress emitter false addresses

/-- An element of `addAddresses`. -/
def addItem (emitter : HeaderEmitter) : AddressItem → EmitterResult
  | .address addr => emitter.addAddress addr
  | .group name group =>
    (emitter.addPhrase name nameQchars false).andThen fun emitter =>
      (emitter.addText (js ":") true).andThen fun emitter =>
        (emitter.addMembers group).andThen fun emitter => emitter.addText (js ";") true

def addAddresses (emitter : HeaderEmitter) (addresses : List AddressItem) : EmitterResult :=
  addSeparated addItem emitter false addresses

def addUnstructured (emitter : HeaderEmitter) (text : JsString) : EmitterResult :=
  if text.length = 0 then ok emitter else emitter.addPhrase text [] false

def finish (emitter : HeaderEmitter) : HeaderEmitter := emitter.commitLine none

end HeaderEmitter

open HeaderEmitter

inductive HeaderValue where
  | addresses (value : List AddressItem)
  | unstructured (value : JsString)

/-- `addStructuredHeader`, with the preferred spelling of the name. -/
def HeaderEmitter.addStructuredHeader (emitter : HeaderEmitter) (name : JsString)
    (value : HeaderValue) : EmitterResult :=
  (emitter.addHeaderName name).andThen fun emitter =>
    match value with
    | .addresses value => emitter.addAddresses value
    | .unstructured value => emitter.addUnstructured value

/-- The emitter of `emitStructuredHeader`, when it has finished. -/
def emitHeader (name : JsString) (value : HeaderValue) (options : EmitterOptions) : EmitterResult :=
  ((HeaderEmitter.create options).addStructuredHeader name value).andThen fun emitter =>
    ok emitter.finish

def emitStructuredHeader (name : JsString) (value : HeaderValue) (options : EmitterOptions) :
    Option JsString :=
  let result := emitHeader name value options
  if result.status = .returned then
    some (result.emitter.delivered.flatMap fun line => line ++ js "\r\n")
  else none

/-! ## Calls -/

inductive EmitterCall where
  | addHeaderName (name : JsString)
  | addText (text : JsString) (mayBreakAfter : Bool)
  | addQuotable (text qchars : JsString) (mayBreakAfter : Bool)
  | addPhrase (text qchars : JsString) (mayBreakAfter : Bool)
  | encodeRFC2047Phrase (text : JsString) (mayBreakAfter : Bool)
  | addAddress (addr : Address)
  | addAddresses (addresses : List AddressItem)
  | addUnstructured (text : JsString)

def HeaderEmitter.call (emitter : HeaderEmitter) : EmitterCall → EmitterResult
  | .addHeaderName name => emitter.addHeaderName name
  | .addText text mayBreakAfter => emitter.addText text mayBreakAfter
  | .addQuotable text qchars mayBreakAfter => emitter.addQuotable text qchars mayBreakAfter
  | .addPhrase text qchars mayBreakAfter => emitter.addPhrase text qchars mayBreakAfter
  | .encodeRFC2047Phrase text mayBreakAfter => emitter.encodeRFC2047Phrase text mayBreakAfter
  | .addAddress addr => emitter.addAddress addr
  | .addAddresses addresses => emitter.addAddresses addresses
  | .addUnstructured text => emitter.addUnstructured text

/-- Calls one after another, as long as they return. -/
def HeaderEmitter.calls (emitter : HeaderEmitter) : List EmitterCall → EmitterResult
  | [] => ok emitter
  | call :: calls => (emitter.call call).andThen fun emitter => emitter.calls calls

end CommCentral.JsMime
