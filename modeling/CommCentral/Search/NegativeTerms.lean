import CommCentral.Search.Attributes
import Mathlib.Data.List.DropRight
import Mathlib.Data.List.Infix

/-!
# Negative operators of search terms

A term with `Isnt` or `DoesntContain` is matched by the loops that match the
term with `Is` or `Contains`; a flag turns their sense.

- The address book, the charsets, the headers of a database entry and the
  comparison of strings are services, which succeed.
- `nsMsgBodyHandler` is not told the operator: the lines that `GetNextLine` returns
  are given, those of a body for every number of lines to read.
- An error of a comparison, which is for operators of other attributes, is left out.
-/

namespace CommCentral.Search.Match

open Option

/-! ## The source -/

abbrev Bytes := List UInt8

abbrev Wide := List UInt16

structure MatchServices where
  decodeMimeHeader (value charset : Bytes) (charsetOverride : Bool) : Wide
  convertToUnicode (charset value : Bytes) : Option Wide
  isUtf8 : Bytes → Bool
  copyUTF8toUTF16 : Bytes → Wide
  copyASCIItoUTF16 : Bytes → Wide
  caseInsensitiveFindInReadable (needle string : Wide) : Bool
  equals (needle string : Wide) : Bool
  stringBeginsWith (string needle : Wide) : Bool
  stringEndsWith (string needle : Wide) : Bool
  /-- The names and the addresses of a header. -/
  extractAllAddresses (value charset : Bytes) : List (Wide × Wide)
  /-- The card for an address in the directory of the term, when that is found. -/
  directory : Option (Wide → Bool)
  stripQuotedPrintable : Bytes → Bytes

structure BodyLine where
  buf : Bytes
  charset : Bytes
  isQP : Bool

structure SearchedMsg where
  charset : Bytes
  author : Bytes
  recipients : Bytes
  ccList : Bytes
  bccList : Bytes
  stringProperty : Bytes → Bytes
  headerLines : List Bytes
  lineCount : ℕ
  bodyLines (numLines : ℕ) : List BodyLine

/-- `nsMsgSearchTerm`. -/
structure MatchTerm where
  attrib : SearchAttrib
  operator : SearchOp
  arbitraryHeader : Bytes
  utf8String : Bytes
  utf16String : Wide

def isspace (c : UInt8) : Bool := c = 0x20 || 0x09 ≤ c && c ≤ 0x0d

def isAsciiWhitespace (c : UInt8) : Bool := c = 0x20 || c = 0x09 || c = 0x0a || c = 0x0d

def emptyMessageLine (buf : Bytes) : Bool :=
  buf.headD 0 = 0x0d || buf.headD 0 = 0x0a || buf.headD 0 = 0

def toLowerAscii (c : UInt8) : UInt8 := if 0x41 ≤ c ∧ c ≤ 0x5a then c + 0x20 else c

namespace MatchTerm

variable (services : MatchServices) (t : MatchTerm)

def matchString (utf16StrToMatch : Wide) : Bool :=
  let needle := t.utf16String
  match t.operator with
  | .contains => services.caseInsensitiveFindInReadable needle utf16StrToMatch
  | .doesntContain => !services.caseInsensitiveFindInReadable needle utf16StrToMatch
  | .is => services.equals needle utf16StrToMatch
  | .isnt => !services.equals needle utf16StrToMatch
  | .isEmpty => utf16StrToMatch.isEmpty
  | .isntEmpty => !utf16StrToMatch.isEmpty
  | .beginsWith => services.stringBeginsWith utf16StrToMatch needle
  | .endsWith => services.stringEndsWith utf16StrToMatch needle
  | _ => false

/-- `MatchString`, of a charset. -/
def matchCharsetString (stringToMatch charset : Bytes) : Bool :=
  match t.operator with
  | .isEmpty => stringToMatch.isEmpty
  | .isntEmpty => !stringToMatch.isEmpty
  | _ =>
    t.matchString services ((services.convertToUnicode charset stringToMatch).getD
      (if services.isUtf8 stringToMatch then services.copyUTF8toUTF16 stringToMatch
        else services.copyASCIItoUTF16 stringToMatch))

def matchInAddressBook (aAddress : Wide) : Bool :=
  if aAddress.isEmpty then false
  else
    match services.directory, t.operator with
    | some cardForAddress, .isInAB => cardForAddress aAddress
    | some cardForAddress, .isntInAB => !cardForAddress aAddress
    | _, _ => false

def matchRfc2047String (rfc2047string charset : Bytes) : Bool :=
  let stringToMatch := services.decodeMimeHeader rfc2047string charset false
  if t.operator = .isInAB ∨ t.operator = .isntInAB then t.matchInAddressBook services stringToMatch
  else t.matchString services stringToMatch

def matchAllBeforeDeciding : Bool := t.operator = .doesntContain || t.operator = .isnt

/-- The loop of `MatchRfc822String`. -/
def matchAddresses (boolContinueLoop : Bool) : List (Wide × Wide) → Bool → Bool
  | [], result => result
  | (name, address) :: rest, result =>
    if result = boolContinueLoop then
      matchAddresses boolContinueLoop rest
        (if t.operator = .isInAB ∨ t.operator = .isntInAB then t.matchInAddressBook services address
        else if t.matchString services name = boolContinueLoop then t.matchString services address
        else t.matchString services name)
    else result

def matchRfc822String (string charset : Bytes) : Bool :=
  if t.operator = .contains then t.matchRfc2047String services string charset
  else t.matchAddresses services t.matchAllBeforeDeciding
    (services.extractAllAddresses string charset) t.matchAllBeforeDeciding

/-- The cases of `ToOrCC` and `AllAddresses`, which go on to the next header while the term goes
on. -/
def matchFields (charset : Bytes) : List Bytes → Bool → Bool
  | [], result => result
  | field :: fields, result =>
    if t.matchAllBeforeDeciding = result then
      matchFields charset fields (t.matchRfc822String services field charset)
    else result

def headerValue (isContinuationHeader : Bool) (buf : Bytes) : Bytes :=
  let value := buf.drop (if isContinuationHeader then 1 else t.arbitraryHeader.length)
  let value := if value.head? = some 0x3a then value.tail else value
  ((value.dropWhile isspace).rdropWhile isspace).takeWhile (· ≠ 0)

/-- `matchExpected` of `MatchArbitraryHeader`. -/
def matchExpected : Bool :=
  t.operator = .contains || t.operator = .is || t.operator = .beginsWith || t.operator = .endsWith

/-- The loop of `MatchArbitraryHeader`, for the value of the header that is found so far and the
name of the current header. -/
def matchHeaderLines (charset : Bytes) : List Bytes → Bytes → Bytes → Bool → Bool
  | [], headerFullValue, _, result =>
    if headerFullValue ≠ [] ∧ t.matchExpected = t.matchRfc2047String services headerFullValue charset
    then t.matchRfc2047String services headerFullValue charset
    else result
  | buf :: lines, headerFullValue, curMsgHeader, result =>
    let isContinuationHeader := !emptyMessageLine buf && isAsciiWhitespace (buf.headD 0)
    if isContinuationHeader = false ∧ headerFullValue ≠ [] ∧
        t.matchExpected = t.matchRfc2047String services headerFullValue charset then
      t.matchRfc2047String services headerFullValue charset
    else if emptyMessageLine buf then result
    else
      let headerFullValue := if isContinuationHeader then headerFullValue else []
      let curMsgHeader := if isContinuationHeader then curMsgHeader else buf.takeWhile (· ≠ 0x3a)
      if curMsgHeader.map toLowerAscii = t.arbitraryHeader.map toLowerAscii then
        matchHeaderLines charset lines
          (headerFullValue ++ (if headerFullValue = [] then [] else [0x20]) ++
            t.headerValue isContinuationHeader buf) curMsgHeader result
      else matchHeaderLines charset lines headerFullValue curMsgHeader result

def matchArbitraryHeader (msg : SearchedMsg) (charset : Bytes) : Bool :=
  let dbHdrValue := msg.stringProperty t.arbitraryHeader
  if dbHdrValue ≠ [] then
    let result := t.matchRfc2047String services dbHdrValue charset
    if t.matchExpected = result then result
    else t.matchHeaderLines services charset msg.headerLines [] [] result
  else t.matchHeaderLines services charset msg.headerLines [] [] (!t.matchExpected)

/-- The loop of `MatchBody`. -/
def matchBodyLines (folderCharset : Bytes) (boolContinueLoop : Bool) :
    List BodyLine → Bytes → Bool → Bool
  | [], _, result => result
  | line :: lines, compare, result =>
    if result = boolContinueLoop then
      let softLineBreak := line.isQP && line.buf.getLast? = some 0x3d
      let buf := if line.isQP then services.stripQuotedPrintable line.buf else line.buf
      let compare := compare ++ if softLineBreak then buf.dropLast else buf
      if softLineBreak then matchBodyLines folderCharset boolContinueLoop lines compare result
      else
        matchBodyLines folderCharset boolContinueLoop lines []
          (if compare.headD 0x0a = 0x0d ∨ compare.headD 0x0a = 0x0a then result
          else t.matchCharsetString services compare
            (if line.charset = [] then folderCharset else line.charset))
    else result

def matchBody (msg : SearchedMsg) (folderCharset : Bytes) : Bool :=
  let length :=
    if 0 < msg.lineCount ∧ (t.operator = .is ∨ t.operator = .isnt) then t.utf8String.length
    else msg.lineCount
  t.matchBodyLines services folderCharset t.matchAllBeforeDeciding (msg.bodyLines length) []
    t.matchAllBeforeDeciding

/-- `ProcessSearchTerm`, for addresses, the body and arbitrary headers. -/
def processAttribute (msg : SearchedMsg) (defaultCharset : Bytes) : Option Bool :=
  let charset := if msg.charset = [] then defaultCharset else msg.charset
  match t.attrib with
  | .sender => some (t.matchRfc822String services msg.author charset)
  | .to => some (t.matchRfc822String services msg.recipients charset)
  | .cc => some (t.matchRfc822String services msg.ccList charset)
  | .toOrCC =>
    some (t.matchFields services charset [msg.ccList]
      (t.matchRfc822String services msg.recipients charset))
  | .allAddresses =>
    some (t.matchFields services charset [msg.ccList, msg.author, msg.bccList]
      (t.matchRfc822String services msg.recipients charset))
  | .body => some (t.matchBody services msg charset)
  | attrib =>
    if attrib = .otherHeader ∨ attrib.isArbitraryHeader then
      some (t.matchArbitraryHeader services msg charset)
    else none

/-! ## The complement -/

/-- `neg` is the negative operator of `pos`. -/
inductive Negates : SearchOp → SearchOp → Prop where
  | isnt : Negates .isnt .is
  | doesntContain : Negates .doesntContain .contains

/-- The same term with another operator. -/
def withOp (operator : SearchOp) : MatchTerm := { t with operator }

@[simp] theorem operator_withOp (operator : SearchOp) : (t.withOp operator).operator = operator :=
  rfl

variable {services t}

section Complement

variable {neg pos : SearchOp} (h : Negates neg pos)

include h

theorem matchString_not (s : Wide) :
    (t.withOp neg).matchString services s = !(t.withOp pos).matchString services s := by
  cases h with
  | isnt => rfl
  | doesntContain => rfl

theorem matchCharsetString_not (s charset : Bytes) :
    (t.withOp neg).matchCharsetString services s charset =
      !(t.withOp pos).matchCharsetString services s charset := by
  cases h with
  | isnt => rfl
  | doesntContain => rfl

theorem matchRfc2047String_not (s charset : Bytes) :
    (t.withOp neg).matchRfc2047String services s charset =
      !(t.withOp pos).matchRfc2047String services s charset := by
  cases h with
  | isnt => rfl
  | doesntContain => rfl

theorem matchExpected_not : (t.withOp neg).matchExpected = !(t.withOp pos).matchExpected := by
  cases h with
  | isnt => rfl
  | doesntContain => rfl

theorem matchAllBeforeDeciding_not :
    (t.withOp neg).matchAllBeforeDeciding = !(t.withOp pos).matchAllBeforeDeciding := by
  cases h with
  | isnt => rfl
  | doesntContain => rfl

theorem matchAddresses_not (continueLoop : Bool) (addresses : List (Wide × Wide)) (result : Bool) :
    (t.withOp neg).matchAddresses services (!continueLoop) addresses (!result) =
      !(t.withOp pos).matchAddresses services continueLoop addresses result := by
  have hInAB : ¬ (neg = .isInAB ∨ neg = .isntInAB) ∧ ¬ (pos = .isInAB ∨ pos = .isntInAB) := by
    cases h with
    | isnt => decide
    | doesntContain => decide
  induction addresses generalizing result with
  | nil => rfl
  | cons first rest ih =>
    simp only [matchAddresses, operator_withOp, eq_false hInAB.1, eq_false hInAB.2, if_false,
      matchString_not h, Bool.not_inj_iff, ← apply_ite not, ih]

/-- The lines are read in the same way, and the results are opposite. -/
theorem matchHeaderLines_not (charset : Bytes) (lines : List Bytes) (headerFullValue : Bytes)
    (curMsgHeader : Bytes) (result : Bool) :
    (t.withOp neg).matchHeaderLines services charset lines headerFullValue curMsgHeader (!result) =
      !(t.withOp pos).matchHeaderLines services charset lines headerFullValue curMsgHeader
        result := by
  induction lines generalizing headerFullValue curMsgHeader with
  | nil =>
    simp only [matchHeaderLines, matchExpected_not h, matchRfc2047String_not h, Bool.not_inj_iff,
      ← apply_ite not]
  | cons buf lines ih =>
    simp only [matchHeaderLines, matchExpected_not h, matchRfc2047String_not h, Bool.not_inj_iff,
      ih, ← apply_ite not]
    rfl

theorem matchArbitraryHeader_not (msg : SearchedMsg) (charset : Bytes) :
    (t.withOp neg).matchArbitraryHeader services msg charset =
      !(t.withOp pos).matchArbitraryHeader services msg charset := by
  simp only [matchArbitraryHeader, matchExpected_not h, matchRfc2047String_not h, Bool.not_inj_iff,
    matchHeaderLines_not h, ← apply_ite not]
  rfl

theorem matchBodyLines_not (folderCharset : Bytes) (continueLoop : Bool) (lines : List BodyLine)
    (compare : Bytes) (result : Bool) :
    (t.withOp neg).matchBodyLines services folderCharset (!continueLoop) lines compare (!result) =
      !(t.withOp pos).matchBodyLines services folderCharset continueLoop lines compare result := by
  induction lines generalizing compare result with
  | nil => rfl
  | cons line lines ih =>
    simp only [matchBodyLines, Bool.not_inj_iff, ih, matchCharsetString_not h,
      ← apply_ite not]

theorem matchBody_not (msg : SearchedMsg) (charset : Bytes) :
    (t.withOp neg).matchBody services msg charset =
      !(t.withOp pos).matchBody services msg charset := by
  have hlength : (neg = .is ∨ neg = .isnt) ↔ (pos = .is ∨ pos = .isnt) := by
    cases h with
    | isnt => decide
    | doesntContain => decide
  simp only [matchBody, operator_withOp, hlength, matchAllBeforeDeciding_not h,
    matchBodyLines_not h]
  rfl

end Complement

theorem matchRfc822String_isnt (string charset : Bytes) :
    (t.withOp .isnt).matchRfc822String services string charset =
      !(t.withOp .is).matchRfc822String services string charset :=
  matchAddresses_not .isnt false _ false

theorem matchFields_isnt (charset : Bytes) (fields : List Bytes) (result : Bool) :
    (t.withOp .isnt).matchFields services charset fields (!result) =
      !(t.withOp .is).matchFields services charset fields result := by
  induction fields generalizing result with
  | nil => rfl
  | cons field fields ih =>
    simp only [matchFields, matchAllBeforeDeciding_not .isnt, matchRfc822String_isnt, ih,
      Bool.not_inj_iff, ← apply_ite not]

/-- The attributes whose headers are parsed for addresses. -/
def isAddress (attrib : SearchAttrib) : Bool :=
  attrib ∈ [SearchAttrib.sender, .to, .cc, .toOrCC, .allAddresses]

/-- A negative term matches exactly when the positive one does not: with `Isnt` for every attribute,
with `DoesntContain` for those that are no addresses. -/
theorem processAttribute_not {neg pos : SearchOp} (h : Negates neg pos)
    (hattrib : isAddress t.attrib = true → neg = .isnt) (msg : SearchedMsg)
    (defaultCharset : Bytes) :
    (t.withOp neg).processAttribute services msg defaultCharset =
      ((t.withOp pos).processAttribute services msg defaultCharset).map (! ·) := by
  have hrfc822 : isAddress t.attrib = true → ∀ string charset,
      (t.withOp neg).matchRfc822String services string charset =
        !(t.withOp pos).matchRfc822String services string charset := by
    intro haddress
    obtain rfl := hattrib haddress
    cases h with
    | isnt => exact matchRfc822String_isnt
  have hfields : isAddress t.attrib = true → ∀ charset fields result,
      (t.withOp neg).matchFields services charset fields (!result) =
        !(t.withOp pos).matchFields services charset fields result := by
    intro haddress
    obtain rfl := hattrib haddress
    cases h with
    | isnt => exact matchFields_isnt
  simp only [processAttribute, show ∀ op, (t.withOp op).attrib = t.attrib from fun _ => rfl]
  split
  · rename_i heq
    simp only [hrfc822 (by rw [heq]; rfl), map_some]
  · rename_i heq
    simp only [hrfc822 (by rw [heq]; rfl), map_some]
  · rename_i heq
    simp only [hrfc822 (by rw [heq]; rfl), map_some]
  · rename_i heq
    have haddress : isAddress t.attrib = true := by rw [heq]; rfl
    simp only [hrfc822 haddress, hfields haddress, map_some]
  · rename_i heq
    have haddress : isAddress t.attrib = true := by rw [heq]; rfl
    simp only [hrfc822 haddress, hfields haddress, map_some]
  · simp only [matchBody_not h, map_some]
  · split
    · simp only [matchArbitraryHeader_not h, map_some]
    · rfl

/-- Strings of ASCII characters, each an address and compared as they are. -/
def plainServices : MatchServices where
  decodeMimeHeader value _ _ := value.map fun c => c.toUInt16
  convertToUnicode _ value := some (value.map fun c => c.toUInt16)
  isUtf8 _ := true
  copyUTF8toUTF16 value := value.map fun c => c.toUInt16
  copyASCIItoUTF16 value := value.map fun c => c.toUInt16
  caseInsensitiveFindInReadable needle string := needle <:+: string
  equals needle string := needle = string
  stringBeginsWith string needle := needle <+: string
  stringEndsWith string needle := needle <:+ string
  extractAllAddresses value _ := [([], value.map fun c => c.toUInt16)]
  directory := none
  stripQuotedPrintable value := value

/-- `x: a` and, folded, `x: b c`. -/
def repeatedHeader : SearchedMsg where
  charset := []
  author := []
  recipients := []
  ccList := []
  bccList := []
  stringProperty _ := []
  headerLines := [[0x78, 0x3a, 0x20, 0x61], [0x78, 0x3a, 0x62], [0x20, 0x63]]
  lineCount := 0
  bodyLines _ := []

/-- The term `x contains b c`. -/
def foldedTerm : MatchTerm :=
  ⟨.header 0, .contains, [0x78], [0x62, 0x20, 0x63], [0x62, 0x20, 0x63]⟩

/-- The second occurrence of a header is found by a negative term. -/
theorem processAttribute_not_folded :
    (foldedTerm.withOp .doesntContain).processAttribute plainServices repeatedHeader [] =
        ((foldedTerm.withOp .contains).processAttribute plainServices repeatedHeader []).map (! ·) ∧
      (foldedTerm.withOp .contains).processAttribute plainServices repeatedHeader [] = some true :=
  ⟨processAttribute_not .doesntContain (by decide) _ _, by decide⟩

end MatchTerm

end CommCentral.Search.Match
