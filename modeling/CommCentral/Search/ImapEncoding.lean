import CommCentral.Search.Attributes
import CommCentral.Search.BoolExpression
import Mathlib.Algebra.Group.Nat.Defs

/-!
# Search terms for an IMAP server

`EncodeImapTerm` writes a term as keys of the SEARCH command: a mnemonic with a
space on each side, and the value behind it, in quotes or, when it is not ASCII,
as a literal.  A term that is negated begins with NOT; a term for To or Cc is an
OR of two keys, or two negated keys.  `EncodeImap` adds the terms to an
expression, which `GenerateEncodeStr` writes, with parentheses around each OR.

A character stands for a byte.  The value of a string attribute is in the
charset of the server, and how a time is written as a date is a parameter.
-/

namespace CommCentral.Search

/-- A time as a date `%d-%b-%Y`: a word of letters, digits and hyphens. -/
structure DateFormat where
  /-- `PR_ExplodeTime` and `PR_FormatTimeUSEnglish`. -/
  format : ℤ → List Char
  isWord : ∀ time, format time ≠ [] ∧ ∀ c ∈ format time, c = '-' ∨ c.isAlphanum = true

/-- What a search term tests, with the members of its value. -/
structure ImapTest where
  attrib : SearchAttrib
  op : SearchOp
  arbitraryHeader : List Char
  /-- `GetStr`, in the charset of the server. -/
  str : List Char
  date : ℤ
  age : ℤ
  size : ℕ
  status : ℕ

/-- `nsMsgMessageFlags::Read`. -/
def flagRead : ℕ := 0x1

/-- `nsMsgMessageFlags::Replied`. -/
def flagReplied : ℕ := 0x2

/-- `nsMsgMessageFlags::Marked`. -/
def flagMarked : ℕ := 0x4

/-- `nsMsgMessageFlags::New`. -/
def flagNew : ℕ := 0x10000

/-- `PR_USEC_PER_DAY`. -/
def usecPerDay : ℤ := 1000000 * 60 * 60 * 24

namespace ImapTest

def useNot (t : ImapTest) : Bool :=
  t.attrib ≠ .msgStatus ∧ (t.op = .doesntContain ∨ t.op = .isnt)

def whichMnemonic (t : ImapTest) : Option (List Char) :=
  match t.attrib with
  | .toOrCC | .to => some " TO ".toList
  | .cc => some " CC ".toList
  | .sender => some " FROM ".toList
  | .subject => some " SUBJECT ".toList
  | .body => some " BODY ".toList
  | .ageInDays =>
    let dateInFuture := t.age < 0
    match t.op with
    | .isGreaterThan =>
      some (if dateInFuture then " SENTSINCE ".toList else " SENTBEFORE ".toList)
    | .isLessThan =>
      some (if dateInFuture then " SENTBEFORE ".toList else " SENTSINCE ".toList)
    | .is => some " SENTON ".toList
    | _ => none
  | .size =>
    match t.op with
    | .isGreaterThan => some " LARGER ".toList
    | .isLessThan => some " SMALLER ".toList
    | _ => none
  | .date =>
    match t.op with
    | .isBefore => some " SENTBEFORE ".toList
    | .isAfter => some " SENTSINCE ".toList
    | .isnt | .is => some " SENTON ".toList
    | _ => none
  | .anyText => some " TEXT ".toList
  | .keywords => some " KEYWORD ".toList
  | .msgStatus =>
    if t.status = flagRead then
      some (if t.op = .is then " SEEN ".toList else " UNSEEN ".toList)
    else if t.status = flagReplied then
      some (if t.op = .is then " ANSWERED ".toList else " UNANSWERED ".toList)
    else if t.status = flagNew then
      some (if t.op = .is then " NEW ".toList else " OLD SEEN ".toList)
    else if t.status = flagMarked then
      some (if t.op = .is then " FLAGGED ".toList else " UNFLAGGED ".toList)
    else none
  | attrib =>
    if attrib.isArbitraryHeader ∧ t.arbitraryHeader ≠ [] then
      some (" \"".toList ++ t.arbitraryHeader ++ "\" ".toList)
    else none

def useQuotes (t : ImapTest) : Bool := t.attrib.isString && t.attrib ≠ .keywords

/-- The loop that escapes quotes and backslashes. -/
def escapeValue (useQuotes : Bool) : List Char → List Char
  | [] => []
  | ch :: s =>
    if (useQuotes ∧ ch = '"') ∨ ch = '\\' then '\\' :: ch :: escapeValue useQuotes s
    else ch :: escapeValue useQuotes s

/-- `value`; without one, it is empty. -/
def value (dates : DateFormat) (now : ℤ) (t : ImapTest) : List Char :=
  if t.attrib = .date then
    -- the server includes the day itself
    dates.format (if t.op = .isAfter then t.date + usecPerDay else t.date)
  else if t.attrib = .ageInDays then dates.format (now - t.age * usecPerDay)
  else if t.attrib = .size then
    let sizeValue := t.size * 1024 % 2 ^ 32
    Nat.toDigits 10 (if t.op = .isGreaterThan then (sizeValue + 1024) % 2 ^ 32 else sizeValue)
  else if t.attrib.isString then escapeValue t.useQuotes t.str
  else []

end ImapTest

def encodeImapValue (encoding value : List Char) (useQuotes : Bool) : Option (List Char) :=
  if value = [] then none
  else if value.any fun c => 128 ≤ c.toNat then
    some (encoding ++ ['{'] ++ Nat.toDigits 10 value.length ++ ['}', '\r', '\n'] ++ value)
  else if useQuotes then some (encoding ++ ['"'] ++ value ++ ['"'])
  else some (encoding ++ value)

def dropLastSpace (encoding : List Char) : List Char :=
  if encoding.getLast? = some ' ' then encoding.dropLast else encoding

def encodeImapTerm (dates : DateFormat) (now : ℤ) (t : ImapTest) : Option (List Char) := do
  let whichMnemonic ← t.whichMnemonic
  let ignoreValue := t.attrib = .msgStatus
  let isOr := t.attrib = .toOrCC
  let value := t.value dates now
  -- the value, behind a mnemonic
  let append := fun encoding =>
    if ignoreValue then some encoding else encodeImapValue encoding value t.useQuotes
  let encoding := (if isOr ∧ ¬ t.useNot then " OR".toList else []) ++
    (if t.useNot then " NOT".toList else []) ++
    (if t.attrib.isArbitraryHeader then " HEADER".toList else []) ++ whichMnemonic
  let encoding ← append encoding
  let encoding ←
    if isOr then
      append (encoding ++ (if t.useNot then " NOT".toList else []) ++ " HEADER".toList ++
        " CC ".toList)
    else some encoding
  return dropLastSpace encoding

namespace BoolExpression

variable {α : Type*}

/-- `GenerateEncodeStr`: the buffer afterwards. -/
def generateEncodeStr : BoolExpression α → List Char → List Char
  | null, buffer => buffer
  | node (some _) encodingStr _ _ _, buffer => buffer ++ encodingStr
  | node none _ isAnd left right, buffer =>
    if left.isNull || right.isNull then buffer
    else if isAnd then right.generateEncodeStr (left.generateEncodeStr buffer)
    else
      let buffer := right.generateEncodeStr (left.generateEncodeStr (buffer ++ " (OR".toList))
      -- no space stands before the parenthesis
      dropLastSpace buffer ++ [')']

end BoolExpression

def addEncodedTerms (dates : DateFormat) (now : ℤ) :
    List (SearchTerm ImapTest) → BoolExpression ImapTest → Option (BoolExpression ImapTest)
  | [], expression => some expression
  | pTerm :: searchTerms, expression =>
    if pTerm.matchAll then addEncodedTerms dates now searchTerms expression
    else do
      let termEncoding ← encodeImapTerm dates now pTerm.test
      addEncodedTerms dates now searchTerms (expression.leftToRightAddTerm pTerm termEncoding)

/-- `EncodeImap`, for an IMAP server, or an error. -/
def encodeImap (dates : DateFormat) (now : ℤ) (searchTerms : List (SearchTerm ImapTest)) :
    Option (List Char) := do
  let expression ← addEncodedTerms dates now searchTerms .empty
  return expression.generateEncodeStr " UNDELETED".toList

end CommCentral.Search
