import CommCentral.Filters.FilterFile
import CommCentral.Search.Attributes

/-!
# The conditions of a filter

`MsgTermListToString` writes search terms as `AND (attribute,operator,value)`,
or with OR, and `ParseCondition` reads them.  An arbitrary header is written in
quotes.  A value is written in quotes when it contains a closing parenthesis or
begins with a space or a quote, and its quotes are escaped; backslashes are not.

The reader looks for the parenthesis that ends a term outside of quotes, and
then removes the backslash before each quote in all of the term.  The number of
an arbitrary header comes from the preference `mailnews.customHeaders`.

Values of attributes that are not strings are texts here, and a label stays one.
A character stands for a byte.
-/

namespace CommCentral.Filters

open Search (SearchAttrib SearchOp)

/-! ## Names -/

def searchAttribEntryTable : List (SearchAttrib × List Char) :=
  [(.subject, "subject".toList),
   (.sender, "from".toList),
   (.body, "body".toList),
   (.date, "date".toList),
   (.priority, "priority".toList),
   (.msgStatus, "status".toList),
   (.to, "to".toList),
   (.cc, "cc".toList),
   (.toOrCC, "to or cc".toList),
   (.allAddresses, "all addresses".toList),
   (.ageInDays, "age in days".toList),
   (.label, "label".toList),
   (.keywords, "tag".toList),
   (.size, "size".toList),
   (.sender, "from in ab".toList),
   (.junkStatus, "junk status".toList),
   (.junkPercent, "junk percent".toList),
   (.junkScoreOrigin, "junk score origin".toList),
   (.hasAttachmentStatus, "has attachment status".toList)]

def searchOperatorEntryTable : List (SearchOp × List Char) :=
  [(.contains, "contains".toList),
   (.doesntContain, "doesn't contain".toList),
   (.is, "is".toList),
   (.isnt, "isn't".toList),
   (.isEmpty, "is empty".toList),
   (.isntEmpty, "isn't empty".toList),
   (.isBefore, "is before".toList),
   (.isAfter, "is after".toList),
   (.isHigherThan, "is higher than".toList),
   (.isLowerThan, "is lower than".toList),
   (.beginsWith, "begins with".toList),
   (.endsWith, "ends with".toList),
   (.isInAB, "is in ab".toList),
   (.isntInAB, "isn't in ab".toList),
   (.isGreaterThan, "is greater than".toList),
   (.isLessThan, "is less than".toList),
   (.matches, "matches".toList),
   (.doesntMatch, "doesn't match".toList)]

/-- `NS_MsgGetStringForAttribute`; it is empty when there is none. -/
def getStringForAttribute (attrib : SearchAttrib) : List Char :=
  ((searchAttribEntryTable.find? fun entry => attrib = entry.1).map Prod.snd).getD []

/-- `NS_MsgGetStringForOperator`. -/
def getStringForOperator (op : SearchOp) : Option (List Char) :=
  (searchOperatorEntryTable.find? fun entry => op = entry.1).map Prod.snd

/-- `NS_MsgGetOperatorFromString`. -/
def getOperatorFromString (string : List Char) : Option SearchOp :=
  (searchOperatorEntryTable.find? fun entry => strcaseEq string entry.2).map Prod.fst

def isRFC822HeaderFieldName (aHdr : List Char) : Bool :=
  aHdr.all fun c => !(c < '!' || c = ':' || '~' < c)

def toLowerCaseExceptSpecials (aValue : List Char) : List Char :=
  let lower := aValue.map Char.toLower
  if lower = "sender".toList then "Sender".toList
  else if lower = "date".toList then "Date".toList
  else if lower = "status".toList then "Status".toList
  else lower

/-- The headers of `mailnews.customHeaders`: without white space, and between colons. -/
def customHeaderTokens (headers : List Char) : List (List Char) :=
  let stripped := headers.filter fun c => c ∉ [' ', '\t', '\n', '\r', Char.ofNat 12]
  (stripped.splitOn ':').filter fun token => token ≠ []

/-- The attribute of an arbitrary header: its place in the preference, or the first one. -/
def customHeaderAttrib (headers string : List Char) : SearchAttrib :=
  .header (((customHeaderTokens headers).findIdx? fun token => strcaseEq token string).getD 0)

/-- `NS_MsgGetAttributeFromString`: the attribute and the custom id, or
`NS_MSG_INVALID_CUSTOM_HEADER`. -/
def getAttributeFromString (headers : List Char) (string : List Char) :
    Option (SearchAttrib × Option (List Char)) :=
  match string with
  | '"' :: string =>
    if isRFC822HeaderFieldName string then some (customHeaderAttrib headers string, none)
    else none
  | string =>
    match searchAttribEntryTable.find? fun entry => strcaseEq string entry.2 with
    | some entry => some (entry.1, none)
    | none => some (.custom, some string)

/-! ## Terms -/

/-- `nsMsgSearchTerm`. -/
structure FilterTerm where
  attrib : SearchAttrib
  op : SearchOp
  value : List Char
  /-- `m_booleanOp` is AND. -/
  booleanAnd : Bool
  arbitraryHeader : List Char
  hdrProperty : List Char
  customId : List Char
  matchAll : Bool
deriving DecidableEq

/-- `nsMsgSearchTerm()`, with the operator in front of it. -/
def FilterTerm.new (booleanAnd : Bool) : FilterTerm :=
  { attrib := .default, op := .contains, value := [], booleanAnd := booleanAnd,
    arbitraryHeader := [], hdrProperty := [], customId := [], matchAll := false }

namespace FilterTerm

/-- `quoteVal`, of `OutputValue`. -/
def quoteVal (t : FilterTerm) : Bool :=
  ')' ∈ t.value ∨ t.value.head? = some ' ' ∨ t.value.head? = some '"'

def outputValue (t : FilterTerm) : List Char :=
  if t.attrib.isString ∧ t.value ≠ [] then
    (if t.quoteVal then ['"'] else []) ++
      (if '"' ∈ t.value then escapeQuotesInStr t.value else t.value) ++
      (if t.quoteVal then ['"'] else [])
  else t.value

/-- The attribute, as `GetTermAsString` writes it. -/
def outputAttrib (t : FilterTerm) : List Char :=
  if t.attrib.isArbitraryHeader then ['"'] ++ t.arbitraryHeader ++ ['"']
  else if t.attrib = .custom then t.customId
  else if t.attrib = .uint32HdrProperty then t.hdrProperty
  else getStringForAttribute t.attrib

def getTermAsString (t : FilterTerm) : Option (List Char) :=
  if t.matchAll then some "ALL".toList
  else do
    let operatorStr ← getStringForOperator t.op
    return t.outputAttrib ++ [','] ++ operatorStr ++ [','] ++ t.outputValue

/-! ## The reader of a term -/

/-- `ParseAttribute`: the term and the place of the separator, or an error. -/
def parseAttribute (headers : List Char) (t : FilterTerm) (inStream : List Char) :
    Option (FilterTerm × Option ℕ) :=
  let skipped := (inStream.takeWhile isspace).length
  match inStream.dropWhile isspace with
  | [] => (getAttributeFromString headers []).map fun r =>
    ({ t with attrib := r.1, customId := r.2.getD t.customId }, none)
  | c :: s => do
    let sep := if c = '"' then '"' else ','
    let name := c :: s.takeWhile (· ≠ sep)
    let separator := if sep ∈ s then some (skipped + name.length) else none
    let (attrib, customId) ← getAttributeFromString headers name
    let t := { t with attrib := attrib, customId := customId.getD t.customId }
    if attrib.isArbitraryHeader then
      -- the leading quote is no part of the header
      return ({ t with arbitraryHeader := toLowerCaseExceptSpecials name.tail }, separator)
    else return (t, separator)

def parseOperator (inStream : List Char) : Option SearchOp :=
  getOperatorFromString ((inStream.dropWhile isspace).takeWhile (· ≠ ','))

/-- `utf8String`, of `ParseValue`. -/
def readValue (inStream : List Char) : List Char :=
  match inStream.dropWhile isspace with
  | '"' :: s =>
    -- a quote at the end is removed with the one at the beginning
    if s.getLast? = some '"' then s.dropLast else s
  | s => s

def parseValue (t : FilterTerm) (inStream : List Char) : FilterTerm :=
  if t.attrib.isString then { t with value := readValue inStream }
  else { t with value := inStream }

def deStreamNew (headers : List Char) (t : FilterTerm) (inStream : List Char) :
    Option FilterTerm :=
  if inStream = "ALL".toList then some { t with matchAll := true }
  else do
    let commaSep := (inStream.takeWhile (· ≠ ',')).length
    let (t, separator) ← parseAttribute headers t inStream
    if ',' ∉ inStream then none
    else
      -- a separator behind the comma ends the string
      let inStream :=
        match separator with
        | some place => if commaSep < place then inStream.take place else inStream
        | none => inStream
      let inStream := inStream.drop (commaSep + 1)
      let op ← parseOperator inStream
      let t := { t with op := op }
      match inStream.dropWhile (· ≠ ',') with
      | [] => return t
      | _ :: value => return t.parseValue value

end FilterTerm

/-! ## Lists of terms -/

/-- The loop of `MsgTermListToString`. -/
def msgTermListToStringFrom (aOutString : List Char) : List FilterTerm → Option (List Char)
  | [] => some aOutString
  | term :: aTermList =>
    let aOutString := if 1 < aOutString.length then aOutString ++ [' '] else aOutString
    if term.matchAll then msgTermListToStringFrom (aOutString ++ "ALL".toList) aTermList
    else do
      let stream ← term.getTermAsString
      msgTermListToStringFrom
        (aOutString ++ (if term.booleanAnd then "AND (".toList else "OR (".toList) ++ stream ++
          [')']) aTermList

def msgTermListToString (aTermList : List FilterTerm) : Option (List Char) :=
  msgTermListToStringFrom [] aTermList

/-- The loop that looks for the parenthesis at the end of a term: the term, and the text from
the parenthesis on. -/
def scanTerm (inQuote : Bool) : List Char → Option (List Char × List Char)
  | [] => none
  | c :: s =>
    match c, s with
    | '\\', '"' :: s => (scanTerm inQuote s).map fun r => ('\\' :: '"' :: r.1, r.2)
    | c, s =>
      if c = ')' ∧ inQuote = false then some ([], c :: s)
      else (scanTerm (if c = '"' then !inQuote else inQuote) s).map fun r => (c :: r.1, r.2)

/-- The loop that inverts `EscapeQuotesInStr`. -/
def unescapeQuotes : List Char → List Char
  | [] => []
  | c :: s =>
    match c, s with
    | '\\', '"' :: s => '"' :: unescapeQuotes s
    | c, s => c :: unescapeQuotes s

/-- The loop of `ParseCondition`, from `curPtr` on: whether it succeeds, and the terms that are
appended. -/
def parseTerms (headers : List Char) : ℕ → List Char → List FilterTerm → Bool × List FilterTerm
  | 0, _, terms => (true, terms)
  | fuel + 1, curPtr, terms =>
    match curPtr.dropWhile (· ≠ '(') with
    | [] => (true, terms)
    | _ :: s =>
      let andTerm := 'O' ∉ curPtr.takeWhile (· ≠ '(')
      match scanTerm false s with
      | none => (true, terms)
      | some (termDup, curPtr) =>
        match (FilterTerm.new andTerm).deStreamNew headers (unescapeQuotes termDup) with
        | none => (false, terms)
        | some newTerm => parseTerms headers fuel curPtr (terms ++ [newTerm])

/-- `ParseCondition`: whether it succeeds, and the terms that are appended.  Each step goes on
behind a parenthesis. -/
def parseCondition (headers aCondition : List Char) : Bool × List FilterTerm :=
  if aCondition = "ALL".toList then (true, [{ FilterTerm.new true with matchAll := true }])
  else parseTerms headers (aCondition.length + 1) aCondition []

end CommCentral.Filters
