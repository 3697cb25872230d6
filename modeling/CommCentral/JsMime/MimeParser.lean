import CommCentral.JsMime.EncodedWordDecoder

/-!
# The MIME parser

`MimeParser` of `mailnews/mime/jsmime/jsmime.js`, with strings for data.

* A parser and the subparsers below it are the chain of a list.
* What `_parseHeaders` and `_startBody` read from the headers of a part is a
  parameter.
* A boundary stands for the regular expression that is made of it.
* The calls of `_dispatchData` and `_dispatchEOF` run on fuel.
* The kinds of the parts that start, and what a multipart has withheld when it
  ends without a delimiter, are noted in `notes`, of which the code keeps no
  record.
-/

namespace CommCentral.JsMime

open JsString

/-! ## Options and events -/

inductive BodyFormat where
  | none
  | raw
  /-- Without the decoding of quoted-printable and base64. -/
  | nodecode
  | decode
  deriving DecidableEq

structure ParserOptions where
  pruneat : JsString := []
  bodyformat : BodyFormat := .nodecode

inductive ParserEvent where
  | startMessage
  | startPart (partNum headers : JsString)
  | deliverPartData (partNum data : JsString)
  | endPart (partNum : JsString)
  | endMessage
  deriving DecidableEq

/-- The part number among the arguments of a call. -/
def ParserEvent.partNum : ParserEvent → Option JsString
  | .startMessage => none
  | .startPart partNum _ => some partNum
  | .deliverPartData partNum _ => some partNum
  | .endPart partNum => some partNum
  | .endMessage => none

namespace MimeParser

def willIgnorePart (options : ParserOptions) (part : JsString) : Bool :=
  let found := options.pruneat
  if found = [] then false
  else part.take found.length ≠ found ∨
    (found.length < part.length ∧ ∀ c ∈ part[found.length]?, c ∉ js "$.")

def callEmitter (options : ParserOptions) (event : ParserEvent) : Bool :=
  event.partNum.all fun partNum => !willIgnorePart options partNum

/-! ## Lines -/

/-- `conditionToEndOnCRLF`; the index that `lastIndexOf` starts from is not
negative. -/
def conditionToEndOnCRLF (buffer : JsString) : JsString × JsString :=
  let lastCR := lastIndexOf 0x0d (buffer.take (buffer.length - 2 + 1))
  let lastLF := lastIndexOf 0x0a buffer
  let last := if lastLF > lastCR then lastLF else lastCR
  (buffer.take (last + 1).toNat, buffer.drop (last + 1).toNat)

def chopLineBreak (buffer : JsString) : JsString :=
  let buffer := if buffer.getLast? = some 0x0a then buffer.dropLast else buffer
  if buffer.getLast? = some 0x0d then buffer.dropLast else buffer

/-- The length of `\r\n|[\r\n]` in front of a string. -/
def lineBreak (s : JsString) : Option ℕ :=
  if js "\r\n" <+: s then some 2
  else if js "\r" <+: s ∨ js "\n" <+: s then some 1
  else none

/-- The length of `(\r\n|[\r\n])\1` in front of a string. -/
def doubleBreak (s : JsString) : Option ℕ :=
  if js "\r\n\r\n" <+: s then some 4
  else if js "\r\r" <+: s ∨ js "\n\n" <+: s then some 2
  else none

/-- The text in front of the first double line break, and the text behind it. -/
def breakHeaders : JsString → Option (JsString × JsString)
  | [] => none
  | c :: s =>
    match doubleBreak (c :: s) with
    | some length => some ([], (c :: s).drop length)
    | none => (breakHeaders s).map fun result => (c :: result.1, result.2)

/-- The headers and the body that the regular expression of `_dispatchData` finds. -/
def findHeaders (headerData : JsString) : Option (JsString × JsString) :=
  match lineBreak headerData with
  | some length => some ([], headerData.drop length)
  | none => breakHeaders headerData

/-! ## Delimiters -/

/-- A match of the regular expression of a boundary. -/
structure SplitResult where
  index : ℕ
  length : ℕ
  lineBreak : ℕ
  closing : Bool
  deriving DecidableEq

/-- `--b(--)?[ \t]*(?:\r\n|[\r\n]|$)` in front of a string: the second group, and
the length. -/
def delimiter (boundary s : JsString) : Option (Bool × ℕ) :=
  let dashes := js "--" ++ boundary
  if dashes <+: s then
    let rest := s.drop dashes.length
    match if js "--" <+: rest then softBreak (rest.drop 2) else none with
    | some length => some (true, dashes.length + 2 + length)
    | none => (softBreak rest).map fun length => (false, dashes.length + length)
  else none

/-- The lengths that the first group may have in front of a string, in order. -/
def breakLengths (atStart : Bool) (s : JsString) : List ℕ :=
  (if js "\r\n" <+: s then [2] else []) ++
    (if js "\r" <+: s ∨ js "\n" <+: s then [1] else []) ++ if atStart then [0] else []

def splitFrom (boundary : JsString) (index : ℕ) (s : JsString) : Option SplitResult :=
  let found := (breakLengths (index = 0) s).findSome? fun length =>
    (delimiter boundary (s.drop length)).map fun result =>
      ⟨index, length + result.2, length, result.1⟩
  match found, s with
  | some result, _ => some result
  | none, [] => none
  | none, _ :: s => splitFrom boundary (index + 1) s

/-- `_splitRegex.exec`. -/
def execSplit (boundary buffer : JsString) : Option SplitResult := splitFrom boundary 0 buffer

/-! ## Parts -/

/-- `_convertData`, of a buffer and of whether there is more to come. -/
abbrev Conversion : Type := JsString → Bool → Option (JsString × JsString)

/-- The `_convertData` of a multipart, which withholds the last line. -/
def withholdLine : Conversion := fun buffer more =>
  let front := if more then chopLineBreak buffer else buffer
  let result := conditionToEndOnCRLF front
  some (result.1, result.2 ++ buffer.drop front.length)

/-- What the headers of a part say about its body. -/
inductive BodyKind where
  | multipart (boundary : Option JsString) (digest : Bool)
  | message (decoder : Option Conversion)
  /-- Anything else, with the decoder of its encoding. -/
  | leaf (decoder : Option Conversion)

/-- `_parseHeaders`, of whether the default content type is a message, and of the
text of the headers. -/
abbrev HeaderReader : Type := Bool → JsString → Option BodyKind

/-- `_state`. -/
inductive ParserState where
  | parsingHeaders
  | sendToBlackHole
  | sendToEmitter
  | sendToSubparser
  deriving DecidableEq

structure PartParser where
  /-- `_defaultContentType` is `message/rfc822`. -/
  inDigest : Bool := false
  state : ParserState := .parsingHeaders
  headerData : JsString := []
  /-- `_splitRegex`, by its boundary. -/
  boundary : Option JsString := none
  /-- `_subPartNum`, empty when it is not defined. -/
  subPartNum : JsString := []
  count : ℕ := 0
  savedBuffer : JsString := []
  convertData : Option Conversion := none

def PartParser.resetParser (parser : PartParser) : PartParser :=
  { inDigest := parser.inDigest, count := parser.count }

inductive ParserNote where
  /-- `_startBody`, of a kind of body. -/
  | started (kind : BodyKind)
  /-- `_dispatchEOF` of a multipart that waits for a delimiter, with its
  `_savedBuffer`. -/
  | unfinished (savedBuffer : JsString)

/-- A chain after a call, with what the call did. -/
structure ChainResult where
  chain : List PartParser
  events : List ParserEvent
  notes : List ParserNote
  status : CallStatus

namespace ChainResult

def ok (chain : List PartParser) : ChainResult := ⟨chain, [], [], .returned⟩

def throw (chain : List PartParser) : ChainResult := ⟨chain, [], [], .threw⟩

def after (result : ChainResult) (events : List ParserEvent) (notes : List ParserNote) :
    ChainResult :=
  { result with events := events ++ result.events, notes := notes ++ result.notes }

def andThen (result : ChainResult) (call : List PartParser → ChainResult) : ChainResult :=
  match result.status with
  | .returned => (call result.chain).after result.events result.notes
  | _ => result

end ChainResult

def onSubparser (parser : PartParser) (result : ChainResult) : ChainResult :=
  { result with chain := parser :: result.chain }

structure ParserCalls where
  dispatchData : JsString → JsString → Bool → List PartParser → ChainResult
  dispatchEOF : JsString → List PartParser → ChainResult

/-- `toString` of a count. -/
def decimal (n : ℕ) : JsString := (Nat.toDigits 10 n).map fun c => c.toNat.toUInt16

def childNum (partNum : JsString) (count : ℕ) : JsString :=
  (if partNum = [] then [] else partNum ++ js ".") ++ decimal count

def messageNum (partNum : JsString) : JsString := partNum ++ js "$"

section

variable (options : ParserOptions) (read : HeaderReader) (calls : ParserCalls)

/-! ## Bodies -/

/-- `_startBody`, of a chain whose first parser has read its headers. -/
def startBody (kind : BodyKind) (partNum : JsString) (parser : PartParser)
    (rest : List PartParser) : List PartParser :=
  if options.bodyformat = .raw ∧ partNum = options.pruneat then
    { parser with state := .sendToEmitter } :: rest
  else
    match kind with
    | .multipart none _ => { parser with state := .sendToBlackHole } :: rest
    | .multipart (some boundary) digest =>
      [{ parser with
          boundary := some boundary
          state := .sendToBlackHole
          convertData := some withholdLine },
        { inDigest := digest }]
    | .message decoder =>
      [{ parser with
          state := .sendToSubparser
          subPartNum := messageNum partNum
          convertData := decoder }, {}]
    | .leaf decoder =>
      { parser with
        state := .sendToEmitter
        convertData := if options.bodyformat = .decode then decoder else none } :: rest

def applyDataConversion (parser : PartParser) (buffer : JsString) :
    Option (PartParser × JsString) :=
  match parser.convertData with
  | none => some (parser, buffer)
  | some convert =>
    (convert (parser.savedBuffer ++ buffer) true).map fun result =>
      ({ parser with savedBuffer := result.2 }, result.1)

/-- The last steps of `_whenMultipart`. -/
def nextPart (partNum : JsString) (closing : Bool) (parser : PartParser)
    (rest : List PartParser) : List PartParser :=
  if closing then
    { parser with
      boundary := none
      state := .sendToBlackHole
      savedBuffer := [] } :: rest
  else
    { parser with
      state := .sendToSubparser
      subPartNum := childNum partNum parser.count
      count := parser.count + 1
      savedBuffer := [] } :: (rest.take 1).map PartParser.resetParser

def whenMultipart (partNum : JsString) (split : SplitResult) : List PartParser → ChainResult
  | [] => .throw []
  | parser :: rest =>
    if parser.subPartNum = [] then
      .ok (nextPart partNum split.closing { parser with count := 1 } rest)
    else
      let saved :=
        if split.lineBreak = 0 then chopLineBreak parser.savedBuffer else parser.savedBuffer
      let parser := { parser with savedBuffer := saved }
      let delivered :=
        if saved ≠ [] then onSubparser parser (calls.dispatchData parser.subPartNum saved true rest)
        else .ok (parser :: rest)
      (delivered.andThen fun chain =>
        onSubparser parser (calls.dispatchEOF parser.subPartNum chain.tail)).andThen fun chain =>
          .ok (nextPart partNum split.closing parser chain.tail)

/-- The part of `_dispatchData` that sends a buffer without a delimiter. -/
def sendData (partNum buffer : JsString) (parser : PartParser) (rest : List PartParser) :
    ChainResult :=
  match parser.state with
  | .sendToEmitter =>
    if options.bodyformat = .none ∨ willIgnorePart options partNum then .ok (parser :: rest)
    else
      match applyDataConversion parser buffer with
      | none => .throw (parser :: rest)
      | some (parser, buffer) =>
        (ChainResult.ok (parser :: rest)).after
          (if buffer.length > 0 then [.deliverPartData partNum buffer] else []) []
  | .sendToSubparser =>
    match applyDataConversion parser buffer with
    | none => .throw (parser :: rest)
    | some (parser, buffer) =>
      if buffer.length > 0 then
        onSubparser parser (calls.dispatchData parser.subPartNum buffer true rest)
      else .ok (parser :: rest)
  | _ => .ok (parser :: rest)

/-- The part of `_dispatchData` behind the headers. -/
def dispatchBody (partNum buffer : JsString) (checkSplit : Bool) : List PartParser → ChainResult
  | [] => .throw []
  | parser :: rest =>
    match if checkSplit then parser.boundary.bind fun boundary => execSplit boundary buffer
      else none with
    | some split =>
      let front :=
        if split.index > 0 then
          calls.dispatchData partNum (buffer.take split.index) false (parser :: rest)
        else .ok (parser :: rest)
      (front.andThen fun chain => whenMultipart calls partNum split chain).andThen fun chain =>
        let buffer := buffer.drop (split.index + split.length)
        if buffer.length > 0 then calls.dispatchData partNum buffer true chain else .ok chain
    | none => sendData options calls partNum buffer parser rest

def dispatchData (partNum buffer : JsString) (checkSplit : Bool) : List PartParser → ChainResult
  | [] => .throw []
  | parser :: rest =>
    if parser.state = .parsingHeaders then
      let headerData := parser.headerData ++ buffer
      match findHeaders headerData with
      | none => .ok ({ parser with headerData := headerData } :: rest)
      | some (headers, body) =>
        let parser := { parser with headerData := headers }
        match read parser.inDigest headers with
        | none => .throw (parser :: rest)
        | some kind =>
          (dispatchBody options calls partNum body checkSplit
            (startBody options kind partNum parser rest)).after
              [.startPart partNum headers] [.started kind]
    else dispatchBody options calls partNum buffer checkSplit (parser :: rest)

/-! ## The end of a part -/

/-- What `_dispatchEOF` does in the states behind the headers, before the part ends. -/
def flushData (partNum : JsString) (parser : PartParser) (rest : List PartParser) : ChainResult :=
  let lingering :=
    if parser.savedBuffer = [] then none else parser.convertData.map fun convert =>
      (convert parser.savedBuffer false).map Prod.fst
  if parser.state = .sendToSubparser then
    let notes := if parser.boundary.isSome then [ParserNote.unfinished parser.savedBuffer] else []
    let delivered : ChainResult :=
      match lingering with
      | none => .ok (parser :: rest)
      | some none => .throw (parser :: rest)
      | some (some buffer) =>
        onSubparser parser (calls.dispatchData parser.subPartNum buffer true rest)
    ((delivered.andThen fun chain =>
      onSubparser parser (calls.dispatchEOF parser.subPartNum chain.tail)).andThen fun _ =>
        .ok [parser]).after [] notes
  else
    match lingering with
    | none => .ok (parser :: rest)
    | some none => .throw (parser :: rest)
    | some (some buffer) =>
      (ChainResult.ok (parser :: rest)).after
        (if buffer.length > 0 then [.deliverPartData partNum buffer] else []) []

def dispatchEOF (partNum : JsString) : List PartParser → ChainResult
  | [] => .throw []
  | parser :: rest =>
    (if parser.state = .parsingHeaders then
      match read parser.inDigest parser.headerData with
      | none => .throw (parser :: rest)
      | some _ => (ChainResult.ok (parser :: rest)).after
          [.startPart partNum parser.headerData] []
    else flushData calls partNum parser rest).andThen fun chain =>
      (ChainResult.ok chain).after [.endPart partNum] []

def parserCalls : ℕ → ParserCalls
  | 0 => ⟨fun _ _ _ chain => ⟨chain, [], [], .running⟩, fun _ chain => ⟨chain, [], [], .running⟩⟩
  | fuel + 1 =>
    ⟨dispatchData options read (parserCalls fuel), dispatchEOF read (parserCalls fuel)⟩

end

end MimeParser

/-! ## The parser -/

/-- `MimeParser`, with what it has done. -/
structure MimeParser where
  holdData : JsString := []
  triggeredCall : Bool := false
  /-- The fields of the parser, and its subparsers. -/
  chain : List MimeParser.PartParser := [{}]
  events : List ParserEvent := []
  notes : List MimeParser.ParserNote := []
  status : CallStatus := .returned

namespace MimeParser

section

variable (options : ParserOptions) (read : HeaderReader) (fuel : ℕ)

def onChain (parser : MimeParser) (call : List PartParser → ChainResult) : MimeParser :=
  let result := call parser.chain
  { parser with
    chain := result.chain
    events := parser.events ++ result.events
    notes := parser.notes ++ result.notes
    status := result.status }

def triggerCall (parser : MimeParser) : MimeParser :=
  if parser.triggeredCall then parser
  else
    { parser with
      triggeredCall := true
      events := parser.events ++ [.startMessage] }

/-- `deliverData`, after calls that returned. -/
def deliverData (parser : MimeParser) (buffer : JsString) : MimeParser :=
  if parser.status ≠ .returned then parser
  else
    let conditioned := conditionToEndOnCRLF (parser.holdData ++ buffer)
    let parser := { parser with holdData := conditioned.2 }
    if conditioned.1.length = 0 then parser
    else
      onChain parser.triggerCall
        ((parserCalls options read fuel).dispatchData [] conditioned.1 true)

/-- `deliverEOF`, after calls that returned. -/
def deliverEOF (parser : MimeParser) : MimeParser :=
  if parser.status ≠ .returned then parser
  else
    let parser := parser.triggerCall
    onChain parser fun chain =>
      (if parser.holdData ≠ [] then
        (parserCalls options read fuel).dispatchData [] parser.holdData true chain
      else .ok chain).andThen fun chain =>
        ((parserCalls options read fuel).dispatchEOF [] chain).andThen fun chain =>
          (ChainResult.ok chain).after [.endMessage] []

/-- A run: `deliverData` of some chunks. -/
def deliverAll (chunks : List JsString) : MimeParser :=
  chunks.foldl (fun parser chunk => deliverData options read fuel parser chunk) {}

/-- A run up to `deliverEOF`. -/
def parse (chunks : List JsString) : MimeParser :=
  deliverEOF options read fuel (deliverAll options read fuel chunks)

end

def trace (options : ParserOptions) (parser : MimeParser) : List ParserEvent :=
  parser.events.filter (callEmitter options)

end MimeParser

end CommCentral.JsMime
