import CommCentral.Lib.Escapes
import CommCentral.Lib.JsString
import CommCentral.Lib.Keyed
import CommCentral.Lib.Regex

/-!
# Messages of the chat protocol

The account builds the line of a message from a command and its parameters
(`buildMessage`), and quotes the characters that cannot stand in a line before
it sends it (`sendRawMessage`).  The socket hands over each line that it
receives, without the end of the line, to `onDataReceived`, which takes the
quotes off and parses the message (`ircMessage`).

The parser is a regular expression with five groups: the tags, the prefix, the
command, the parameters and the last parameter.
-/

namespace CommCentral.Irc

open JsString

/-! ## What the account sends -/

/-- The characters of `/[A-Z0-9]/i`. -/
def isCommandChar (c : UInt16) : Bool :=
  (0x41 ≤ c && c ≤ 0x5a) || (0x61 ≤ c && c ≤ 0x7a) || (0x30 ≤ c && c ≤ 0x39)

/-- The character before the last parameter. -/
def colon : UInt16 := 0x3a

/-- The character between parameters. -/
def space : UInt16 := 0x20

/-- The last parameter, with a colon where it needs one. -/
def quoteTrailing (trailing : JsString) : JsString :=
  if trailing = [] ∨ space ∈ trailing ∨ trailing.head? = some colon then colon :: trailing
  else trailing

/-- The line of a message, unless the command or a parameter cannot be sent.  A
parameter that is no array is an array with one member. -/
def buildMessage (aCommand : JsString) (aParams : List JsString) : Option JsString :=
  if aCommand = [] then none
  else if ¬ aCommand.all isCommandChar then none
  else
    match aParams.getLast? with
    | none => some aCommand
    | some trailing =>
      if aParams.dropLast.any fun p => space ∈ p then none
      else
        some (aCommand ++ [space] ++
          [space].intercalate (aParams.dropLast ++ [quoteTrailing trailing]))

def lowQuoteChar : UInt16 := 0x10

def lowQuote (c : UInt16) : Option UInt16 :=
  if c = 0 then some 0x30
  else if c = 0x0a then some 0x6e
  else if c = 0x0d then some 0x72
  else if c = lowQuoteChar then some lowQuoteChar
  else none

/-- The line as it goes over the socket. -/
def sendRawMessage (aMessage : JsString) : JsString :=
  Escapes.escape lowQuoteChar lowQuote aMessage ++ js "\r\n"

/-- A message is built and sent at once. -/
def sendMessage (aCommand : JsString) (aParams : List JsString) : Option JsString :=
  (buildMessage aCommand aParams).map sendRawMessage

/-- The bytes of a code unit in UTF-8; a surrogate has half of those of its pair. -/
def charCodeToByteCount (c : UInt16) : ℕ :=
  if c < 0x80 then 1 else if c < 0x800 || (0xd800 ≤ c && c ≤ 0xdfff) then 2 else 3

/-- `countBytes`, for an account whose encoding is UTF-8 or not. -/
def countBytes (utf8 : Bool) (aStr : JsString) : ℕ :=
  if utf8 then (aStr.map charCodeToByteCount).sum else aStr.length

/-! ## What the account receives -/

/-- The characters of `.`. -/
def isDot (c : UInt16) : Bool := c != 0x0a && c != 0x0d && c != 0x2028 && c != 0x2029

/-- The table `lowDequote`; any other character stands for itself. -/
def lowDequote (c : UInt16) : Option UInt16 :=
  if isDot c then
    some (if c = 0x30 then 0 else if c = 0x6e then 0x0a else if c = 0x72 then 0x0d else c)
  else none

/-- The characters that a backslash stands before in the value of a tag. -/
def unescapeTag (c : UInt16) : Option UInt16 :=
  if isDot c then
    some (if c = 0x6e then 0x0a else if c = 0x72 then 0x0d else if c = 0x73 then space
      else if c = colon then 0x3b else c)
  else none

structure IrcMessage where
  rawMessage : JsString
  command : JsString
  params : List JsString
  /-- The nickname or the server that has sent the message. -/
  origin : Option JsString
  user : Option JsString
  host : Option JsString
  tags : List (JsString × Option JsString)
  source : JsString

/-- `[^ ]`. -/
def notSpace (c : UInt16) : Bool := c != space

/-- `[^: ]`. -/
def startsParam (c : UInt16) : Bool := c != colon && c != space

def char (c : UInt16) : Regex UInt16 := .cls fun d => d == c

/-- `(?:@([^ ]+) )?` or `(?::([^ ]+) )?`. -/
def fieldRegex (c : UInt16) (n : ℕ) : Regex UInt16 :=
  .opt ((char c).seq ((Regex.group n (.plus (.cls notSpace))).seq (char space)))

/-- `((?: +[^: ][^ ]*)*)?`. -/
def paramsRegex : Regex UInt16 :=
  .opt (.group 4
    (.star ((Regex.plus (char space)).seq ((Regex.cls startsParam).seq (.star (.cls notSpace))))))

/-- ` *(?::([\s\S]*))?`. -/
def trailingRegex : Regex UInt16 :=
  (Regex.star (char space)).seq (.opt ((char colon).seq (.group 5 (.star (.cls fun _ => true)))))

/-- `^(?:@([^ ]+) )?(?::([^ ]+) )?([^ ]+)((?: +[^: ][^ ]*)*)? *(?::([\s\S]*))?$`. -/
def messageRegex : Regex UInt16 :=
  (fieldRegex 0x40 1).seq ((fieldRegex colon 2).seq ((Regex.group 3 (.plus (.cls notSpace))).seq
    (paramsRegex.seq trailingRegex)))

def truthy (s : Option JsString) : Option JsString := s.filter fun s => s ≠ []

/-- The origin, the user and the host of a prefix. -/
def splitPrefix (pre : JsString) : List JsString := pre.splitOnP fun c => c == 0x21 || c == 0x40

def parseTag (tag : JsString) : JsString × Option JsString :=
  ((split 0x3d tag).headD [], (split 0x3d tag)[1]?.map (Escapes.unescape 0x5c unescapeTag))

/-- The message of a line, unless it cannot be parsed. -/
def ircMessage (aData aOrigin : JsString) : Option IrcMessage := do
  let temp ← messageRegex.exec aData
  let command := (temp 3).getD []
  let params := ((truthy (temp 4)).map fun ps => (split space ps).drop 1).getD []
  let pre := splitPrefix ((truthy (temp 2)).getD aOrigin)
  let tags := ((truthy (temp 1)).map fun ts =>
    ((split 0x3b ts).map parseTag).foldl (Keyed.upsert Prod.fst) []).getD []
  let source :=
    match truthy pre[1]? with
    | some user => user ++ [0x40] ++ pre[2]?.getD (js "undefined")
    | none => (truthy pre[2]?).getD []
  some {
    rawMessage := aData
    command := command
    params := params ++ (temp 5).toList
    origin := pre[0]?
    user := pre[1]?
    host := pre[2]?
    tags := tags
    source := source }

/-- The message of a line that the socket has received. -/
def onDataReceived (aRawMessage currentServerName : JsString) : Option IrcMessage :=
  ircMessage (Escapes.unescape lowQuoteChar lowDequote aRawMessage) currentServerName

end CommCentral.Irc
