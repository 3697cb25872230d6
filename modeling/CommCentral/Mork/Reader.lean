import CommCentral.Lib.ByteProg
import Mathlib.Data.UInt

/-!
# Reading characters of a Mork file

The character level of `morkParser`, from `db/mork/src/morkParser.cpp`: line
breaks, comments, white space, hex numbers, names and values.

* The functions are programs over the bytes of the stream (`morkStream::Getc`
  and `Ungetc`) with the fields of the parser as their state.  What the parser
  tells its builder, and the warnings of the environment, are emitted.
* `ev->Good()` is the absence of errors.  A builder is taken not to raise any.
* A `while` loop is a recursion on a bound `fuel`.
* Places and spans in the file, and the line count, are left out.
-/

namespace CommCentral.Mork

open ByteStream

/-- The code of an ASCII character. -/
abbrev ch (c : Char) : UInt8 := c.toUInt8

/-! ## `morkCh` -/

/-- `morkCh_IsDigit`. -/
def isDigit (c : UInt8) : Bool := ch '0' ≤ c && c ≤ ch '9'

/-- `morkCh_IsUpper`. -/
def isUpper (c : UInt8) : Bool := ch 'A' ≤ c && c ≤ ch 'Z'

/-- `morkCh_IsLower`. -/
def isLower (c : UInt8) : Bool := ch 'a' ≤ c && c ≤ ch 'z'

/-- `morkCh_IsHex`. -/
def isHex (c : UInt8) : Bool :=
  isDigit c || (ch 'A' ≤ c && c ≤ ch 'F') || (ch 'a' ≤ c && c ≤ ch 'f')

/-- `morkCh_IsValue`: can stand in a value without an escape. -/
def isValue (c : UInt8) : Bool :=
  0x20 ≤ c && c ≤ 0x7E && c ≠ ch '$' && c ≠ ch ')' && c ≠ ch '\\'

/-- `morkCh_IsWhite`. -/
def isWhite (c : UInt8) : Bool :=
  c = 0x8 || c = 0x9 || c = 0xA || c = 0xC || c = 0xD || c = 0x20 || c = 0x7F

/-- `morkCh_IsName`: can start a name. -/
def isName (c : UInt8) : Bool := isUpper c || isLower c || c = ch ':' || c = ch '_'

/-- `morkCh_IsMore`: can continue a name. -/
def isMore (c : UInt8) : Bool :=
  isName c || c = ch '!' || c = ch '+' || c = ch '-' || c = ch '?'

/-- A byte that starts a line break. -/
def isBreak (c : UInt8) : Bool := c = 0xA || c = 0xD

/-- `morkEnv::HexToByte`, one digit. -/
def hexToNibble (c : UInt8) : UInt8 :=
  if isDigit c then c - ch '0'
  else if isUpper c then c - ch 'A' + 10
  else if isLower c then c - ch 'a' + 10
  else 0

def hexToByte (inFirstHex inSecondHex : UInt8) : UInt8 :=
  (hexToNibble inFirstHex <<< 4) ||| hexToNibble inSecondHex

/-- A fact about every byte is a fact about the numbers below 256. -/
theorem forall_byte {P : UInt8 → Prop} (h : ∀ n < 256, P (UInt8.ofNat n)) (c : UInt8) : P c := by
  have hc := h c.toNat c.toNat_lt
  rwa [UInt8.ofNat_toNat] at hc

/-! ## What the parser delivers -/

/-- The contents of a coil, `none` if the end of the file came before they were
flushed. -/
abbrev Buf := Option (List UInt8)

structure Mid where
  id : ℕ
  scope : ℕ
  buf : Option Buf
  deriving DecidableEq, Repr

/-- `ClearMid`. -/
def Mid.clear : Mid := ⟨0, 0, none⟩

/-- A call of the parser on its builder. -/
inductive Event where
  | onNewPort
  | onPortEnd
  | onNewGroup (inGid : ℕ)
  | onGroupCommitEnd
  | onGroupAbortEnd
  | onNewTable (inMid : Mid) (inCutAllRows : Bool)
  | onTableEnd
  | onNewMeta
  | onMetaEnd
  | onMinusRow
  | onNewRow (inMid : Mid) (inCutAllCols : Bool)
  | onRowPos (inRowPos : ℕ)
  | onRowEnd
  | onNewDict
  | onDictEnd
  | onAlias (inMid : Mid) (inForm : Option ℕ)
  | onMinusCell
  | onNewCell (inMid : Option Mid) (inBuf : Option Buf)
  | onCellForm (inCharsetFormat : Option ℕ)
  | onCellEnd
  | onValue (inBuf : Buf)
  | onValueMid (inMid : Mid)
  deriving DecidableEq, Repr

/-- What a reader emits. -/
inductive Note where
  | event (e : Event)
  | warning (text : String)
  deriving DecidableEq, Repr

inductive ParserState where
  | start
  | port
  | done
  | broken
  deriving DecidableEq, Repr

/-- The fields of `morkParser` that reading content uses. -/
structure Reading where
  inCell : Bool
  inMeta : Bool
  inDict : Bool
  inRow : Bool
  inTable : Bool
  state : ParserState
  isDone : Bool
  isBroken : Bool
  /-- `mParser_ValueCoil.mText_Form`. -/
  valueForm : Option ℕ
  errors : List String
  deriving DecidableEq, Repr

/-- A program of the parser. -/
abbrev Read := StateT Reading (Prog Note)

/-- A loop that has run out of its bound. -/
def outOfFuel {α : Type} : Read α := StateT.lift Prog.stuck

def getc : Read (Option UInt8) := StateT.lift Prog.get

def ungetc (c : UInt8) : Read Unit := StateT.lift (Prog.unget c)

/-- `Ungetc` of what `Getc` gave.  The end of the stream is not put back. -/
def ungetc? (c : Option UInt8) : Read Unit :=
  match c with
  | none => pure ()
  | some c => ungetc c

def call (e : Event) : Read Unit := StateT.lift (Prog.put (.event e))

def newWarning (text : String) : Read Unit := StateT.lift (Prog.put (.warning text))

def newError (text : String) : Read Unit :=
  modify fun r => { r with errors := text :: r.errors }

def good : Read Bool := do
  return (← get).errors.isEmpty

/-! ## Line breaks, comments and white space -/

def eatLineBreak (inLast : UInt8) : Read (Option UInt8) := do
  match ← getc with
  | none => return none
  | some c =>
    if isBreak c && c ≠ inLast then getc  -- after a two-byte linebreak
    else return some c

def eatLineComment : ℕ → Read (Option UInt8)
  | 0 => outOfFuel
  | fuel + 1 => do
    match ← getc with
    | none => return none
    | some c => if isBreak c then eatLineBreak c else eatLineComment fuel

/-- The inner loop of a C style comment: the next `/` or `*`. -/
def seekCommentMark : ℕ → Read (Option UInt8)
  | 0 => outOfFuel
  | fuel + 1 => do
    match ← getc with
    | none => return none
    | some c =>
      if c = ch '/' || c = ch '*' then return some c
      else if isBreak c then
        let c ← eatLineBreak c
        if c = some (ch '/') || c = some (ch '*') then return c
        else seekCommentMark fuel
      else seekCommentMark fuel

def eatNestedComment : ℕ → ℕ → Read (Option UInt8)
  | 0, _ => outOfFuel
  | fuel + 1, depth => do
    let mark ← seekCommentMark fuel
    if mark = none then
      newWarning "EOF before end of comment"
      return none
    else if mark = some (ch '*') then
      let c ← getc
      if c = some (ch '/') then
        if depth = 1 then getc  -- comments all done
        else eatNestedComment fuel (depth - 1)
      else
        ungetc? c
        if c = none then
          newWarning "EOF before end of comment"
          return none
        else eatNestedComment fuel depth
    else
      let c ← getc
      if c = some (ch '*') then eatNestedComment fuel (depth + 1)
      else
        ungetc? c
        if c = none then
          newWarning "EOF before end of comment"
          return none
        else eatNestedComment fuel depth

def eatComment (fuel : ℕ) : Read (Option UInt8) := do
  let c ← getc
  if c = some (ch '/') then eatLineComment fuel
  else if c = some (ch '*') then eatNestedComment fuel 1
  else
    newWarning "expected / or *"
    return c

def eatLineContinue : Read (Option UInt8) := do
  match ← getc with
  | none =>
    newWarning "expected linebreak"
    return none
  | some c =>
    if isBreak c then eatLineBreak c
    else
      newWarning "expected linebreak"
      return some c

/-- The loop of `NextChar`. -/
def skipWhite : ℕ → Option UInt8 → Read (Option UInt8)
  | 0, _ => outOfFuel
  | _ + 1, none => return none
  | fuel + 1, some c => do
    if c = ch '/' then skipWhite fuel (← eatComment fuel)
    else if isBreak c then skipWhite fuel (← eatLineBreak c)
    else if c = ch '\\' then skipWhite fuel (← eatLineContinue)
    else if isWhite c then skipWhite fuel (← getc)
    else return some c

/-- `NextChar`: the next byte of content that is not white. -/
def nextChar (fuel : ℕ) : Read (Option UInt8) := do
  let c ← getc
  -- with an error, the byte that was read is lost
  let c ← if ← good then skipWhite fuel c else pure c
  if ← good then
    if c = none then modify fun r => { r with isDone := true }
    return c
  else
    modify fun r => { r with state := .broken, isDone := true, isBroken := true }
    return none

/-! ## Tokens -/

/-- The digits of `ReadHex`, and the byte after them. -/
def readHexDigits : ℕ → ℕ → Option UInt8 → Read (ℕ × Option UInt8)
  | 0, _, _ => outOfFuel
  | _ + 1, hex, none => return (hex, none)
  | fuel + 1, hex, some c => do
    if isHex c then
      readHexDigits fuel ((hex * 16 + (hexToNibble c).toNat) % 2 ^ 32) (← getc)
    else return (hex, some c)

/-- `ReadHex`: the number, and `outNextChar`. -/
def readHex (fuel : ℕ) : Read (ℕ × Option UInt8) := do
  let c ← nextChar fuel
  match c with
  | none =>
    newWarning "eof instead of hex"
    return (0, none)
  | some digit =>
    if isHex digit then
      let (hex, next) ← readHexDigits fuel 0 (some digit)
      if next = none then newWarning "eof instead of hex"
      return (hex, next)
    else
      newWarning "expected hex digit"
      return (0, some digit)

/-- The loop of `ReadName`. -/
def readMore : ℕ → List UInt8 → Read Buf
  | 0, _ => outOfFuel
  | fuel + 1, spool => do
    match ← getc with
    | none =>
      newWarning "unexpected eof"
      return none
    | some c =>
      if isMore c then readMore fuel (spool ++ [c])
      else
        ungetc c
        return some spool

def readName (fuel : ℕ) (c : UInt8) : Read (Option Buf) := do
  if !isName c then newError "not a name char"
  if ← good then return some (← readMore fuel [c]) else return none

/-- The loop of `ReadValue`. -/
def readValueBytes : ℕ → List UInt8 → Read Buf
  | 0, _ => outOfFuel
  | fuel + 1, spool => do
    match ← getc with
    | none => return none
    | some c =>
      if c = ch ')' then return some spool
      else if c = ch '\\' then  -- next char is escaped
        match ← getc with
        | none => return none
        | some c =>
          if isBreak c then
            match ← eatLineBreak c with
            | none => return none
            | some c =>
              if c = ch ')' || c = ch '\\' || c = ch '$' then
                ungetc c  -- the loop reads it again
                readValueBytes fuel spool
              else readValueBytes fuel (spool ++ [c])
          else readValueBytes fuel (spool ++ [c])
      else if c = ch '$' then  -- escapes the next two hex digits
        match ← getc with
        | none => return none
        | some first =>
          match ← getc with
          | none => return none
          | some second => readValueBytes fuel (spool ++ [hexToByte first second])
      else readValueBytes fuel (spool ++ [c])

def readValue (fuel : ℕ) : Read (Option Buf) := do
  if ← good then
    let buf ← readValueBytes fuel []
    if buf = none then newWarning "unexpected eof"
    return some buf
  else return none

/-! ## Runs -/

/-- The run of a program of the parser. -/
def exec {α : Type} (p : Read α) (r : Reading) (s : List UInt8) :
    Option (Prog.Result Note (α × Reading)) :=
  (p.run r).run s

section Exec

variable {α β : Type} (r : Reading)

@[simp] theorem exec_pure (a : α) (s : List UInt8) :
    exec (pure a) r s = some ⟨(a, r), [], s, false⟩ := rfl

@[simp] theorem exec_bind (p : Read α) (f : α → Read β) (s : List UInt8) :
    exec (p >>= f) r s = (exec p r s).bind fun res =>
      (exec (f res.value.1) res.value.2 res.rest).map res.andThen := by
  rw [exec, StateT.run_bind, Prog.run_bind]
  rfl

@[simp] theorem exec_getc_cons (c : UInt8) (s : List UInt8) :
    exec getc r (c :: s) = some ⟨(some c, r), [], s, false⟩ := rfl

@[simp] theorem exec_getc_nil : exec getc r [] = some ⟨(none, r), [], [], true⟩ := rfl

@[simp] theorem exec_ungetc {c : UInt8} (hc : c ≠ 0) (s : List UInt8) :
    exec (ungetc c) r s = some ⟨((), r), [], c :: s, false⟩ := by
  rw [exec, ungetc]
  simp [hc, Prog.Result.andThen]

@[simp] theorem exec_call (e : Event) (s : List UInt8) :
    exec (call e) r s = some ⟨((), r), [.event e], s, false⟩ := by
  cases s <;> rfl

@[simp] theorem exec_newError (text : String) (s : List UInt8) :
    exec (newError text) r s = some ⟨((), { r with errors := text :: r.errors }), [], s, false⟩ :=
  rfl

@[simp] theorem exec_get (s : List UInt8) : exec get r s = some ⟨(r, r), [], s, false⟩ := rfl

@[simp] theorem exec_modify (f : Reading → Reading) (s : List UInt8) :
    exec (modify f) r s = some ⟨((), f r), [], s, false⟩ := rfl

@[simp] theorem exec_good (s : List UInt8) :
    exec good r s = some ⟨(r.errors.isEmpty, r), [], s, false⟩ := rfl

end Exec

end CommCentral.Mork
