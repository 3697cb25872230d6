import CommCentral.Mork.Reader

/-!
# `morkParser`

Reading the content of a Mork file, from `db/mork/src/morkParser.cpp`: rows,
tables, dictionaries and the transaction groups around them.

Rows, tables and dictionaries are programs over the bytes (`Read`).  A group is
looked through to its end before it is read, and the stream is then set back to
its start; so the functions for groups work on the stream itself (`Parse`), and
a position in it is the list of the bytes from there on.

The change fields of the parser are only ever set to `morkChange_kNil` and are
left out.  The order of the events is that of the calls on the builder.
-/

namespace CommCentral.Mork

open ByteStream

/-! ## Mids and cells -/

def readMid (fuel : ℕ) : Read (Mid × Bool) := do
  let (id, next) ← readHex fuel
  let mid := { Mid.clear with id := id }
  if next = some (ch ':') then
    match ← getc with
    | none =>
      if ← good then newWarning "unexpected eof"
      return (mid, ← good)
    | some c =>
      if !(← good) then return (mid, false)
      else if c = ch '^' then
        let (scope, next) ← readHex fuel
        if ← good then ungetc? next
        return ({ mid with scope := scope }, ← good)
      else if isName c then
        let buf ← readName fuel c
        return ({ mid with buf := buf }, ← good)
      else
        newError "expected name or hex after ':' following ID"
        return (mid, ← good)
  else
    ungetc? next
    return (mid, ← good)

def readCellForm (fuel : ℕ) : Read Unit := do
  let c ← nextChar fuel
  if c = some (ch '=') then
    let cellForm ← nextChar fuel
    finish (cellForm.map UInt8.toNat) (← nextChar fuel)
  else if c = some (ch '^') then
    let (cellForm, next) ← readHex fuel
    finish (some cellForm) next
  else newWarning "unexpected byte in cell form"
where
  /-- The closing parenthesis of the form. -/
  finish (cellForm : Option ℕ) (nextChar : Option UInt8) : Read Unit :=
    if nextChar = some (ch ')') then call (.onCellForm cellForm)
    else newWarning "unexpected byte in cell form"

/-- The slot of a cell in `ReadCell`: the last character that it has read. -/
def readSlot (fuel : ℕ) : Read (Option UInt8) := do
  let c ← nextChar fuel
  if c = none || !(← good) then return c
  else if c = some (ch '=') then
    match ← readValue fuel with
    | none => pure ()
    | some buf => call (.onValue buf)
    return c
  else if c = some (ch '^') then
    let (mid, ok) ← readMid fuel
    if ok then
      let c ← nextChar fuel
      if c ≠ none && (← good) then
        if c ≠ some (ch ')') then newError "expected ')' after cell ^ID value"
      else if c = none then newWarning "unexpected eof"
      if ← good then call (.onValueMid mid)
      return c
    else return c
  else if c = some (ch 'r') || c = some (ch 't') || c = some (ch '"') || c = some 0x27 then
    newError "cell syntax not yet supported"
    return c
  else
    newError "unknown cell syntax"
    return c

/-- The end of `ReadCell`. -/
def endCell (c : Option UInt8) : Read Unit := do
  if c = none && (← good) then newWarning "unexpected eof"

/-- `ReadCell`, once its column is read. -/
def readCellSlot (fuel : ℕ) (c : UInt8) (mid : Option Mid) (buf : Option Buf) : Read Unit := do
  if ← good then
    modify fun r => { r with inCell := true }
    call (.onNewCell mid buf)
    let c ← readSlot fuel
    modify fun r => { r with inCell := false }
    call .onCellEnd
    endCell c
  else endCell (some c)

def readCell (fuel : ℕ) : Read Unit := do
  match ← getc with
  | none => endCell none
  | some c =>
    if !(← good) then endCell (some c)
    else if c = ch '^' then
      let (mid, _) ← readMid fuel
      readCellSlot fuel c (some mid) none
    else if (← get).inMeta && c = ch 'f' then readCellForm fuel
    else
      let buf ← readName fuel c
      readCellSlot fuel c none buf

def readRowPos (fuel : ℕ) : Read Unit := do
  let (rowPos, c) ← readHex fuel
  if ← good then ungetc? c
  call (.onRowPos rowPos)

/-! ## Rows, metas and tables -/

def endRow (fuel : ℕ) (c : Option UInt8) : Read (Option UInt8) := do
  if ← good then
    let c ← nextChar fuel
    if c = some (ch '!') then readRowPos fuel
    else if ← good then ungetc? c
    return c
  else return c

/-- What a row, table or dictionary leaves in `mParser_State`. -/
def setState (c : Option UInt8) : Read Unit := do
  if !(← good) then modify fun r => { r with state := .broken }
  else if c = none then modify fun r => { r with state := .done }

/-- An optional minus sign after an opening bracket, and the character read. -/
def readMinus (fuel : ℕ) : Read (Bool × Option UInt8) := do
  let c ← nextChar fuel
  if c = some (ch '-') then return (true, c)
  else
    if ← good then ungetc? c
    return (false, c)

mutual

def readRow : ℕ → UInt8 → Read Unit
  | 0, _ => outOfFuel
  | fuel + 1, c => do
    if !(← good) then setState (some c)
    else if c = ch '[' then
      let (cutAllRowCols, c) ← readMinus fuel
      let (mid, ok) ← readMid fuel
      if ok then
        modify fun r => { r with inRow := true }
        call (.onNewRow mid cutAllRowCols)
        let c ← readRowItems fuel
        let c ← endRow fuel c
        modify fun r => { r with inRow := false }
        call .onRowEnd
        setState c
      else setState c
    else
      ungetc c
      let (mid, ok) ← readMid fuel
      if ok then
        modify fun r => { r with inRow := true }
        call (.onNewRow mid false)
        let c ← endRow fuel (some c)
        modify fun r => { r with inRow := false }
        call .onRowEnd
        setState c
      else setState (some c)

/-- The loop of `ReadRow`. -/
def readRowItems : ℕ → Read (Option UInt8)
  | 0 => outOfFuel
  | fuel + 1 => do
    let c ← nextChar fuel
    if c = none || !(← good) || c = some (ch ']') then return c
    else
      if c = some (ch '(') then readCell fuel
      else if c = some (ch '[') then readMeta fuel (ch ']')
      else if c = some (ch '-') then call .onMinusCell
      else newWarning "unexpected byte in row"
      readRowItems fuel

def readMeta : ℕ → UInt8 → Read Unit
  | 0, _ => outOfFuel
  | fuel + 1, inEndMeta => do
    modify fun r => { r with inMeta := true }
    call .onNewMeta
    readMetaItems fuel inEndMeta
    modify fun r => { r with inMeta := false }
    call .onMetaEnd

/-- The loop of `ReadMeta`. -/
def readMetaItems : ℕ → UInt8 → Read Unit
  | 0, _ => outOfFuel
  | fuel + 1, inEndMeta => do
    match ← nextChar fuel with
    | none => return ()
    | some c =>
      if !(← good) then return ()
      else if c = ch '(' then
        readCell fuel
        readMetaItems fuel inEndMeta
      else if c = inEndMeta && (c = ch '>' || c = ch '}' || c = ch ']') then return ()
      else
        if (← get).inTable && (c = ch '[' || isHex c) then readRow fuel c
        else newWarning "unexpected byte in meta"
        readMetaItems fuel inEndMeta

end

/-- The loop of `ReadTable`. -/
def readTableItems : ℕ → Read (Option UInt8)
  | 0 => outOfFuel
  | fuel + 1 => do
    match ← nextChar fuel with
    | none => return none
    | some c =>
      if !(← good) || c = ch '}' then return some c
      else
        if isHex c || c = ch '[' then readRow fuel c
        else if c = ch '{' then readMeta fuel (ch '}')
        else if c = ch '-' then call .onMinusRow
        else newWarning "unexpected byte in table"
        readTableItems fuel

def readTable (fuel : ℕ) : Read Unit := do
  let (cutAllTableRows, _) ← readMinus fuel
  if ← good then
    let (mid, ok) ← readMid fuel
    if ok then
      modify fun r => { r with inTable := true }
      call (.onNewTable mid cutAllTableRows)
      let c ← readTableItems fuel
      modify fun r => { r with inTable := false }
      call .onTableEnd
      setState c

/-! ## Dictionaries -/

def readDictForm (fuel : ℕ) : Read Unit := do
  if (← nextChar fuel) = some (ch '(') then
    if (← nextChar fuel) = some (ch 'f') then
      let c ← nextChar fuel
      if c = some (ch '=') then
        let dictForm ← nextChar fuel
        finish (dictForm.map UInt8.toNat) (← nextChar fuel)
      else if c = some (ch '^') then
        let (dictForm, next) ← readHex fuel
        finish (some dictForm) next
      else newWarning "unexpected byte in dict form"
    else newWarning "unexpected byte in dict form"
  else newWarning "unexpected byte in dict form"
where
  /-- The closing brackets of the form. -/
  finish (dictForm : Option ℕ) (next : Option UInt8) : Read Unit := do
    modify fun r => { r with valueForm := dictForm }
    if next = some (ch ')') then
      if (← nextChar fuel) ≠ some (ch '>') then newWarning "unexpected byte in dict form"
    else newWarning "unexpected byte in dict form"

def readAlias (fuel : ℕ) : Read Unit := do
  let (hex, next) ← readHex fuel
  let c ← if next.any isWhite && (← good) then nextChar fuel else pure next
  if ← good then
    let c ← if c = some (ch '<') then do
        readDictForm fuel
        if ← good then nextChar fuel else pure c
      else pure c
    if c = some (ch '=') then
      match ← readValue fuel with
      | none => pure ()
      | some buf =>
        call (.onAlias ⟨hex, 0, some buf⟩ (← get).valueForm)
        modify fun r => { r with valueForm := some 0 }
    else newWarning "expected '='"

/-- The loop of `ReadDict`. -/
def readDictItems : ℕ → Read (Option UInt8)
  | 0 => outOfFuel
  | fuel + 1 => do
    let c ← nextChar fuel
    if c = none || !(← good) || c = some (ch '>') then return c
    else
      if c = some (ch '(') then readAlias fuel
      else if c = some (ch '<') then readMeta fuel (ch '>')
      else newWarning "unexpected byte in dict"
      readDictItems fuel

def readDict (fuel : ℕ) : Read Unit := do
  modify fun r => { r with inDict := true }
  call .onNewDict
  let c ← readDictItems fuel
  modify fun r => { r with inDict := false }
  call .onDictEnd
  setState c

/-! ## Content -/

/-- The loop of `ReadContent` up to the first item: the byte that the item starts
with.  At a group marker nothing more is read. -/
def readItem : ℕ → Read (Option UInt8)
  | 0 => outOfFuel
  | fuel + 1 => do
    match ← nextChar fuel with
    | none => return none
    | some c =>
      if !(← good) then return some c
      else if c = ch '[' then
        readRow fuel c
        return some c
      else if c = ch '{' then
        readTable fuel
        return some c
      else if c = ch '<' then
        readDict fuel
        return some c
      else if c = ch '@' then return some c
      else
        newWarning "unexpected byte in ReadContent()"
        readItem fuel

/-! ## Group markers -/

def matchPattern : List UInt8 → Read Bool
  | [] => good
  | byte :: pattern => do
    if ← good then
      if (← getc) ≠ some byte then newError "byte not in expected pattern"
      matchPattern pattern
    else return false

def readEndGroupId (fuel groupId : ℕ) : Read Bool := do
  match ← getc with
  | none => return false
  | some c =>
    if !(← good) then return false
    else if c = ch '~' then  -- transaction is aborted
      let _ ← matchPattern [ch '~', ch '}', ch '@']
      return false
    else
      ungetc c
      let (endGroupId, next) ← readHex fuel
      if !(← good) then return false
      else if endGroupId ≠ groupId then
        newError "end group id mismatch"
        return false
      else if next ≠ some (ch '}') then
        newError "expected '\x7d' after @$$\x7did"
        return false
      else if (← getc) ≠ some (ch '@') then
        newError "expected '@' after @$$\x7did\x7d"
        return false
      else return true

/-- What follows an at sign in `FindGroupEnd`: whether the group ends here, and
the last byte read. -/
def atGroupEnd (fuel groupId : ℕ) : Read (Bool × Option UInt8) := do
  let c ← getc
  if c = some (ch '$') then
    let c ← getc
    if c = some (ch '$') then
      let c ← getc
      if c = some (ch '}') then return (← readEndGroupId fuel groupId, c)
      else
        newError "expected '\x7d' after @$$"
        return (false, c)
    else return (false, c)
  else return (false, c)

def findGroupEnd : ℕ → ℕ → Read Bool
  | 0, _ => outOfFuel
  | fuel + 1, groupId => do
    match ← getc with
    | none => return false
    | some c =>
      if !(← good) then return false
      else if c = ch '@' then
        let (foundEnd, c) ← atGroupEnd fuel groupId
        if foundEnd then
          let _ ← getc  -- the loop test reads one byte more
          good
        else
          if c = some (ch '@') then ungetc (ch '@')
          findGroupEnd fuel groupId
      else findGroupEnd fuel groupId

/-! ## Groups -/

structure Parser where
  /-- The fields that reading content uses. -/
  reading : Reading
  inPort : Bool
  inGroup : Bool
  groupId : ℕ
  deriving DecidableEq, Repr

/-- Reading content, groups included. -/
abbrev Parse := StateT Parser (Scan Note)

/-- A program over the bytes, as part of the parser. -/
def content {α : Type} (p : Read α) : Parse α := fun σ s =>
  (exec p σ.reading s).map fun res =>
    ⟨(res.value.1, { σ with reading := res.value.2 }), res.out, res.rest, res.hitEof⟩

def tell : Parse (List UInt8) := StateT.lift Scan.tell

def seek (pos : List UInt8) : Parse Unit := StateT.lift (Scan.seek pos)

/-- `ReadAt` inside a group. -/
def readAtInside (fuel : ℕ) : Parse Bool := do
  if ← content (matchPattern [ch '$', ch '$']) then
    let c ← content getc
    if c = some (ch '}') then
      let sawGroupId ← content (readEndGroupId fuel (← get).groupId)
      if sawGroupId then modify fun σ => { σ with inGroup := false }
      modify fun σ => { σ with groupId := 0 }
    else if c = some (ch '{') then
      content (newError "nested @$$\x7b inside another group")
    else content (newError "expected '\x7b' or '\x7d' after @$$")
  content good

/-- `ReadContent`, given `ReadAt`. -/
def readContent (fuel : ℕ) (readAt : Parse Bool) : Parse Bool := do
  let c ← content (readItem fuel)
  if c = some (ch '@') && (← content good) then readAt
  else
    content (setState c)
    return (← content good) && c ≠ none

def readGroup (fuel : ℕ) : Parse Unit := do
  let (groupId, next) ← content (readHex fuel)
  modify fun σ => { σ with groupId := groupId }
  if next = some (ch '{') then
    if (← content getc) = some (ch '@') then
      let startPos ← tell
      if ← content (findGroupEnd fuel groupId) then
        seek startPos
        content (call (.onNewGroup groupId))
        modify fun σ => { σ with inGroup := true }  -- by the builder
        let _ ← readContent fuel (readAtInside fuel)
        content (call .onGroupCommitEnd)
    else content (newError "expected '@' after @$$\x7bid\x7b")
  else content (newError "expected '\x7b' after @$$id")

/-- `ReadAt` outside a group. -/
def readAtOutside (fuel : ℕ) : Parse Bool := do
  if ← content (matchPattern [ch '$', ch '$']) then
    let c ← content getc
    if c = some (ch '{') then readGroup fuel
    else if c = some (ch '}') then content (newError "unmatched @$$\x7d outside any group")
    else content (newError "expected '\x7b' or '\x7d' after @$$")
  content good

def readAt (fuel : ℕ) (inInsideGroup : Bool) : Parse Bool :=
  if inInsideGroup then readAtInside fuel else readAtOutside fuel

/-! ## The parse -/

def onPortState (fuel : ℕ) : Parse Unit := do
  if !(← get).inPort then content (call .onNewPort)
  modify fun σ => { σ with inPort := true }
  let more ← readContent fuel (readAt fuel (← get).inGroup)
  if !more then
    modify fun σ => { σ with inPort := false }
    content (call .onPortEnd)
  if !(← content good) then content (modify fun r => { r with state := .broken })

def startParse : Parse Unit := modify fun σ =>
  { σ with
    reading := { σ.reading with inCell := false, inMeta := false, inDict := false }
    groupId := 0
    inPort := true }

/-- One field of `StopParse`: what is open is closed. -/
def closeOpen (isOpen : Reading → Bool) (close : Reading → Reading) (onEnd : Event) :
    Read Unit := do
  if isOpen (← get) then
    modify close
    call onEnd

def stopParse : Parse Unit := do
  content (closeOpen (·.inCell) (fun r => { r with inCell := false }) .onCellEnd)
  content (closeOpen (·.inMeta) (fun r => { r with inMeta := false }) .onMetaEnd)
  content (closeOpen (·.inDict) (fun r => { r with inDict := false }) .onDictEnd)
  content (closeOpen (·.inRow) (fun r => { r with inRow := false }) .onRowEnd)
  content (closeOpen (·.inTable) (fun r => { r with inTable := false }) .onTableEnd)
  if (← get).groupId ≠ 0 then
    modify fun σ => { σ with groupId := 0 }
    content (call .onGroupAbortEnd)
  if (← get).inPort then
    modify fun σ => { σ with inPort := false }
    content (call .onPortEnd)

def parseChunk (fuel : ℕ) : Parse Unit := do
  match (← get).reading.state with
  | .port => onPortState fuel
  | .start =>
    startParse
    content (modify fun r => { r with state := .port })
  | .done =>
    content (modify fun r => { r with isDone := true })
    stopParse
  | .broken =>
    content (modify fun r => { r with isBroken := true })
    stopParse

/-- The calls of `ParseMore` until the parser is done or broken.  The last
argument bounds them. -/
def parseMore (fuel : ℕ) : ℕ → Parse Unit
  | 0 => content outOfFuel
  | chunks + 1 => do
    let r := (← get).reading
    if r.isDone || r.isBroken then return ()
    else
      parseChunk fuel
      parseMore fuel chunks

/-- The fields of a new parser that reading content uses. -/
def Reading.new : Reading :=
  ⟨false, false, false, false, false, .start, false, false, some 0, []⟩

def Parser.new : Parser := ⟨.new, false, false, 0⟩

def parse (fuel chunks : ℕ) (file : List UInt8) : Option (Prog.Result Note (Unit × Parser)) :=
  parseMore fuel chunks .new file

/-! ## Runs of the parser -/

/-- The run of a part of the parser. -/
def scan {α : Type} (p : Parse α) (σ : Parser) (s : List UInt8) :
    Option (Prog.Result Note (α × Parser)) :=
  p.run σ s

section Scan

variable {α β : Type} (σ : Parser) (s : List UInt8)

@[simp] theorem scan_pure (a : α) : scan (pure a) σ s = some ⟨(a, σ), [], s, false⟩ := rfl

@[simp] theorem scan_bind (p : Parse α) (f : α → Parse β) :
    scan (p >>= f) σ s = (scan p σ s).bind fun res =>
      (scan (f res.value.1) res.value.2 res.rest).map res.andThen := rfl

@[simp] theorem scan_content (p : Read α) :
    scan (content p) σ s = (exec p σ.reading s).map fun res =>
      ⟨(res.value.1, { σ with reading := res.value.2 }), res.out, res.rest, res.hitEof⟩ := rfl

@[simp] theorem scan_map (f : α → β) (p : Parse α) :
    scan (f <$> p) σ s = (scan p σ s).map fun res =>
      ⟨(f res.value.1, res.value.2), res.out, res.rest, res.hitEof⟩ := by
  rw [map_eq_pure_bind, scan_bind]
  cases scan p σ s <;> simp [Prog.Result.andThen]

@[simp] theorem scan_get : scan get σ s = some ⟨(σ, σ), [], s, false⟩ := rfl

@[simp] theorem scan_modify (f : Parser → Parser) :
    scan (modify f) σ s = some ⟨((), f σ), [], s, false⟩ := rfl

@[simp] theorem scan_tell : scan tell σ s = some ⟨(s, σ), [], s, false⟩ := rfl

@[simp] theorem scan_seek (pos : List UInt8) :
    scan (seek pos) σ s = some ⟨((), σ), [], pos, false⟩ := rfl

end Scan

end CommCentral.Mork
