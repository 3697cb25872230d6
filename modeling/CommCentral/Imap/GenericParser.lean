import Mathlib.Data.List.TakeWhile
import CommCentral.Base.LineBuffer

/-!
# The generic IMAP parser

The model of the tokenizer of `nsIMAPGenericParser`.  The parser keeps a line of the response
twice.  `NS_strtok` cuts one copy up, by a NUL behind each token it has found, and the other
one stays as it was received.  `AdvanceTokenizerStartingPoint` moves the tokenizer behind a
string that is not made of whole tokens, and puts back the byte that the last NUL replaced.

Pointers into the two copies are offsets.  A function is `none` when it would leave them.
`NS_strtok` is not part of the parser: `Strtok` says what is known of it, and everything here
holds for any such function.
-/

namespace CommCentral.Imap

open List

open Base (cr lf)

/-! ## The tokens of a line -/

/-- `WHITESPACE`. -/
def isWhitespace (c : UInt8) : Bool := c = ' '.toUInt8 ∨ c = cr ∨ c = lf

/-- The string at the beginning of some bytes. -/
def cstr (text : List UInt8) : List UInt8 := text.takeWhile (· ≠ 0)

/-- The bytes up to the next whitespace. -/
def word (text : List UInt8) : List UInt8 := text.takeWhile fun c => !isWhitespace c

/-- The bytes behind them. -/
def behindWord (text : List UInt8) : List UInt8 := text.dropWhile fun c => !isWhitespace c

/-- The token that follows in a line: `CRLF` when there is only whitespace. -/
def followingToken (text : List UInt8) : List UInt8 :=
  if text.all isWhitespace then [cr, lf] else word (text.dropWhile isWhitespace)

/-- A text whose first byte is overwritten with a NUL, if there is one. -/
def cutFirst : List UInt8 → List UInt8
  | [] => []
  | _ :: more => 0 :: more

/-- `NS_strtok` with `WHITESPACE`: the string, the new place in it, and the token.  At the end
of the string there is no token.  Behind a token the delimiter is overwritten with a NUL, and
the place is null when there is none. -/
structure Strtok where
  /-- The function, with null for no place and no token. -/
  next : List UInt8 → Option ℕ → List UInt8 × Option ℕ × Option ℕ
  next_null : ∀ text, next text none = (text, none, none)
  next_blank : ∀ text p, p ≤ text.length → (text.drop p).all isWhitespace →
    ∃ place, next text (some p) = (text, place, none) ∧ ∀ q, place = some q → q ≤ text.length
  next_word : ∀ before blank text, blank.all isWhitespace → word text ≠ [] → 0 ∉ text →
    next (before ++ blank ++ text) (some before.length) =
      (before ++ blank ++ word text ++ cutFirst (behindWord text),
        if behindWord text = [] then none else
          some ((before ++ blank).length + (word text).length + 1),
        some (before ++ blank).length)

/-! ## The parser -/

inductive NextToken
  | null
  | crlf
  | at (offset : ℕ)
deriving DecidableEq, Repr

/-- `nsIMAPGenericParser`, with the lines that `GetNextLineForParser` will return before the
connection is closed. -/
structure Parser where
  lines : List (List UInt8)
  nextToken : NextToken
  currentLine : Option (List UInt8)
  lineOfTokens : ℕ
  startOfLineOfTokens : Option (List UInt8)
  currentTokenPlaceHolder : Option ℕ
  atEndOfLine : Bool
  syntaxError : Bool
  /-- The opposite of `stateDisconnectedFlag`. -/
  connected : Bool
deriving DecidableEq, Repr

/-- A parser in front of some lines. -/
def Parser.start (lines : List (List UInt8)) : Parser :=
  ⟨lines, .null, none, 0, none, none, false, false, true⟩

def Parser.continueParse (s : Parser) : Bool := s.connected && !s.syntaxError

/-- `SetSyntaxError(true, …)`. -/
def Parser.setSyntaxError (s : Parser) : Parser := { s with syntaxError := true }

/-- The string at `fNextToken`. -/
def Parser.tokenText (s : Parser) : Option (List UInt8) :=
  match s.nextToken with
  | .null => none
  | .crlf => some [cr, lf]
  | .at t => s.startOfLineOfTokens.map fun tokens => cstr (tokens.drop t)

def advanceToNextLine (s : Parser) : Parser :=
  match s.lines with
  | [] =>
    { s with
      nextToken := .crlf
      currentLine := none
      lineOfTokens := 0
      startOfLineOfTokens := none
      currentTokenPlaceHolder := none
      atEndOfLine := true
      connected := false }
  | line :: lines =>
    { s with
      lines := lines
      nextToken := .null
      currentLine := some line
      startOfLineOfTokens := none
      atEndOfLine := line.all isWhitespace }

/-- The first token of the line sets up the tokenizer. -/
def setupTokenizer (s : Parser) : Parser :=
  if s.startOfLineOfTokens = none then
    { s with
      startOfLineOfTokens := some (s.currentLine.getD [])
      lineOfTokens := 0
      currentTokenPlaceHolder := some 0 }
  else s

/-- The call of `NS_strtok`. -/
def callStrtok (T : Strtok) (s : Parser) : Parser :=
  let r := T.next (s.startOfLineOfTokens.getD []) s.currentTokenPlaceHolder
  { s with
    startOfLineOfTokens := some r.1
    currentTokenPlaceHolder := r.2.1
    nextToken := r.2.2.elim .crlf .at
    atEndOfLine := if r.2.2 = none then true else s.atEndOfLine }

def advanceToNextToken (T : Strtok) (s : Parser) : Parser :=
  let s := if s.currentLine = none ∨ s.atEndOfLine then advanceToNextLine s else s
  if s.connected then callStrtok T (setupTokenizer s) else s

/-- The token separator is recovered: the last call of `NS_strtok` cleared it exactly when the
place is not null. -/
def recoverSeparator (tokens line : List UInt8) : Option ℕ → List UInt8
  | some (endToken + 1) => tokens.set endToken (line.getD endToken 0)
  | _ => tokens

def advanceTokenizerStartingPoint (T : Strtok) (s : Parser) (bytesToAdvance : ℤ) :
    Option Parser :=
  let s := if s.startOfLineOfTokens = none then advanceToNextToken T s else s
  match s.startOfLineOfTokens with
  | none => some s
  | some tokens =>
    let tokens := recoverSeparator tokens (s.currentLine.getD []) s.currentTokenPlaceHolder
    let start := s.lineOfTokens + bytesToAdvance
    if 0 ≤ start ∧ start ≤ tokens.length then
      some { s with
        startOfLineOfTokens := some tokens
        lineOfTokens := start.toNat
        currentTokenPlaceHolder := some start.toNat }
    else none

/-! ## The strings of a response -/

/-- The characters of an atom.  `char` is signed, and those from 128 on are negative. -/
def isAtomChar (isAstring : Bool) (c : UInt8) : Bool :=
  ((42 < c ∧ c < 128) ∨ c = 33 ∨ c = 35 ∨ c = 36 ∨ c = 38 ∨ c = 39) ∧
    c ≠ '\\'.toUInt8 ∧ c ≠ '{'.toUInt8 ∧ (isAstring ∨ c ≠ ']'.toUInt8)

def createAtom (T : Strtok) (s : Parser) (isAstring : Bool) :
    Option (Parser × Option (List UInt8)) := do
  let token ← s.tokenText
  let atom := token.takeWhile (isAtomChar isAstring)
  if atom = [] then some (s.setSyntaxError, none)
  else if atom.length < token.length then do
    -- not the whole token was consumed
    match s.nextToken with
    | .at t =>
      let s ← advanceTokenizerStartingPoint T s (t - s.lineOfTokens + atom.length)
      return (s, some atom)
    | _ => none
  else return (s, some atom)

/-- The loop of `CreateQuoted` from `charIndex` on, which cuts the escape characters out of
`returnString`: the string, and how many were cut.  It is `none` without a closing quote. -/
def quotedLoop : ℕ → List UInt8 → ℕ → ℕ → Option (List UInt8 × ℕ)
  | 0, _, _, _ => none
  | fuel + 1, returnString, charIndex, escapeCharsCut =>
    match returnString[charIndex]? with
    | none => none
    | some c =>
      if c = '"'.toUInt8 then some (returnString.take charIndex, escapeCharsCut)
      else if c = '\\'.toUInt8 then
        quotedLoop fuel (returnString.eraseIdx charIndex) (charIndex + 1) (escapeCharsCut + 1)
      else quotedLoop fuel returnString (charIndex + 1) escapeCharsCut

def createQuoted (T : Strtok) (s : Parser) : Option (Parser × Option (List UInt8)) :=
  match s.nextToken, s.currentLine with
  | .at t, some line =>
    match quotedLoop (line.length + 1) (line.drop (t + 1)) 0 0 with
    | none => some (s.setSyntaxError, none)
    | some (returnString, escapeCharsCut) => do
      let s ← advanceTokenizerStartingPoint T s
        (t - s.lineOfTokens + returnString.length + escapeCharsCut + 2)
      return (s, some returnString)
  | _, _ => none

def isDigit (c : UInt8) : Bool := '0'.toUInt8 ≤ c ∧ c ≤ '9'.toUInt8

/-- The number that some digits stand for. -/
def decimal (digits : List UInt8) : ℕ :=
  digits.foldl (fun n c => 10 * n + (c.toNat - '0'.toNat)) 0

/-- `atoi`, which is not defined outside of the range of an `int`. -/
def atoi (text : List UInt8) : Option ℤ :=
  let text := text.dropWhile fun c => c = ' '.toUInt8 ∨ (9 ≤ c ∧ c ≤ 13)
  let negative : Bool := text.head? = some '-'.toUInt8
  let text := if negative ∨ text.head? = some '+'.toUInt8 then text.tail else text
  let n : ℤ := decimal (text.takeWhile isDigit)
  let n := if negative then -n else n
  if -2 ^ 31 ≤ n ∧ n < 2 ^ 31 then some n else none

/-- The loop of `CreateLiteral`, at most as often as there are lines: the parser, the bytes
that were read, `currentLineLength` and `bytesToCopy`. -/
def literalLoop : ℕ → Parser → ℤ → List UInt8 → ℕ → ℕ → Parser × List UInt8 × ℕ × ℕ
  | 0, s, _, read, currentLineLength, bytesToCopy => (s, read, currentLineLength, bytesToCopy)
  | fuel + 1, s, size, read, currentLineLength, bytesToCopy =>
    if read.length < size then
      let s := advanceToNextLine s
      if s.continueParse then
        let line := s.currentLine.getD []
        let bytesToCopy := min line.length (size.toNat - read.length)
        literalLoop fuel s size (read ++ line.take bytesToCopy) line.length bytesToCopy
      else (s, read, currentLineLength, bytesToCopy)
    else (s, read, currentLineLength, bytesToCopy)

def createLiteral (T : Strtok) (s : Parser) : Option (Parser × Option (List UInt8)) := do
  let token ← s.tokenText
  let size ← atoi token.tail
  if size = -1 then return (s, none)
  else do
    let (s, read, currentLineLength, bytesToCopy) :=
      literalLoop (s.lines.length + 1) s size [] 0 0
    if s.continueParse then
      if currentLineLength = bytesToCopy then
        -- the entire line was consumed
        return (advanceToNextLine s, some read)
      else do
        let s ← advanceTokenizerStartingPoint T s bytesToCopy
        return (s, some read)
    else return (s, some read)

def createString (T : Strtok) (s : Parser) : Option (Parser × Option (List UInt8)) := do
  let token ← s.tokenText
  if token.head? = some '{'.toUInt8 then createLiteral T s
  else if token.head? = some '"'.toUInt8 then createQuoted T s
  else return (s.setSyntaxError, none)

def createAstring (T : Strtok) (s : Parser) : Option (Parser × Option (List UInt8)) := do
  let token ← s.tokenText
  if token.head? = some '{'.toUInt8 then createLiteral T s
  else if token.head? = some '"'.toUInt8 then createQuoted T s
  else createAtom T s true

/-! ## Words and whitespace -/

theorem word_append_behindWord (text : List UInt8) : word text ++ behindWord text = text :=
  takeWhile_append_dropWhile

variable {text : List UInt8}

theorem not_isWhitespace_of_mem_word {c : UInt8} (h : c ∈ word text) : isWhitespace c = false := by
  simpa using mem_takeWhile_imp h

theorem word_drop {k : ℕ} (h : k ≤ (word text).length) :
    word (text.drop k) = (word text).drop k ∧ behindWord (text.drop k) = behindWord text := by
  induction text generalizing k with
  | nil => simp [word, behindWord]
  | cons c cs ih =>
    cases k with
    | zero => simp
    | succ k =>
      cases hc : isWhitespace c with
      | true => simp [word, hc] at h
      | false =>
        have hk : k ≤ (word cs).length := by simpa [word, hc] using h
        simpa [word, behindWord, hc] using ih hk

theorem length_cutFirst (text : List UInt8) : (cutFirst text).length = text.length := by
  cases text <;> rfl

theorem cstr_word_cutFirst (h : 0 ∉ text) (more : List UInt8) :
    cstr (word text ++ cutFirst more) = word text := by
  have hword : ∀ c ∈ word text, (decide (c ≠ 0)) = true := by
    intro c hc
    have hmem : c ∈ text := takeWhile_subset _ hc
    have hne : c ≠ 0 := fun h0 => h (h0 ▸ hmem)
    simpa using hne
  rw [cstr, takeWhile_append_of_pos hword]
  cases more <;> simp [cutFirst]

theorem all_isWhitespace_iff (text : List UInt8) :
    text.all isWhitespace = true ↔ word (text.dropWhile isWhitespace) = [] := by
  induction text with
  | nil => simp [word]
  | cons c cs ih =>
    cases hc : isWhitespace c with
    | true => simpa [hc] using ih
    | false => simp [hc, word]

theorem dropWhile_blank {blank : List UInt8} (hblank : blank.all isWhitespace = true)
    (hword : word text ≠ []) :
    (blank ++ text).takeWhile isWhitespace = blank ∧
      (blank ++ text).dropWhile isWhitespace = text := by
  rw [all_eq_true] at hblank
  rw [takeWhile_append_of_pos hblank, dropWhile_append_of_pos hblank]
  cases text with
  | nil => exact ⟨by simp, rfl⟩
  | cons c cs =>
    have hc : isWhitespace c = false := by
      cases hw : isWhitespace c with
      | true => simp [word, hw] at hword
      | false => rfl
    simp [hc]

theorem not_isWhitespace_null : ¬ isWhitespace 0 = true := by decide

/-- A call of `NS_strtok`, as it is documented. -/
def strtokNext (text : List UInt8) : Option ℕ → List UInt8 × Option ℕ × Option ℕ
  | none => (text, none, none)
  | some p =>
    let rest := cstr (text.drop p)
    let start := p + (rest.takeWhile isWhitespace).length
    let token := rest.dropWhile isWhitespace
    if word token = [] then (text, some start, none)
    else if behindWord token = [] then (text, none, some start)
    else (text.set (start + (word token).length) 0, some (start + (word token).length + 1),
      some start)

open Option

theorem strtokNext_blank (text : List UInt8) (p : ℕ) (_ : p ≤ text.length)
    (hblank : (text.drop p).all isWhitespace) :
    ∃ place, strtokNext text (some p) = (text, place, none) ∧
      ∀ q, place = some q → q ≤ text.length := by
  have hnull : cstr (text.drop p) = text.drop p := by
    rw [cstr, takeWhile_eq_self_iff]
    intro c hc
    have hspace := all_eq_true.mp hblank c hc
    simpa using fun h0 : c = 0 => by
      rw [h0] at hspace
      exact absurd hspace not_isWhitespace_null
  have htoken := (all_isWhitespace_iff _).mp hblank
  have htake : (text.drop p).takeWhile isWhitespace = text.drop p := by
    rw [takeWhile_eq_self_iff]
    exact fun c hc => all_eq_true.mp hblank c hc
  refine ⟨some (p + (text.drop p).length), by simp [strtokNext, hnull, htoken, htake], fun q hq => ?_⟩
  rw [← some.inj hq, length_drop]
  omega

theorem strtokNext_word (before blank text : List UInt8) (hblank : blank.all isWhitespace)
    (hword : word text ≠ []) (hnull : 0 ∉ text) :
    strtokNext (before ++ blank ++ text) (some before.length) =
      (before ++ blank ++ word text ++ cutFirst (behindWord text),
        if behindWord text = [] then none else
          some ((before ++ blank).length + (word text).length + 1),
        some (before ++ blank).length) := by
  have hdrop : (before ++ blank ++ text).drop before.length = blank ++ text := by simp
  have hcstr : cstr (blank ++ text) = blank ++ text := by
    rw [cstr, takeWhile_eq_self_iff]
    intro c hc
    have hne : c ≠ 0 := by
      rintro rfl
      rcases mem_append.mp hc with hc | hc
      · exact not_isWhitespace_null (all_eq_true.mp hblank 0 hc)
      · exact hnull hc
    simpa using hne
  obtain ⟨htake, hrest⟩ := dropWhile_blank hblank hword
  have hsplit := word_append_behindWord text
  simp only [strtokNext, hdrop, hcstr, htake, hrest, if_neg hword, ← length_append]
  cases hb : behindWord text with
  | nil =>
    rw [hb, List.append_nil] at hsplit
    simp [cutFirst, hsplit]
  | cons c cs =>
    rw [hb] at hsplit
    have htext : before ++ blank ++ text = before ++ blank ++ word text ++ c :: cs := by
      rw [append_assoc _ (word text), hsplit]
    have hset : (before ++ blank ++ text).set (before ++ blank ++ word text).length 0 =
        before ++ blank ++ word text ++ 0 :: cs := by
      rw [htext, set_append_right _ _ (Nat.le_refl _), Nat.sub_self]
      rfl
    rw [hset]
    rfl

def nsStrtok : Strtok where
  next := strtokNext
  next_null _ := rfl
  next_blank := strtokNext_blank
  next_word := strtokNext_word

/-! ## The place of the tokenizer -/

/-- The tokenizer will go on with `rest`. -/
def Ready (s : Parser) (rest : List UInt8) : Prop :=
  ∃ line, s.currentLine = some line ∧ 0 ∉ line ∧
    ((s.startOfLineOfTokens = none ∧ rest = line) ∨
      ∃ tokens, s.startOfLineOfTokens = some tokens ∧ tokens.length = line.length ∧
        ((s.currentTokenPlaceHolder = none ∧ rest = []) ∨
          ∃ p, s.currentTokenPlaceHolder = some p ∧ s.lineOfTokens ≤ p ∧ p ≤ line.length ∧
            tokens.drop p = rest ∧ line.drop p = rest))

/-- The parser stands on a token at `t` in its line, found from `start` on. -/
structure OnToken (s : Parser) (line : List UInt8) (start t : ℕ) : Prop where
  currentLine : s.currentLine = some line
  noNull : 0 ∉ line
  next : s.nextToken = .at t
  lineOfTokens_le : s.lineOfTokens ≤ start
  start_le : start ≤ t
  le : t ≤ line.length
  /-- The other copy of the line has a NUL behind the token, and that is recovered. -/
  tokens : ∃ tokens, s.startOfLineOfTokens = some tokens ∧ tokens.length = line.length ∧
    tokens.drop t = word (line.drop t) ++ cutFirst (behindWord (line.drop t)) ∧
    (recoverSeparator tokens line s.currentTokenPlaceHolder).drop start = line.drop start
  place : s.currentTokenPlaceHolder = if behindWord (line.drop t) = [] then none else
    some (t + (word (line.drop t)).length + 1)

/-- What the tokenizer leaves alone. -/
structure SameInput (s s' : Parser) : Prop where
  lines : s'.lines = s.lines
  currentLine : s'.currentLine = s.currentLine
  syntaxError : s'.syntaxError = s.syntaxError
  connected : s'.connected = s.connected

variable {line : List UInt8} {s : Parser} {start t : ℕ}

theorem OnToken.tokenText (h : OnToken s line start t) : s.tokenText = some (word (line.drop t)) := by
  obtain ⟨tokens, htokens, -, hdrop, -⟩ := h.tokens
  have hnull : 0 ∉ line.drop t := fun h0 => h.noNull (mem_of_mem_drop h0)
  rw [Parser.tokenText, h.next, htokens]
  simp [hdrop, cstr_word_cutFirst hnull]

theorem OnToken.move {k : ℕ} (h : OnToken s line start t) (hk : k ≤ (word (line.drop t)).length) :
    OnToken { s with nextToken := .at (t + k) } line start (t + k) := by
  obtain ⟨tokens, htokens, hlen, hdrop, hrecover⟩ := h.tokens
  obtain ⟨hword, hbehind⟩ := word_drop hk
  rw [drop_drop] at hword hbehind
  refine ⟨h.currentLine, h.noNull, rfl, h.lineOfTokens_le, Nat.le_add_right_of_le h.start_le, ?_,
    ⟨tokens, htokens, hlen, ?_, hrecover⟩, ?_⟩
  · have hle := takeWhile_prefix (l := line.drop t) (fun c => !isWhitespace c) |>.length_le
    have hlt := h.le
    rw [length_drop] at hle
    rw [word] at hk
    omega
  · rw [← drop_drop, hdrop, drop_append_of_le_length hk, hword, hbehind]
  · have hplace := h.place
    have hsum : t + k + ((word (line.drop t)).length - k) + 1 =
        t + (word (line.drop t)).length + 1 := by omega
    rw [hword, hbehind, length_drop, hsum]
    exact hplace

/-! ## The next token -/

theorem sameInput_callStrtok (T : Strtok) (s : Parser) :
    SameInput s (callStrtok T (setupTokenizer s)) := by
  rw [setupTokenizer]
  split <;> exact ⟨rfl, rfl, rfl, rfl⟩

variable {rest : List UInt8}

/-- The tokenizer is set up at the place where it goes on. -/
theorem Ready.setup (h : Ready s rest) :
    ∃ line tokens, s.currentLine = some line ∧ 0 ∉ line ∧ tokens.length = line.length ∧
      (setupTokenizer s).startOfLineOfTokens = some tokens ∧
      (setupTokenizer s).atEndOfLine = s.atEndOfLine ∧
      (setupTokenizer s).currentLine = some line ∧
      (((setupTokenizer s).currentTokenPlaceHolder = none ∧ rest = []) ∨
        ∃ p, (setupTokenizer s).currentTokenPlaceHolder = some p ∧
          (setupTokenizer s).lineOfTokens ≤ p ∧ p ≤ line.length ∧
          tokens.drop p = rest ∧ line.drop p = rest) := by
  obtain ⟨line, hline, hnull, ⟨hstart, rfl⟩ | ⟨tokens, htokens, hlen, hplace⟩⟩ := h
  · refine ⟨rest, rest, hline, hnull, rfl, ?_, ?_, ?_, .inr ⟨0, ?_, ?_, Nat.zero_le _, rfl, rfl⟩⟩
    all_goals simp [setupTokenizer, hstart, hline]
  · have hsame : setupTokenizer s = s := by simp [setupTokenizer, htokens]
    rw [hsame]
    exact ⟨line, tokens, hline, hnull, hlen, htokens, rfl, hline, hplace⟩

/-- The separator behind a token is recovered from the line. -/
theorem recoverSeparator_cut {before : List UInt8} (h : line.drop before.length = text) :
    recoverSeparator (before ++ word text ++ cutFirst (behindWord text)) line
      (if behindWord text = [] then none else some (before.length + (word text).length + 1)) =
      before ++ text := by
  have htext := word_append_behindWord text
  cases hb : behindWord text with
  | nil =>
    rw [hb, List.append_nil] at htext
    simp [recoverSeparator, cutFirst, htext]
  | cons c cs =>
    rw [hb] at htext
    have hget : getElem? line (before.length + (word text).length) = some c := by
      have hsame : text[(word text).length]? = (word text ++ c :: cs)[(word text).length]? := by
        rw [htext]
      rw [← getElem?_drop, h, hsame]
      simp
    have hset : (before ++ word text ++ 0 :: cs).set (before.length + (word text).length) c =
        before ++ word text ++ c :: cs := by
      simp
    have hcut : cutFirst (c :: cs) = 0 :: cs := rfl
    rw [if_neg (cons_ne_nil c cs), recoverSeparator, hcut, getD_eq_getElem?_getD, hget,
      getD_some, hset, append_assoc, htext]

/-- The next token is the one that follows, and the parser stands on it. -/
theorem Ready.next_spec (T : Strtok) (h : Ready s rest) :
    (callStrtok T (setupTokenizer s)).tokenText = some (followingToken rest) ∧
      ((rest.all isWhitespace = true ∧ (callStrtok T (setupTokenizer s)).nextToken = .crlf ∧
          (callStrtok T (setupTokenizer s)).atEndOfLine = true) ∨
        (rest.all isWhitespace = false ∧
          (callStrtok T (setupTokenizer s)).atEndOfLine = s.atEndOfLine ∧
          ∃ line start t, line.drop start = rest ∧ s.currentLine = some line ∧
            OnToken (callStrtok T (setupTokenizer s)) line start t)) := by
  obtain ⟨line, tokens, hline, hnull, hlen, htokens, hend, hcurrent, hplace⟩ := h.setup
  rw [callStrtok, htokens, getD_some]
  rcases hplace with ⟨hplace, rfl⟩ | ⟨p, hplace, hstart, hp, hcopy, hrest⟩
  · rw [hplace, T.next_null]
    exact ⟨rfl, .inl ⟨rfl, rfl, rfl⟩⟩
  · rw [hplace]
    cases hblank : rest.all isWhitespace with
    | true =>
      obtain ⟨place, hnext, -⟩ := T.next_blank tokens p (hlen ▸ hp) (hcopy ▸ hblank)
      rw [hnext]
      exact ⟨by simp [Parser.tokenText, followingToken, hblank], .inl ⟨rfl, rfl, rfl⟩⟩
    | false =>
      obtain ⟨blank, text, hblanks, htext, rfl⟩ : ∃ blank text,
          blank.all isWhitespace = true ∧ text = rest.dropWhile isWhitespace ∧
            rest = blank ++ text :=
        ⟨rest.takeWhile isWhitespace, _, all_takeWhile, rfl,
          takeWhile_append_dropWhile.symm⟩
      obtain ⟨before, hbefore, hcopy'⟩ : ∃ before, before.length = p ∧
          tokens = before ++ blank ++ text := by
        refine ⟨tokens.take p, ?_, ?_⟩
        · rw [length_take, hlen]
          exact Nat.min_eq_left hp
        · rw [append_assoc, ← hcopy, take_append_drop]
      have hword : word text ≠ [] := by
        rw [htext]
        intro hnil
        rw [(all_isWhitespace_iff _).mpr hnil] at hblank
        cases hblank
      have hmem : ∀ c ∈ text, c ∈ line := fun c hc =>
        mem_of_mem_drop (hrest ▸ mem_append_right blank hc)
      have hnext := T.next_word before blank text hblanks hword fun h0 => hnull (hmem 0 h0)
      have hdrop : line.drop (before ++ blank).length = text := by
        rw [length_append, hbefore, ← drop_drop, hrest, drop_left]
      rw [← hbefore, hcopy', hnext]
      have hle : (before ++ blank).length ≤ line.length := by
        have hsum := congrArg List.length hcopy'
        rw [length_append] at hsum
        omega
      have hfollow : followingToken (blank ++ text) = word text := by
        rw [followingToken, hblank, ← htext]
        rfl
      have htoken : OnToken
          { setupTokenizer s with
            startOfLineOfTokens :=
              some (before ++ blank ++ word text ++ cutFirst (behindWord text))
            currentTokenPlaceHolder := if behindWord text = [] then none else
              some ((before ++ blank).length + (word text).length + 1)
            nextToken := .at (before ++ blank).length }
          line before.length (before ++ blank).length := by
        refine ⟨hcurrent, hnull, rfl, hbefore ▸ hstart, by simp, hle, ⟨_, rfl, ?_, ?_, ?_⟩, ?_⟩
        · have hsplit := congrArg List.length (word_append_behindWord text)
          rw [← hlen, hcopy']
          simp only [length_append, length_cutFirst] at hsplit ⊢
          omega
        · rw [hdrop, append_assoc _ (word text), drop_left]
        · rw [recoverSeparator_cut hdrop, append_assoc, drop_left, hbefore, hrest]
        · rw [hdrop]
      refine ⟨?_, .inr ⟨rfl, hend, line, before.length, (before ++ blank).length, ?_, hline,
        htoken⟩⟩
      · have htext' := htoken.tokenText
        rw [hdrop] at htext'
        rw [hfollow]
        exact htext'
      · rw [hbefore, hrest]

/-- The tokenizer goes on at a place behind the start of the token. -/
theorem OnToken.advanceStart (T : Strtok) (h : OnToken s line start t) {q : ℕ} (hstart : start ≤ q)
    (hq : q ≤ line.length) :
    ∃ s', advanceTokenizerStartingPoint T s (q - s.lineOfTokens) = some s' ∧
      Ready s' (line.drop q) ∧ SameInput s s' ∧ s'.atEndOfLine = s.atEndOfLine := by
  obtain ⟨tokens, htokens, hlen, -, hrecover⟩ := h.tokens
  have hlen' : (recoverSeparator tokens line s.currentTokenPlaceHolder).length = line.length := by
    rw [← hlen]
    unfold recoverSeparator
    split
    · exact length_set
    · rfl
  have hsum : (s.lineOfTokens : ℤ) + (q - s.lineOfTokens) = q := by omega
  have hrest : (recoverSeparator tokens line s.currentTokenPlaceHolder).drop q = line.drop q := by
    have hsplit : q = start + (q - start) := by omega
    rw [hsplit, ← drop_drop, hrecover, drop_drop]
  rw [advanceTokenizerStartingPoint]
  simp only [htokens, h.currentLine, getD_some, reduceCtorEq, if_false, hsum, hlen']
  rw [if_pos ⟨Int.natCast_nonneg q, by exact_mod_cast hq⟩]
  refine ⟨_, rfl, ⟨line, rfl, h.noNull, .inr ⟨_, rfl, hlen', .inr ⟨q, ?_, ?_, hq, ?_⟩⟩⟩,
    ⟨rfl, h.currentLine.symm, rfl, rfl⟩, rfl⟩
  · simp
  · simp
  · exact ⟨hrest, rfl⟩

/-- Behind its token the parser is ready for the rest of the line. -/
theorem OnToken.ready (h : OnToken s line start t) : Ready s (behindWord (line.drop t)).tail := by
  obtain ⟨tokens, htokens, hlen, hdrop, -⟩ := h.tokens
  have hplace := h.place
  have hsplit := word_append_behindWord (line.drop t)
  refine ⟨line, h.currentLine, h.noNull, .inr ⟨tokens, htokens, hlen, ?_⟩⟩
  cases hb : behindWord (line.drop t) with
  | nil =>
    rw [hb] at hplace
    exact .inl ⟨hplace, rfl⟩
  | cons c cs =>
    rw [hb] at hplace
    rw [hb] at hsplit hdrop
    have hlength := congrArg List.length hsplit
    rw [length_append, length_cons, length_drop] at hlength
    have hstart := h.start_le
    have hline := h.lineOfTokens_le
    have hsum : t + (word (line.drop t)).length + 1 = t + ((word (line.drop t)).length + 1) := rfl
    refine .inr ⟨_, hplace, by omega, by omega, ?_, ?_⟩
    · rw [hsum, ← drop_drop, hdrop]
      simp [cutFirst, drop_append]
    · have hbehind := congrArg (List.drop ((word (line.drop t)).length + 1)) hsplit
      rw [hsum, ← drop_drop, ← hbehind]
      simp [drop_append]

/-! ## Runs of the parser -/

/-- What holds between the calls of the parser. -/
structure Parser.Inv (s : Parser) : Prop where
  /-- The lines are strings, and contain their line break at least. -/
  lines : ∀ l ∈ s.lines, l ≠ [] ∧ 0 ∉ l
  closed : s.connected = false → s.lines = [] ∧ s.atEndOfLine = true
  place : s.atEndOfLine = true ∨ s.currentLine = none ∨ ∃ rest, Ready s rest

/-- Where the parser is behind `AdvanceToNextToken`: at the end of the line, or on a token. -/
def Placed (s : Parser) : Prop :=
  (s.nextToken = .crlf ∧ s.atEndOfLine = true) ∨
    s.atEndOfLine = false ∧ ∃ line start t, OnToken s line start t

theorem Parser.inv_start {lines : List (List UInt8)} (h : ∀ l ∈ lines, l ≠ [] ∧ 0 ∉ l) :
    (Parser.start lines).Inv :=
  ⟨h, by simp [Parser.start], .inr (.inl rfl)⟩

theorem Parser.Inv.setSyntaxError (h : s.Inv) : s.setSyntaxError.Inv :=
  ⟨h.lines, h.closed, h.place⟩

theorem advanceToNextLine_cons {lines : List (List UInt8)} (h : s.lines = line :: lines)
    (hline : 0 ∉ line) :
    Ready (advanceToNextLine s) line ∧ (advanceToNextLine s).lines = lines ∧
      (advanceToNextLine s).currentLine = some line ∧
      (advanceToNextLine s).startOfLineOfTokens = none ∧
      (advanceToNextLine s).connected = s.connected ∧
      (advanceToNextLine s).syntaxError = s.syntaxError ∧
      (advanceToNextLine s).atEndOfLine = line.all isWhitespace := by
  simp [advanceToNextLine, h, Ready, hline]

theorem advanceToNextLine_nil (h : s.lines = []) :
    (advanceToNextLine s).lines = [] ∧ (advanceToNextLine s).connected = false ∧
      (advanceToNextLine s).nextToken = .crlf ∧ (advanceToNextLine s).atEndOfLine = true ∧
      (advanceToNextLine s).startOfLineOfTokens = none := by
  simp [advanceToNextLine, h]

theorem Parser.Inv.advanceToNextLine (h : s.Inv) : (advanceToNextLine s).Inv := by
  cases hlines : s.lines with
  | nil =>
    obtain ⟨hnil, -, -, hend, -⟩ := advanceToNextLine_nil hlines
    exact ⟨by simp [hnil], fun _ => ⟨hnil, hend⟩, .inl hend⟩
  | cons line lines =>
    have hline := h.lines line (by simp [hlines])
    obtain ⟨hready, hrest, -, -, hconnected, -⟩ := advanceToNextLine_cons hlines hline.2
    refine ⟨fun l hl => h.lines l ?_, fun hc => ?_, .inr (.inr ⟨_, hready⟩)⟩
    · rw [hlines]
      exact mem_cons_of_mem line (hrest ▸ hl)
    · rw [hconnected] at hc
      have hnil := (h.closed hc).1
      rw [hlines] at hnil
      cases hnil

theorem Parser.Inv.next (T : Strtok) (h : s.Inv) (hready : Ready s rest) :
    (callStrtok T (setupTokenizer s)).Inv ∧
      (((callStrtok T (setupTokenizer s)).nextToken = .crlf ∧
          (callStrtok T (setupTokenizer s)).atEndOfLine = true) ∨
        (rest.all isWhitespace = false ∧
          (callStrtok T (setupTokenizer s)).atEndOfLine = s.atEndOfLine ∧
          ∃ line start t, OnToken (callStrtok T (setupTokenizer s)) line start t ∧
            line.drop start = rest ∧ s.currentLine = some line)) := by
  have hsame := sameInput_callStrtok T s
  have hlines : ∀ l ∈ (callStrtok T (setupTokenizer s)).lines, l ≠ [] ∧ 0 ∉ l :=
    fun l hl => h.lines l (hsame.lines ▸ hl)
  obtain ⟨-, ⟨-, hcrlf, hend⟩ | ⟨hblank, hend, line, start, t, hdrop, hline, htoken⟩⟩ :=
    hready.next_spec T
  · refine ⟨⟨hlines, fun hc => ⟨?_, hend⟩, .inl hend⟩, .inl ⟨hcrlf, hend⟩⟩
    rw [hsame.lines]
    exact (h.closed (hsame.connected ▸ hc)).1
  · refine ⟨⟨hlines, fun hc => ?_, .inr (.inr ⟨_, htoken.ready⟩)⟩,
      .inr ⟨hblank, hend, line, start, t, htoken, hdrop, hline⟩⟩
    rw [hsame.lines, hend]
    exact h.closed (hsame.connected ▸ hc)

theorem OnToken.start_eq_zero
    (h : OnToken s line start t) (hdrop : line.drop start = line) : start = 0 := by
  have hlen := congrArg List.length hdrop
  have hle := Nat.le_trans h.start_le h.le
  rw [length_drop] at hlen
  omega

/-- `AdvanceToNextToken` leaves the parser at the end of a line or on a token.  The token is
found from the start of the line when that was not tokenized before. -/
theorem Parser.Inv.advance (T : Strtok) (h : s.Inv) :
    (advanceToNextToken T s).Inv ∧
      (((advanceToNextToken T s).nextToken = .crlf ∧
          (advanceToNextToken T s).atEndOfLine = true) ∨
        ((advanceToNextToken T s).atEndOfLine = false ∧
          ∃ line start t, OnToken (advanceToNextToken T s) line start t ∧
            (s.startOfLineOfTokens = none → start = 0))) := by
  rw [advanceToNextToken]
  by_cases hfetch : s.currentLine = none ∨ s.atEndOfLine = true
  · rw [if_pos hfetch]
    cases hlines : s.lines with
    | nil =>
      obtain ⟨-, hclosed, hcrlf, hend, -⟩ := advanceToNextLine_nil hlines
      rw [if_neg (by simp [hclosed])]
      exact ⟨h.advanceToNextLine, .inl ⟨hcrlf, hend⟩⟩
    | cons line lines =>
      have hline := h.lines line (by simp [hlines])
      obtain ⟨hready, -, hcurrent, -, hconnected, -, hend⟩ :=
        advanceToNextLine_cons hlines hline.2
      have hopen : s.connected = true := by
        by_contra hc
        have hnil := (h.closed (Bool.eq_false_iff.mpr hc)).1
        rw [hlines] at hnil
        cases hnil
      rw [if_pos (by rw [hconnected, hopen])]
      obtain ⟨hinv, hcrlf | ⟨hblank, hsame, line', start, t, htoken, hdrop, hline'⟩⟩ :=
        h.advanceToNextLine.next T hready
      · exact ⟨hinv, .inl hcrlf⟩
      · obtain rfl := some.inj (hcurrent.symm.trans hline')
        exact ⟨hinv, .inr ⟨by rw [hsame, hend, hblank], line, start, t, htoken,
          fun _ => htoken.start_eq_zero hdrop⟩⟩
  · rw [if_neg hfetch]
    obtain ⟨rest, hready⟩ : ∃ rest, Ready s rest := by
      rcases h.place with hend | hnone | hready
      · exact absurd (.inr hend) hfetch
      · exact absurd (.inl hnone) hfetch
      · exact hready
    have hopen : s.connected = true := by
      by_contra hc
      exact hfetch (.inr (h.closed (Bool.eq_false_iff.mpr hc)).2)
    rw [if_pos hopen]
    have hinside : s.atEndOfLine = false := Bool.eq_false_iff.mpr fun hend => hfetch (.inr hend)
    obtain ⟨hinv, hcrlf | ⟨-, hsame, line, start, t, htoken, hdrop, hline⟩⟩ := h.next T hready
    · exact ⟨hinv, .inl hcrlf⟩
    · refine ⟨hinv, .inr ⟨hsame.trans hinside, line, start, t, htoken,
        fun hstart => htoken.start_eq_zero ?_⟩⟩
      obtain ⟨line', hline', -, ⟨-, rfl⟩ | ⟨tokens, htokens, -⟩⟩ := hready
      · rw [hdrop]
        exact some.inj (hline'.symm.trans hline)
      · rw [hstart] at htokens
        cases htokens

/-- Within a line the next token is the one that follows. -/
theorem Ready.advance (T : Strtok) (h : Ready s rest) (hend : s.atEndOfLine = false)
    (hconnected : s.connected = true) :
    (advanceToNextToken T s).tokenText = some (followingToken rest) := by
  have hinside : ¬ (s.currentLine = none ∨ s.atEndOfLine = true) := by
    obtain ⟨line, hline, -⟩ := h
    simp [hline, hend]
  simp only [advanceToNextToken, if_neg hinside, if_pos hconnected]
  exact (h.next_spec T).1

end CommCentral.Imap
