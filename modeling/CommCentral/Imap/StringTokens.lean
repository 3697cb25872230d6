import CommCentral.Imap.GenericParser

/-!
# The strings of an IMAP response

A response is read token by token.  A turn of the parser is `AdvanceToNextToken`, a move within
the token, and perhaps a call of one of the functions that read a string there.  Whatever the
turns before, the parser stands on a token as `OnToken` says (`parse_inv`, `moveTo_placed`).

* A quoted string and an atom are read as what they stand for, and the next token is the one
  behind them, with or without a space.
* So is a literal, but for one thing: `AdvanceToNextLine` takes a line of whitespace to be at
  its end.  When such a line goes on behind the literal, it is skipped.
-/

namespace CommCentral.Imap

open List Option Nat

open Base (cr lf)

/-! ## Turns -/

/-- What is done with a token. -/
inductive Read
  | pass
  | atom (isAstring : Bool)
  | astring
  | string
deriving DecidableEq, Repr

def Read.apply (T : Strtok) (s : Parser) : Read → Option Parser
  | pass => some s
  | atom isAstring => (createAtom T s isAstring).map Prod.fst
  | astring => (createAstring T s).map Prod.fst
  | string => (createString T s).map Prod.fst

/-- `fNextToken += k`, within the token. -/
def moveWithin (s : Parser) (k : ℕ) : Option Parser :=
  match s.nextToken with
  | .at t => s.tokenText.bind fun token =>
    if k ≤ token.length then some { s with nextToken := .at (t + k) } else none
  | _ => if k = 0 then some s else none

/-- To the next token, and on within it. -/
def moveTo (T : Strtok) (s : Parser) (k : ℕ) : Option Parser :=
  moveWithin (advanceToNextToken T s) k

def turn (T : Strtok) (s : Parser) (q : ℕ × Read) : Option Parser :=
  (moveTo T s q.1).bind fun s => q.2.apply T s

/-- Some turns on a response. -/
def parse (T : Strtok) (lines : List (List UInt8)) (turns : List (ℕ × Read)) : Option Parser :=
  turns.foldlM (turn T) (Parser.start lines)

/-! ## Turns keep the parser in order -/

variable {T : Strtok} {s s' : Parser}

theorem moveTo_placed {k : ℕ} (h : s.Inv) (hmove : moveTo T s k = some s') : s'.Inv ∧ Placed s' := by
  obtain ⟨hinv, ⟨hcrlf, hend⟩ | ⟨hend, line, start, t, htoken, -⟩⟩ := h.advance T
  · rw [moveTo, moveWithin, hcrlf] at hmove
    simp only [ite_none_right_eq_some, some.injEq] at hmove
    obtain ⟨-, rfl⟩ := hmove
    exact ⟨hinv, .inl ⟨hcrlf, hend⟩⟩
  · rw [moveTo, moveWithin, htoken.next, htoken.tokenText] at hmove
    simp only [bind_some, ite_none_right_eq_some, some.injEq] at hmove
    obtain ⟨hk, rfl⟩ := hmove
    have hmoved := htoken.move hk
    exact ⟨⟨hinv.lines, hinv.closed, .inr (.inr ⟨_, hmoved.ready⟩)⟩, .inr ⟨hend, _, _, _, hmoved⟩⟩

/-- The tokenizer is only moved to a place within the line. -/
theorem advanceTokenizerStartingPoint_some {tokens : List UInt8} {bytes : ℤ}
    (htokens : s.startOfLineOfTokens = some tokens)
    (h : advanceTokenizerStartingPoint T s bytes = some s') :
    0 ≤ s.lineOfTokens + bytes ∧ s.lineOfTokens + bytes ≤ tokens.length ∧ s'.lines = s.lines ∧
      s'.connected = s.connected ∧ s'.atEndOfLine = s.atEndOfLine := by
  have hlen : ∀ line place, (recoverSeparator tokens line place).length = tokens.length := by
    intro line place
    unfold recoverSeparator
    split
    · exact length_set
    · rfl
  rw [advanceTokenizerStartingPoint] at h
  simp only [htokens, reduceCtorEq, if_false, hlen, ite_none_right_eq_some,
    some.injEq] at h
  obtain ⟨⟨hpos, hle⟩, rfl⟩ := h
  exact ⟨hpos, hle, rfl, rfl, rfl⟩

variable {line : List UInt8}

/-- So is the tokenizer of a token, and the parser stays in order. -/
theorem OnToken.advanceStart_inv {start t q : ℕ}
    (h : OnToken s line start t) (hinv : s.Inv) (hq : start ≤ q)
    (hrun : advanceTokenizerStartingPoint T s (q - s.lineOfTokens) = some s') : s'.Inv := by
  obtain ⟨tokens, htokens, hlen, -⟩ := h.tokens
  obtain ⟨-, hle, hlines, hconnected, hend⟩ := advanceTokenizerStartingPoint_some htokens hrun
  have hq' : q ≤ line.length := by omega
  obtain ⟨s₁, hrun₁, hready, -⟩ := h.advanceStart T hq hq'
  obtain rfl := some.inj (hrun₁.symm.trans hrun)
  refine ⟨hlines ▸ hinv.lines, fun hc => ?_, .inr (.inr ⟨_, hready⟩)⟩
  rw [hlines, hend]
  exact hinv.closed (hconnected ▸ hc)

/-- The tokenizer is moved on by some bytes from the token. -/
theorem OnToken.advance_inv {start t : ℕ} (h : OnToken s line start t) (hinv : s.Inv) (n : ℕ)
    (hrun : advanceTokenizerStartingPoint T s (t - s.lineOfTokens + n) = some s') : s'.Inv := by
  have hsum : (t : ℤ) - s.lineOfTokens + n = ((t + n : ℕ) : ℤ) - s.lineOfTokens := by omega
  rw [hsum] at hrun
  exact h.advanceStart_inv hinv (le_add_right_of_le h.start_le) hrun

theorem createAtom_inv {isAstring : Bool} {r : Option (List UInt8)} (h : s.Inv) (hplaced : Placed s)
    (hrun : createAtom T s isAstring = some (s', r)) : s'.Inv := by
  have hcr : isAtomChar isAstring cr = false := by cases isAstring <;> decide
  rcases hplaced with ⟨hcrlf, -⟩ | ⟨-, line, start, t, htoken⟩
  · simp only [createAtom, Parser.tokenText, hcrlf, bind_eq_bind, bind_some,
      takeWhile_cons, hcr, Bool.false_eq_true, if_false, if_true, some.injEq,
      Prod.mk.injEq] at hrun
    rw [← hrun.1]
    exact h.setSyntaxError
  · rw [createAtom, htoken.tokenText, htoken.next] at hrun
    simp only [bind_eq_bind, bind_some] at hrun
    split at hrun
    · simp only [some.injEq, Prod.mk.injEq] at hrun
      rw [← hrun.1]
      exact h.setSyntaxError
    · split at hrun
      · obtain ⟨s₁, hadvance, hrun⟩ := bind_eq_some_iff.mp hrun
        obtain ⟨rfl, -⟩ := hrun
        exact htoken.advance_inv h _ hadvance
      · simp only [Option.pure_def, Option.some.injEq, Prod.mk.injEq] at hrun
        rw [← hrun.1]
        exact h

theorem createQuoted_inv {r : Option (List UInt8)} (h : s.Inv) (hplaced : Placed s)
    (hrun : createQuoted T s = some (s', r)) : s'.Inv := by
  rcases hplaced with ⟨hcrlf, -⟩ | ⟨-, line, start, t, htoken⟩
  · simp [createQuoted, hcrlf] at hrun
  · rw [createQuoted, htoken.next, htoken.currentLine] at hrun
    simp only at hrun
    split at hrun
    · simp only [some.injEq, Prod.mk.injEq] at hrun
      rw [← hrun.1]
      exact h.setSyntaxError
    · rename_i returnString escapeCharsCut _
      obtain ⟨s₁, hadvance, hrun⟩ := bind_eq_some_iff.mp hrun
      obtain ⟨rfl, -⟩ := hrun
      have hsum : (t : ℤ) - s.lineOfTokens + returnString.length + escapeCharsCut + 2 =
          t - s.lineOfTokens + ((returnString.length + escapeCharsCut + 2 : ℕ) : ℤ) := by omega
      rw [hsum] at hadvance
      exact htoken.advance_inv h _ hadvance

/-- A line that was just read is not tokenized. -/
abbrev Fresh (s : Parser) : Prop := s.startOfLineOfTokens = none

/-- The loop of `CreateLiteral` leaves the parser in order, in front of the line it has read
last. -/
theorem literalLoop_inv {fuel : ℕ} {s : Parser} {size : ℤ} {read : List UInt8} {m n : ℕ}
    (h : s.Inv) (hfresh : m = n ∨ Fresh s) :
    (literalLoop fuel s size read m n).1.Inv ∧
      ((literalLoop fuel s size read m n).2.2.1 = (literalLoop fuel s size read m n).2.2.2 ∨
        Fresh (literalLoop fuel s size read m n).1 ∨
        (literalLoop fuel s size read m n).1.continueParse = false) := by
  induction fuel generalizing s read m n with
  | zero => exact ⟨h, hfresh.imp_right .inl⟩
  | succ fuel ih =>
    rw [literalLoop]
    split
    · simp only
      split
      · have hfresh' : Fresh (advanceToNextLine s) := by
          unfold Fresh advanceToNextLine
          split <;> rfl
        exact ih h.advanceToNextLine (.inr hfresh')
      · rename_i hstop
        exact ⟨h.advanceToNextLine, .inr (.inr (Bool.eq_false_iff.mpr hstop))⟩
    · exact ⟨h, hfresh.imp_right .inl⟩

/-- On a fresh line the tokenizer is set up first. -/
theorem advanceTokenizerStartingPoint_fresh (hfresh : Fresh s) (n : ℤ) :
    advanceTokenizerStartingPoint T s n =
      if Fresh (advanceToNextToken T s) then some (advanceToNextToken T s)
      else advanceTokenizerStartingPoint T (advanceToNextToken T s) n := by
  have hnone : s.startOfLineOfTokens = none := hfresh
  rw [advanceTokenizerStartingPoint, if_pos hnone]
  by_cases hset : Fresh (advanceToNextToken T s)
  · have hnone' : (advanceToNextToken T s).startOfLineOfTokens = none := hset
    rw [if_pos hset]
    simp only [hnone']
  · rw [if_neg hset, advanceTokenizerStartingPoint, if_neg hset]

theorem advanceStart_fresh_inv {n : ℕ} (h : s.Inv) (hfresh : Fresh s)
    (hrun : advanceTokenizerStartingPoint T s n = some s') : s'.Inv := by
  obtain ⟨hinv, hplace⟩ := h.advance T
  rw [advanceTokenizerStartingPoint_fresh hfresh] at hrun
  split at hrun
  · obtain rfl := some.inj hrun
    exact hinv
  · rename_i hset
    obtain ⟨tokens, htokens⟩ := ne_none_iff_exists'.mp hset
    obtain ⟨-, -, hlines, hconnected, hend⟩ := advanceTokenizerStartingPoint_some htokens hrun
    rcases hplace with ⟨-, hend'⟩ | ⟨-, line, start, t, htoken, hzero⟩
    · rw [hend'] at hend
      exact ⟨hlines ▸ hinv.lines, fun hc => ⟨hlines ▸ (hinv.closed (hconnected ▸ hc)).1, hend⟩,
        .inl hend⟩
    · obtain rfl := hzero hfresh
      have hstart := le_zero.mp htoken.lineOfTokens_le
      have hn : (n : ℤ) = n - (advanceToNextToken T s).lineOfTokens := by
        rw [hstart]
        simp
      rw [hn] at hrun
      exact htoken.advanceStart_inv hinv (zero_le n) hrun

theorem createLiteral_inv {T : Strtok} {s s' : Parser} {r : Option (List UInt8)} (h : s.Inv)
    (hrun : createLiteral T s = some (s', r)) : s'.Inv := by
  obtain ⟨token, -, hrun⟩ := bind_eq_some_iff.mp hrun
  obtain ⟨size, -, hrun⟩ := bind_eq_some_iff.mp hrun
  split at hrun
  · simp only [Option.pure_def, Option.some.injEq, Prod.mk.injEq] at hrun
    rw [← hrun.1]
    exact h
  · obtain ⟨hinv, hfresh⟩ := @literalLoop_inv (s.lines.length + 1) s size [] 0 0 h (.inl rfl)
    generalize literalLoop (s.lines.length + 1) s size [] 0 0 = q at hrun hinv hfresh
    simp only at hrun hinv hfresh
    split at hrun
    · split at hrun
      · simp only [Option.pure_def, Option.some.injEq, Prod.mk.injEq] at hrun
        rw [← hrun.1]
        exact hinv.advanceToNextLine
      · rename_i hgo hmore
        obtain ⟨s₂, hadvance, hrun⟩ := bind_eq_some_iff.mp hrun
        obtain ⟨rfl, -⟩ := hrun
        rcases hfresh with hsame | hfresh | hstop
        · exact absurd hsame hmore
        · exact advanceStart_fresh_inv hinv hfresh hadvance
        · rw [hgo] at hstop
          cases hstop
    · simp only [Option.pure_def, Option.some.injEq, Prod.mk.injEq] at hrun
      rw [← hrun.1]
      exact hinv

theorem Read.apply_inv {read : Read} (h : s.Inv) (hplaced : Placed s)
    (hrun : read.apply T s = some s') : s'.Inv := by
  cases read with
  | pass =>
    obtain rfl := some.inj hrun
    exact h
  | atom isAstring =>
    obtain ⟨q, hq, rfl⟩ := map_eq_some_iff.mp hrun
    exact createAtom_inv h hplaced hq
  | astring =>
    obtain ⟨q, hq, rfl⟩ := map_eq_some_iff.mp hrun
    obtain ⟨token, -, hq⟩ := bind_eq_some_iff.mp hq
    split at hq
    · exact createLiteral_inv h hq
    · split at hq
      · exact createQuoted_inv h hplaced hq
      · exact createAtom_inv h hplaced hq
  | string =>
    obtain ⟨q, hq, rfl⟩ := map_eq_some_iff.mp hrun
    obtain ⟨token, -, hq⟩ := bind_eq_some_iff.mp hq
    split at hq
    · exact createLiteral_inv h hq
    · split at hq
      · exact createQuoted_inv h hplaced hq
      · obtain rfl := some.inj hq
        exact h.setSyntaxError

theorem parse_inv {lines : List (List UInt8)} {turns : List (ℕ × Read)}
    (h : ∀ l ∈ lines, l ≠ [] ∧ 0 ∉ l) (hrun : parse T lines turns = some s) : s.Inv := by
  have hturns : ∀ {s₀ : Parser}, s₀.Inv → turns.foldlM (turn T) s₀ = some s → s.Inv := by
    clear hrun
    induction turns with
    | nil =>
      rintro s₀ hinv hrun
      obtain rfl := some.inj hrun
      exact hinv
    | cons q qs ih =>
      intro s₀ hinv hrun
      obtain ⟨s₁, hturn, hrun⟩ := bind_eq_some_iff.mp hrun
      obtain ⟨s₂, hmove, hread⟩ := bind_eq_some_iff.mp hturn
      obtain ⟨hinv₂, hplaced⟩ := moveTo_placed hinv hmove
      exact ih (Read.apply_inv hinv₂ hplaced hread) hrun
  exact hturns (Parser.inv_start h) hrun

/-! ## Reading a string back -/

/-- What the response has where the parser stands. -/
def Parser.restOfLine (s : Parser) : Option (List UInt8) :=
  match s.nextToken with
  | .at t => s.currentLine.map (List.drop t)
  | _ => none

/-- The string is read as `str`, and the token behind it is the one that follows in `rest`. -/
def ReadAs (T : Strtok) (r : Option (Parser × Option (List UInt8))) (str rest : List UInt8) :
    Prop :=
  ∃ s', r = some (s', some str) ∧
    (advanceToNextToken T s').tokenText = some (followingToken rest)

/-- The parser stands on a token of its response. -/
structure Standing (s : Parser) (text : List UInt8) : Prop where
  inv : s.Inv
  connected : s.connected = true
  inside : s.atEndOfLine = false
  token : ∃ line start t, OnToken s line start t ∧ line.drop t = text

variable {text : List UInt8}

theorem Standing.of_placed (h : s.Inv) (hplaced : Placed s)
    (htext : s.restOfLine = some text) : Standing s text := by
  rcases hplaced with ⟨hcrlf, -⟩ | ⟨hend, line, start, t, htoken⟩
  · simp [Parser.restOfLine, hcrlf] at htext
  · rw [Parser.restOfLine, htoken.next, htoken.currentLine] at htext
    simp only [map_some, some.injEq] at htext
    refine ⟨h, ?_, hend, line, start, t, htoken, htext⟩
    by_contra hc
    rw [(h.closed (Bool.eq_false_iff.mpr hc)).2] at hend
    cases hend

variable {front rest : List UInt8}

/-- The tokenizer is moved on behind some bytes of the text. -/
theorem Standing.advance {start t : ℕ} (h : OnToken s line start t)
    (hconnected : s.connected = true) (hinside : s.atEndOfLine = false)
    (htext : line.drop t = front ++ rest) :
    ∃ s', advanceTokenizerStartingPoint T s (t - s.lineOfTokens + front.length) = some s' ∧
      (advanceToNextToken T s').tokenText = some (followingToken rest) := by
  have hlen := congrArg length htext
  rw [length_drop, length_append] at hlen
  have hle := h.le
  have hsum : (t : ℤ) - s.lineOfTokens + front.length =
      ((t + front.length : ℕ) : ℤ) - s.lineOfTokens := by omega
  obtain ⟨s', hrun, hready, hsame, hend⟩ := h.advanceStart T
    (le_add_right_of_le h.start_le) (show t + front.length ≤ line.length by omega)
  rw [← drop_drop, htext, drop_left] at hready
  rw [hsum]
  exact ⟨s', hrun, hready.advance T (hend.trans hinside) (hsame.connected.trans hconnected)⟩

/-! ## Quoted strings -/

/-- A byte of a quoted string. -/
def escapeByte (c : UInt8) : List UInt8 :=
  if c = '"'.toUInt8 ∨ c = '\\'.toUInt8 then ['\\'.toUInt8, c] else [c]

def quotedForm (str : List UInt8) : List UInt8 :=
  '"'.toUInt8 :: str.flatMap escapeByte ++ ['"'.toUInt8]

/-- The loop cuts the escape characters out and stops at the closing quote. -/
theorem quotedLoop_eq {fuel : ℕ} {front str rest : List UInt8} (cuts : ℕ)
    (hfuel : str.length < fuel) :
    ∃ n, quotedLoop fuel (front ++ str.flatMap escapeByte ++ '"'.toUInt8 :: rest) front.length
        cuts = some (front ++ str, cuts + n) ∧
      (str.flatMap escapeByte).length = str.length + n := by
  induction str generalizing fuel front cuts with
  | nil =>
    obtain ⟨fuel, rfl⟩ : ∃ m, fuel = m + 1 := ⟨fuel - 1, by omega⟩
    exact ⟨0, by simp [quotedLoop], rfl⟩
  | cons c cs ih =>
    obtain ⟨fuel, rfl⟩ : ∃ m, fuel = m + 1 := ⟨fuel - 1, by omega⟩
    have hshort : cs.length < fuel := by simpa using hfuel
    have hfront : (front ++ [c]).length = front.length + 1 := by simp
    rw [flatMap_cons]
    by_cases hc : c = '"'.toUInt8 ∨ c = '\\'.toUInt8
    · obtain ⟨n, hloop, hlen⟩ := @ih fuel (front ++ [c]) (cuts + 1) hshort
      have hne : '\\'.toUInt8 ≠ '"'.toUInt8 := by decide
      refine ⟨n + 1, ?_, ?_⟩
      · rw [hfront] at hloop
        simp only [escapeByte, if_pos hc, quotedLoop]
        simp [hne, eraseIdx_append_of_length_le] at hloop ⊢
        rw [hloop]
        simp [add_comm, add_left_comm]
      · simp only [escapeByte, if_pos hc, length_append, length_cons,
          length_nil, hlen]
        omega
    · obtain ⟨n, hloop, hlen⟩ := @ih fuel (front ++ [c]) cuts hshort
      have hcs := not_or.mp hc
      refine ⟨n, ?_, ?_⟩
      · rw [hfront] at hloop
        simp only [escapeByte, if_neg hc, quotedLoop]
        simp [hcs.1, hcs.2] at hloop ⊢
        exact hloop
      · simp only [escapeByte, if_neg hc, length_append, length_cons,
          length_nil, hlen]
        omega

/-- `CreateQuoted` moves the tokenizer on by the quoted form. -/
theorem createQuoted_eq {T : Strtok} {s : Parser} {line str rest : List UInt8} {t : ℕ}
    (hnext : s.nextToken = .at t) (hline : s.currentLine = some line)
    (htext : line.drop t = quotedForm str ++ rest) :
    createQuoted T s =
      (advanceTokenizerStartingPoint T s (t - s.lineOfTokens + (quotedForm str).length)).map
        fun s' => (s', some str) := by
  have hbehind : line.drop (t + 1) = str.flatMap escapeByte ++ '"'.toUInt8 :: rest := by
    rw [← drop_drop, htext]
    simp [quotedForm]
  have hlen := congrArg length htext
  obtain ⟨n, hloop, hcuts⟩ :=
    @quotedLoop_eq (line.length + 1) [] str rest 0 (by
      have hform : str.length ≤ (quotedForm str).length := by
        have hmap : str.length ≤ (str.flatMap escapeByte).length := by
          obtain ⟨n, -, hn⟩ := @quotedLoop_eq (str.length + 1) [] str [] 0 (lt_succ_self _)
          omega
        simp only [quotedForm, length_append, length_cons]
        omega
      rw [length_drop, length_append] at hlen
      omega)
  simp only [nil_append, length_nil, zero_add] at hloop
  have hsize : (t : ℤ) - s.lineOfTokens + str.length + n + 2 =
      t - s.lineOfTokens + (quotedForm str).length := by
    simp only [quotedForm, length_append, length_cons, length_nil, hcuts]
    omega
  rw [createQuoted, hnext, hline]
  simp only [hbehind, hloop, hsize]
  cases advanceTokenizerStartingPoint T s (t - s.lineOfTokens + (quotedForm str).length) <;> rfl

open Standing

theorem Standing.createQuoted {str : List UInt8} (h : Standing s (quotedForm str ++ rest)) :
    ReadAs T (Imap.createQuoted T s) str rest := by
  obtain ⟨line, start, t, htoken, htext⟩ := h.token
  obtain ⟨s', hrun, hnext⟩ := advance (T := T) htoken h.connected h.inside htext
  refine ⟨s', ?_, hnext⟩
  rw [createQuoted_eq htoken.next htoken.currentLine htext, hrun]
  rfl

theorem Standing.tokenText (h : Standing s text) : s.tokenText = some (word text) := by
  obtain ⟨line, start, t, htoken, rfl⟩ := h.token
  exact htoken.tokenText

theorem word_cons {c : UInt8} (h : isWhitespace c = false) (text : List UInt8) :
    word (c :: text) = c :: word text := by simp [word, h]

/-- A quoted string is read back, by `CreateAstring` and by `CreateString`. -/
theorem Standing.quoted {str : List UInt8} (h : Standing s (quotedForm str ++ rest)) :
    ReadAs T (createAstring T s) str rest ∧ ReadAs T (createString T s) str rest := by
  have hform : quotedForm str ++ rest =
      '"'.toUInt8 :: (str.flatMap escapeByte ++ '"'.toUInt8 :: rest) := by simp [quotedForm]
  have htext := h.tokenText
  rw [hform, word_cons (by decide)] at htext
  have hne : '"'.toUInt8 ≠ '{'.toUInt8 := by decide
  have hread := h.createQuoted (T := T)
  constructor
  · rw [createAstring, htext]
    simpa [hne] using hread
  · rw [createString, htext]
    simpa [hne] using hread

/-! ## Atoms -/

/-- The characters of an astring atom: all of seven bits but controls, space and the specials. -/
def isAstringChar (c : UInt8) : Bool :=
  33 ≤ c ∧ c ≤ 126 ∧ c ∉ ['('.toUInt8, ')'.toUInt8, '{'.toUInt8, '%'.toUInt8, '*'.toUInt8,
    '"'.toUInt8, '\\'.toUInt8]

theorem isAtomChar_of_isAstringChar {c : UInt8} (h : isAstringChar c = true) :
    isAtomChar true c = true ∧ isWhitespace c = false ∧ c ≠ '{'.toUInt8 ∧ c ≠ '"'.toUInt8 := by
  have hall : ∀ n : Fin 256, isAstringChar (UInt8.ofNat n) = true →
      isAtomChar true (UInt8.ofNat n) = true ∧ isWhitespace (UInt8.ofNat n) = false ∧
        UInt8.ofNat n ≠ '{'.toUInt8 ∧ UInt8.ofNat n ≠ '"'.toUInt8 := by decide +kernel
  have hc := hall ⟨c.toNat, c.toNat_lt⟩
  rw [UInt8.ofNat_toNat] at hc
  exact hc h

theorem word_append (h : ∀ c ∈ front, isWhitespace c = false)
    (text : List UInt8) : word (front ++ text) = front ++ word text := by
  rw [word, takeWhile_append_of_pos fun c hc => by simp [h c hc]]
  rfl

/-- The whitespace behind a word does not matter for the next token. -/
theorem followingToken_tail (h : word text = []) :
    followingToken text.tail = followingToken text := by
  cases text with
  | nil => rfl
  | cons c cs =>
    have hc : isWhitespace c = true := by
      cases hw : isWhitespace c with
      | true => rfl
      | false => simp [word, hw] at h
    simp [followingToken, hc]

theorem Standing.atom {atom : List UInt8} (h : Standing s (atom ++ rest)) (hne : atom ≠ [])
    (hatom : ∀ c ∈ atom, isAstringChar c = true)
    (hrest : ∀ c, rest.head? = some c → isAtomChar true c = false) :
    ReadAs T (createAstring T s) atom rest := by
  have htext := h.tokenText
  rw [word_append fun c hc => (isAtomChar_of_isAstringChar (hatom c hc)).2.1] at htext
  have hdispatch : createAstring T s = createAtom T s true := by
    obtain ⟨c, cs, rfl⟩ := exists_cons_of_ne_nil hne
    obtain ⟨-, -, hbrace, hquote⟩ := isAtomChar_of_isAstringChar (hatom c (by simp))
    rw [createAstring, htext]
    simp [hbrace, hquote]
  have htake : (atom ++ word rest).takeWhile (isAtomChar true) = atom := by
    rw [takeWhile_append_of_pos fun c hc => (isAtomChar_of_isAstringChar (hatom c hc)).1]
    cases rest with
    | nil => simp [word]
    | cons c cs =>
      have hc := hrest c rfl
      cases hw : isWhitespace c with
      | true => simp [word, hw]
      | false => simp [word, hw, hc]
  obtain ⟨line, start, t, htoken, hline⟩ := h.token
  rw [hdispatch, createAtom, htext]
  simp only [bind_eq_bind, bind_some, htake, if_neg hne]
  rcases eq_nil_or_concat (word rest) with hword | hword
  · -- the whole token is the atom
    have hbehind : (behindWord (line.drop t)).tail = rest.tail := by
      have hsplit := word_append_behindWord (line.drop t)
      rw [hline, word_append fun c hc => (isAtomChar_of_isAstringChar (hatom c hc)).2.1, hword,
        append_nil, append_cancel_left_eq] at hsplit
      rw [hline, hsplit]
    have hready := htoken.ready
    rw [hbehind] at hready
    refine ⟨s, ?_, ?_⟩
    · rw [hword, append_nil, if_neg (lt_irrefl _)]
      rfl
    · rw [hready.advance T h.inside h.connected, followingToken_tail hword]
  · -- the token goes on behind the atom
    have hlonger : atom.length < (atom ++ word rest).length := by
      obtain ⟨front, last, hlast⟩ := hword
      rw [hlast]
      simp
    obtain ⟨s', hrun, hnext⟩ := advance (T := T) htoken h.connected h.inside hline
    refine ⟨s', ?_, hnext⟩
    rw [if_pos hlonger, htoken.next]
    simp only [hrun, Option.bind_some, Option.pure_def]

/-! ## Literals -/

/-- The form of a literal of some size, up to its line break. -/
def literalForm (digits : List UInt8) : List UInt8 :=
  '{'.toUInt8 :: digits ++ ['}'.toUInt8, cr, lf]

theorem isDigit_spec {c : UInt8} (h : isDigit c = true) :
    isWhitespace c = false ∧ (c = ' '.toUInt8 ∨ (9 ≤ c ∧ c ≤ 13)) = False ∧
      c ≠ '-'.toUInt8 ∧ c ≠ '+'.toUInt8 := by
  have hall : ∀ n : Fin 256, isDigit (UInt8.ofNat n) = true →
      isWhitespace (UInt8.ofNat n) = false ∧
        ¬ (UInt8.ofNat n = ' '.toUInt8 ∨ (9 ≤ UInt8.ofNat n ∧ UInt8.ofNat n ≤ 13)) ∧
        UInt8.ofNat n ≠ '-'.toUInt8 ∧ UInt8.ofNat n ≠ '+'.toUInt8 := by decide +kernel
  have hc := hall ⟨c.toNat, c.toNat_lt⟩
  rw [UInt8.ofNat_toNat] at hc
  simpa using hc h

variable {digits : List UInt8}

theorem literal_token (h : Standing s (literalForm digits))
    (hdigits : ∀ c ∈ digits, isDigit c = true) :
    s.tokenText = some ('{'.toUInt8 :: (digits ++ ['}'.toUInt8])) := by
  have hword : word ['}'.toUInt8, cr, lf] = ['}'.toUInt8] := by decide
  rw [h.tokenText, literalForm, cons_append, word_cons (by decide),
    word_append fun c hc => (isDigit_spec (hdigits c hc)).1, hword]

theorem atoi_digits (h : ∀ c ∈ digits, isDigit c = true) :
    atoi (digits ++ ['}'.toUInt8]) =
      if decimal digits < 2 ^ 31 then some (decimal digits : ℤ) else none := by
  have hfirst : ∃ c cs, digits ++ ['}'.toUInt8] = c :: cs ∧
      ¬ (c = ' '.toUInt8 ∨ (9 ≤ c ∧ c ≤ 13)) ∧ c ≠ '-'.toUInt8 ∧ c ≠ '+'.toUInt8 := by
    cases digits with
    | nil => exact ⟨_, _, rfl, by decide⟩
    | cons c cs =>
      obtain ⟨-, hspace, hminus, hplus⟩ := isDigit_spec (h c (by simp))
      exact ⟨c, _, rfl, by simp [hspace], hminus, hplus⟩
  have htake : (digits ++ ['}'.toUInt8]).takeWhile isDigit = digits := by
    rw [takeWhile_append_of_pos h]
    have hbrace : isDigit '}'.toUInt8 = false := by decide
    simp [hbrace]
  obtain ⟨c, cs, hcons, hspace, hminus, hplus⟩ := hfirst
  have hdrop : (digits ++ ['}'.toUInt8]).dropWhile
      (fun c => decide (c = ' '.toUInt8 ∨ (9 ≤ c ∧ c ≤ 13))) = digits ++ ['}'.toUInt8] := by
    rw [hcons]
    simp [hspace]
  have hhead : (digits ++ ['}'.toUInt8]).head? = some c := by rw [hcons]; rfl
  have hsign : ¬ ((decide (some c = some '-'.toUInt8)) = true ∨ some c = some '+'.toUInt8) := by
    simp [hminus, hplus]
  rw [atoi]
  simp only [hdrop, hhead, if_neg hsign, htake]
  have hminus' : decide (some c = some '-'.toUInt8) = false := by simpa using hminus
  simp only [hminus', Bool.false_eq_true, if_false]
  have hiff : (-2 ^ 31 ≤ (decimal digits : ℤ) ∧ (decimal digits : ℤ) < 2 ^ 31) ↔
      decimal digits < 2 ^ 31 := by omega
  simp only [hiff]

theorem literalLoop_done (fuel : ℕ) (s : Parser) (read : List UInt8) (m n : ℕ) :
    literalLoop fuel s (read.length : ℕ) read m n = (s, read, m, n) := by
  cases fuel with
  | zero => rfl
  | succ fuel => rw [literalLoop, if_neg (lt_irrefl _)]

/-- The loop reads a literal, up to the line that goes on behind it. -/
theorem literalLoop_eq {fuel : ℕ} {s : Parser} {init more : List (List UInt8)}
    {front rest read : List UInt8} {m n : ℕ} (hfuel : init.length < fuel) (hrest : rest ≠ [])
    (hlines : s.lines = init ++ (front ++ rest) :: more)
    (hinit : ∀ l ∈ init, l ≠ [] ∧ 0 ∉ l) (hnull : 0 ∉ front ++ rest)
    (hgo : s.continueParse = true) (hmn : m = n) :
    ∃ s' m' n', literalLoop fuel s ((read ++ init.flatten ++ front).length : ℕ) read m n =
        (s', read ++ init.flatten ++ front, m', n') ∧ s'.continueParse = true ∧
      ((front = [] ∧ m' = n' ∧ s'.lines = rest :: more) ∨
        (front ≠ [] ∧ m' ≠ n' ∧ n' = front.length ∧ Ready s' (front ++ rest) ∧ Fresh s' ∧
          s'.currentLine = some (front ++ rest) ∧ s'.lines = more ∧
          s'.atEndOfLine = (front ++ rest).all isWhitespace)) := by
  induction init generalizing fuel s read m n with
  | nil =>
    obtain ⟨fuel, rfl⟩ : ∃ k, fuel = k + 1 := ⟨fuel - 1, by omega⟩
    rw [flatten_nil, append_nil]
    cases hfront : front with
    | nil =>
      subst hfront
      refine ⟨s, m, n, ?_, hgo, .inl ⟨rfl, hmn, hlines⟩⟩
      rw [append_nil, literalLoop_done]
    | cons c cs =>
      rw [← hfront]
      obtain ⟨hready, hlines', hcurrent, hfresh, hconnected, herror, hend⟩ :=
        advanceToNextLine_cons hlines hnull
      have hgo' : (advanceToNextLine s).continueParse = true := by
        rw [Parser.continueParse, hconnected, herror]
        exact hgo
      have hne : front ≠ [] := by simp [hfront]
      have hlonger : read.length < (read ++ front).length := by
        have hpos := length_pos_of_ne_nil hne
        rw [length_append]
        omega
      have hmin : min (front ++ rest).length ((read ++ front).length - read.length) =
          front.length := by
        simp only [length_append]
        omega
      have hbeyond : (front ++ rest).length ≠ front.length := by
        have hpos := length_pos_of_ne_nil hrest
        rw [length_append]
        omega
      refine ⟨advanceToNextLine s, (front ++ rest).length, front.length, ?_, hgo',
        .inr ⟨hne, hbeyond, rfl, hready, hfresh, hcurrent, hlines', hend⟩⟩
      rw [literalLoop, if_pos (by exact_mod_cast hlonger), if_pos hgo', hcurrent]
      simp only [getD_some, Int.toNat_natCast, hmin, take_left, literalLoop_done]
  | cons line init ih =>
    obtain ⟨fuel, rfl⟩ : ∃ k, fuel = k + 1 := ⟨fuel - 1, by omega⟩
    have hline := hinit line (by simp)
    obtain ⟨-, hlines', hcurrent, -, hconnected, herror, -⟩ :=
      advanceToNextLine_cons (s := s) hlines hline.2
    have hgo' : (advanceToNextLine s).continueParse = true := by
      rw [Parser.continueParse, hconnected, herror]
      exact hgo
    have hlonger : read.length < (read ++ (line :: init).flatten ++ front).length := by
      have hpos := length_pos_of_ne_nil hline.1
      simp only [length_append, flatten_cons]
      omega
    have htake : min line.length
        ((read ++ (line :: init).flatten ++ front).length - read.length) = line.length := by
      simp only [length_append, flatten_cons]
      omega
    have hread : read ++ (line :: init).flatten ++ front =
        read ++ line ++ init.flatten ++ front := by simp
    rw [literalLoop, if_pos (by exact_mod_cast hlonger), if_pos hgo', hcurrent]
    simp only [getD_some, Int.toNat_natCast, htake, take_length]
    rw [hread]
    exact ih (lt_of_succ_lt_succ hfuel) hlines' (fun l hl => hinit l (by simp [hl])) hgo' rfl

/-- The parser with other lines to come. -/
def Parser.withLines (s : Parser) (lines : List (List UInt8)) : Parser := { s with lines := lines }

/-- A size that is no `int` is not read. -/
theorem createLiteral_large
    (h : Standing s (literalForm digits)) (hdigits : ∀ c ∈ digits, isDigit c = true)
    (hlarge : ¬ decimal digits < 2 ^ 31) : createLiteral T s = none := by
  rw [createLiteral, literal_token h hdigits]
  simp only [bind_eq_bind, bind_some, tail_cons, atoi_digits hdigits,
    if_neg hlarge, bind_none]

/-- A literal is read up to the line that goes on behind it, and the tokenizer is moved on in
that line when it does not begin behind the literal. -/
theorem createLiteral_eq {T : Strtok} {s : Parser} {digits front rest : List UInt8}
    {init more : List (List UInt8)} (h : Standing s (literalForm digits))
    (hdigits : ∀ c ∈ digits, isDigit c = true)
    (hsize : decimal digits = (init.flatten ++ front).length)
    (hrest : rest ≠ []) (hinit : ∀ l ∈ init, l ≠ [] ∧ 0 ∉ l) (hnull : 0 ∉ front ++ rest)
    (hlines : s.lines = init ++ (front ++ rest) :: more) (herror : s.syntaxError = false)
    (hsmall : (init.flatten ++ front).length < 2 ^ 31) :
    ∃ s', createLiteral T s = (if front = [] then some s' else
        advanceTokenizerStartingPoint T s' front.length).map
          (fun s' => (s', some (init.flatten ++ front))) ∧
      s'.connected = true ∧ Ready s' (front ++ rest) ∧ Fresh s' ∧
      s'.currentLine = some (front ++ rest) ∧ s'.lines = more ∧
      s'.atEndOfLine = (front ++ rest).all isWhitespace ∧ s'.syntaxError = false := by
  have hgo : s.continueParse = true := by simp [Parser.continueParse, h.connected, herror]
  have hfuel : init.length < s.lines.length + 1 := by
    rw [hlines, length_append]
    omega
  obtain ⟨s₁, m, n, hloop, hgo₁, hcase⟩ :=
    @literalLoop_eq (s.lines.length + 1) s init more front rest [] 0 0 hfuel hrest hlines hinit
      hnull hgo rfl
  rw [nil_append] at hloop
  rw [Parser.continueParse, Bool.and_eq_true, Bool.not_eq_true'] at hgo₁
  obtain ⟨hconnected, herror₁⟩ := hgo₁
  have hgo₁ : s₁.continueParse = true := by simp [Parser.continueParse, hconnected, herror₁]
  have hcreate : createLiteral T s =
      if m = n then some (advanceToNextLine s₁, some (init.flatten ++ front))
      else (advanceTokenizerStartingPoint T s₁ n).map
        fun s' => (s', some (init.flatten ++ front)) := by
    have hne : ¬ (((init.flatten ++ front).length : ℕ) : ℤ) = -1 := by omega
    rw [createLiteral, literal_token h hdigits]
    simp only [bind_eq_bind, bind_some, tail_cons, atoi_digits hdigits,
      hsize, if_pos hsmall, if_neg hne, hloop, hgo₁, if_true]
    split
    · rfl
    · cases advanceTokenizerStartingPoint T s₁ n <;> rfl
  rcases hcase with ⟨hfront, hmn, hlines₁⟩ |
    ⟨hfront, hmn, rfl, hready, hfresh, hcurrent, hlines₁, hend⟩
  · subst hfront
    obtain ⟨hready, hmore, hcurrent, hfresh, hconnected', herror', hend⟩ :=
      advanceToNextLine_cons hlines₁ hnull
    refine ⟨advanceToNextLine s₁, ?_, hconnected'.trans hconnected, hready, hfresh, hcurrent, hmore,
      hend, herror'.trans herror₁⟩
    rw [hcreate, if_pos hmn]
    rfl
  · refine ⟨s₁, ?_, hconnected, hready, hfresh, hcurrent, hlines₁, hend, herror₁⟩
    rw [hcreate, if_neg hmn, if_neg hfront]

theorem Ready.first (T : Strtok) (h : Ready s line) (hcurrent : s.currentLine = some line)
    (hblank : line.all isWhitespace = false) :
    ∃ t, OnToken (callStrtok T (setupTokenizer s)) line 0 t ∧
      (callStrtok T (setupTokenizer s)).atEndOfLine = s.atEndOfLine ∧
      (callStrtok T (setupTokenizer s)).connected = s.connected := by
  obtain ⟨-, ⟨hblank', -⟩ | ⟨-, hend, line', start, t, hdrop, hline, htoken⟩⟩ := h.next_spec T
  · rw [hblank] at hblank'
    cases hblank'
  · obtain rfl := some.inj (hline.symm.trans hcurrent)
    obtain rfl := htoken.start_eq_zero hdrop
    exact ⟨t, htoken, hend, (sameInput_callStrtok T s).connected⟩

/-- The tokenizer is moved on in a line that has a token. -/
theorem Standing.skip {t n : ℕ} (hfresh : Fresh s)
    (htoken : OnToken (advanceToNextToken T s) line 0 t)
    (hconnected : (advanceToNextToken T s).connected = true)
    (hinside : (advanceToNextToken T s).atEndOfLine = false) (hn : n ≤ line.length) :
    ∃ s', advanceTokenizerStartingPoint T s n = some s' ∧
      (advanceToNextToken T s').tokenText = some (followingToken (line.drop n)) := by
  obtain ⟨tokens, htokens, -⟩ := htoken.tokens
  have hset : ¬ Fresh (advanceToNextToken T s) := by
    simp [htokens]
  have hzero : (advanceToNextToken T s).lineOfTokens = 0 := le_zero.mp htoken.lineOfTokens_le
  obtain ⟨s', hrun, hready, hsame, hend⟩ := htoken.advanceStart T (zero_le n) hn
  rw [hzero, cast_zero, sub_zero] at hrun
  refine ⟨s', ?_, hready.advance T (hend.trans hinside) (hsame.connected.trans hconnected)⟩
  rw [advanceTokenizerStartingPoint_fresh hfresh, if_neg hset, hrun]

/-- A literal is read back when the line that goes on behind it is not all whitespace. -/
theorem createLiteral_readAs {init more : List (List UInt8)} (h : Standing s (literalForm digits))
    (hdigits : ∀ c ∈ digits, isDigit c = true)
    (hsize : decimal digits = (init.flatten ++ front).length) (hrest : rest ≠ [])
    (hinit : ∀ l ∈ init, l ≠ [] ∧ 0 ∉ l) (hnull : 0 ∉ front ++ rest)
    (hlines : s.lines = init ++ (front ++ rest) :: more) (herror : s.syntaxError = false)
    (hsmall : (init.flatten ++ front).length < 2 ^ 31)
    (hblank : (front ++ rest).all isWhitespace = false) :
    ReadAs T (createLiteral T s) (init.flatten ++ front) rest := by
  obtain ⟨s₁, hcreate, hconnected, hready, hfresh, hcurrent, -, hend, -⟩ :=
    createLiteral_eq (T := T) h hdigits hsize hrest hinit hnull hlines herror hsmall
  rw [hblank] at hend
  rw [hcreate]
  cases hfront : front with
  | nil =>
    subst hfront
    exact ⟨s₁, rfl, hready.advance T hend hconnected⟩
  | cons c cs =>
    rw [← hfront, if_neg (by simp [hfront])]
    have hinside : ¬ (s₁.currentLine = none ∨ s₁.atEndOfLine = true) := by simp [hcurrent, hend]
    have hadvance : advanceToNextToken T s₁ = callStrtok T (setupTokenizer s₁) := by
      simp only [advanceToNextToken, if_neg hinside, if_pos hconnected]
    obtain ⟨t, htoken, hend', hconnected'⟩ := hready.first T hcurrent hblank
    rw [← hadvance] at htoken hend' hconnected'
    obtain ⟨s', hrun, hnext⟩ := skip hfresh htoken (hconnected'.trans hconnected)
      (hend'.trans hend) (show front.length ≤ (front ++ rest).length by simp)
    rw [drop_left] at hnext
    exact ⟨s', by rw [hrun]; rfl, hnext⟩

theorem followingToken_ne_crlf (h : text.all isWhitespace = false) :
    followingToken text ≠ [cr, lf] := by
  intro hcrlf
  rw [followingToken, h] at hcrlf
  have hmem : cr ∈ word (text.dropWhile isWhitespace) := by
    simp only [Bool.false_eq_true, if_false] at hcrlf
    simp [hcrlf]
  have hcr := not_isWhitespace_of_mem_word hmem
  revert hcr
  decide

/-- When that line is all whitespace, the parser goes on in the line behind it. -/
theorem createLiteral_not_readAs
    {init more : List (List UInt8)} (h : Standing s (literalForm digits))
    (hdigits : ∀ c ∈ digits, isDigit c = true)
    (hsize : decimal digits = (init.flatten ++ front).length)
    (hrest : rest ≠ []) (hinit : ∀ l ∈ init, l ≠ [] ∧ 0 ∉ l) (hnull : 0 ∉ front ++ rest)
    (hlines : s.lines = init ++ (front ++ rest) :: line :: more) (herror : s.syntaxError = false)
    (hblank : (front ++ rest).all isWhitespace = true) (hline : 0 ∉ line)
    (hlen : front.length ≤ line.length)
    (hnext : (line.drop front.length).all isWhitespace = false) :
    ¬ ReadAs T (createLiteral T s) (init.flatten ++ front) rest := by
  rintro ⟨s', hread, htext⟩
  have hsmall : (init.flatten ++ front).length < 2 ^ 31 := by
    by_contra hlarge
    rw [createLiteral_large h hdigits (hsize ▸ hlarge)] at hread
    cases hread
  obtain ⟨s₁, hcreate, hconnected, -, hfresh, -, hlines₁, hend, -⟩ :=
    createLiteral_eq (T := T) h hdigits hsize hrest hinit hnull hlines herror hsmall
  rw [hblank] at hend
  have hexpected : followingToken rest = [cr, lf] := by
    rw [all_append, Bool.and_eq_true] at hblank
    simp [followingToken, hblank.2]
  -- the next call of `AdvanceToNextToken` takes the line behind
  obtain ⟨hready, -, hcurrent, hfresh', hconnected', -, hend'⟩ :=
    advanceToNextLine_cons hlines₁ hline
  have hadvance : advanceToNextToken T s₁ =
      callStrtok T (setupTokenizer (advanceToNextLine s₁)) := by
    simp only [advanceToNextToken, hend, or_true, if_true, hconnected', hconnected]
  have hall : line.all isWhitespace = false := by
    rw [← take_append_drop front.length line, all_append, hnext, Bool.and_false]
  rw [hcreate] at hread
  cases hfront : front with
  | nil =>
    subst hfront
    obtain ⟨rfl, -⟩ := Prod.mk.inj (some.inj hread)
    rw [hadvance, (hready.next_spec T).1, hexpected, some.injEq] at htext
    exact followingToken_ne_crlf hall htext
  | cons c cs =>
    rw [if_neg (by simp [hfront])] at hread
    obtain ⟨t, htoken, hend₂, hconnected₂⟩ := hready.first T hcurrent hall
    rw [← hadvance] at htoken hend₂ hconnected₂
    obtain ⟨s₂, hrun, hnext'⟩ := skip hfresh htoken
      (hconnected₂.trans (hconnected'.trans hconnected)) (hend₂.trans (hend'.trans hall)) hlen
    rw [hrun] at hread
    obtain ⟨rfl, -⟩ := Prod.mk.inj (some.inj hread)
    rw [hnext', hexpected, some.injEq] at htext
    exact followingToken_ne_crlf hnext htext

/-! ## Strings in a response -/

theorem Standing.withLines (h : Standing s text) {lines : List (List UInt8)}
    (hlines : ∀ l ∈ lines, l ≠ [] ∧ 0 ∉ l) : Standing (s.withLines lines) text := by
  obtain ⟨line, start, t, htoken, htext⟩ := h.token
  refine ⟨⟨hlines, fun hc => ?_, h.inv.place⟩, h.connected, h.inside, line, start, t, ?_, htext⟩
  · exact absurd (h.connected.symm.trans hc) (by decide)
  · exact ⟨htoken.currentLine, htoken.noNull, htoken.next, htoken.lineOfTokens_le,
      htoken.start_le, htoken.le, htoken.tokens, htoken.place⟩

/-- Both functions read a literal with `CreateLiteral`. -/
theorem Standing.literal (h : Standing s (literalForm digits))
    (hdigits : ∀ c ∈ digits, isDigit c = true) :
    createAstring T s = createLiteral T s ∧ createString T s = createLiteral T s := by
  have htext := literal_token h hdigits
  constructor
  · rw [createAstring, htext]
    simp
  · rw [createString, htext]
    simp

/-- Wherever the parser comes to stand in a response, it reads a quoted string and an atom as
what they stand for, and the next token is the one that follows.  For a literal, in a parse
without errors, this is so, whatever comes later, exactly when its size is an `int` and the line
that goes on behind the literal is not all whitespace. -/
theorem string_tokens (T : Strtok) {lines : List (List UInt8)} {turns : List (ℕ × Read)} {k : ℕ}
    {s₀ s : Parser} (hlines : ∀ l ∈ lines, l ≠ [] ∧ 0 ∉ l) (hparse : parse T lines turns = some s₀)
    (hmove : moveTo T s₀ k = some s) :
    (∀ str rest, s.restOfLine = some (quotedForm str ++ rest) →
      ReadAs T (createAstring T s) str rest ∧ ReadAs T (createString T s) str rest) ∧
    (∀ atom rest, s.restOfLine = some (atom ++ rest) → atom ≠ [] →
      (∀ c ∈ atom, isAstringChar c = true) →
      (∀ c, rest.head? = some c → isAtomChar true c = false) →
      ReadAs T (createAstring T s) atom rest) ∧
    (∀ digits init front rest, s.restOfLine = some (literalForm digits) → s.syntaxError = false →
      (∀ c ∈ digits, isDigit c = true) → decimal digits = (init.flatten ++ front).length →
      rest ≠ [] → (∀ l ∈ init, l ≠ [] ∧ 0 ∉ l) → 0 ∉ front ++ rest →
      ((∀ more, (∀ l ∈ more, l ≠ [] ∧ 0 ∉ l) →
          ReadAs T (createAstring T (s.withLines (init ++ (front ++ rest) :: more)))
            (init.flatten ++ front) rest ∧
          ReadAs T (createString T (s.withLines (init ++ (front ++ rest) :: more)))
            (init.flatten ++ front) rest) ↔
        (init.flatten ++ front).length < 2 ^ 31 ∧ (front ++ rest).all isWhitespace = false)) := by
  obtain ⟨hinv, hplaced⟩ := moveTo_placed (parse_inv hlines hparse) hmove
  refine ⟨fun str rest htext => (of_placed hinv hplaced htext).quoted,
    fun atom rest htext hne hatom hrest =>
      (of_placed hinv hplaced htext).atom hne hatom hrest, ?_⟩
  intro digits init front rest htext herror hdigits hsize hrest hinit hnull
  have hstanding := of_placed hinv hplaced htext
  have hmore : ∀ more : List (List UInt8), (∀ l ∈ more, l ≠ [] ∧ 0 ∉ l) →
      Standing (s.withLines (init ++ (front ++ rest) :: more)) (literalForm digits) := by
    intro more hmore
    refine hstanding.withLines fun l hl => ?_
    rcases mem_append.mp hl with hl | hl
    · exact hinit l hl
    · rcases mem_cons.mp hl with rfl | hl
      · exact ⟨by simp [hrest], hnull⟩
      · exact hmore l hl
  constructor
  · intro hall
    have hsmall : (init.flatten ++ front).length < 2 ^ 31 := by
      by_contra hlarge
      obtain ⟨⟨s', hread, -⟩, -⟩ := hall [] (by simp)
      have hstand := hmore [] (by simp)
      rw [(hstand.literal hdigits).1, createLiteral_large hstand hdigits (hsize ▸ hlarge)] at hread
      cases hread
    refine ⟨hsmall, Bool.eq_false_iff.mpr fun hblank => ?_⟩
    -- a line with a token of its own behind so many bytes
    have hx : 'x'.toUInt8 ≠ 0 := by decide
    have hline : 0 ∉ replicate front.length 'x'.toUInt8 ++ ['y'.toUInt8, cr, lf] := by
      rw [mem_append, not_or, mem_replicate]
      exact ⟨fun h => hx h.2.symm, by decide⟩
    have hok : ∀ l ∈ [replicate front.length 'x'.toUInt8 ++ ['y'.toUInt8, cr, lf]],
        l ≠ [] ∧ 0 ∉ l := by
      intro l hl
      rw [mem_singleton.mp hl]
      exact ⟨by simp, hline⟩
    have hstand := hmore _ hok
    have hread := (hall _ hok).1
    rw [(hstand.literal hdigits).1] at hread
    refine createLiteral_not_readAs hstand hdigits hsize hrest hinit hnull rfl herror hblank hline
      (by simp) ?_ hread
    rw [drop_left' length_replicate]
    decide
  · rintro ⟨hsmall, hblank⟩ more hok
    have hstand := hmore more hok
    have hread := createLiteral_readAs (T := T) hstand hdigits hsize hrest hinit hnull rfl herror
      hsmall hblank
    rw [(hstand.literal hdigits).1, (hstand.literal hdigits).2]
    exact ⟨hread, hread⟩

/-- A quoted string with an escape, in front of a parenthesis. -/
theorem string_tokens_quoted :
    ∃ s, moveTo nsStrtok (Parser.start [['"', '\\', '"', '"', ')', '\r', '\n'].map
        Char.toUInt8]) 0 = some s ∧
      ReadAs nsStrtok (createAstring nsStrtok s) ['"'.toUInt8]
        ([')', '\r', '\n'].map Char.toUInt8) :=
  ⟨_, rfl, ((@string_tokens nsStrtok [['"', '\\', '"', '"', ')', '\r', '\n'].map Char.toUInt8] []
    0 _ _ (by decide) rfl rfl).1 ['"'.toUInt8] _ (by decide)).1⟩

/-- A literal of two spaces is followed by the end of its line, but the next token is taken from
the line behind it. -/
theorem literal_skips_line :
    ∃ s, moveTo nsStrtok (Parser.start [['{', '2', '}', '\r', '\n'].map Char.toUInt8,
        [' ', ' ', '\r', '\n'].map Char.toUInt8,
        ['A', ' ', 'O', 'K', '\r', '\n'].map Char.toUInt8]) 0 = some s ∧
      s.restOfLine = some (literalForm ['2'.toUInt8]) ∧
      ¬ ReadAs nsStrtok (createAstring nsStrtok s) [' '.toUInt8, ' '.toUInt8] [cr, lf] := by
  refine ⟨_, rfl, by decide, ?_⟩
  rintro ⟨s', hread, hnext⟩
  have hrun := congrArg (Option.map fun q => (advanceToNextToken nsStrtok q.1).tokenText) hread
  rw [Option.map_some, hnext] at hrun
  revert hrun
  decide

end CommCentral.Imap
