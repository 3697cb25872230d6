import CommCentral.Imap.TokenizerPlace

/-!
# Skipping a parenthesised group

A group of a response is made of parentheses, of strings, and of the other characters between
them.  A literal ends its line, and the group goes on behind it in the line that `textOf` and
`linesOf` say.  `Closes d ps` says that the pieces `ps` close the `d` parentheses that are open in
front of them, the last of these with their last piece.

What a run does is proved for a parser that stands within a token and for one that has come to
the next token (`Closes.skips`), together, by induction on `Closes`.

The places in a line and the numbers of parentheses, `int`s in the source, are not bounded here.
-/

namespace CommCentral.Imap

open List Option

open Base (cr lf)

/-! ## `skip_to_close_paren` -/

/-- How the loop over the characters of a token ends. -/
inductive Scan
  /-- At the matching close parenthesis. -/
  | close (loc : ℕ)
  | string (loc : ℕ) (numberOfCloseParensNeeded : ℤ)
  | done (numberOfCloseParensNeeded : ℤ)
deriving DecidableEq, Repr

/-- That loop, from the place `loc` of the token on. -/
def scanParens : List UInt8 → ℕ → ℤ → Scan
  | [], _, needed => .done needed
  | c :: token, loc, needed =>
    if c = '('.toUInt8 then scanParens token (loc + 1) (needed + 1)
    else if c = ')'.toUInt8 then
      if needed - 1 = 0 then .close loc else scanParens token (loc + 1) (needed - 1)
    else if c = '{'.toUInt8 ∨ c = '"'.toUInt8 then .string loc needed
    else scanParens token (loc + 1) needed

/-- The string at `fNextToken`, empty for a null pointer. -/
def Parser.tokenOrNull (s : Parser) : Option (List UInt8) :=
  if s.nextToken = .null then some [] else s.tokenText

/-- What is done where that loop ends: the parser, and the number of parentheses needed when the
group goes on. -/
def skipStep (T : Strtok) (s : Parser) : Scan → Option (Parser × Option ℤ)
  | .close loc => do
    let s ← moveWithin s (loc + 1)
    let token ← s.tokenText
    return (if token = [] then advanceToNextToken T s else s, none)
  | .string loc needed => do
    let s ← moveWithin s loc
    let (s, _) ← createString T s
    return (if s.continueParse then advanceToNextToken T s else s, some needed)
  | .done needed => some (if s.continueParse then advanceToNextToken T s else s, some needed)

/-- The loop goes on when parentheses are needed. -/
def skipOn (loop : Parser → ℤ → Option Parser) : Parser × Option ℤ → Option Parser
  | (s, none) => some s
  | (s, some needed) => loop s needed

/-- The loop of `skip_to_close_paren`, at most so many times. -/
def skipLoop (T : Strtok) : ℕ → Parser → ℤ → Option Parser
  | 0, _, _ => none
  | fuel + 1, s, needed =>
    if s.continueParse then do
      let token ← s.tokenOrNull
      let q ← skipStep T s (scanParens token 0 needed)
      skipOn (skipLoop T fuel) q
    else some s

/-- The bytes that are left to the parser, and two more for each line: every turn of a loop takes
one of these. -/
def Parser.bytesToCome (s : Parser) : ℕ :=
  (s.currentLine.getD []).length + s.lines.flatten.length + 2 * s.lines.length + 3

def skipToCloseParen (T : Strtok) (s : Parser) : Option Parser := skipLoop T s.bytesToCome s 1

/-! ## The pieces of a group -/

inductive Piece
  | openParen
  | closeParen
  /-- A character of an atom, or whitespace. -/
  | plain (c : UInt8)
  | quoted (str : List UInt8)
  /-- A literal: its size, the lines that it takes up, and its part of the line that goes on
  behind it. -/
  | literal (digits : List UInt8) (init : List (List UInt8)) (front : List UInt8)
deriving DecidableEq, Repr

def Piece.source : Piece → List UInt8
  | openParen => ['('.toUInt8]
  | closeParen => [')'.toUInt8]
  | plain c => [c]
  | quoted str => quotedForm str
  | literal digits init front => literalForm digits ++ init.flatten ++ front

/-- The current line from some pieces on, with `rest` behind them. -/
def textOf : List Piece → List UInt8 → List UInt8
  | [], rest => rest
  | .literal digits _ _ :: _, _ => literalForm digits
  | p :: ps, rest => p.source ++ textOf ps rest

/-- The lines behind it, with `more` behind the line of `rest`. -/
def linesOf : List Piece → List UInt8 → List (List UInt8) → List (List UInt8)
  | [], _, more => more
  | .literal _ init front :: ps, rest, more =>
    init ++ (front ++ textOf ps rest) :: linesOf ps rest more
  | _ :: ps, rest, more => linesOf ps rest more

/-- The pieces close `d` parentheses, the last one with the last piece. -/
inductive Closes : ℕ → List Piece → Prop
  | last : Closes 1 [.closeParen]
  | openParen {d : ℕ} {ps : List Piece} (h : Closes (d + 1) ps) : Closes d (.openParen :: ps)
  | closeParen {d : ℕ} {ps : List Piece} (h : Closes (d + 1) ps) :
    Closes (d + 2) (.closeParen :: ps)
  | plain {d : ℕ} {c : UInt8} {ps : List Piece}
    (hc : c ∉ ['('.toUInt8, ')'.toUInt8, '{'.toUInt8, '"'.toUInt8]) (h : Closes d ps) :
    Closes d (.plain c :: ps)
  | quoted {d : ℕ} {str : List UInt8} {ps : List Piece} (h : Closes d ps) :
    Closes d (.quoted str :: ps)
  | literal {d : ℕ} {digits front : List UInt8} {init : List (List UInt8)} {ps : List Piece}
    (hdigits : ∀ c ∈ digits, isDigit c = true)
    (hsize : decimal digits = (init.flatten ++ front).length) (h : Closes d ps) :
    Closes d (.literal digits init front :: ps)

/-- The size of a literal is an `int`. -/
def Piece.Small : Piece → Prop
  | literal digits _ _ => decimal digits < 2 ^ 31
  | _ => True

/-- There is a close parenthesis to come in the line, or a literal. -/
theorem Closes.not_blank {d : ℕ} {ps : List Piece} (h : Closes d ps) (rest : List UInt8) :
    (textOf ps rest).all isWhitespace = false := by
  have hparen : isWhitespace ')'.toUInt8 = false := by decide
  have hopen : isWhitespace '('.toUInt8 = false := by decide
  have hquote : isWhitespace '"'.toUInt8 = false := by decide
  have hbrace : isWhitespace '{'.toUInt8 = false := by decide
  induction h with
  | last => simp [textOf, Piece.source, hparen]
  | openParen h ih => simp [textOf, Piece.source, hopen]
  | closeParen h ih => simp [textOf, Piece.source, hparen]
  | plain hc h ih =>
    rw [textOf, all_append, ih, Bool.and_false]
    rintro _ _ _ ⟨⟩
  | quoted h ih => simp [textOf, Piece.source, quotedForm, hquote]
  | literal hdigits hsize h ih => simp [textOf, literalForm, hbrace]

theorem length_le_bytes (ps : List Piece) (rest : List UInt8) (more : List (List UInt8)) :
    ps.length ≤ (textOf ps rest).length + (linesOf ps rest more).flatten.length := by
  induction ps with
  | nil => exact Nat.zero_le _
  | cons p ps ih =>
    cases p with
    | literal digits init front =>
      simp only [textOf, linesOf, literalForm, length_cons, length_append,
        flatten_append, flatten_cons]
      omega
    | quoted str =>
      simp only [textOf, linesOf, Piece.source, quotedForm, length_cons,
        length_append]
      omega
    | openParen | closeParen | plain =>
      simp only [textOf, linesOf, Piece.source, length_cons, length_append]
      omega

/-! ## Skipping a group -/

/-- From a place in a token on, the group is skipped. -/
def SkipsWithin (T : Strtok) (d : ℕ) (ps : List Piece) (rest : List UInt8)
    (more : List (List UInt8)) : Prop :=
  ∀ fuel s front, ps.length ≤ fuel → (∀ b ∈ front, isWhitespace b = false) →
    Parsing s (front ++ textOf ps rest) → s.lines = linesOf ps rest more →
    ∃ s', (skipStep T s (scanParens (word (textOf ps rest)) front.length d)).bind
      (skipOn (skipLoop T fuel)) = some s' ∧ AtNext s' rest more

/-- So it is from the next token on. -/
def SkipsFrom (T : Strtok) (d : ℕ) (ps : List Piece) (rest : List UInt8)
    (more : List (List UInt8)) : Prop :=
  ∀ fuel s, ps.length < fuel → Parsing s ((textOf ps rest).dropWhile isWhitespace) →
    s.lines = linesOf ps rest more → ∃ s', skipLoop T fuel s d = some s' ∧ AtNext s' rest more

theorem moveWithin_lines {s s' : Parser} {k : ℕ} (h : moveWithin s k = some s') :
    s'.lines = s.lines := by
  unfold moveWithin at h
  split at h
  · obtain ⟨token, -, h⟩ := bind_eq_some_iff.mp h
    obtain ⟨-, h⟩ := ite_none_right_eq_some.mp h
    rw [← some.inj h]
  · obtain ⟨-, h⟩ := ite_none_right_eq_some.mp h
    rw [← some.inj h]

section Skip

variable {T : Strtok} {d : ℕ} {ps : List Piece} {rest : List UInt8} {more : List (List UInt8)}

/-- A turn of the loop begins at the place where the parser stands. -/
theorem SkipsWithin.loop {s : Parser} {fuel : ℕ} (h : SkipsWithin T d ps rest more)
    (hfuel : ps.length < fuel) (hparsing : Parsing s (textOf ps rest))
    (hlines : s.lines = linesOf ps rest more) :
    ∃ s', skipLoop T fuel s d = some s' ∧ AtNext s' rest more := by
  cases fuel with
  | zero => cases hfuel
  | succ fuel =>
    obtain ⟨s', hrun, hnext⟩ := h fuel s [] (Nat.lt_succ_iff.mp hfuel) (by simp) hparsing hlines
    have htoken : s.tokenOrNull = some (word (textOf ps rest)) := by
      obtain ⟨line, start, t, hon, -⟩ := hparsing.token
      rw [Parser.tokenOrNull, hon.next, if_neg (by rintro ⟨⟩), hparsing.tokenText]
    refine ⟨s', ?_, hnext⟩
    rw [skipLoop, if_pos hparsing.continueParse, htoken]
    exact hrun

/-- The next token begins at once when there is no whitespace. -/
theorem SkipsWithin.from {c : UInt8} {text : List UInt8} (h : SkipsWithin T d ps rest more)
    (htext : textOf ps rest = c :: text) (hc : isWhitespace c = false) :
    SkipsFrom T d ps rest more := by
  intro fuel s hfuel hparsing hlines
  rw [htext, dropWhile_cons_of_neg (by rw [hc]; decide), ← htext] at hparsing
  exact h.loop hfuel hparsing hlines

/-- The loop goes on behind whitespace or a string. -/
theorem SkipsFrom.advance {s : Parser} {fuel : ℕ} (h : SkipsFrom T d ps rest more)
    (hblank : (textOf ps rest).all isWhitespace = false) (hfuel : ps.length < fuel)
    (hgo : s.continueParse = true)
    (hnext : AtNext (advanceToNextToken T s) (textOf ps rest) (linesOf ps rest more)) :
    ∃ s', skipOn (skipLoop T fuel)
      (if s.continueParse then advanceToNextToken T s else s, some (d : ℤ)) = some s' ∧
        AtNext s' rest more := by
  rw [if_pos hgo]
  exact h fuel _ hfuel (hnext.parsing hblank) hnext.lines

theorem Between.continueParse {s : Parser} {text : List UInt8} (h : Between s text) :
    s.continueParse = true := by
  rw [Parser.continueParse, h.connected, h.noError]
  rfl

theorem SkipsWithin.char {d' : ℕ} {p : Piece} {c : UInt8} (h : SkipsWithin T d' ps rest more)
    (htext : textOf (p :: ps) rest = c :: textOf ps rest)
    (hlines : linesOf (p :: ps) rest more = linesOf ps rest more)
    (hc : isWhitespace c = false)
    (hscan : ∀ token loc, scanParens (c :: token) loc d = scanParens token (loc + 1) d') :
    SkipsWithin T d (p :: ps) rest more := by
  intro fuel s front hfuel hfront hparsing hmore
  rw [htext] at hparsing ⊢
  rw [word_cons hc, hscan]
  have hlonger := h fuel s (front ++ [c]) (Nat.le_of_succ_le hfuel) (fun b hb => by
      rcases mem_append.mp hb with hb | hb
      · exact hfront b hb
      · rw [mem_singleton.mp hb, hc])
    (by rw [append_assoc]; exact hparsing) (hmore.trans hlines)
  rw [length_append] at hlonger
  exact hlonger

theorem SkipsFrom.blank {c : UInt8} (h : SkipsFrom T d ps rest more)
    (hblank : (textOf ps rest).all isWhitespace = false) (hc : isWhitespace c = true) :
    SkipsWithin T d (.plain c :: ps) rest more := by
  intro fuel s front hfuel hfront hparsing hmore
  have htext : textOf (.plain c :: ps) rest = c :: textOf ps rest := rfl
  rw [htext] at hparsing ⊢
  have hword : word (c :: textOf ps rest) = [] := by simp [word, hc]
  have hbetween := hparsing.between hfront hword
  have hnext := hbetween.atNext T
  rw [hmore] at hnext
  rw [hword]
  exact h.advance hblank hfuel hparsing.continueParse hnext

theorem SkipsFrom.string {p : Piece} {c : UInt8} {text : List UInt8}
    (h : SkipsFrom T d ps rest more) (hblank : (textOf ps rest).all isWhitespace = false)
    (htext : textOf (p :: ps) rest = c :: text) (hc : isWhitespace c = false)
    (hquote : c = '{'.toUInt8 ∨ c = '"'.toUInt8)
    (hstring : ∀ s, Parsing s (textOf (p :: ps) rest) → s.lines = linesOf (p :: ps) rest more →
      ∃ s' r, createString T s = some (s', r) ∧ Between s' (textOf ps rest) ∧
        s'.lines = linesOf ps rest more) :
    SkipsWithin T d (p :: ps) rest more := by
  intro fuel s front hfuel hfront hparsing hmore
  obtain ⟨s₁, hmove, hparsing₁⟩ := hparsing.move hfront
  obtain ⟨s₂, r, hcreate, hbetween, hmore₂⟩ :=
    hstring s₁ hparsing₁ ((moveWithin_lines hmove).trans hmore)
  have hscan : scanParens (word (textOf (p :: ps) rest)) front.length d =
      .string front.length d := by
    have hopen : c ≠ '('.toUInt8 ∧ c ≠ ')'.toUInt8 := by
      rcases hquote with rfl | rfl <;> decide
    rw [htext, word_cons hc, scanParens, if_neg hopen.1, if_neg hopen.2, if_pos hquote]
  have hnext := hbetween.atNext T
  rw [hmore₂] at hnext
  rw [hscan, skipStep, hmove, bind_eq_bind, bind_some, hcreate]
  exact h.advance hblank hfuel hbetween.continueParse hnext

/-- Behind the last parenthesis the loop is left, at the next token. -/
theorem skipsWithin_last : SkipsWithin T 1 [.closeParen] rest more := by
  intro fuel s front _ hfront hparsing hmore
  have htext : textOf [.closeParen] rest = ')'.toUInt8 :: rest := rfl
  have hclose : scanParens (word (')'.toUInt8 :: rest)) front.length (1 : ℕ) =
      .close front.length := by
    rfl
  have hfront' : ∀ b ∈ front ++ [')'.toUInt8], isWhitespace b = false := by
    intro b hb
    rcases mem_append.mp hb with hb | hb
    · exact hfront b hb
    · rw [mem_singleton.mp hb]
      decide
  rw [htext, ← singleton_append, ← append_assoc] at hparsing
  obtain ⟨s₁, hmove, hparsing₁⟩ := hparsing.move hfront'
  have hmore₁ : s₁.lines = more := (moveWithin_lines hmove).trans hmore
  rw [length_append, length_singleton] at hmove
  rw [htext, hclose, skipStep, hmove]
  simp only [Option.bind_eq_bind, Option.bind_some, hparsing₁.tokenText, Option.pure_def, skipOn]
  cases hword : word rest with
  | nil =>
    have hnext := (@Parsing.between s₁ [] rest hparsing₁ (by simp) hword).atNext T
    rw [hmore₁] at hnext
    exact ⟨_, rfl, hnext.of_tail hword⟩
  | cons c cs =>
    refine ⟨s₁, rfl, hmore₁, hparsing₁.continueParse, .inr ?_⟩
    cases rest with
    | nil => cases hword
    | cons b rest =>
      have hb : isWhitespace b = false := by
        cases hb : isWhitespace b with
        | false => rfl
        | true => simp [word, hb] at hword
      rw [all_cons, hb, dropWhile_cons_of_neg (by rw [hb]; decide)]
      exact ⟨rfl, hparsing₁.toStanding⟩

end Skip

/-- A group is skipped, from a place in a token and from a next token, when the sizes of its
literals are. -/
theorem Closes.skips {d : ℕ} {ps : List Piece} (T : Strtok) (h : Closes d ps)
    (hsmall : ∀ p ∈ ps, p.Small) (rest : List UInt8) (more : List (List UInt8)) :
    SkipsWithin T d ps rest more ∧ SkipsFrom T d ps rest more := by
  have hbrace : isWhitespace '{'.toUInt8 = false := by decide
  have hquote : isWhitespace '"'.toUInt8 = false := by decide
  induction h with
  | last => exact ⟨skipsWithin_last, skipsWithin_last.from rfl (by decide)⟩
  | openParen h ih =>
    have hwithin := (ih fun p hp => hsmall p (.tail _ hp)).1.char (p := .openParen) rfl rfl
      (by decide) fun token loc => by rw [scanParens, if_pos rfl]; rfl
    exact ⟨hwithin, hwithin.from rfl (by decide)⟩
  | @closeParen d ps h ih =>
    have hwithin := (ih fun p hp => hsmall p (.tail _ hp)).1.char (p := .closeParen)
      (d := d + 2) rfl rfl (by decide) fun token loc => by
        have hneeded : ((d + 2 : ℕ) : ℤ) - 1 = ((d + 1 : ℕ) : ℤ) := by omega
        have hmore : ¬ ((d + 1 : ℕ) : ℤ) = 0 := by omega
        rw [scanParens, if_neg (by decide), if_pos rfl, hneeded, if_neg hmore]
    exact ⟨hwithin, hwithin.from rfl (by decide)⟩
  | @plain d c ps hc h ih =>
    obtain ⟨hwithin, hfrom⟩ := ih fun p hp => hsmall p (.tail _ hp)
    simp only [mem_cons, not_mem_nil, or_false, not_or] at hc
    cases hspace : isWhitespace c with
    | true =>
      refine ⟨hfrom.blank (h.not_blank rest) hspace, fun fuel s hfuel hparsing hlines => ?_⟩
      have htext : textOf (.plain c :: ps) rest = c :: textOf ps rest := rfl
      rw [htext, dropWhile_cons_of_pos hspace] at hparsing
      exact hfrom fuel s (Nat.lt_of_succ_lt hfuel) hparsing hlines
    | false =>
      have hwithin' := hwithin.char (p := .plain c) (d := d) rfl rfl hspace
        fun token loc => by
          rw [scanParens, if_neg hc.1, if_neg hc.2.1, if_neg (not_or.mpr hc.2.2)]
      exact ⟨hwithin', hwithin'.from rfl hspace⟩
  | @quoted d str ps h ih =>
    have hfrom := (ih fun p hp => hsmall p (.tail _ hp)).2
    have htext : textOf (.quoted str :: ps) rest = quotedForm str ++ textOf ps rest := rfl
    have hwithin := hfrom.string (p := .quoted str) (h.not_blank rest)
      (by rw [htext, quotedForm]; rfl) hquote (.inr rfl) fun s hparsing hlines => by
        obtain ⟨s', hcreate, hbetween, hlines'⟩ := hparsing.quoted (T := T)
        exact ⟨s', _, hcreate, hbetween, hlines'.trans hlines⟩
    exact ⟨hwithin, hwithin.from (by rw [htext, quotedForm]; rfl) hquote⟩
  | @literal d digits front init ps hdigits hsize h ih =>
    have hfrom := (ih fun p hp => hsmall p (.tail _ hp)).2
    have hint : decimal digits < 2 ^ 31 := hsmall _ (.head _)
    have htext : textOf (.literal digits init front :: ps) rest = literalForm digits := rfl
    have hwithin := hfrom.string (p := .literal digits init front) (h.not_blank rest)
      (by rw [htext, literalForm]; rfl) hbrace (.inl rfl) fun s hparsing hlines => by
        obtain ⟨s', hcreate, hbetween, hlines', -⟩ :=
          createLiteral_next (T := T) hparsing hdigits hsize hlines (h.not_blank rest) hint
        rw [← (hparsing.literal hdigits).2] at hcreate
        exact ⟨s', _, hcreate, hbetween, hlines'⟩
    exact ⟨hwithin, hwithin.from (by rw [htext, literalForm]; rfl) hbrace⟩

/-- There are at least so many bytes to come as the group has pieces. -/
theorem Parsing.length_lt_bytesToCome {s : Parser} {ps : List Piece} {rest : List UInt8}
    {more : List (List UInt8)} (h : Parsing s (textOf ps rest))
    (hlines : s.lines = linesOf ps rest more) : ps.length < s.bytesToCome := by
  obtain ⟨line, start, t, htoken, htext⟩ := h.token
  have hbytes := length_le_bytes ps rest more
  have hlen := congrArg List.length htext
  rw [length_drop] at hlen
  rw [Parser.bytesToCome, htoken.currentLine, getD_some, hlines]
  omega

/-- `skip_to_close_paren` skips a group behind its open parenthesis. -/
theorem Closes.skipToCloseParen {T : Strtok} {s : Parser} {ps : List Piece} {rest : List UInt8}
    {more : List (List UInt8)} (h : Closes 1 ps) (hsmall : ∀ p ∈ ps, p.Small)
    (hparsing : Parsing s (textOf (.openParen :: ps) rest))
    (hlines : s.lines = linesOf (.openParen :: ps) rest more) :
    ∃ s', (moveWithin s 1).bind (skipToCloseParen T) = some s' ∧ AtNext s' rest more := by
  obtain ⟨s₁, hmove, hparsing₁⟩ := @Parsing.move s ['('.toUInt8] _ hparsing (by decide)
  have hlines₁ : s₁.lines = linesOf ps rest more := (moveWithin_lines hmove).trans hlines
  rw [length_singleton] at hmove
  rw [hmove]
  exact (h.skips T hsmall rest more).1.loop (hparsing₁.length_lt_bytesToCome hlines₁) hparsing₁
    hlines₁

end CommCentral.Imap
