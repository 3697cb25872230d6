import CommCentral.Imap.ParenSkip

/-!
# Reading a parenthesised group

`CreateParenGroup` copies a group.  It goes through the line character by character, and calls
`CreateQuoted` and `CreateLiteral` for the strings.  Its loop reads at `fCurrentTokenPlaceHolder`,
a pointer into the copy of the line that the tokenizer cuts up.

A literal that ends with its line is a place where it goes wrong: `CreateLiteral` then takes the
line behind, which frees that copy, and leaves the pointer as it was.  The loop is `none` there.
A group is read, and skipped, exactly when no literal of it ends so, nor has a size that is no
`int` (`parenGroup_iff`).
-/

namespace CommCentral.Imap

open List Option Nat

open Base (cr lf)

/-! ## `CreateParenGroup` -/

/-- The string at a pointer into the line of tokens.  There is none when that was freed. -/
def Parser.stringAt (s : Parser) (place : Option ℕ) : Option (List UInt8) := do
  let tokens ← s.startOfLineOfTokens
  let p ← place
  if p ≤ tokens.length then some (cstr (tokens.drop p)) else none

/-- The loop of `CreateParenGroup`, at most so many times: the parser, `returnString`,
`parenGroupStart` and `numOpenParens`. -/
def groupLoop (T : Strtok) : ℕ → Parser → List UInt8 → Option ℕ → ℤ →
    Option (Parser × List UInt8 × Option ℕ × ℤ)
  | 0, _, _, _, _ => none
  | fuel + 1, s, returnString, parenGroupStart, numOpenParens => do
    match ← s.stringAt s.currentTokenPlaceHolder with
    | [] => return (s, returnString, parenGroupStart, numOpenParens)
    | c :: _ =>
      if c = '{'.toUInt8 then do
        let returnString := returnString ++ (← s.stringAt parenGroupStart)
        let s := advanceToNextToken T s
        if s.continueParse then do
          match ← createLiteral T s with
          | (s, none) => return (s, returnString, parenGroupStart, numOpenParens)
          | (s, some lit) =>
            let returnString := returnString ++ cstr lit
            if s.continueParse then
              groupLoop T fuel s returnString s.currentTokenPlaceHolder numOpenParens
            else return (s, returnString, parenGroupStart, numOpenParens)
        else return (s, returnString, parenGroupStart, numOpenParens)
      else if c = '"'.toUInt8 then do
        let s := advanceToNextToken T s
        if s.continueParse then do
          match ← createQuoted T s with
          | (s, none) => return (s, returnString, parenGroupStart, numOpenParens)
          | (s, some _) =>
            if s.continueParse then groupLoop T fuel s returnString parenGroupStart numOpenParens
            else return (s, returnString, parenGroupStart, numOpenParens)
        else return (s, returnString, parenGroupStart, numOpenParens)
      else
        let s := { s with currentTokenPlaceHolder := s.currentTokenPlaceHolder.map (· + 1) }
        if c = '('.toUInt8 then groupLoop T fuel s returnString parenGroupStart (numOpenParens + 1)
        else if c = ')'.toUInt8 then
          if numOpenParens - 1 = 0 then
            return (s, returnString, parenGroupStart, numOpenParens - 1)
          else groupLoop T fuel s returnString parenGroupStart (numOpenParens - 1)
        else groupLoop T fuel s returnString parenGroupStart numOpenParens

/-- What `CreateParenGroup` does behind its loop. -/
def finishGroup (T : Strtok) : Parser × List UInt8 × Option ℕ × ℤ →
    Option (Parser × Option (List UInt8))
  | (s, returnString, parenGroupStart, numOpenParens) =>
    if numOpenParens ≠ 0 ∨ ¬ s.continueParse then some (s.setSyntaxError, none)
    else do
      let tokens ← s.startOfLineOfTokens
      let start ← parenGroupStart
      let place ← s.currentTokenPlaceHolder
      return (advanceToNextToken T s,
        some (returnString ++ (tokens.drop start).take (place - start)))

def createParenGroup (T : Strtok) (s : Parser) : Option (Parser × Option (List UInt8)) :=
  match s.nextToken with
  | .at t => do
    let s ← advanceTokenizerStartingPoint T s (t - s.lineOfTokens)
    let q ← groupLoop T s.bytesToCome s [] s.currentTokenPlaceHolder 0
    finishGroup T q
  | _ => none

/-- A literal that `CreateParenGroup` reads: its size is an `int`, and it does not end with its
line. -/
def Piece.Readable : Piece → Prop
  | literal digits _ front => decimal digits < 2 ^ 31 ∧ front ≠ []
  | _ => True

theorem Piece.Readable.small {p : Piece} (h : p.Readable) : p.Small := by
  cases p with
  | literal => exact h.1
  | openParen | closeParen | plain | quoted => trivial

/-! ## What is copied -/

/-- The group is copied up to `text`: what `returnString` has, and the line from
`parenGroupStart` on. -/
structure Copying (s : Parser) (returnString : List UInt8) (start : ℕ) (copied text : List UInt8) :
    Prop where
  at_place : ∃ line tokens p, Scanning s line tokens p ∧ line.drop p = text ∧ start ≤ p ∧
    tokens.drop start = line.drop start ∧
    copied = returnString ++ (line.drop start).take (p - start)

theorem cstr_of_notMem {text : List UInt8} (h : 0 ∉ text) : cstr text = text := by
  rw [cstr, takeWhile_eq_self_iff]
  intro c hc
  have hne : c ≠ 0 := by
    rintro rfl
    exact h hc
  simpa using hne

namespace Copying

variable {s : Parser} {returnString copied text : List UInt8} {start : ℕ}

section

variable (h : Copying s returnString start copied text)

include h

theorem between : Between s text := by
  obtain ⟨line, tokens, p, hscanning, rfl, -⟩ := h.at_place
  exact hscanning.between

theorem stringAt : s.stringAt s.currentTokenPlaceHolder = some text := by
  obtain ⟨line, tokens, p, hscanning, rfl, -⟩ := h.at_place
  have hnull : 0 ∉ line.drop p := fun hmem => hscanning.noNull (mem_of_mem_drop hmem)
  have hle : p ≤ tokens.length := hscanning.length ▸ hscanning.le
  rw [Parser.stringAt, hscanning.startOfLineOfTokens, hscanning.place]
  simp only [bind_eq_bind, bind_some, if_pos hle, hscanning.drop,
    cstr_of_notMem hnull]

/-- The line from `parenGroupStart` on is copied when it ends with a literal. -/
theorem append_line :
    ∃ line, s.stringAt (some start) = some line ∧ returnString ++ line = copied ++ text := by
  obtain ⟨line, tokens, p, hscanning, rfl, hstart, hcopy, rfl⟩ := h.at_place
  have hnull : 0 ∉ line.drop start := fun hmem => hscanning.noNull (mem_of_mem_drop hmem)
  have hle : start ≤ tokens.length := by
    rw [hscanning.length]
    exact le_trans hstart hscanning.le
  refine ⟨line.drop start, ?_, ?_⟩
  · rw [Parser.stringAt, hscanning.startOfLineOfTokens]
    simp only [bind_eq_bind, bind_some, if_pos hle, hcopy, cstr_of_notMem hnull]
  · have hback : line.drop p = (line.drop start).drop (p - start) := by
      rw [drop_drop, Nat.add_sub_cancel' hstart]
    rw [hback, append_assoc, take_append_drop]

end

theorem take_add_drop {line front back : List UInt8} {p : ℕ} (hstart : start ≤ p)
    (htext : line.drop p = front ++ back) :
    (line.drop start).take (p + front.length - start) =
      (line.drop start).take (p - start) ++ front := by
  have hback : line.drop p = (line.drop start).drop (p - start) := by
    rw [drop_drop, Nat.add_sub_cancel' hstart]
  have hsum : p + front.length - start = (p - start) + front.length := by omega
  rw [hsum, take_add, ← hback, htext, take_left]

theorem char {c : UInt8} (h : Copying s returnString start copied (c :: text)) :
    Copying { s with currentTokenPlaceHolder := s.currentTokenPlaceHolder.map (· + 1) }
      returnString start (copied ++ [c]) text := by
  obtain ⟨line, tokens, p, hscanning, htext, hstart, hcopy, rfl⟩ := h.at_place
  obtain ⟨hnext, hdrop⟩ := hscanning.step htext
  rw [hscanning.place]
  refine ⟨line, tokens, p + 1, hnext, hdrop, le_succ_of_le hstart, hcopy, ?_⟩
  rw [append_assoc, ← @take_add_drop start line [c] text p hstart htext]
  rfl

theorem quoted {str : List UInt8} (T : Strtok)
    (h : Copying s returnString start copied (quotedForm str ++ text)) :
    ∃ s', createQuoted T (advanceToNextToken T s) = some (s', some str) ∧
      Copying s' returnString start (copied ++ quotedForm str) text ∧ s'.lines = s.lines := by
  obtain ⟨line, tokens, p, hscanning, htext, hstart, hcopy, rfl⟩ := h.at_place
  obtain ⟨s', hcreate, hnext, hdrop, hlines⟩ := hscanning.quoted (T := T) htext
  refine ⟨s', hcreate, ⟨line, tokens, _, hnext, hdrop, le_add_right_of_le hstart, hcopy, ?_⟩,
    hlines⟩
  rw [take_add_drop hstart htext, append_assoc]

end Copying

/-! ## The loop -/

section Loop

variable {T : Strtok} {s : Parser} {returnString copied text : List UInt8} {start fuel : ℕ} {n : ℤ}

/-- A turn of the loop for a character that begins no string. -/
theorem Copying.groupLoop_char {c : UInt8} (h : Copying s returnString start copied (c :: text))
    (hbrace : c ≠ '{'.toUInt8) (hquote : c ≠ '"'.toUInt8) :
    ∃ s', Copying s' returnString start (copied ++ [c]) text ∧ s'.lines = s.lines ∧
      groupLoop T (fuel + 1) s returnString (some start) n =
        if c = '('.toUInt8 then groupLoop T fuel s' returnString (some start) (n + 1)
        else if c = ')'.toUInt8 then
          if n - 1 = 0 then some (s', returnString, some start, n - 1)
          else groupLoop T fuel s' returnString (some start) (n - 1)
        else groupLoop T fuel s' returnString (some start) n := by
  refine ⟨_, h.char, rfl, ?_⟩
  rw [groupLoop, h.stringAt]
  simp only [Option.bind_eq_bind, Option.bind_some, if_neg hbrace, if_neg hquote, Option.pure_def]

theorem Copying.groupLoop_quoted {str : List UInt8}
    (h : Copying s returnString start copied (quotedForm str ++ text)) :
    ∃ s', Copying s' returnString start (copied ++ quotedForm str) text ∧ s'.lines = s.lines ∧
      groupLoop T (fuel + 1) s returnString (some start) n =
        groupLoop T fuel s' returnString (some start) n := by
  obtain ⟨s', hcreate, hnext, hlines⟩ := h.quoted T
  have hform : quotedForm str ++ text =
      '"'.toUInt8 :: (str.flatMap escapeByte ++ '"'.toUInt8 :: text) := by simp [quotedForm]
  have hread := h.stringAt
  rw [hform] at hread
  have hne : '"'.toUInt8 ≠ '{'.toUInt8 := by decide
  have hgo := (h.between.atNext T).continueParse
  have hgo' := hnext.between.continueParse
  refine ⟨s', hnext, hlines, ?_⟩
  rw [groupLoop, hread]
  simp only [bind_eq_bind, bind_some, if_neg hne, if_pos hgo, hcreate, if_pos hgo',
    if_true]

theorem Copying.groupLoop_literal {digits : List UInt8}
    (h : Copying s returnString start copied (literalForm digits)) :
    Parsing (advanceToNextToken T s) (literalForm digits) ∧
      (advanceToNextToken T s).lines = s.lines ∧
      groupLoop T (fuel + 1) s returnString (some start) n =
        (createLiteral T (advanceToNextToken T s)).bind fun q =>
          match q with
          | (s, none) => some (s, copied ++ literalForm digits, some start, n)
          | (s, some lit) =>
            if s.continueParse then
              groupLoop T fuel s (copied ++ literalForm digits ++ cstr lit)
                s.currentTokenPlaceHolder n
            else some (s, copied ++ literalForm digits ++ cstr lit, some start, n) := by
  have hnext := h.between.atNext T
  have hbrace : isWhitespace '{'.toUInt8 = false := by decide
  have hblank : (literalForm digits).all isWhitespace = false := by
    rw [literalForm, cons_append, all_cons, hbrace, Bool.false_and]
  have hparsing := hnext.parsing hblank
  obtain ⟨line, hline, happend⟩ := h.append_line
  have hread := h.stringAt
  rw [literalForm, cons_append] at hread
  refine ⟨hparsing, hnext.lines, ?_⟩
  rw [groupLoop, hread]
  simp only [bind_eq_bind, bind_some, if_true, hline, happend,
    if_pos hnext.continueParse, Option.pure_def]

/-- In a line that is not tokenized the loop would read what was freed. -/
theorem groupLoop_fresh (hfresh : Fresh s) :
    groupLoop T fuel s returnString s.currentTokenPlaceHolder n = none := by
  have hnone : s.startOfLineOfTokens = none := hfresh
  cases fuel with
  | zero => rfl
  | succ fuel =>
    rw [groupLoop, Parser.stringAt, hnone]
    rfl

/-- The loop copies a group up to its end, or is stuck at a literal of it. -/
def CopiesGroup (r : Option (Parser × List UInt8 × Option ℕ × ℤ)) (copied rest : List UInt8)
    (more : List (List UInt8)) (readable : Prop) : Prop :=
  (readable ∧ ∃ s' returnString start, r = some (s', returnString, some start, 0) ∧
    Copying s' returnString start copied rest ∧ s'.lines = more) ∨ (¬ readable ∧ r = none)

theorem CopiesGroup.turn {r r' : Option (Parser × List UInt8 × Option ℕ × ℤ)}
    {source rest : List UInt8} {more : List (List UInt8)} {p : Piece} {ps : List Piece}
    (h : CopiesGroup r' (copied ++ p.source ++ source) rest more (∀ p ∈ ps, p.Readable))
    (hr : r = r') (hp : p.Readable) :
    CopiesGroup r (copied ++ (p.source ++ source)) rest more (∀ q ∈ p :: ps, q.Readable) := by
  rw [append_assoc] at h
  rw [hr, forall_mem_cons, and_iff_right hp]
  exact h

end Loop

open Copying

theorem Closes.groupLoop {d : ℕ} {ps : List Piece} (T : Strtok) (h : Closes d ps)
    {rest : List UInt8} {more : List (List UInt8)} {fuel start : ℕ} {s : Parser}
    {returnString copied : List UInt8} (hfuel : ps.length < fuel)
    (hcopying : Copying s returnString start copied (textOf ps rest))
    (hlines : s.lines = linesOf ps rest more) :
    CopiesGroup (groupLoop T fuel s returnString (some start) d)
      (copied ++ ps.flatMap Piece.source) rest more (∀ p ∈ ps, p.Readable) := by
  induction h generalizing fuel start s returnString copied with
  | last =>
    obtain ⟨fuel, rfl⟩ := Nat.exists_eq_add_of_lt hfuel
    obtain ⟨s', hnext, hlines', hrun⟩ := @groupLoop_char T s _ _ _ _
      (1 + fuel) (1 : ℕ) _ hcopying (by decide) (by decide)
    refine .inl ⟨by simp [Piece.Readable], s', returnString, start, ?_, hnext,
      hlines'.trans hlines⟩
    exact hrun
  | @openParen d ps h ih =>
    obtain ⟨fuel, rfl⟩ : ∃ m, fuel = m + 1 := ⟨fuel - 1, by omega⟩
    obtain ⟨s', hnext, hlines', hrun⟩ := @groupLoop_char T s _ _ _ _
      fuel d _ hcopying (by decide) (by decide)
    exact (ih (lt_of_succ_lt_succ hfuel) hnext (hlines'.trans hlines)).turn hrun trivial
  | @closeParen d ps h ih =>
    obtain ⟨fuel, rfl⟩ : ∃ m, fuel = m + 1 := ⟨fuel - 1, by omega⟩
    obtain ⟨s', hnext, hlines', hrun⟩ := @groupLoop_char T s _ _ _ _
      fuel (d + 2 : ℕ) _ hcopying (by decide) (by decide)
    have hneeded : ((d + 2 : ℕ) : ℤ) - 1 = ((d + 1 : ℕ) : ℤ) := by omega
    have hmore : ¬ ((d + 1 : ℕ) : ℤ) = 0 := by omega
    rw [hneeded] at hrun
    exact (ih (lt_of_succ_lt_succ hfuel) hnext (hlines'.trans hlines)).turn hrun trivial
  | @plain d c ps hc h ih =>
    obtain ⟨fuel, rfl⟩ : ∃ m, fuel = m + 1 := ⟨fuel - 1, by omega⟩
    simp only [mem_cons, not_mem_nil, or_false, not_or] at hc
    obtain ⟨hopen, hclose, hbrace, hquote⟩ := hc
    obtain ⟨s', hnext, hlines', hrun⟩ := @groupLoop_char T s _ _ _ _
      fuel d _ hcopying hbrace hquote
    rw [if_neg hopen, if_neg hclose] at hrun
    exact (ih (lt_of_succ_lt_succ hfuel) hnext (hlines'.trans hlines)).turn hrun trivial
  | @quoted d str ps h ih =>
    obtain ⟨fuel, rfl⟩ : ∃ m, fuel = m + 1 := ⟨fuel - 1, by omega⟩
    obtain ⟨s', hnext, hlines', hrun⟩ := @groupLoop_quoted T s _ _ _ _ fuel d _ hcopying
    exact (ih (lt_of_succ_lt_succ hfuel) hnext (hlines'.trans hlines)).turn hrun trivial
  | @literal d digits front init ps hdigits hsize h ih =>
    obtain ⟨fuel, rfl⟩ : ∃ m, fuel = m + 1 := ⟨fuel - 1, by omega⟩
    obtain ⟨hparsing, hlines', hrun⟩ := @groupLoop_literal T s _ _ _ fuel d _ hcopying
    rw [hlines] at hlines'
    cases lt_or_ge (decimal digits) (2 ^ 31) with
    | inr hlarge =>
      refine .inr ⟨fun hall => not_lt.mpr hlarge (hall _ (.head _)).1, ?_⟩
      rw [hrun, createLiteral_large hparsing.toStanding hdigits (not_lt.mpr hlarge)]
      rfl
    | inl hsmall =>
      obtain ⟨s', hcreate, hbetween, hmore, hfresh, hscanning⟩ :=
        createLiteral_next hparsing hdigits hsize hlines' (h.not_blank rest) hsmall
      rw [hcreate, bind_some] at hrun
      simp only [if_pos hbetween.continueParse] at hrun
      cases hfront : front with
      | nil =>
        -- the copy of the line was freed
        refine .inr ⟨fun hall => (hall _ (.head _)).2 rfl, ?_⟩
        rw [hrun, groupLoop_fresh (hfresh hfront)]
      | cons c cs =>
        rw [← hfront]
        have hne : front ≠ [] := by simp [hfront]
        have hscan := hscanning hne
        have hnull : 0 ∉ init.flatten ++ front := by
          have hok := hlines' ▸ hparsing.inv.lines
          intro hmem
          rcases mem_append.mp hmem with hmem | hmem
          · obtain ⟨l, hl, hmem⟩ := mem_flatten.mp hmem
            exact (hok l (mem_append_left _ hl)).2 hmem
          · exact hscan.noNull (mem_append_left _ hmem)
        rw [cstr_of_notMem hnull, hscan.place] at hrun
        have hnext : Copying s' (copied ++ literalForm digits ++ (init.flatten ++ front))
            front.length (copied ++ (Piece.literal digits init front).source)
            (textOf ps rest) := by
          refine ⟨_, _, _, hscan, drop_left, le_refl _, rfl, ?_⟩
          rw [Nat.sub_self, take_zero, List.append_nil, Piece.source]
          simp only [append_assoc]
        exact (ih (lt_of_succ_lt_succ hfuel) hnext hmore).turn hrun ⟨hsmall, hne⟩

/-! ## Groups are read and skipped -/

/-- Behind the loop a group that was copied is returned. -/
theorem Copying.finishGroup {T : Strtok} {s : Parser} {returnString copied rest : List UInt8}
    {start : ℕ} (h : Copying s returnString start copied rest) :
    Imap.finishGroup T (s, returnString, some start, 0) =
      some (advanceToNextToken T s, some copied) := by
  obtain ⟨line, tokens, p, hscanning, -, -, hcopy, rfl⟩ := h.at_place
  rw [Imap.finishGroup, hscanning.continueParse, hscanning.startOfLineOfTokens, hscanning.place]
  simp [hcopy]

/-- `CreateParenGroup` copies a group to its end, or is stuck at a literal of it. -/
theorem Closes.createParenGroup {T : Strtok} {s : Parser} {ps : List Piece} {rest : List UInt8}
    {more : List (List UInt8)} (h : Closes 1 ps)
    (hparsing : Parsing s (textOf (.openParen :: ps) rest))
    (hlines : s.lines = linesOf (.openParen :: ps) rest more) :
    ((∀ p ∈ ps, p.Readable) ∧ ∃ s', Imap.createParenGroup T s =
        some (s', some ((Piece.openParen :: ps).flatMap Piece.source)) ∧ AtNext s' rest more) ∨
      ((¬ ∀ p ∈ ps, p.Readable) ∧ Imap.createParenGroup T s = none) := by
  obtain ⟨line, start, t, htoken, htext⟩ := hparsing.token
  obtain ⟨s₁, tokens, hrun, hscanning, hcopy, hlines₁⟩ := htoken.scanning (T := T) hparsing.inv
    hparsing.continueParse hparsing.inside htoken.start_le htoken.le
  have hcopying : Copying s₁ [] t [] (textOf (.openParen :: ps) rest) :=
    ⟨line, tokens, t, hscanning, htext, le_refl t, hscanning.drop, by simp⟩
  have hfuel : (Piece.openParen :: ps).length < s₁.bytesToCome := by
    have hbytes := length_le_bytes (.openParen :: ps) rest more
    have hlen := congrArg List.length htext
    rw [length_drop] at hlen
    rw [Parser.bytesToCome, hscanning.currentLine, getD_some, hlines₁, hlines]
    omega
  have hgroup := (Closes.openParen (d := 0) h).groupLoop T hfuel hcopying (hlines₁.trans hlines)
  rw [Imap.createParenGroup, htoken.next]
  simp only [hrun, bind_eq_bind, bind_some, hscanning.place]
  rcases hgroup with ⟨hall, s₂, returnString, start₂, hloop, hcopied, hmore⟩ | ⟨hstuck, hloop⟩
  · have hnext := hcopied.between.atNext T
    rw [hmore] at hnext
    refine .inl ⟨fun p hp => hall p (.tail _ hp), _, ?_, hnext⟩
    rw [cast_zero] at hloop
    rw [hloop, bind_some, hcopied.finishGroup, List.nil_append]
  · refine .inr ⟨fun hall => hstuck ?_, ?_⟩
    · rw [forall_mem_cons]
      exact ⟨trivial, hall⟩
    · rw [cast_zero] at hloop
      rw [hloop, bind_none]

/-- A parser that stands on the open parenthesis of a group, however it came there, skips the
group and reads its text, to the first token behind it both times, exactly when no literal of the
group has a size that is no `int` or ends with its line. -/
theorem parenGroup_iff (T : Strtok) {s : Parser} {ps : List Piece} {rest : List UInt8}
    {more : List (List UInt8)} (hclose : Closes 1 ps)
    (hparsing : Parsing s (textOf (.openParen :: ps) rest))
    (hlines : s.lines = linesOf (.openParen :: ps) rest more) :
    ((∃ s', (moveWithin s 1).bind (skipToCloseParen T) = some s' ∧ AtNext s' rest more) ∧
      ∃ s', createParenGroup T s =
        some (s', some ((Piece.openParen :: ps).flatMap Piece.source)) ∧ AtNext s' rest more) ↔
      ∀ p ∈ ps, p.Readable := by
  constructor
  · rintro ⟨-, s', hrun, -⟩
    rcases hclose.createParenGroup (T := T) hparsing hlines with ⟨hall, -⟩ | ⟨-, hstuck⟩
    · exact hall
    · rw [hstuck] at hrun
      cases hrun
  · intro hall
    refine ⟨hclose.skipToCloseParen (fun p hp => (hall p hp).small) hparsing hlines, ?_⟩
    rcases hclose.createParenGroup (T := T) hparsing hlines with ⟨-, hread⟩ | ⟨hnot, -⟩
    · exact hread
    · exact absurd hall hnot

/-- A group with parentheses within parentheses, in a quoted string and in a literal. -/
theorem parenGroup_strings :
    ∃ s, moveTo nsStrtok (Parser.start [['(', '(', ')', '"', '(', '"', '{', '2', '}', '\r',
        '\n'].map Char.toUInt8, [')', ')', ')', 'x', '\r', '\n'].map Char.toUInt8]) 0 = some s ∧
      (∃ s', (moveWithin s 1).bind (skipToCloseParen nsStrtok) = some s' ∧
        AtNext s' (['x', '\r', '\n'].map Char.toUInt8) []) ∧
      ∃ s', createParenGroup nsStrtok s = some (s', some (['(', '(', ')', '"', '(', '"', '{', '2',
          '}', '\r', '\n', ')', ')', ')'].map Char.toUInt8)) ∧
        AtNext s' (['x', '\r', '\n'].map Char.toUInt8) [] := by
  refine ⟨_, rfl, (@parenGroup_iff nsStrtok _ [.openParen, .closeParen, .quoted ['('.toUInt8],
    .literal ['2'.toUInt8] [] ([')', ')'].map Char.toUInt8), .closeParen]
    (['x', '\r', '\n'].map Char.toUInt8) [] ?_ ?_ (by decide)).mpr ?_⟩
  · exact .openParen (.closeParen (.quoted (.literal (by decide) (by decide) .last)))
  · obtain ⟨hinv, hplaced⟩ := @moveTo_placed nsStrtok _ _ 0 (@Parser.inv_start [['(', '(', ')',
      '"', '(', '"', '{', '2', '}', '\r', '\n'].map Char.toUInt8,
      [')', ')', ')', 'x', '\r', '\n'].map Char.toUInt8] (by decide)) rfl
    exact ⟨Standing.of_placed hinv hplaced (by decide), rfl⟩
  · simp [Piece.Readable, decimal]
    decide

/-- A group with an empty literal is not read: the loop goes on in the line that was freed. -/
theorem parenGroup_empty_literal :
    ∃ s, moveTo nsStrtok (Parser.start [['(', '{', '0', '}', '\r', '\n'].map Char.toUInt8,
        [')', '\r', '\n'].map Char.toUInt8]) 0 = some s ∧
      Closes 1 [.literal ['0'.toUInt8] [] [], .closeParen] ∧
      s.restOfLine =
        some (textOf [.openParen, .literal ['0'.toUInt8] [] [], .closeParen] [cr, lf]) ∧
      s.lines = linesOf [.openParen, .literal ['0'.toUInt8] [] [], .closeParen] [cr, lf] [] ∧
      ¬ ∃ s', createParenGroup nsStrtok s = some (s', some
        ([Piece.openParen, .literal ['0'.toUInt8] [] [], .closeParen].flatMap Piece.source)) := by
  refine ⟨_, rfl, .literal (by decide) (by decide) .last, by decide, by decide, ?_⟩
  rintro ⟨s', hrun⟩
  have hsome := congrArg Option.isSome hrun
  rw [Option.isSome_some] at hsome
  revert hsome
  decide

end CommCentral.Imap
