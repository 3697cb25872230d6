import CommCentral.Imap.TokenWalk

/-!
# Where the tokenizer goes on

Behind a string the parser does not stand on a token: the tokenizer was moved to some place of
the line, and the next token is the one that follows there.

* `Between s rest`: the tokenizer goes on with `rest`, by whatever way it came there.
* `Scanning s line tokens p`: it goes on at the place `p` of the line, which was set, and every
  separator of the copy `tokens` is recovered from there on.
* `AtNext s rest more`: the parser has gone on to the first token of `rest`.
-/

namespace CommCentral.Imap

open List Nat

open Base (cr lf)

/-! ## In front of a token -/

/-- The tokenizer goes on with `rest` in a line that is not at its end. -/
structure Between (s : Parser) (rest : List UInt8) : Prop where
  inv : s.Inv
  connected : s.connected = true
  inside : s.atEndOfLine = false
  noError : s.syntaxError = false
  ready : Ready s rest

/-- The parser is at the first token of `rest`, or at the end of the line when there is none,
and `more` are the lines to come. -/
structure AtNext (s : Parser) (rest : List UInt8) (more : List (List UInt8)) : Prop where
  lines : s.lines = more
  continueParse : s.continueParse = true
  place : (rest.all isWhitespace = true ∧ s.nextToken = .crlf ∧ s.atEndOfLine = true) ∨
    (rest.all isWhitespace = false ∧ Standing s (rest.dropWhile isWhitespace))

variable {more : List (List UInt8)} {rest : List UInt8} {s : Parser}

theorem AtNext.parsing (h : AtNext s rest more) (hblank : rest.all isWhitespace = false) :
    Parsing s (rest.dropWhile isWhitespace) := by
  have hgo := h.continueParse
  rw [Parser.continueParse, Bool.and_eq_true, Bool.not_eq_true'] at hgo
  rcases h.place with ⟨hall, -⟩ | ⟨-, hstanding⟩
  · rw [hblank] at hall
    cases hall
  · exact ⟨hstanding, hgo.2⟩

/-- The whitespace behind a word does not matter. -/
theorem AtNext.of_tail (hword : word rest = []) (h : AtNext s rest.tail more) : AtNext s rest more := by
  cases rest with
  | nil => exact h
  | cons c rest =>
    have hc : isWhitespace c = true := by
      cases hc : isWhitespace c with
      | true => rfl
      | false =>
        rw [word_cons hc] at hword
        cases hword
    refine ⟨h.lines, h.continueParse, ?_⟩
    rw [all_cons, hc, dropWhile_cons_of_pos hc]
    exact h.place

theorem Between.advance_eq (T : Strtok) (h : Between s rest) :
    advanceToNextToken T s = callStrtok T (setupTokenizer s) := by
  have hinside : ¬(s.currentLine = none ∨ s.atEndOfLine = true) := by
    obtain ⟨line, hline, -⟩ := h.ready
    rw [hline, h.inside]
    simp
  simp only [advanceToNextToken, if_neg hinside, if_pos h.connected]

/-- `AdvanceToNextToken` goes on to the token that follows. -/
theorem Between.atNext (T : Strtok) (h : Between s rest) :
    AtNext (advanceToNextToken T s) rest s.lines := by
  have hsame := sameInput_callStrtok T s
  have hinv := (h.inv.advance T).1
  rw [h.advance_eq] at hinv ⊢
  have hgo : (callStrtok T (setupTokenizer s)).continueParse = true := by
    rw [Parser.continueParse, hsame.connected, hsame.syntaxError, h.connected, h.noError]
    rfl
  obtain ⟨-, ⟨hall, hcrlf, hend⟩ | ⟨hblank, hend, line, start, t, -, hline, htoken⟩⟩ :=
    h.ready.next_spec T
  · exact ⟨hsame.lines, hgo, .inl ⟨hall, hcrlf, hend⟩⟩
  · obtain ⟨line', p, hline', hdrop, hat⟩ := h.ready.nextToken_at T hblank
    obtain rfl := Option.some.inj (hline.symm.trans hline')
    rw [htoken.next] at hat
    obtain rfl := NextToken.at.inj hat
    refine ⟨hsame.lines, hgo, .inr ⟨hblank, hinv, hsame.connected.trans h.connected,
      hend.trans h.inside, line, start, _, htoken, ?_⟩⟩
    have hsplit := congrArg (List.drop (rest.takeWhile isWhitespace).length)
      (takeWhile_append_dropWhile (p := isWhitespace) (l := rest))
    rw [drop_left] at hsplit
    rw [← drop_drop, hdrop, ← hsplit]

/-- Behind its word a parser is in front of the next one. -/
theorem Parsing.between {front back : List UInt8} (h : Parsing s (front ++ back))
    (hfront : ∀ b ∈ front, isWhitespace b = false) (hback : word back = []) :
    Between s back.tail := by
  obtain ⟨line, start, t, htoken, htext⟩ := h.token
  have hready := htoken.ready
  have hbehind : behindWord (front ++ back) = back := by
    have hsplit := word_append_behindWord (front ++ back)
    rw [Imap.word_append hfront, hback, List.append_nil] at hsplit
    exact append_cancel_left hsplit
  rw [htext, hbehind] at hready
  exact ⟨h.inv, h.connected, h.inside, h.noError, hready⟩

/-! ## At a place that was set -/

/-- The tokenizer goes on at the place `p` of its line. -/
structure Scanning (s : Parser) (line tokens : List UInt8) (p : ℕ) : Prop where
  inv : s.Inv
  connected : s.connected = true
  inside : s.atEndOfLine = false
  noError : s.syntaxError = false
  currentLine : s.currentLine = some line
  noNull : 0 ∉ line
  startOfLineOfTokens : s.startOfLineOfTokens = some tokens
  length : tokens.length = line.length
  /-- The separators from there on are recovered. -/
  drop : tokens.drop p = line.drop p
  place : s.currentTokenPlaceHolder = some p
  lineOfTokens_le : s.lineOfTokens ≤ p
  le : p ≤ line.length

variable {line tokens : List UInt8} {p : ℕ}

theorem Scanning.between (h : Scanning s line tokens p) : Between s (line.drop p) :=
  ⟨h.inv, h.connected, h.inside, h.noError, line, h.currentLine, h.noNull,
    .inr ⟨tokens, h.startOfLineOfTokens, h.length,
      .inr ⟨p, h.place, h.lineOfTokens_le, h.le, h.drop, rfl⟩⟩⟩

theorem Scanning.continueParse (h : Scanning s line tokens p) : s.continueParse = true := by
  rw [Parser.continueParse, h.connected, h.noError]
  rfl

theorem length_recoverSeparator (tokens line : List UInt8) (place : Option ℕ) :
    (recoverSeparator tokens line place).length = tokens.length := by
  unfold recoverSeparator
  split
  · exact length_set
  · rfl

/-- `AdvanceTokenizerStartingPoint` sets the place, when that is in the line. -/
theorem advanceTokenizerStartingPoint_eq {T : Strtok} {s : Parser} {tokens line : List UInt8}
    (htokens : s.startOfLineOfTokens = some tokens) (hline : s.currentLine = some line)
    (hlen : tokens.length = line.length) {q : ℕ} (hq : q ≤ line.length) :
    advanceTokenizerStartingPoint T s (q - s.lineOfTokens) =
      some { s with
        startOfLineOfTokens := some (recoverSeparator tokens line s.currentTokenPlaceHolder)
        lineOfTokens := q
        currentTokenPlaceHolder := some q } := by
  have hsum : (s.lineOfTokens : ℤ) + (q - s.lineOfTokens) = q := by omega
  have hin : (0 : ℤ) ≤ q ∧
      (q : ℤ) ≤ (recoverSeparator tokens line s.currentTokenPlaceHolder).length := by
    rw [length_recoverSeparator, hlen]
    exact ⟨Int.natCast_nonneg q, by exact_mod_cast hq⟩
  rw [advanceTokenizerStartingPoint]
  simp only [htokens, hline, Option.getD_some, reduceCtorEq, if_false, hsum, if_pos hin,
    Int.toNat_natCast]

variable {T : Strtok}

/-- From a token on the place is set behind the start of the token. -/
theorem OnToken.scanning {start t q : ℕ} (h : OnToken s line start t) (hinv : s.Inv)
    (hgo : s.continueParse = true) (hinside : s.atEndOfLine = false) (hstart : start ≤ q)
    (hq : q ≤ line.length) :
    ∃ s' tokens, advanceTokenizerStartingPoint T s (q - s.lineOfTokens) = some s' ∧
      Scanning s' line tokens q ∧ tokens.drop start = line.drop start ∧ s'.lines = s.lines := by
  obtain ⟨tokens, htokens, hlen, -, hrecover⟩ := h.tokens
  have hrun := advanceTokenizerStartingPoint_eq (T := T) htokens h.currentLine hlen hq
  have hinv' := h.advanceStart_inv hinv hstart hrun
  rw [Parser.continueParse, Bool.and_eq_true, Bool.not_eq_true'] at hgo
  have hdrop := congrArg (List.drop (q - start)) hrecover
  rw [drop_drop, drop_drop, Nat.add_sub_cancel' hstart] at hdrop
  exact ⟨_, _, hrun, ⟨hinv', hgo.1, hinside, hgo.2, h.currentLine, h.noNull, rfl,
    (length_recoverSeparator _ _ _).trans hlen, hdrop, rfl, le_refl q, hq⟩, hrecover, rfl⟩

theorem Scanning.cut {text : List UInt8} {c : UInt8} (T : Strtok) (h : Scanning s line tokens p)
    (htext : line.drop p = c :: text) (hc : isWhitespace c = false) :
    advanceToNextToken T s = { s with
      nextToken := .at p
      startOfLineOfTokens :=
        some (tokens.take p ++ word (c :: text) ++ cutFirst (behindWord (c :: text)))
      currentTokenPlaceHolder := if behindWord (c :: text) = [] then none else
        some (p + (word (c :: text)).length + 1) } := by
  have hlength : (tokens.take p).length = p := by
    rw [length_take, h.length]
    exact min_eq_left h.le
  have hword : word (c :: text) ≠ [] := by
    rw [word_cons hc]
    exact cons_ne_nil _ _
  have hnull : 0 ∉ c :: text := fun hmem => h.noNull (mem_of_mem_drop (htext ▸ hmem))
  have hnext := T.next_word (tokens.take p) [] (c :: text) rfl hword hnull
  have hcopy : tokens.take p ++ [] ++ c :: text = tokens := by
    rw [List.append_nil, ← htext, ← h.drop, take_append_drop]
  rw [hcopy, List.append_nil, hlength] at hnext
  have hset : setupTokenizer s = s := by
    rw [setupTokenizer, if_neg (by rw [h.startOfLineOfTokens]; exact Option.some_ne_none _)]
  rw [h.between.advance_eq, hset, callStrtok, h.startOfLineOfTokens, Option.getD_some, h.place,
    hnext]
  rfl

/-- From the token that was cut off the place is set on in the line, and the copy of the line is
as it was. -/
theorem Scanning.advanceStart {T : Strtok} {s : Parser} {line tokens text : List UInt8} {p q : ℕ}
    {c : UInt8} (h : Scanning s line tokens p) (htext : line.drop p = c :: text)
    (hc : isWhitespace c = false) (hpq : p ≤ q) (hq : q ≤ line.length) :
    ∃ s', advanceTokenizerStartingPoint T (advanceToNextToken T s)
        (q - (advanceToNextToken T s).lineOfTokens) = some s' ∧
      Scanning s' line tokens q ∧ s'.lines = s.lines := by
  have hinv := (h.inv.advance T).1
  have hcut := h.cut T htext hc
  have hlength : (tokens.take p).length = p := by
    rw [length_take, h.length]
    exact min_eq_left h.le
  have hrecover := @recoverSeparator_cut (c :: text) line (tokens.take p) (by rw [hlength, htext])
  rw [hlength, ← htext, ← h.drop, take_append_drop, h.drop, htext] at hrecover
  have hlen : (tokens.take p ++ word (c :: text) ++ cutFirst (behindWord (c :: text))).length =
      line.length := by
    have hsplit := congrArg List.length (word_append_behindWord (c :: text))
    have hall := congrArg List.length htext
    rw [length_append] at hsplit
    rw [length_drop] at hall
    rw [length_append, length_append, length_cutFirst]
    omega
  rw [hcut] at hinv ⊢
  have hrun := @advanceTokenizerStartingPoint_eq T { s with
      nextToken := .at p
      startOfLineOfTokens :=
        some (tokens.take p ++ word (c :: text) ++ cutFirst (behindWord (c :: text)))
      currentTokenPlaceHolder := if behindWord (c :: text) = [] then none else
        some (p + (word (c :: text)).length + 1) } _ _ rfl h.currentLine hlen q hq
  rw [hrecover] at hrun
  have hdrop := congrArg (List.drop (q - p)) h.drop
  rw [drop_drop, drop_drop, Nat.add_sub_cancel' hpq] at hdrop
  refine ⟨_, hrun, ⟨⟨hinv.lines, hinv.closed, .inr (.inr ⟨_, line, h.currentLine, h.noNull,
    .inr ⟨tokens, rfl, h.length, .inr ⟨q, rfl, le_refl q, hq, hdrop, rfl⟩⟩⟩)⟩, h.connected,
    h.inside, h.noError, h.currentLine, h.noNull, rfl, h.length, hdrop, rfl, le_refl q, hq⟩, rfl⟩

theorem Scanning.step {text : List UInt8} {c : UInt8} (h : Scanning s line tokens p)
    (htext : line.drop p = c :: text) :
    Scanning { s with currentTokenPlaceHolder := some (p + 1) } line tokens (p + 1) ∧
      line.drop (p + 1) = text := by
  have hlen := congrArg List.length htext
  rw [length_drop, length_cons] at hlen
  have hle : p + 1 ≤ line.length := by omega
  have hdrop := congrArg List.tail h.drop
  rw [tail_drop, tail_drop] at hdrop
  refine ⟨⟨⟨h.inv.lines, h.inv.closed, .inr (.inr ⟨_, line, h.currentLine, h.noNull,
    .inr ⟨tokens, h.startOfLineOfTokens, h.length,
      .inr ⟨p + 1, rfl, le_succ_of_le h.lineOfTokens_le, hle, hdrop, rfl⟩⟩⟩)⟩, h.connected,
    h.inside, h.noError, h.currentLine, h.noNull, h.startOfLineOfTokens, h.length, hdrop, rfl,
    le_succ_of_le h.lineOfTokens_le, hle⟩, ?_⟩
  rw [← tail_drop, htext, tail_cons]

/-! ## Behind a string -/

theorem Scanning.quoted {str : List UInt8} (h : Scanning s line tokens p)
    (htext : line.drop p = quotedForm str ++ rest) :
    ∃ s', createQuoted T (advanceToNextToken T s) = some (s', some str) ∧
      Scanning s' line tokens (p + (quotedForm str).length) ∧
      line.drop (p + (quotedForm str).length) = rest ∧ s'.lines = s.lines := by
  have hlen := congrArg List.length htext
  rw [length_drop, length_append] at hlen
  have hcons : line.drop p = '"'.toUInt8 :: (str.flatMap escapeByte ++ '"'.toUInt8 :: rest) := by
    rw [htext]
    simp [quotedForm]
  have hq : p + (quotedForm str).length ≤ line.length := by
    have hle := h.le
    omega
  obtain ⟨s', hrun, hscanning, hlines⟩ :=
    h.advanceStart (T := T) hcons (by decide) (le_add_right _ _) hq
  have hcut := h.cut T hcons (by decide)
  have hnext : (advanceToNextToken T s).nextToken = .at p := by rw [hcut]
  have hline : (advanceToNextToken T s).currentLine = some line := by
    rw [hcut]
    exact h.currentLine
  refine ⟨s', ?_, hscanning, ?_, hlines⟩
  · have hsum : (p : ℤ) - (advanceToNextToken T s).lineOfTokens + (quotedForm str).length =
        ((p + (quotedForm str).length : ℕ) : ℤ) - (advanceToNextToken T s).lineOfTokens := by
      omega
    rw [createQuoted_eq hnext hline htext, hsum, hrun]
    rfl
  · rw [← drop_drop, htext, drop_left]

theorem Parsing.quoted {str : List UInt8} (h : Parsing s (quotedForm str ++ rest)) :
    ∃ s', createString T s = some (s', some str) ∧ Between s' rest ∧ s'.lines = s.lines := by
  obtain ⟨line, start, t, htoken, htext⟩ := h.token
  have hlen := congrArg List.length htext
  rw [length_drop, length_append] at hlen
  have hq : t + (quotedForm str).length ≤ line.length := by
    have hle := htoken.le
    omega
  obtain ⟨s', tokens, hrun, hscanning, -, hlines⟩ :=
    htoken.scanning (T := T) h.inv h.continueParse h.inside
      (le_add_right_of_le htoken.start_le) hq
  have hbetween := hscanning.between
  rw [← drop_drop, htext, drop_left] at hbetween
  have hform : quotedForm str ++ rest =
      '"'.toUInt8 :: (str.flatMap escapeByte ++ '"'.toUInt8 :: rest) := by simp [quotedForm]
  have hword := h.tokenText
  rw [hform, word_cons (by decide)] at hword
  have hsum : (t : ℤ) - s.lineOfTokens + (quotedForm str).length =
      ((t + (quotedForm str).length : ℕ) : ℤ) - s.lineOfTokens := by omega
  have hne : '"'.toUInt8 ≠ '{'.toUInt8 := by decide
  have hcreate := createQuoted_eq (T := T) htoken.next htoken.currentLine htext
  rw [hsum, hrun] at hcreate
  refine ⟨s', ?_, hbetween, hlines⟩
  rw [createString, hword]
  simp [hne, hcreate]

/-- A literal takes the place behind it in the line that goes on there.  When it ends with the
line in front, that line is not tokenized yet. -/
theorem createLiteral_next {digits front : List UInt8} {init : List (List UInt8)}
    (h : Parsing s (literalForm digits)) (hdigits : ∀ c ∈ digits, isDigit c = true)
    (hsize : decimal digits = (init.flatten ++ front).length)
    (hlines : s.lines = init ++ (front ++ rest) :: more) (hblank : rest.all isWhitespace = false)
    (hsmall : decimal digits < 2 ^ 31) :
    ∃ s', createLiteral T s = some (s', some (init.flatten ++ front)) ∧ Between s' rest ∧
      s'.lines = more ∧
      (front = [] → Fresh s') ∧
      (front ≠ [] → Scanning s' (front ++ rest) (front ++ rest) front.length) := by
  have hok : ∀ l ∈ init ++ (front ++ rest) :: more, l ≠ [] ∧ 0 ∉ l := hlines ▸ h.inv.lines
  have hrest : rest ≠ [] := by
    rintro rfl
    cases hblank
  have hnull : 0 ∉ front ++ rest := (hok (front ++ rest) (by simp)).2
  obtain ⟨s₁, hcreate, hconnected, hready, hfresh, hcurrent, hlines₁, hend, herror⟩ :=
    createLiteral_eq (T := T) h.toStanding hdigits hsize hrest (fun l hl => hok l (by simp [hl]))
      hnull hlines h.noError (hsize ▸ hsmall)
  have hblank' : (front ++ rest).all isWhitespace = false := by
    rw [all_append, hblank, Bool.and_false]
  have hbetween : Between s₁ (front ++ rest) := by
    refine ⟨⟨fun l hl => hok l ?_, fun hc => ?_, .inr (.inr ⟨_, hready⟩)⟩, hconnected,
      hend.trans hblank', herror, hready⟩
    · rw [hlines₁] at hl
      simp [hl]
    · rw [hconnected] at hc
      cases hc
  cases hfront : front with
  | nil =>
    subst hfront
    exact ⟨s₁, hcreate, hbetween, hlines₁, fun _ => hfresh, fun hne => absurd rfl hne⟩
  | cons c cs =>
    rw [← hfront]
    have hne : front ≠ [] := by simp [hfront]
    have hgo := (hbetween.atNext T).continueParse
    have hinv := (hbetween.inv.advance T).1
    obtain ⟨t, htoken, hend', -⟩ := hready.first T hcurrent hblank'
    have hmore := (hbetween.atNext T).lines
    rw [hbetween.advance_eq] at hgo hinv hmore
    obtain ⟨s', tokens, hrun, hscanning, hcopy, hlines'⟩ :=
      htoken.scanning (T := T) hinv hgo (hend'.trans hbetween.inside) (zero_le front.length)
        (by rw [length_append]; exact le_add_right _ _)
    subst hcopy
    have hset : ¬ Fresh (advanceToNextToken T s₁) := by
      obtain ⟨copy, htokens, -⟩ := htoken.tokens
      rw [hbetween.advance_eq, Fresh, htokens]
      exact Option.some_ne_none copy
    have hzero := le_zero.mp htoken.lineOfTokens_le
    rw [hzero, cast_zero, sub_zero] at hrun
    have hback := hscanning.between
    rw [drop_left] at hback
    refine ⟨s', ?_, hback, hlines'.trans (hmore.trans hlines₁), fun h => absurd h hne,
      fun _ => hscanning⟩
    rw [hcreate, if_neg hne, advanceTokenizerStartingPoint_fresh hfresh, if_neg hset,
      hbetween.advance_eq, hrun]
    rfl

end CommCentral.Imap
