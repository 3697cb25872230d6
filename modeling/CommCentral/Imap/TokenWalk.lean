import CommCentral.Imap.StringTokens

/-!
# Walking along the tokens of a line

The tokenizer of a line has found the next token at the first byte that is no
whitespace (`Ready.nextToken_at`).  A parser that stands in front of a text can be
moved on within the token (`Parsing.move`).
-/

namespace CommCentral.Imap

open List

open Base (cr lf)

/-- The next token is found behind the whitespace. -/
theorem Ready.nextToken_at {s : Parser} {rest : List UInt8} (T : Strtok) (h : Ready s rest)
    (hblank : rest.all isWhitespace = false) :
    ∃ line p, s.currentLine = some line ∧ line.drop p = rest ∧
      (callStrtok T (setupTokenizer s)).nextToken =
        .at (p + (rest.takeWhile isWhitespace).length) := by
  obtain ⟨line, tokens, hline, hnull, hlen, htokens, -, -, hplace⟩ := h.setup
  rcases hplace with ⟨-, rfl⟩ | ⟨p, hplace, -, hp, hcopy, hrest⟩
  · cases hblank
  have hword : word (rest.dropWhile isWhitespace) ≠ [] := by
    intro hnil
    rw [(all_isWhitespace_iff rest).mpr hnil] at hblank
    cases hblank
  have hnull' : 0 ∉ rest.dropWhile isWhitespace := fun hmem =>
    hnull (mem_of_mem_drop (hrest ▸ dropWhile_subset _ hmem))
  have hlength : (tokens.take p).length = p := by
    rw [length_take, hlen]
    exact Nat.min_eq_left hp
  have hcut : tokens.take p ++ rest.takeWhile isWhitespace ++ rest.dropWhile isWhitespace =
      tokens := by
    rw [append_assoc, takeWhile_append_dropWhile, ← hcopy, take_append_drop]
  have hnext := T.next_word (tokens.take p) (rest.takeWhile isWhitespace)
    (rest.dropWhile isWhitespace) all_takeWhile hword hnull'
  rw [hcut, length_append, hlength] at hnext
  refine ⟨line, p, hline, hrest, ?_⟩
  rw [callStrtok, htokens, Option.getD_some, hplace, hnext]
  rfl

/-- The parser stands in front of a text, and has found no error. -/
structure Parsing (s : Parser) (text : List UInt8) : Prop extends Standing s text where
  noError : s.syntaxError = false

namespace Parsing

variable {s : Parser} {text front back : List UInt8}

theorem continueParse (h : Parsing s text) : s.continueParse = true := by
  rw [Parser.continueParse, h.connected, h.noError]
  rfl

theorem tokenText (h : Parsing s text) : s.tokenText = some (word text) := by
  obtain ⟨line, start, t, htoken, rfl⟩ := h.token
  exact htoken.tokenText

theorem move (h : Parsing s (front ++ back)) (hfront : ∀ b ∈ front, isWhitespace b = false) :
    ∃ s', moveWithin s front.length = some s' ∧ Parsing s' back := by
  obtain ⟨line, start, t, htoken, htext⟩ := h.token
  have hle : front.length ≤ (word (line.drop t)).length := by
    rw [htext, word, takeWhile_append_of_pos fun b hb => by rw [hfront b hb]; rfl,
      length_append]
    exact Nat.le_add_right _ _
  have hmoved := htoken.move hle
  have hback : line.drop (t + front.length) = back := by
    rw [← drop_drop, htext, drop_left]
  refine ⟨{ s with nextToken := .at (t + front.length) }, ?_, ?_⟩
  · rw [moveWithin, htoken.next, htoken.tokenText]
    exact if_pos hle
  · exact ⟨⟨⟨h.inv.lines, h.inv.closed, .inr (.inr ⟨_, hmoved.ready⟩)⟩, h.connected, h.inside,
      line, start, _, hmoved, hback⟩, h.noError⟩

end Parsing

end CommCentral.Imap
