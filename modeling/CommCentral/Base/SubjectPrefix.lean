import Mathlib.Data.List.DropRight
import Mathlib.Data.List.Infix

/-!
# Stripping "Re:" of a subject

`NS_MsgStripRE` strips prefixes from a list of words off a subject, with white
space in front of each, and begins again at the first word after each of them.
A word is followed by a colon, or by a number in brackets and a colon.

The scan of the number stops two characters in front of the end; the closing
bracket and the colon are not in front of that (`skipDigits_eq_iff`).
-/

namespace CommCentral.Base

open List

/-! ## The loop -/

/-- `IS_SPACE`. -/
def isAsciiSpace (c : Char) : Bool := c ∈ [' ', '\t', '\n', '\x0b', '\x0c', '\r']

/-- Skip forward over digits, but not over the last two characters. -/
def skipDigits : List Char → List Char
  | c :: d :: e :: s2 => if c.isDigit then skipDigits (d :: e :: s2) else c :: d :: e :: s2
  | s2 => s2

/-- What is left behind a token at the beginning of `s`. -/
def stripToken (s token : List Char) : Option (List Char) :=
  if token ≠ [] ∧ token <+: s then
    match s.drop token.length with
    | [] => none
    | c :: s2 =>
      if c = ':' then some s2
      else if c = '[' ∨ c = '(' then
        -- Now ensure that the following thing is "]:".
        match skipDigits s2 with
        | close :: colon :: rest =>
          if (close = ']' ∨ close = ')') ∧ colon = ':' then some rest else none
        | _ => none
      else none
  else none

/-- A prefix of a token: with a colon, or with a number in brackets. -/
inductive RePrefix (token : List Char) : List Char → Prop
  | colon : token ≠ [] → RePrefix token (token ++ [':'])
  | count {opening close : Char} {digits : List Char} :
    token ≠ [] → opening = '[' ∨ opening = '(' → close = ']' ∨ close = ')' →
      (∀ d ∈ digits, d.isDigit) → RePrefix token (token ++ opening :: (digits ++ [close, ':']))

theorem skipDigits_eq_append (s2 : List Char) :
    ∃ digits : List Char, (∀ d ∈ digits, d.isDigit) ∧ s2 = digits ++ skipDigits s2 := by
  induction s2 using skipDigits.induct with
  | case1 c d e s2 hdigit ih =>
    obtain ⟨digits, hdigits, heq⟩ := ih
    refine ⟨c :: digits, forall_mem_cons.mpr ⟨hdigit, hdigits⟩, ?_⟩
    rw [skipDigits, if_pos hdigit, cons_append, ← heq]
  | case2 c d e s2 hdigit => exact ⟨[], by simp, by rw [skipDigits, if_neg hdigit, nil_append]⟩
  | case3 s2 hshort => exact ⟨[], by simp, by rw [skipDigits.eq_2 _ hshort, nil_append]⟩

theorem skipDigits_digits {digits : List Char} (h : ∀ d ∈ digits, d.isDigit) {close : Char}
    (hclose : close = ']' ∨ close = ')') (rest : List Char) :
    skipDigits (digits ++ close :: ':' :: rest) = close :: ':' :: rest := by
  have hstop : close.isDigit = false := by
    rcases hclose with rfl | rfl <;> rfl
  induction digits with
  | nil =>
    cases rest with
    | nil => rfl
    | cons e rest => rw [nil_append, skipDigits, if_neg (by simp [hstop])]
  | cons c digits ih =>
    obtain ⟨hc, hdigits⟩ := forall_mem_cons.mp h
    have hrest := ih hdigits
    rcases digits with _ | ⟨d, _ | ⟨e, digits⟩⟩ <;>
      exact (if_pos hc).trans hrest

/-- The rest behind a prefix of the token. -/
theorem stripToken_eq_some {s token rest : List Char} :
    stripToken s token = some rest ↔ ∃ pre, RePrefix token pre ∧ s = pre ++ rest := by
  constructor
  · intro h
    rw [stripToken] at h
    split at h
    · rename_i htoken
      obtain ⟨hne, s, rfl⟩ := htoken
      rw [drop_left] at h
      cases s with
      | nil => cases h
      | cons c s2 =>
        simp only at h
        split at h
        · rename_i hcolon
          cases h
          exact ⟨token ++ [':'], .colon hne, by rw [hcolon, append_assoc, singleton_append]⟩
        · split at h
          · rename_i hopen
            obtain ⟨digits, hdigits, heq⟩ := skipDigits_eq_append s2
            split at h
            · rename_i close colon s2' hskip
              split at h
              · rename_i hclose
                cases h
                rw [hskip, hclose.2] at heq
                exact ⟨_, .count hne hopen hclose.1 hdigits, by simp [heq]⟩
              · cases h
            · cases h
          · cases h
    · cases h
  · rintro ⟨pre, hpre, rfl⟩
    cases hpre with
    | colon hne =>
      rw [stripToken, append_assoc, if_pos ⟨hne, prefix_append _ _⟩, drop_left]
      rfl
    | count hne hopen hclose hdigits =>
      rw [stripToken, append_assoc, if_pos ⟨hne, prefix_append _ _⟩, drop_left, cons_append,
        append_assoc, cons_append, singleton_append]
      simp only [skipDigits_digits hdigits hclose, hopen, hclose, and_self, if_true]
      rcases hopen with rfl | rfl <;> rfl

theorem stripToken_length {s token rest : List Char} (h : stripToken s token = some rest) :
    rest.length < s.length := by
  obtain ⟨pre, hpre, rfl⟩ := stripToken_eq_some.mp h
  rw [length_append, Nat.lt_add_left_iff_pos, length_pos_iff]
  cases hpre with
  | colon => simp
  | count => simp

/-- The loop of `NS_MsgStripRE`: whether something is stripped, and what is left. -/
def stripLoop (tokens : List (List Char)) (result : Bool) (s : List Char) : Bool × List Char :=
  let start := s.dropWhile isAsciiSpace
  match _h : tokens.findSome? (stripToken start) with
  | some rest => stripLoop tokens true rest
  | none => (result, start)
termination_by s.length
decreasing_by
  obtain ⟨token, -, htoken⟩ := exists_of_findSome?_eq_some _h
  exact Nat.lt_of_lt_of_le (stripToken_length htoken) (dropWhile_sublist _).length_le

def reTokens (localizedRe : List Char) : List (List Char) :=
  -- Hardcoded "Re" so that no one can configure Mozilla standards incompatible.
  let checkString := "Re,RE,re,rE".toList
  (if localizedRe = [] then checkString else checkString ++ ',' :: localizedRe).splitOn ','

/-- `NS_MsgStripRE`: the modified subject, if one is given.  A subject with "=?" is decoded, and
what is left of it is encoded again. -/
def msgStripRE (decodeMimeHeader encodeMimePart : List Char → List Char)
    (localizedRe subject : List Char) : Option (List Char) :=
  let decodedString := if "=?".toList <:+: subject then decodeMimeHeader subject else []
  let s := stripLoop (reTokens localizedRe) false
    (if decodedString = [] then subject else decodedString)
  if s.1 then some (if decodedString = [] then s.2 else encodeMimePart s.2) else none

/-! ## What is stripped -/

/-- A text begins with a prefix of one of the tokens. -/
def HasRePrefix (tokens : List (List Char)) (s : List Char) : Prop :=
  ∃ token ∈ tokens, ∃ pre, RePrefix token pre ∧ pre <+: s

/-- Only white space and prefixes are removed. -/
inductive Stripped (tokens : List (List Char)) : List Char → List Char → Prop
  | refl (s : List Char) : Stripped tokens s s
  | space {c : Char} {s rest : List Char} :
    isAsciiSpace c = true → Stripped tokens s rest → Stripped tokens (c :: s) rest
  | re {token pre s rest : List Char} :
    token ∈ tokens → RePrefix token pre → Stripped tokens s rest → Stripped tokens (pre ++ s) rest

variable {tokens : List (List Char)} {s rest : List Char}

theorem Stripped.isSuffix (h : Stripped tokens s rest) : rest <:+ s := by
  induction h with
  | refl s => exact suffix_rfl
  | space _ _ ih => exact ih.trans (suffix_cons _ _)
  | re _ _ _ ih => exact ih.trans (suffix_append _ _)

theorem Stripped.of_dropWhile (h : Stripped tokens (s.dropWhile isAsciiSpace) rest) :
    Stripped tokens s rest := by
  induction s with
  | nil => exact h
  | cons c s ih =>
    rw [dropWhile_cons] at h
    split at h
    · rename_i hc
      exact .space hc (ih h)
    · exact h

theorem findSome?_stripToken_eq_none :
    tokens.findSome? (stripToken s) = none ↔ ¬ HasRePrefix tokens s := by
  rw [findSome?_eq_none_iff]
  constructor
  · rintro h ⟨token, htoken, pre, hpre, rest, rfl⟩
    have hsome : stripToken (pre ++ rest) token = some rest :=
      stripToken_eq_some.mpr ⟨pre, hpre, rfl⟩
    rw [h token htoken] at hsome
    cases hsome
  · intro h token htoken
    cases hsome : stripToken s token with
    | none => rfl
    | some rest =>
      obtain ⟨pre, hpre, heq⟩ := stripToken_eq_some.mp hsome
      exact absurd ⟨token, htoken, pre, hpre, rest, heq.symm⟩ h

/-- The loop strips prefixes until there is none, and says if there was one. -/
theorem stripLoop_spec (tokens : List (List Char)) (result : Bool) (s : List Char) :
    Stripped tokens s (stripLoop tokens result s).2 ∧
      ¬ HasRePrefix tokens (stripLoop tokens result s).2 ∧
      (stripLoop tokens result s).2.dropWhile isAsciiSpace = (stripLoop tokens result s).2 ∧
      ((stripLoop tokens result s).1 = true ↔
        result = true ∨ HasRePrefix tokens (s.dropWhile isAsciiSpace)) := by
  induction result, s using stripLoop.induct with
  | tokens => exact tokens
  | case1 result s start rest h ih =>
    obtain ⟨token, htoken, hsome⟩ := exists_of_findSome?_eq_some h
    obtain ⟨pre, hpre, heq⟩ := stripToken_eq_some.mp hsome
    have hloop : stripLoop tokens result s = stripLoop tokens true rest := by
      rw [stripLoop]
      split
      · rename_i hrest
        rw [h, Option.some.injEq] at hrest
        rw [hrest]
      · rename_i hnone
        rw [h] at hnone
        cases hnone
    have hstripped : Stripped tokens start (stripLoop tokens true rest).2 := by
      rw [heq]
      exact .re htoken hpre ih.1
    rw [hloop]
    refine ⟨hstripped.of_dropWhile, ih.2.1, ih.2.2.1, iff_of_true ?_ (Or.inr ?_)⟩
    · exact ih.2.2.2.mpr (Or.inl rfl)
    · exact ⟨token, htoken, pre, hpre, rest, heq.symm⟩
  | case2 result s start h =>
    have hloop : stripLoop tokens result s = (result, start) := by
      rw [stripLoop]
      split
      · rename_i hrest
        rw [h] at hrest
        cases hrest
      · rfl
    have hnot := findSome?_stripToken_eq_none.mp h
    rw [hloop]
    refine ⟨Stripped.of_dropWhile (.refl start), hnot, dropWhile_idempotent _ _, ?_⟩
    exact ⟨Or.inl, fun h => h.resolve_right hnot⟩

theorem msgStripRE_eq (decodeMimeHeader encodeMimePart : List Char → List Char)
    (localizedRe : List Char) (h : ¬ "=?".toList <:+: s) :
    msgStripRE decodeMimeHeader encodeMimePart localizedRe s =
      if (stripLoop (reTokens localizedRe) false s).1 then
        some (stripLoop (reTokens localizedRe) false s).2 else none := by
  simp only [msgStripRE, if_neg h, if_true]

/-- Nothing changes exactly when the subject begins with no prefix.  What is left otherwise ends
the subject, begins with no prefix and is not stripped again. -/
theorem msgStripRE_spec (decodeMimeHeader encodeMimePart : List Char → List Char)
    (localizedRe : List Char) {subject : List Char} (h : ¬ "=?".toList <:+: subject) :
    (msgStripRE decodeMimeHeader encodeMimePart localizedRe subject = none ↔
        ¬ HasRePrefix (reTokens localizedRe) (subject.dropWhile isAsciiSpace)) ∧
      ∀ modifiedSubject,
        msgStripRE decodeMimeHeader encodeMimePart localizedRe subject = some modifiedSubject →
        modifiedSubject <:+ subject ∧ Stripped (reTokens localizedRe) subject modifiedSubject ∧
        ¬ HasRePrefix (reTokens localizedRe) modifiedSubject ∧
        msgStripRE decodeMimeHeader encodeMimePart localizedRe modifiedSubject = none := by
  obtain ⟨hstripped, hnot, hdrop, hresult⟩ := stripLoop_spec (reTokens localizedRe) false subject
  rw [msgStripRE_eq _ _ _ h, ← hresult.trans (or_iff_right Bool.false_ne_true)]
  constructor
  · split <;> simp_all
  · intro modifiedSubject hsome
    split at hsome
    · cases hsome
      have hsuffix := hstripped.isSuffix
      refine ⟨hsuffix, hstripped, hnot, ?_⟩
      rw [msgStripRE_eq _ _ _ fun hmem => h (hmem.trans hsuffix.isInfix), if_neg]
      rw [(stripLoop_spec _ _ _).2.2.2, hdrop]
      exact not_or_intro Bool.false_ne_true hnot
    · cases hsome

theorem msgStripRE_spec_re : msgStripRE id id [] "Re: x".toList ≠ none := fun hnone =>
  have hplain : ¬ "=?".toList <:+: "Re: x".toList := fun h =>
    absurd (h.subset mem_cons_self) (by decide)
  (msgStripRE_spec id id [] hplain).1.mp hnone
    ⟨"Re".toList, by decide, "Re:".toList, .colon (by decide), " x".toList, rfl⟩

end CommCentral.Base
