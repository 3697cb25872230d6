import CommCentral.Mailstore.Converter

/-!
# Matches of `sepRE`

A match is a line that begins with "From ", its line end, and the name of a header
with its colon.  `sepRE` is a lawful splitter: a match does not depend on what
follows, and no other match begins within it, as the name of a header has no
space.
-/

namespace CommCentral.Mailstore

open List

/-! ## Names of headers -/

variable {c : Char}

theorem isLineTerminator_iff : isLineTerminator c = true ↔ c = '\n' ∨ c = '\r' := by
  rw [isLineTerminator, decide_eq_true_iff]

theorem not_isHeaderChar (h : isLineTerminator c) : isHeaderChar c = false := by
  rw [isLineTerminator_iff] at h
  rcases h with rfl | rfl <;> decide

variable {α : Type*}

theorem rdropWhile_isPrefix (p : α → Bool) (l : List α) : l.rdropWhile p <+: l :=
  rdropWhile_prefix p l

theorem takeWhile_isPrefix (p : α → Bool) (l : List α) : l.takeWhile p <+: l :=
  takeWhile_prefix p

theorem rdropWhile_append_mono (p : α → Bool) (l m : List α) :
    l.rdropWhile p <+: (l ++ m).rdropWhile p := by
  induction m using List.reverseRecOn with
  | nil =>
    simpa only [List.append_nil] using prefix_rfl
  | append_singleton m a ih =>
    rw [← append_assoc, rdropWhile_concat]
    split
    · exact ih
    · rw [append_assoc]
      exact (rdropWhile_isPrefix p l).trans (prefix_append _ _)

theorem headerName_isPrefix (buf : List Char) : headerName buf <+: buf :=
  (rdropWhile_isPrefix _ _).trans (takeWhile_isPrefix _ _)

variable {buf : List Char}

theorem isHeaderChar_of_mem (h : c ∈ headerName buf) : isHeaderChar c :=
  mem_takeWhile_imp ((rdropWhile_isPrefix _ _).subset h)

theorem headerName_mono (buf more : List Char) : headerName buf <+: headerName (buf ++ more) := by
  have hrun : buf.takeWhile isHeaderChar <+: (buf ++ more).takeWhile isHeaderChar := by
    rw [takeWhile_append]
    split
    · exact (takeWhile_isPrefix _ _).trans (prefix_append _ _)
    · exact prefix_rfl
  obtain ⟨rest, hrest⟩ := hrun
  rw [headerName, headerName, ← hrest]
  exact rdropWhile_append_mono _ _ _

/-- A name is found in every text that it begins. -/
theorem headerName_of_isPrefix {text : List Char} (h : headerName buf <+: text) :
    headerName buf <+: headerName text := by
  obtain ⟨rest, rfl⟩ := h
  have hself : headerName (headerName buf) = headerName buf := by
    have hrun : (headerName buf).takeWhile isHeaderChar = headerName buf :=
      takeWhile_eq_self_iff.2 fun c hc => isHeaderChar_of_mem hc
    rw [headerName, hrun]
    exact rdropWhile_idempotent _ _
  have hmono := headerName_mono (headerName buf) rest
  rw [hself] at hmono
  exact hmono

theorem headerName_append_terminator (hc : isLineTerminator c)
    (more : List Char) : headerName (buf ++ c :: more) = headerName (buf ++ [c]) := by
  have hrun : ∀ more : List Char, (buf ++ c :: more).takeWhile isHeaderChar =
      buf.takeWhile isHeaderChar := by
    intro more
    rw [takeWhile_append]
    split
    · next h =>
      rw [takeWhile_cons_of_neg (by simp [not_isHeaderChar hc]), List.append_nil]
      exact ((takeWhile_isPrefix _ _).eq_of_length h).symm
    · rfl
  rw [headerName, headerName, hrun more, hrun []]

theorem headerName_from (more : List Char) : headerName ("From ".toList ++ more) = [] := by
  have hrun : ("From ".toList ++ more).takeWhile isHeaderChar = "From".toList := by
    show ('F' :: 'r' :: 'o' :: 'm' :: ' ' :: more).takeWhile isHeaderChar = _
    rfl
  rw [headerName, hrun]
  decide

/-! ## The parts of a match -/

def IsLineEnd (eol : List Char) : Prop := eol = ['\n'] ∨ eol = ['\r', '\n']

theorem matchLineEnd_append {eol : List Char} (h : IsLineEnd eol) (rest : List Char) :
    matchLineEnd (eol ++ rest) = some eol.length := by
  rcases h with rfl | rfl <;> rfl

theorem of_matchLineEnd {n : ℕ} (h : matchLineEnd buf = some n) :
    ∃ eol rest : List Char, buf = eol ++ rest ∧ IsLineEnd eol ∧ n = eol.length := by
  unfold matchLineEnd at h
  split at h
  · next rest => exact ⟨['\n'], rest, rfl, Or.inl rfl, by simpa using h.symm⟩
  · next rest => exact ⟨['\r', '\n'], rest, rfl, Or.inr rfl, by simpa using h.symm⟩
  · cases h

theorem matchSepRE_append {line eol : List Char} (hline : ∀ c ∈ line, isLineTerminator c = false)
    (heol : IsLineEnd eol) (rest : List Char) :
    matchSepRE ("From ".toList ++ (line ++ (eol ++ rest))) =
      if 2 ≤ (headerName rest).length then
        some (5 + line.length + eol.length,
          5 + line.length + eol.length + (headerName rest).length)
      else none := by
  have hdrop : ("From ".toList ++ (line ++ (eol ++ rest))).drop 5 = line ++ (eol ++ rest) := rfl
  have htake : (line ++ (eol ++ rest)).takeWhile (!isLineTerminator ·) = line := by
    have hall : line.takeWhile (!isLineTerminator ·) = line :=
      takeWhile_eq_self_iff.2 fun c hc => by simp [hline c hc]
    have hnone : (eol ++ rest).takeWhile (!isLineTerminator ·) = [] := by
      rcases heol with rfl | rfl
      · exact takeWhile_cons_of_neg (by decide)
      · exact takeWhile_cons_of_neg (by decide)
    rw [takeWhile_append, hall, if_pos rfl, hnone, List.append_nil]
  have hline' : ("From ".toList ++ (line ++ (eol ++ rest))).drop (5 + line.length) =
      eol ++ rest := by
    rw [← drop_drop, hdrop, drop_left]
  have heol' : ("From ".toList ++ (line ++ (eol ++ rest))).drop (5 + line.length + eol.length) =
      rest := by
    rw [← drop_drop, hline', drop_left]
  rw [matchSepRE, if_pos (prefix_append _ _)]
  simp only [hdrop, htake, hline', matchLineEnd_append heol, Option.bind_some, heol']

theorem of_matchSepRE {k t : ℕ} (h : matchSepRE buf = some (k, t)) :
    ∃ line eol rest : List Char, buf = "From ".toList ++ (line ++ (eol ++ rest)) ∧
      (∀ c ∈ line, isLineTerminator c = false) ∧ IsLineEnd eol ∧
      2 ≤ (headerName rest).length ∧ k = 5 + line.length + eol.length ∧
      t = k + (headerName rest).length := by
  rw [matchSepRE] at h
  split at h
  · next hfrom =>
    obtain ⟨text, rfl⟩ := hfrom
    have hdrop : ("From ".toList ++ text).drop 5 = text := rfl
    have hline : ∀ c ∈ text.takeWhile (!isLineTerminator ·), isLineTerminator c = false :=
      fun c hc => by simpa using mem_takeWhile_imp hc
    have hsplit : text =
        text.takeWhile (!isLineTerminator ·) ++ text.dropWhile (!isLineTerminator ·) :=
      takeWhile_append_dropWhile.symm
    rw [hdrop] at h
    generalize text.takeWhile (!isLineTerminator ·) = line at h hline hsplit
    generalize text.dropWhile (!isLineTerminator ·) = after at hsplit
    subst hsplit
    have hafter : ("From ".toList ++ (line ++ after)).drop (5 + line.length) = after := by
      rw [← drop_drop, hdrop, drop_left]
    dsimp only at h
    rw [hafter] at h
    obtain ⟨n, hn, h⟩ := Option.bind_eq_some_iff.1 h
    obtain ⟨eol, rest, rfl, heol, rfl⟩ := of_matchLineEnd hn
    have hrest : ("From ".toList ++ (line ++ (eol ++ rest))).drop
        (5 + line.length + eol.length) = rest := by
      rw [← drop_drop, hafter, drop_left]
    simp only [hrest] at h
    split at h
    · next htwo =>
      cases h
      exact ⟨line, eol, rest, rfl, hline, heol, htwo, rfl, rfl⟩
    · cases h
  · cases h

/-! ## The splitter -/

theorem matchSepRE_mono {k t : ℕ} (more : List Char)
    (h : matchSepRE buf = some (k, t)) : ∃ t' : ℕ, matchSepRE (buf ++ more) = some (k, t') := by
  obtain ⟨line, eol, rest, rfl, hline, heol, htwo, rfl, rfl⟩ := of_matchSepRE h
  have hname := (headerName_mono rest more).length_le
  refine ⟨5 + line.length + eol.length + (headerName (rest ++ more)).length, ?_⟩
  rw [append_assoc, append_assoc, append_assoc, matchSepRE_append hline heol,
    if_pos (htwo.trans hname)]

theorem exists_of_append_eq {a b c d : List α} (h : a ++ b = c ++ d)
    (hle : c.length ≤ a.length) : ∃ e : List α, a = c ++ e ∧ d = e ++ b := by
  have hc : c <+: a ++ b := h ▸ prefix_append c d
  obtain ⟨e, rfl⟩ := prefix_of_prefix_length_le hc (prefix_append a b) hle
  rw [append_assoc] at h
  exact ⟨e, rfl, (append_cancel_left h).symm⟩

theorem matchSepRE_look {more : List Char} {k t : ℕ} (h : matchSepRE (buf ++ more) = some (k, t))
    (ht : t ≤ buf.length) : ∃ t' : ℕ, matchSepRE buf = some (k, t') := by
  obtain ⟨line, eol, rest, heq, hline, heol, htwo, rfl, rfl⟩ := of_matchSepRE h
  have hpre : ("From ".toList ++ (line ++ eol)).length = 5 + line.length + eol.length := by
    rw [length_append, length_append, ← Nat.add_assoc]
    rfl
  have heq' : buf ++ more = ("From ".toList ++ (line ++ eol)) ++ rest := by
    rw [heq, append_assoc, append_assoc]
  obtain ⟨rest', rfl, rfl⟩ := exists_of_append_eq heq' (by rw [hpre]; omega)
  rw [length_append] at ht
  have hname : headerName (rest' ++ more) <+: rest' :=
    prefix_of_prefix_length_le (headerName_isPrefix _) (prefix_append _ _) (by omega)
  have htwo' := htwo.trans (headerName_of_isPrefix hname).length_le
  refine ⟨5 + line.length + eol.length + (headerName rest').length, ?_⟩
  rw [append_assoc, append_assoc, matchSepRE_append hline heol, if_pos htwo']

theorem from_prefix_of_matchSepRE {m : ℕ × ℕ} (h : matchSepRE buf = some m) :
    "From ".toList <+: buf := by
  obtain ⟨line, eol, rest, rfl, _⟩ := of_matchSepRE h
  exact prefix_append _ _

/-- No match begins within another one: the only characters of it after line terminators are the
line feed of a CRLF, and the first one of the name of a header. -/
theorem matchSepRE_apart {k t : ℕ} (h : matchSepRE buf = some (k, t)) (i : ℕ) (hi : 0 < i)
    (hit : i < t) : sepRE.findAt (sepRE.startAfter false (buf.take i)) (buf.drop i) = none := by
  obtain ⟨line, eol, rest, rfl, hline, heol, htwo, rfl, rfl⟩ := of_matchSepRE h
  obtain ⟨j, rfl⟩ : ∃ n, i = n + 1 := ⟨i - 1, by omega⟩
  have hname := (headerName_isPrefix rest).length_le
  have hfrom : "From ".toList.length = 5 := rfl
  have hj : j < ("From ".toList ++ (line ++ (eol ++ rest))).length := by
    rw [length_append, length_append, length_append]
    omega
  have hrest : matchSepRE rest = none := by
    cases hm : matchSepRE rest with
    | none => rfl
    | some m =>
      obtain ⟨more, rfl⟩ := from_prefix_of_matchSepRE hm
      cases htwo
  rw [Splitter.startAfter_take_succ hj]
  cases hst : sepRE.isStart (("From ".toList ++ (line ++ (eol ++ rest))).get ⟨j, hj⟩) with
  | false => rfl
  | true =>
    have hc : isLineTerminator ("From ".toList ++ (line ++ (eol ++ rest)))[j] = true := hst
    rcases Nat.lt_or_ge j 5 with h5 | h5
    · -- no character of "From " ends a line
      rw [getElem_append_left (by rw [hfrom]; exact h5)] at hc
      have hword : ∀ c ∈ "From ".toList, isLineTerminator c = false := by decide
      rw [hword _ (getElem_mem _)] at hc
      cases hc
    · rw [getElem_append_right (by rw [hfrom]; exact h5)] at hc
      simp only [hfrom] at hc
      rcases Nat.lt_or_ge (j - 5) line.length with hl | hl
      · rw [getElem_append_left hl, hline _ (getElem_mem _)] at hc
        cases hc
      · rw [getElem_append_right hl] at hc
        have hdrop : ∀ n : ℕ, ("From ".toList ++ (line ++ (eol ++ rest))).drop
            (5 + line.length + n) = (eol ++ rest).drop n := by
          intro n
          rw [← drop_drop, ← drop_drop]
          show ((line ++ (eol ++ rest)).drop line.length).drop n = _
          rw [drop_left]
        rcases Nat.lt_or_ge (j - 5 - line.length) eol.length with he | he
        · rw [show j + 1 = 5 + line.length + (j - 5 - line.length + 1) by omega, hdrop]
          rcases heol with rfl | rfl
          · have h0 : j - 5 - line.length = 0 := Nat.lt_one_iff.1 he
            rw [h0]
            exact hrest
          · rcases Nat.lt_or_ge (j - 5 - line.length) 1 with h1 | h1
            · rw [Nat.lt_one_iff.1 h1]
              rfl
            · have h2 : j - 5 - line.length = 1 := Nat.le_antisymm (Nat.le_of_lt_succ he) h1
              rw [h2]
              exact hrest
        · -- the characters of the name are not line terminators
          rw [getElem_append_right he] at hc
          have hlt : j - 5 - line.length - eol.length < (headerName rest).length := by omega
          have hchar := isHeaderChar_of_mem (getElem_mem hlt)
          rw [(headerName_isPrefix rest).getElem hlt, not_isHeaderChar hc] at hchar
          cases hchar

theorem lawful_sepRE : sepRE.Lawful where
  bounds h := by
    obtain ⟨line, eol, rest, rfl, hline, heol, htwo, rfl, rfl⟩ := of_matchSepRE h
    have hname := (headerName_isPrefix rest).length_le
    have hfrom : "From ".toList.length = 5 := rfl
    rw [length_append, length_append, length_append]
    omega
  mono := matchSepRE_mono
  look := matchSepRE_look
  apart := matchSepRE_apart

end CommCentral.Mailstore
