import Mathlib.Data.List.Basic
import Mathlib.Data.List.Induction

/-!
# Finding a keyword

`MsgFindKeyword` looks for a keyword as a text, and takes a hit that is a word
of the list.  Behind another hit it goes on after the whole hit.

A word does not begin inside of a hit (`not_wholeWord_of_overlap`): in front of
it there would be a space of the keyword.
-/

namespace CommCentral.Base

open List

/-! ## The search -/

/-- `nsCString::Find`: the first place from an offset on. -/
def find (big little : List Char) (offset : ℕ) : Option ℕ :=
  (List.range (big.length + 1)).find? fun i => offset ≤ i ∧ little <+: big.drop i

def isRealMatch (keyword keywords : List Char) (aStartOfKeyword : ℕ) : Bool :=
  let matchEnd := aStartOfKeyword + keyword.length
  (aStartOfKeyword = 0 ∨ keywords[aStartOfKeyword - 1]? = some ' ') ∧
    (matchEnd = keywords.length ∨ keywords[matchEnd]? = some ' ')

/-- The loop of `MsgFindKeyword`: the start and the length, or that there is none. -/
def findKeywordLoop (keyword keywords : List Char) : ℕ → Option ℕ → Option (Option (ℕ × ℕ))
  | 0, _ => none
  | _ + 1, none => some none
  | fuel + 1, some aStartOfKeyword =>
    if isRealMatch keyword keywords aStartOfKeyword then
      some (some (aStartOfKeyword, keyword.length))
    else
      findKeywordLoop keyword keywords fuel
        (find keywords keyword (aStartOfKeyword + keyword.length))

/-- `MsgFindKeyword`.  Each hit uses up a character. -/
def msgFindKeyword (keyword keywords : List Char) : Option (Option (ℕ × ℕ)) :=
  findKeywordLoop keyword keywords (keywords.length + 2) (find keywords keyword 0)

/-! ## Whole words -/

/-- The keyword stands at a place as a word. -/
def WholeWord (keyword keywords : List Char) (i : ℕ) : Prop :=
  keyword <+: keywords.drop i ∧ isRealMatch keyword keywords i

variable {keyword keywords : List Char}

theorem find_eq_some {offset i : ℕ} (h : find keywords keyword offset = some i) :
    offset ≤ i ∧ i + keyword.length ≤ keywords.length ∧ keyword <+: keywords.drop i ∧
      ∀ j, offset ≤ j → j < i → ¬ keyword <+: keywords.drop j := by
  rw [find, find?_range_eq_some] at h
  obtain ⟨hi, hmem, hfirst⟩ := h
  obtain ⟨hoffset, hhit⟩ := of_decide_eq_true hi
  have hlength := hhit.length_le
  rw [mem_range] at hmem
  rw [length_drop] at hlength
  refine ⟨hoffset, by omega, hhit, fun j hj hlt hprefix => ?_⟩
  have hnot := hfirst j hlt
  rw [Bool.not_eq_true', decide_eq_false_iff_not] at hnot
  exact hnot ⟨hj, hprefix⟩

theorem find_eq_none {offset : ℕ} (hne : keyword ≠ []) (h : find keywords keyword offset = none)
    {j : ℕ} (hj : offset ≤ j) : ¬ keyword <+: keywords.drop j := by
  intro hprefix
  rw [find, find?_range_eq_none] at h
  have hlength := hprefix.length_le
  have hpos := length_pos_iff.mpr hne
  rw [length_drop] at hlength
  have hnot := h j (by omega)
  rw [Bool.not_eq_true', decide_eq_false_iff_not] at hnot
  exact hnot ⟨hj, hprefix⟩

/-- No word begins inside of a hit. -/
theorem not_wholeWord_of_overlap (hspace : ' ' ∉ keyword) {i j : ℕ}
    (hhit : keyword <+: keywords.drop i) (hlt : i < j) (hj : j < i + keyword.length) :
    ¬ WholeWord keyword keywords j := by
  rintro ⟨-, hreal⟩
  obtain ⟨hbefore, -⟩ := of_decide_eq_true hreal
  rcases hbefore with hzero | hblank
  · omega
  · obtain ⟨post, hpost⟩ := hhit
    have hindex : j - 1 = i + (j - 1 - i) := by omega
    rw [hindex, ← getElem?_drop, ← hpost, getElem?_append_left (by omega)] at hblank
    exact hspace (mem_of_getElem? hblank)

theorem findKeywordLoop_eq (hne : keyword ≠ []) (hspace : ' ' ∉ keyword) {fuel offset : ℕ}
    (hoffset : offset ≤ keywords.length) (hfuel : keywords.length < fuel + offset)
    (hbefore : ∀ i < offset, ¬ WholeWord keyword keywords i) :
    ∃ result, findKeywordLoop keyword keywords fuel (find keywords keyword offset) = some result ∧
      (result = none → ∀ i, ¬ WholeWord keyword keywords i) ∧
      ∀ aStart aLength, result = some (aStart, aLength) → aLength = keyword.length ∧
        WholeWord keyword keywords aStart ∧ ∀ i < aStart, ¬ WholeWord keyword keywords i := by
  induction fuel generalizing offset with
  | zero => omega
  | succ fuel ih =>
    cases hfind : find keywords keyword offset with
    | none =>
      refine ⟨none, rfl, fun _ i hword => ?_, fun _ _ h => by cases h⟩
      rcases Nat.lt_or_ge i offset with hlt | hge
      · exact hbefore i hlt hword
      · exact find_eq_none hne hfind hge hword.1
    | some start =>
      obtain ⟨hle, hlength, hhit, hfirst⟩ := find_eq_some hfind
      have hnone : ∀ i < start, ¬ WholeWord keyword keywords i := by
        intro i hi hword
        rcases Nat.lt_or_ge i offset with hlt | hge
        · exact hbefore i hlt hword
        · exact hfirst i hge hi hword.1
      rw [findKeywordLoop]
      cases hreal : isRealMatch keyword keywords start with
      | true =>
        rw [if_pos rfl]
        refine ⟨_, rfl, fun h => (by cases h), fun aStart aLength h => ?_⟩
        cases h
        exact ⟨rfl, ⟨hhit, hreal⟩, hnone⟩
      | false =>
        rw [if_neg Bool.false_ne_true]
        have hpos := length_pos_iff.mpr hne
        refine ih hlength (by omega) fun i hi hword => ?_
        rcases Nat.lt_trichotomy i start with hlt | rfl | hgt
        · exact hnone i hlt hword
        · exact Bool.false_ne_true (hreal.symm.trans hword.2)
        · exact not_wholeWord_of_overlap hspace hhit hgt hi hword

/-! ## The words of the list -/

theorem intercalate_append_cons {α : Type*} (sep : α) (before : List (List α)) (word : List α)
    (after : List (List α)) :
    [sep].intercalate (before ++ word :: after) =
      before.flatMap (· ++ [sep]) ++ (word ++ after.flatMap (sep :: ·)) := by
  induction before with
  | nil =>
    induction after generalizing word with
    | nil => simp
    | cons next after ih =>
      have hnext := ih next
      rw [List.nil_append] at hnext ⊢
      rw [intercalate_cons_cons, hnext]
      simp
  | cons first before ih =>
    rw [cons_append, intercalate_cons_of_ne_nil (by simp), ih]
    simp

theorem exists_words_before {pre : List Char} (h : pre = [] ∨ pre.getLast? = some ' ') :
    ∃ before, before.flatMap (· ++ [' ']) = pre ∧
      ∀ rest : List Char, (pre ++ rest).splitOn ' ' = before ++ rest.splitOn ' ' := by
  rcases h with rfl | hlast
  · exact ⟨[], rfl, fun _ => rfl⟩
  · obtain ⟨words, rfl⟩ := getLast?_eq_some_iff.mp hlast
    refine ⟨words.splitOn ' ', ?_, fun rest => ?_⟩
    · have hjoin : [' '].intercalate ((words ++ [' ']).splitOn ' ') = words ++ [' '] :=
        List.intercalate_splitOn ' '
      rw [splitOn_append_cons_self, splitOn_nil, intercalate_append_cons] at hjoin
      simpa using hjoin
    · rw [append_assoc, singleton_append, splitOn_append_cons_self]

theorem isRealMatch_append (pre keyword post : List Char) :
    isRealMatch keyword (pre ++ (keyword ++ post)) pre.length ↔
      (pre = [] ∨ pre.getLast? = some ' ') ∧ (post = [] ∨ post.head? = some ' ') := by
  rw [isRealMatch, decide_eq_true_iff]
  refine and_congr ?_ ?_
  · cases pre using List.reverseRecOn with
    | nil => simp
    | append_singleton pre c => simp
  · rw [← append_assoc, ← length_append, getElem?_append_right (Nat.le_refl _),
      Nat.sub_self, ← head?_eq_getElem?, length_append]
    refine or_congr ?_ Iff.rfl
    rw [length_append, length_append, Nat.left_eq_add, length_eq_zero_iff]

theorem wholeWord_iff (hspace : ' ' ∉ keyword) (i : ℕ) :
    WholeWord keyword keywords i ↔ ∃ before after,
      keywords.splitOn ' ' = before ++ keyword :: after ∧
        (before.flatMap (· ++ [' '])).length = i := by
  constructor
  · rintro ⟨⟨post, hpost⟩, hreal⟩
    have hle : i ≤ keywords.length := by
      rcases (of_decide_eq_true hreal).1 with hzero | hblank
      · omega
      · obtain ⟨hlt, -⟩ := List.getElem?_eq_some_iff.mp hblank
        omega
    obtain ⟨pre, hpre, rfl⟩ : ∃ pre, keywords = pre ++ (keyword ++ post) ∧ pre.length = i :=
      ⟨keywords.take i, by rw [hpost, take_append_drop], length_take_of_le hle⟩
    rw [hpre, isRealMatch_append] at hreal
    obtain ⟨before, hbefore, hsplit⟩ := exists_words_before hreal.1
    rw [hpre, hsplit]
    rcases hreal.2 with rfl | hhead
    · rw [List.append_nil, splitOn_eq_singleton hspace]
      exact ⟨before, [], rfl, congrArg List.length hbefore⟩
    · obtain ⟨rest, rfl⟩ := head?_eq_some_iff.mp hhead
      rw [splitOn_append_cons_self_of_not_mem hspace]
      exact ⟨before, rest.splitOn ' ', rfl, congrArg List.length hbefore⟩
  · rintro ⟨before, after, hwords, rfl⟩
    have hjoin : [' '].intercalate (keywords.splitOn ' ') = keywords := List.intercalate_splitOn ' '
    rw [hwords, intercalate_append_cons] at hjoin
    rw [← hjoin]
    refine ⟨?_, (isRealMatch_append _ _ _).mpr ⟨?_, ?_⟩⟩
    · rw [drop_left]
      exact prefix_append _ _
    · cases before using List.reverseRecOn with
      | nil => exact .inl rfl
      | append_singleton before word => exact .inr (by simp)
    · cases after with
      | nil => exact .inl rfl
      | cons word after => exact .inr rfl

/-- The search ends.  It finds the keyword exactly when it is one of the words, and then the place
of the first such word. -/
theorem msgFindKeyword_iff (keyword keywords : List Char) (hne : keyword ≠ [])
    (hspace : ' ' ∉ keyword) :
    ∃ result, msgFindKeyword keyword keywords = some result ∧
      (result.isSome ↔ keyword ∈ keywords.splitOn ' ') ∧
      ∀ aStart aLength, result = some (aStart, aLength) → aLength = keyword.length ∧
        ∃ before after, keywords.splitOn ' ' = before ++ keyword :: after ∧ keyword ∉ before ∧
          aStart = (before.flatMap (· ++ [' '])).length := by
  obtain ⟨result, hresult, hnone, hsome⟩ := @findKeywordLoop_eq keyword keywords hne hspace
    (keywords.length + 2) 0 (Nat.zero_le _) (by omega) fun i hi => absurd hi (Nat.not_lt_zero i)
  refine ⟨result, hresult, ⟨fun h => ?_, fun h => ?_⟩, fun aStart aLength h => ?_⟩
  · obtain ⟨⟨aStart, aLength⟩, h⟩ := Option.isSome_iff_exists.mp h
    obtain ⟨before, after, hwords, -⟩ := (wholeWord_iff hspace aStart).mp (hsome _ _ h).2.1
    rw [hwords]
    exact mem_append_right _ mem_cons_self
  · obtain ⟨before, after, hwords⟩ := append_of_mem h
    cases result with
    | none => exact absurd ((wholeWord_iff hspace _).mpr ⟨before, after, hwords, rfl⟩) (hnone rfl _)
    | some found => rfl
  · obtain ⟨hlength, hword, hfirst⟩ := hsome aStart aLength h
    obtain ⟨before, after, hwords, hstart⟩ := (wholeWord_iff hspace aStart).mp hword
    refine ⟨hlength, before, after, hwords, fun hmem => ?_, hstart.symm⟩
    -- a word in front of it would have been found
    obtain ⟨before', after', rfl⟩ := append_of_mem hmem
    rw [append_assoc] at hwords
    refine hfirst _ ?_ ((wholeWord_iff hspace _).mpr ⟨before', _, hwords, rfl⟩)
    rw [← hstart, flatMap_append, flatMap_cons, length_append, length_append,
      length_append, length_singleton]
    omega

/-- A keyword at the end of a longer one, and as a word of its own. -/
theorem msgFindKeyword_junk : "junk".toList ≠ [] ∧ ' ' ∉ "junk".toList ∧
    ∃ result, msgFindKeyword "junk".toList "nonjunk  junk".toList = some result ∧
      (result.isSome ↔ "junk".toList ∈ "nonjunk  junk".toList.splitOn ' ') := by
  obtain ⟨result, hresult, hmem, -⟩ :=
    msgFindKeyword_iff "junk".toList "nonjunk  junk".toList (by decide) (by decide)
  exact ⟨by decide, by decide, result, hresult, hmem⟩

end CommCentral.Base
