import Mathlib.Data.List.DropRight
import Mathlib.Data.UInt
import CommCentral.Lib.Members

/-!
# Strings of code units

A string of the language of the scripts is a list of UTF-16 code units.  Its
length, its slices and its tests on characters are on units.  Here are the
operations that trim, split and search, with what trimming keeps of a string,
and the lines of a text.
-/

/-- A string, by its UTF-16 code units. -/
abbrev JsString : Type := List UInt16

namespace JsString

open List

/-- The string of a literal without characters beyond the basic plane. -/
def js (s : String) : JsString := s.toList.map fun c => c.toNat.toUInt16

def charUnits (c : Char) : JsString :=
  if c.toNat < 0x10000 then [c.toNat.toUInt16]
  else [(0xd800 + (c.toNat - 0x10000) / 0x400).toUInt16,
    (0xdc00 + (c.toNat - 0x10000) % 0x400).toUInt16]

def ofChars (text : List Char) : JsString := text.flatMap charUnits

theorem ofChars_append (s t : List Char) : ofChars (s ++ t) = ofChars s ++ ofChars t :=
  flatMap_append ..

/-- White space and line terminators, which trimming removes. -/
def isSpace (c : UInt16) : Bool :=
  (0x09 ≤ c && c ≤ 0x0d) || c == 0x20 || c == 0xa0 || c == 0x1680 || (0x2000 ≤ c && c ≤ 0x200a) ||
    c == 0x2028 || c == 0x2029 || c == 0x202f || c == 0x205f || c == 0x3000 || c == 0xfeff

def trimLeft (s : JsString) : JsString := s.dropWhile isSpace

def trimRight (s : JsString) : JsString := s.rdropWhile isSpace

/-- `split`, at a single code unit. -/
def split (sep : UInt16) : JsString → List JsString
  | [] => [[]]
  | c :: s =>
    if c = sep then [] :: split sep s
    else
      match split sep s with
      | [] => [[c]]
      | word :: words => (c :: word) :: words

/-- `lastIndexOf`, of a single code unit. -/
def lastIndexOf (c : UInt16) (s : JsString) : ℤ :=
  match s.reverse.findIdx? (· = c) with
  | some i => s.length - 1 - i
  | none => -1

theorem lastIndexOf_lt (c : UInt16) (s : JsString) : lastIndexOf c s ≤ s.length - 1 := by
  rw [lastIndexOf]
  cases s.reverse.findIdx? (· = c) with
  | none =>
    dsimp only
    omega
  | some i =>
    dsimp only
    omega

theorem getElem?_of_lastIndexOf {c : UInt16} {s : JsString} {i : ℕ}
    (h : lastIndexOf c s = i) : s[i]? = some c := by
  rw [lastIndexOf] at h
  cases hfind : s.reverse.findIdx? (· = c) with
  | none =>
    rw [hfind] at h
    dsimp only at h
    omega
  | some j =>
    rw [hfind] at h
    dsimp only at h
    obtain ⟨hj, hc, -⟩ := findIdx?_eq_some_iff_getElem.mp hfind
    have hi : i = s.length - 1 - j := by omega
    rw [getElem_reverse, decide_eq_true_eq] at hc
    rw [hi, getElem?_eq_getElem (by omega), hc]

theorem lastIndexOf_cases (c : UInt16) (s : JsString) :
    lastIndexOf c s = -1 ∨ ∃ i : ℕ, lastIndexOf c s = i := by
  rw [lastIndexOf]
  cases hfind : s.reverse.findIdx? (· = c) with
  | none => exact .inl rfl
  | some j =>
    obtain ⟨hj, -, -⟩ := findIdx?_eq_some_iff_getElem.mp hfind
    rw [length_reverse] at hj
    exact .inr ⟨s.length - 1 - j, by dsimp only; omega⟩

theorem split_of_not_mem {sep : UInt16} {s : JsString} (hs : ∀ c ∈ s, c ≠ sep) :
    split sep s = [s] := by
  induction s with
  | nil => rfl
  | cons c s ih =>
    rw [split, if_neg (hs c mem_cons_self), ih fun c hc => hs c (mem_cons_of_mem _ hc)]

theorem split_append {sep : UInt16} {s : JsString} (hs : ∀ c ∈ s, c ≠ sep) (t : JsString) :
    split sep (s ++ sep :: t) = s :: split sep t := by
  induction s with
  | nil => rw [List.nil_append, split, if_pos rfl]
  | cons c s ih =>
    rw [cons_append, split, if_neg (hs c mem_cons_self),
      ih fun c hc => hs c (mem_cons_of_mem _ hc)]

/-! ## White space -/

def visible (s : JsString) : JsString := s.filter fun c => !isSpace c

def IsVisible (s : JsString) : Prop := ∃ c ∈ s, isSpace c = false

instance (s : JsString) : Decidable (IsVisible s) :=
  inferInstanceAs (Decidable (∃ c ∈ s, isSpace c = false))

theorem visible_append (s t : JsString) : visible (s ++ t) = visible s ++ visible t :=
  filter_append ..

section

variable (s : JsString)

theorem isVisible_iff : IsVisible s ↔ visible s ≠ [] := by
  rw [IsVisible, visible, Ne]
  simp

theorem visible_eq_nil (h : ∀ c ∈ s, isSpace c = true) : visible s = [] := by
  rw [visible, filter_eq_nil_iff]
  intro c hc
  rw [h c hc]
  decide

theorem visible_trimLeft : visible (trimLeft s) = visible s := by
  have happend : s.takeWhile isSpace ++ trimLeft s = s := takeWhile_append_dropWhile
  have hspace := visible_eq_nil (s.takeWhile isSpace) fun c hc => mem_takeWhile_imp hc
  conv_rhs => rw [← happend, visible_append, hspace]
  rfl

theorem visible_reverse : visible s.reverse = (visible s).reverse :=
  filter_reverse ..

theorem visible_trimRight : visible (trimRight s) = visible s := by
  show visible (trimLeft s.reverse).reverse = visible s
  rw [visible_reverse, visible_trimLeft, visible_reverse, reverse_reverse]

theorem trimRight_eq_nil_iff : trimRight s = [] ↔ ¬ IsVisible s := by
  rw [trimRight, IsVisible]
  simp

end

/-! ## Lines -/

/-- The lines of a text, at every carriage return, line feed or pair of both. -/
def textLines : JsString → List JsString
  | [] => [[]]
  | c :: s =>
    if c = 0x0d ∧ s.head? = some 0x0a then textLines s
    else if c = 0x0d ∨ c = 0x0a then [] :: textLines s
    else
      match textLines s with
      | [] => [[c]]
      | line :: lines => (c :: line) :: lines

theorem textLines_append {line : JsString} (hline : ∀ c ∈ line, c ≠ 0x0d ∧ c ≠ 0x0a)
    (s : JsString) : textLines (line ++ js "\r\n" ++ s) = line :: textLines s := by
  induction line with
  | nil => rfl
  | cons c line ih =>
    have hc := hline c mem_cons_self
    rw [cons_append, cons_append, textLines, if_neg fun h => hc.1 h.1,
      if_neg fun h => h.elim hc.1 hc.2, ih fun c hc => hline c (mem_cons_of_mem _ hc)]

theorem visible_flatMap (lines : List JsString) :
    visible (lines.flatMap fun line => line ++ js "\r\n") = visible lines.flatten := by
  have hend : visible (js "\r\n") = [] := by decide
  induction lines with
  | nil => rfl
  | cons line lines ih =>
    rw [flatMap_cons, flatten_cons, visible_append, visible_append, visible_append, ih,
      hend, List.append_nil]

theorem textLines_flatMap {lines : List JsString}
    (hlines : ∀ line ∈ lines, ∀ c ∈ line, c ≠ 0x0d ∧ c ≠ 0x0a) :
    textLines (lines.flatMap fun line => line ++ js "\r\n") = lines ++ [[]] := by
  induction lines with
  | nil => rfl
  | cons line lines ih =>
    rw [flatMap_cons, textLines_append (hlines line mem_cons_self),
      ih fun line hmem => hlines line (mem_cons_of_mem _ hmem)]
    rfl

end JsString
