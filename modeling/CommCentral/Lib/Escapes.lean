import Mathlib.Data.List.Basic

/-!
# Escapes

Some items of a list are written as a pair of an escape item and a code
(`escape`), and every pair of an escape item and a code is read back as the item
that the code stands for (`unescape`).  When the escape item is written as a
pair too, and each code is read as the item it was written for, then what was
written is read back, and no item that has a code stands for itself.
-/

namespace Escapes

variable {α : Type*} {esc : α} {code decode : α → Option α} {a b : α}

/-- The items that have a code are written with it. -/
def escape (esc : α) (code : α → Option α) (l : List α) : List α :=
  l.flatMap fun a =>
    match code a with
    | some b => [esc, b]
    | none => [a]

theorem escape_cons_some {l : List α} (h : code a = some b) :
    escape esc code (a :: l) = esc :: b :: escape esc code l := by
  rw [escape, List.flatMap_cons, h]
  rfl

theorem escape_cons_none {l : List α} (h : code a = none) :
    escape esc code (a :: l) = a :: escape esc code l := by
  rw [escape, List.flatMap_cons, h]
  rfl

/-- An item of what is written is the escape item, a code, or an item without a code. -/
theorem mem_escape {l : List α} (h : b ∈ escape esc code l) :
    b = esc ∨ (∃ a, code a = some b) ∨ code b = none := by
  induction l with
  | nil => cases h
  | cons a l ih =>
    cases ha : code a with
    | some c =>
      rw [escape_cons_some ha] at h
      cases h with
      | head => exact .inl rfl
      | tail _ h =>
        cases h with
        | head => exact .inr (.inl ⟨a, ha⟩)
        | tail _ h => exact ih h
    | none =>
      rw [escape_cons_none ha] at h
      cases h with
      | head => exact .inr (.inr ha)
      | tail _ h => exact ih h

variable [DecidableEq α]

/-- The pairs with a code are read, from the left to the right. -/
def unescape (esc : α) (decode : α → Option α) : List α → List α
  | [] => []
  | [a] => [a]
  | a :: b :: l =>
    if a = esc then
      match decode b with
      | some c => c :: unescape esc decode l
      | none => a :: unescape esc decode (b :: l)
    else a :: unescape esc decode (b :: l)

theorem unescape_pair {l : List α} (h : decode b = some a) :
    unescape esc decode (esc :: b :: l) = a :: unescape esc decode l := by
  rw [unescape, if_pos rfl, h]

theorem unescape_cons_of_ne {l : List α} (h : a ≠ esc) :
    unescape esc decode (a :: l) = a :: unescape esc decode l := by
  cases l with
  | nil => rfl
  | cons b l => rw [unescape, if_neg h]

theorem unescape_escape (hesc : code esc ≠ none)
    (hcode : ∀ a b, code a = some b → decode b = some a) (l : List α) :
    unescape esc decode (escape esc code l) = l := by
  induction l with
  | nil => rfl
  | cons a l ih =>
    cases h : code a with
    | some b => rw [escape_cons_some h, unescape_pair (hcode a b h), ih]
    | none =>
      have hne : a ≠ esc := by
        intro he
        exact hesc (he ▸ h)
      rw [escape_cons_none h, unescape_cons_of_ne hne, ih]

end Escapes
