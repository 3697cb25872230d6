import Mathlib.Data.List.TakeWhile
import CommCentral.Lib.Members

/-!
# Words of a text

A word of characters with a property, behind which the text does not go on with
such a character, is what `takeWhile` takes.
-/

namespace Spans

variable {α : Type*} {p : α → Bool} {word rest : List α}

section

variable (hword : ∀ c ∈ word, p c = true) (hrest : ∀ c ∈ rest.head?, p c = false)

include hword hrest

theorem takeWhile_word : (word ++ rest).takeWhile p = word := by
  rw [List.takeWhile_append_of_pos hword]
  cases rest with
  | nil => rw [List.takeWhile_nil, List.append_nil]
  | cons c rest =>
    have hc : ¬ p c = true := by
      rw [hrest c rfl]
      exact Bool.false_ne_true
    rw [List.takeWhile_cons_of_neg hc, List.append_nil]

theorem dropWhile_word : (word ++ rest).dropWhile p = rest := by
  rw [List.dropWhile_append_of_pos hword]
  cases rest with
  | nil => rfl
  | cons c rest =>
    have hc : ¬ p c = true := by
      rw [hrest c rfl]
      exact Bool.false_ne_true
    rw [List.dropWhile_cons_of_neg hc]

end

end Spans
