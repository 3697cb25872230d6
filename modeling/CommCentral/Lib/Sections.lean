import Mathlib.Data.List.Basic

/-!
# Sections of a list

Some entries of a list are *heads*.  A section is a head with the entries behind
it up to the next head.

A list that begins with a head, or is empty, may stand behind any other one: the
sections of both are those of the parts (`isSection_append_iff`).  So a section
that is taken out of a list, and put in front of a head or at the end, leaves all
sections as they are (`IsSection.move`).
-/

namespace Sections

variable {α : Type*} {head : α → Bool} {l pre post s tail : List α} {a : α}

/-- The list is empty or begins with a head. -/
def Bound (head : α → Bool) (l : List α) : Prop := ∀ a ∈ l.head?, head a = true

/-- A head and entries that are none. -/
structure Headed (head : α → Bool) (a : α) (tail : List α) : Prop where
  first : head a = true
  others : ∀ b ∈ tail, head b = false

def IsSection (head : α → Bool) (l s : List α) : Prop :=
  ∃ pre a tail post, l = pre ++ (s ++ post) ∧ s = a :: tail ∧ Headed head a tail ∧ Bound head post

theorem bound_nil : Bound head [] := fun a ha => by cases ha

theorem bound_cons (ha : head a = true) : Bound head (a :: l) := fun b hb => by
  cases hb
  exact ha

/-- Where two lists are joined at a head, a part that begins in the first one ends there or
before. -/
theorem Bound.append (hl : Bound head l) (hpost : Bound head post) : Bound head (l ++ post) := by
  cases l with
  | nil => exact hpost
  | cons a l => exact bound_cons (hl a rfl)

theorem Bound.of_append (h : Bound head (l ++ post)) : Bound head l := by
  cases l with
  | nil => exact bound_nil
  | cons a l => exact bound_cons (h a rfl)

/-- The sections of a list whose second part begins with a head are those of its parts. -/
theorem isSection_append_iff (hpost : Bound head post) :
    IsSection head (pre ++ post) s ↔ IsSection head pre s ∨ IsSection head post s := by
  constructor
  · rintro ⟨before, a, tail, behind, heq, rfl, hheaded, hbehind⟩
    rcases List.append_eq_append_iff.mp heq with ⟨more, rfl, hmore⟩ | ⟨more, rfl, hmore⟩
    · -- the section begins in the second part
      exact .inr ⟨more, a, tail, behind, hmore, rfl, hheaded, hbehind⟩
    · rcases List.append_eq_append_iff.mp hmore with ⟨rest, rfl, hrest⟩ | ⟨rest, hrest, rfl⟩
      · -- it ends in the first part
        rw [hrest] at hbehind
        exact .inl ⟨before, a, tail, rest, rfl, rfl, hheaded, hbehind.of_append⟩
      · cases more with
        | nil => exact .inr ⟨[], a, tail, behind, by rw [hrest]; rfl, rfl, hheaded, hbehind⟩
        | cons b more =>
          obtain ⟨rfl, rfl⟩ := List.cons.inj hrest
          cases rest with
          | nil => exact .inl ⟨before, a, more, [], by simp, by simp, by simpa using hheaded,
              bound_nil⟩
          | cons c rest =>
            have hc := hheaded.others c (by simp)
            rw [hpost c rfl] at hc
            cases hc
  · rintro (⟨before, a, tail, behind, rfl, rfl, hheaded, hbehind⟩ |
      ⟨before, a, tail, behind, rfl, rfl, hheaded, hbehind⟩)
    · exact ⟨before, a, tail, behind ++ post, by simp, rfl, hheaded, hbehind.append hpost⟩
    · exact ⟨pre ++ before, a, tail, behind, by simp, rfl, hheaded, hbehind⟩

theorem IsSection.isInfix (h : IsSection head l s) : s <:+: l := by
  obtain ⟨before, a, tail, behind, rfl, -, -, -⟩ := h
  exact ⟨before, behind, List.append_assoc ..⟩

/-- A section that is taken out of a list and put in front of another head, or at the end, leaves
all sections as they are. -/
theorem IsSection.move {pre' post' : List α} (ha : Headed head a tail) (hpost : Bound head post)
    (hpost' : Bound head post') (hsame : pre' ++ post' = pre ++ post)
    (h : IsSection head (pre ++ (a :: tail ++ post)) s) :
    IsSection head (pre' ++ (a :: tail ++ post')) s := by
  have hcons : ∀ l, Bound head (a :: tail ++ l) := fun l => bound_cons ha.first
  rw [isSection_append_iff (hcons post), isSection_append_iff hpost, or_left_comm,
    ← isSection_append_iff hpost, ← hsame, isSection_append_iff hpost'] at h
  rw [isSection_append_iff (hcons post'), isSection_append_iff hpost', or_left_comm]
  exact h

end Sections
