import Mathlib.Data.List.Basic

/-!
# Properties of the members of a list

A property of all members of a list, or of an option, is decided along the list.  Where a type has finitely many
values, characters for one, there is another way, which goes through all of these: the instance
here comes before it.
-/

namespace Members

instance (priority := 2000) decidableForall {α : Type*} {p : α → Prop} [DecidablePred p]
    (l : List α) : Decidable (∀ x, x ∈ l → p x) :=
  List.decidableBAll p l

instance (priority := 2000) decidableForallOption {α : Type*} {p : α → Prop} [DecidablePred p]
    (o : Option α) : Decidable (∀ x, x ∈ o → p x) :=
  Option.decidableForallMem o

end Members
