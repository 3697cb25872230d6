import Mathlib.Data.List.Basic

/-!
# Operands from the left to the right

A list of operands is evaluated from the left to the right.  Each operand but
the first one says whether it is joined to the ones before it by AND or by OR,
and a group in parentheses, which is one operand, is joined as its first one
says.  No operand at all is true.
-/

/-- A leaf with its operator, or a group. -/
inductive Operand (α : Type*) where
  | leaf (a : α) (isAnd : Bool)
  | group (operands : List (Operand α))

namespace Operand

variable {α : Type*}

/-- How an operand is joined to the ones before it. -/
def joinsAnd : Operand α → Bool
  | leaf _ isAnd => isAnd
  | group [] => true
  | group (x :: _) => joinsAnd x

def join (isAnd a b : Bool) : Bool := if isAnd then a && b else a || b

mutual

def value (v : α → Bool) : Operand α → Bool
  | leaf a _ => v a
  | group operands => values v operands

def values (v : α → Bool) : List (Operand α) → Bool
  | [] => true
  | x :: xs => valuesFrom v (value v x) xs

/-- The value of a list of operands behind others. -/
def valuesFrom (v : α → Bool) (acc : Bool) : List (Operand α) → Bool
  | [] => acc
  | x :: xs => valuesFrom v (join (joinsAnd x) acc (value v x)) xs

end

variable {v : α → Bool}

theorem valuesFrom_concat (xs : List (Operand α)) (acc : Bool) (x : Operand α) :
    valuesFrom v acc (xs ++ [x]) = join x.joinsAnd (valuesFrom v acc xs) (x.value v) := by
  induction xs generalizing acc with
  | nil => rw [List.nil_append, valuesFrom, valuesFrom, valuesFrom]
  | cons y xs ih => rw [List.cons_append, valuesFrom, ih, valuesFrom]

theorem values_singleton (x : Operand α) : values v [x] = x.value v := by
  rw [values, valuesFrom]

theorem values_concat {xs : List (Operand α)} (h : xs ≠ []) (x : Operand α) :
    values v (xs ++ [x]) = join x.joinsAnd (values v xs) (x.value v) := by
  cases xs with
  | nil => exact absurd rfl h
  | cons y xs => rw [List.cons_append, values, valuesFrom_concat, values]

theorem joinsAnd_group (x : Operand α) (xs : List (Operand α)) :
    (group (x :: xs)).joinsAnd = x.joinsAnd := by
  rw [joinsAnd]

end Operand
