import Mathlib.Data.List.Induction

/-!
# Blocks of memory

A block is a list of cells.  Reading and writing some cells in a row succeeds
only inside of the block, so a program on blocks that never fails never leaves
them.  The rules take the block apart at the place of the access, as
`a ++ b ++ c` with `a` in front of it and `b` where it goes.

`moveDown` and `moveUp` are the loops that close a gap and open one, a cell at a
time.
-/

namespace Block

open Option List

variable {α : Type*}

/-- `n` cells from the place `pos` on. -/
def read (mem : List α) (pos n : ℕ) : Option (List α) :=
  if pos + n ≤ mem.length then some ((mem.drop pos).take n) else none

/-- The block with some cells written from the place `pos` on. -/
def write (mem : List α) (pos : ℕ) (cells : List α) : Option (List α) :=
  if pos + cells.length ≤ mem.length then
    some (mem.take pos ++ cells ++ mem.drop (pos + cells.length))
  else none

theorem read_append (a b c : List α) : read (a ++ b ++ c) a.length b.length = some b := by
  rw [read, if_pos (by simp), append_assoc, drop_left, take_left]

theorem write_append {a b c cells : List α} (h : cells.length = b.length) :
    write (a ++ b ++ c) a.length cells = some (a ++ cells ++ c) := by
  have hdrop : (a ++ b ++ c).drop (a.length + cells.length) = c := by
    rw [h, ← length_append, drop_left]
  rw [write, if_pos (by simp; omega), hdrop, append_assoc a b c, take_left]

/-! ## Moving cells -/

/-- `n` cells from the place `pos` on get what the cell behind each of them holds. -/
def moveDown (mem : List α) (pos : ℕ) : ℕ → Option (List α)
  | 0 => some mem
  | n + 1 => do
    let a ← mem[pos + 1]?
    let mem' ← write mem pos [a]
    moveDown mem' (pos + 1) n

/-- `n` cells from the place `pos` on move up by `d` places, the last one first. -/
def moveUp (d : ℕ) (mem : List α) (pos : ℕ) : ℕ → Option (List α)
  | 0 => some mem
  | n + 1 => do
    let a ← mem[pos + n]?
    let mem' ← write mem (pos + n + d) [a]
    moveUp d mem' pos n

theorem write_one (a c : List α) (x y : α) :
    write (a ++ x :: c) a.length [y] = some (a ++ y :: c) := by
  have h : write (a ++ [x] ++ c) a.length [y] = some (a ++ [y] ++ c) := write_append rfl
  simpa using h

theorem write_eq_none {mem cells : List α} {pos : ℕ} (h : mem.length < pos + cells.length) :
    write mem pos cells = none :=
  if_neg (Nat.not_le.mpr h)

/-- Closing a gap: the cells behind it move down, and the last one is left twice. -/
theorem moveDown_append (a b c : List α) (x : α) :
    ∃ y ∈ x :: b, moveDown (a ++ x :: (b ++ c)) a.length b.length = some (a ++ (b ++ y :: c)) := by
  induction b generalizing a x with
  | nil => exact ⟨x, mem_cons_self, rfl⟩
  | cons z b ih =>
    obtain ⟨y, hy, hmove⟩ := ih (a ++ [z]) z
    refine ⟨y, mem_cons_of_mem x hy, ?_⟩
    have hread : (a ++ x :: (z :: b ++ c))[a.length + 1]? = some z := by simp
    have hpos : a.length + 1 = (a ++ [z]).length := by simp
    rw [length_cons, moveDown, hread, bind_eq_bind, bind_some, write_one,
      bind_eq_bind, bind_some, hpos]
    simpa using hmove

theorem moveDown_eq_none (a b : List α) (x : α) :
    moveDown (a ++ x :: b) a.length (b.length + 1) = none := by
  induction b generalizing a x with
  | nil =>
    have hread : (a ++ [x])[a.length + 1]? = none := by simp
    rw [moveDown, hread]
    rfl
  | cons z b ih =>
    have hread : (a ++ x :: z :: b)[a.length + 1]? = some z := by simp
    have hpos : a.length + 1 = (a ++ [z]).length := by simp
    have hmove := ih (a ++ [z]) z
    rw [append_assoc] at hmove
    rw [moveDown, hread, bind_eq_bind, bind_some, write_one, bind_eq_bind,
      bind_some, hpos, length_cons]
    exact hmove

/-- Opening a gap of the length of `c`: it holds what was at its place. -/
theorem moveUp_append (a b c e : List α) :
    moveUp c.length (a ++ b ++ c ++ e) a.length b.length =
      some (a ++ (b ++ c).take c.length ++ b ++ e) := by
  induction b using List.reverseRecOn generalizing c e with
  | nil => simp [moveUp]
  | append_singleton b x ih =>
    obtain ⟨c', z, hc⟩ : ∃ c' z, x :: c = c' ++ [z] :=
      ⟨(x :: c).dropLast, (x :: c).getLast (cons_ne_nil x c),
        (dropLast_concat_getLast (cons_ne_nil x c)).symm⟩
    have hlen : c.length = c'.length := by simpa using congrArg List.length hc
    have hmem : a ++ (b ++ [x]) ++ c ++ e = a ++ b ++ c' ++ z :: e := by
      have hmid : b ++ [x] ++ c = b ++ c' ++ [z] := by simp [hc]
      calc a ++ (b ++ [x]) ++ c ++ e = a ++ (b ++ [x] ++ c) ++ e := by simp
        _ = a ++ b ++ c' ++ z :: e := by simp [hmid]
    have hread : (a ++ (b ++ [x]) ++ c ++ e)[a.length + b.length]? = some x := by
      simp
    have hwrite : write (a ++ b ++ c' ++ z :: e) (a.length + b.length + c.length) [x] =
        some (a ++ b ++ c' ++ x :: e) := by
      have hpos : a.length + b.length + c.length = (a ++ b ++ c').length := by
        simp [hlen, Nat.add_assoc]
      rw [hpos, write_one]
    have htake : (b ++ [x] ++ c).take c.length = (b ++ c').take c'.length := by
      have hmid : b ++ [x] ++ c = b ++ c' ++ [z] := by simp [hc]
      rw [hmid, hlen, take_append_of_le_length (by simp)]
    rw [length_append, length_singleton, moveUp, hread, bind_eq_bind,
      bind_some, hmem, hwrite, bind_eq_bind, bind_some, htake, hlen,
      ih c' (x :: e)]
    simp

theorem moveUp_eq_none {a b : List α} {d n : ℕ} (h : (a ++ b).length < a.length + n + d)
    (hn : 0 < n) : moveUp d (a ++ b) a.length n = none := by
  cases n with
  | zero => exact absurd hn (Nat.lt_irrefl 0)
  | succ n =>
    rw [moveUp]
    cases hread : (a ++ b)[a.length + n]? with
    | none => rfl
    | some x =>
      have hwrite : write (a ++ b) (a.length + n + d) [x] = none :=
        write_eq_none (by rw [length_singleton]; omega)
      rw [bind_eq_bind, bind_some, hwrite]
      rfl

end Block
