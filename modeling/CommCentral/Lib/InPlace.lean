import Mathlib.Data.List.Basic

/-!
# Working in place

A program that shortens its input can write the result over the input.  It has one memory
and two cursors: `inp`, where it reads, and `out`, where it writes.  As long as the writing
cursor is behind the reading one, nothing unread is lost.

`Split` is that picture of the memory.  In front of the reading cursor there are the bytes
written and the *hole*, the bytes that are read and not overwritten yet, and behind it there
is what is still unread.
-/

namespace InPlace

open List

variable {α : Type*}

/-- A memory with a cursor to read at and a cursor to write at. -/
structure Buffer (α : Type*) where
  mem : List α
  inp : ℕ
  out : ℕ
deriving DecidableEq, Repr

/-- The memory with some letters written from a place on, one after the other. -/
def writeAt (mem : List α) (pos : ℕ) : List α → List α
  | [] => mem
  | a :: as => writeAt (mem.set pos a) (pos + 1) as

namespace Buffer

/-- An input before anything is done with it. -/
def start (mem : List α) : Buffer α := ⟨mem, 0, 0⟩

/-- How many letters are left to read. -/
def left (b : Buffer α) : ℕ := b.mem.length - b.inp

/-- The letter under the reading cursor. -/
def cur (b : Buffer α) : Option α := b.mem[b.inp]?

/-- The reading cursor moves on. -/
def advance (b : Buffer α) : Buffer α := { b with inp := b.inp + 1 }

/-- The reading cursor moves back. -/
def back (b : Buffer α) : Buffer α := { b with inp := b.inp - 1 }

/-- Some letters are written, and the writing cursor moves by `n`. -/
def poke (b : Buffer α) (as : List α) (n : ℕ) : Buffer α :=
  { b with mem := writeAt b.mem b.out as, out := b.out + n }

/-- One letter is written. -/
def put (b : Buffer α) (a : α) : Buffer α := b.poke [a] 1

/-- The writing cursor moves to the reading one. -/
def skip (b : Buffer α) : Buffer α := { b with out := b.inp }

/-- What was written from a place on. -/
def since (b : Buffer α) (pos : ℕ) : List α := (b.mem.take b.out).drop pos

end Buffer

/-- The memory in front of the working area, what is written, the hole and the unread. -/
structure Split (b : Buffer α) (pre written hole unread : List α) : Prop where
  mem : b.mem = pre ++ written ++ hole ++ unread
  out : b.out = (pre ++ written).length
  inp : b.inp = (pre ++ written ++ hole).length

/-- Letters that fit into the hole overwrite its beginning. -/
theorem writeAt_append {pre hole rest as : List α} (h : as.length ≤ hole.length) :
    writeAt (pre ++ hole ++ rest) pre.length as =
      pre ++ as ++ hole.drop as.length ++ rest := by
  induction as generalizing pre hole with
  | nil => simp [writeAt]
  | cons a as ih =>
    cases hole with
    | nil => simp at h
    | cons x hole =>
      have hset : (pre ++ x :: hole ++ rest).set pre.length a =
          (pre ++ [a]) ++ hole ++ rest := by simp
      have hlen : pre.length + 1 = (pre ++ [a]).length := by simp
      rw [writeAt, hset, hlen, ih (by simpa using h)]
      simp

theorem split_start (mem : List α) : Split (Buffer.start mem) [] [] [] mem :=
  ⟨rfl, rfl, rfl⟩

namespace Split

variable {b : Buffer α} {pre written hole unread : List α}

theorem left (h : Split b pre written hole unread) : b.left = unread.length := by
  rw [Buffer.left, h.mem, h.inp, length_append, Nat.add_sub_cancel_left]

theorem cur (h : Split b pre written hole unread) : b.cur = unread.head? := by
  rw [Buffer.cur, h.mem, h.inp, getElem?_append_right (Nat.le_refl _), Nat.sub_self,
    head?_eq_getElem?]

theorem advance {a : α} (h : Split b pre written hole (a :: unread)) :
    Split b.advance pre written (hole ++ [a]) unread :=
  ⟨by simp [Buffer.advance, h.mem], h.out, by simp [Buffer.advance, h.inp, Nat.add_assoc]⟩

theorem back {a : α} (h : Split b pre written (hole ++ [a]) unread) :
    Split b.back pre written hole (a :: unread) :=
  ⟨by simp [Buffer.back, h.mem], h.out, by simp [Buffer.back, h.inp, ← Nat.add_assoc]⟩

/-- Letters that fit into the hole are written there. -/
theorem poke {as : List α} {n : ℕ} (h : Split b pre written hole unread)
    (has : as.length ≤ hole.length) (hn : n ≤ as.length) :
    Split (b.poke as n) pre (written ++ as.take n) (as.drop n ++ hole.drop as.length)
      unread := by
  have hparts : written ++ as.take n ++ (as.drop n ++ hole.drop as.length) =
      written ++ as ++ hole.drop as.length := by
    rw [append_assoc written, ← append_assoc (as.take n), take_append_drop,
      append_assoc]
  refine ⟨?_, ?_, ?_⟩
  · rw [append_assoc pre (written ++ as.take n), hparts]
    simp only [Buffer.poke, h.mem, h.out]
    rw [writeAt_append has]
    simp
  · rw [Buffer.poke, h.out]
    simp only [length_append, length_take]
    omega
  · rw [Buffer.poke, h.inp]
    simp only [length_append, length_take, length_drop]
    omega

theorem put {a x : α} (h : Split b pre written (x :: hole) unread) :
    Split (b.put a) pre (written ++ [a]) hole unread := by
  have hroom : [a].length ≤ (x :: hole).length := Nat.le_add_left 1 hole.length
  have hpoke := h.poke hroom (Nat.le_refl [a].length)
  rw [Buffer.put]
  simpa using hpoke

section

variable (h : Split b pre written hole unread)

include h

/-- There is room for a letter exactly when the hole is not empty. -/
theorem out_lt_inp : b.out < b.inp ↔ hole ≠ [] := by
  rw [h.out, h.inp, ← length_pos_iff]
  simp only [length_append]
  omega

theorem skip : Split b.skip (pre ++ written ++ hole) [] [] unread :=
  ⟨by simp [Buffer.skip, h.mem], by simp [Buffer.skip, h.inp], by simp [Buffer.skip, h.inp]⟩

theorem since : b.since pre.length = written := by
  rw [Buffer.since, h.mem, h.out, append_assoc (pre ++ written), take_left,
    drop_left]

end

end Split

end InPlace
