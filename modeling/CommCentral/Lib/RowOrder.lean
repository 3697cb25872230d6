import Mathlib.Data.List.InsertIdx
import Mathlib.Data.List.Nodup

/-!
# Moving a row inside an ordered list of rows

`moveTo l x pos` takes `x` out of the list and puts it back at the position
`pos`, or at the end when the list is shorter.  A row that is not in the list
is not moved.  Whatever the positions, the result is a rearrangement of the
list, so membership, length and the absence of duplicates carry over.
-/

namespace RowOrder

open List

variable {α : Type*}

/-- The second row stands somewhere after the first one. -/
def Before (l : List α) (r s : α) : Prop :=
  ∃ u w, l = u ++ r :: w ∧ s ∈ w

theorem insertIdx_append (a b : List α) (x : α) :
    (a ++ b).insertIdx a.length x = a ++ x :: b := by
  induction a with
  | nil => rfl
  | cons y a ih => simpa using ih

variable [DecidableEq α]

/-- The list with the row `x` moved to the position `pos`. -/
def moveTo (l : List α) (x : α) (pos : ℕ) : List α :=
  if x ∈ l then (l.erase x).insertIdx (min pos (l.length - 1)) x else l

/-! ## What a move keeps -/

variable {l : List α} {x : α}

theorem moveTo_of_not_mem (h : x ∉ l) (pos : ℕ) : moveTo l x pos = l :=
  if_neg h

theorem moveTo_perm (l : List α) (x : α) (pos : ℕ) : (moveTo l x pos).Perm l := by
  by_cases h : x ∈ l
  · rw [moveTo, if_pos h]
    have hlen : (l.erase x).length = l.length - 1 := length_erase_of_mem h
    have hins := perm_insertIdx x (l.erase x) (i := min pos (l.length - 1)) (by omega)
    exact hins.trans (perm_cons_erase h).symm
  · rw [moveTo_of_not_mem h]

@[simp] theorem mem_moveTo {y : α} {pos : ℕ} : y ∈ moveTo l x pos ↔ y ∈ l :=
  (moveTo_perm l x pos).mem_iff

theorem moveTo_zero (h : x ∈ l) : moveTo l x 0 = x :: l.erase x := by
  rw [moveTo, if_pos h, Nat.zero_min, insertIdx_zero]

/-- A row moved behind the rows `b`. -/
theorem moveTo_behind {a b c : List α} (ha : x ∉ a) :
    moveTo (a ++ x :: (b ++ c)) x (a.length + b.length) = a ++ b ++ x :: c := by
  have herase : (a ++ x :: (b ++ c)).erase x = a ++ b ++ c := by
    rw [erase_append_right _ ha, erase_cons_head, append_assoc]
  have hpos : min (a.length + b.length) ((a ++ x :: (b ++ c)).length - 1) = (a ++ b).length := by
    simp only [length_append, length_cons]
    omega
  rw [moveTo, if_pos (by simp), herase, hpos, insertIdx_append]

/-- A row moved in front of the rows `b`. -/
theorem moveTo_front {a b c : List α} (ha : x ∉ a) (hb : x ∉ b) :
    moveTo (a ++ b ++ x :: c) x a.length = a ++ x :: (b ++ c) := by
  have hab : x ∉ a ++ b := by simp [ha, hb]
  have herase : (a ++ b ++ x :: c).erase x = a ++ (b ++ c) := by
    rw [erase_append_right _ hab, erase_cons_head, append_assoc]
  have hpos : min a.length ((a ++ b ++ x :: c).length - 1) = a.length := by
    simp only [length_append, length_cons]
    omega
  rw [moveTo, if_pos (by simp), herase, hpos, insertIdx_append]

/-- The last row moved in front of the rows `b`. -/
theorem moveTo_append_last {a b : List α} (ha : x ∉ a) (hb : x ∉ b) :
    moveTo (a ++ b ++ [x]) x a.length = a ++ x :: b := by
  simpa using moveTo_front (c := []) ha hb

/-! ## Edits and their replay -/

/-- A change of a list of distinct rows. -/
inductive Edit (α : Type*) where
  /-- The row is appended, unless it is there. -/
  | add (x : α)
  | cut (x : α)
  | move (x : α) (pos : ℕ)

/-- What a change does. -/
def Edit.apply : Edit α → List α → List α
  | .add x, l => if x ∈ l then l else l ++ [x]
  | .cut x, l => l.erase x
  | .move x pos, l => moveTo l x pos

/-- What a list of changes does, the first one first. -/
def replay (log : List (Edit α)) (l : List α) : List α :=
  log.foldl (fun l e => e.apply l) l

@[simp] theorem replay_nil (l : List α) : replay [] l = l := rfl

theorem replay_append (log log' : List (Edit α)) (l : List α) :
    replay (log ++ log') l = replay log' (replay log l) := foldl_append

theorem Edit.apply_nodup (h : l.Nodup) (e : Edit α) : (e.apply l).Nodup := by
  cases e with
  | add x =>
    rw [Edit.apply]
    split_ifs with hx
    · exact h
    · exact nodup_append.mpr ⟨h, nodup_singleton x, by
        intro y hy z hz hyz
        rw [mem_singleton.mp hz] at hyz
        exact hx (hyz ▸ hy)⟩
  | cut x => exact h.erase x
  | move x pos => exact (moveTo_perm l x pos).nodup_iff.mpr h

/-- New rows are added behind the others, in order. -/
theorem replay_adds {rows : List α} (h : (l ++ rows).Nodup) :
    replay (rows.map Edit.add) l = l ++ rows := by
  induction rows generalizing l with
  | nil => exact (List.append_nil l).symm
  | cons x rows ih =>
    have hx : x ∉ l := fun hx => (nodup_append.mp h).2.2 x hx x (by simp) rfl
    have hrest : replay (rows.map Edit.add) (l ++ [x]) = l ++ [x] ++ rows :=
      ih (by simpa using h)
    have hadd : replay ((x :: rows).map Edit.add) l = replay (rows.map Edit.add) (l ++ [x]) := by
      rw [replay, map_cons, foldl_cons, Edit.apply, if_neg hx, replay]
    rw [hadd, hrest, append_assoc, singleton_append]

theorem moveTo_min (l : List α) (x : α) (pos : ℕ) :
    moveTo l x (min pos (l.length - 1)) = moveTo l x pos := by
  rw [moveTo, moveTo, Nat.min_assoc, Nat.min_self]

/-! ## Rows that stand after another -/

/-- Taking another row out moves a row down by one place at most, and leaves
after it all the other rows that stood there. -/
theorem erase_around {u w : List α} {r : α} (hx : x ≠ r) :
    ∃ u' w', (u ++ r :: w).erase x = u' ++ r :: w' ∧ u.length ≤ u'.length + 1 ∧
      ∀ s ∈ w, s ≠ x → s ∈ w' := by
  by_cases hu : x ∈ u
  · refine ⟨u.erase x, w, erase_append_left _ hu, ?_, fun s hs _ => hs⟩
    rw [length_erase_of_mem hu]
    omega
  · refine ⟨u, w.erase x, ?_, by omega, fun s hs hsx => (mem_erase_of_ne hsx).mpr hs⟩
    rw [erase_append_right _ hu, erase_cons_tail (by simpa using hx.symm)]

end RowOrder
