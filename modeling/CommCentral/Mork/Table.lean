import CommCentral.Lib.RowOrder
import Mathlib.Data.Finset.Basic

/-!
# `morkTable`

The rows of a Mork table and the notes of their changes, from
`db/mork/src/morkTable.cpp` and `morkArray.cpp`.

* A store has one row object for an oid, so a row is a value of any type with
  decidable equality.
* A `morkRowMap` is the finite set of its rows; it is only asked for a row,
  given one and deprived of one.
* A pointer into the array is the index of its slot.  The spiral search counts
  the slots it has still to see below, and its upper pointer is an index.
* Allocation is taken to succeed, and the environment to be good.

Each of the functions either leaves the rows alone or changes them as one edit of
a list of distinct rows does, and it notes the edit.  `Table.Noted` says so, and
it is what the other modules use of them.
-/

namespace CommCentral.Mork

open List RowOrder Option

inductive TableChange (ρ : Type*) where
  | add (row : ρ)
  | cut (row : ρ)
  | move (row : ρ) (pos : ℕ)
  deriving DecidableEq, Repr

/-- The edits that a change is a note of.  The record of a move is also one of the row, so it
adds the row when it is not there. -/
def TableChange.edits {ρ : Type*} : TableChange ρ → List (Edit ρ)
  | .add row => [.add row]
  | .cut row => [.cut row]
  | .move row pos => [.add row, .move row pos]

/-- `morkTable`, with what decides whether it may get dirty. -/
structure Table (ρ : Type*) where
  rowArray : List ρ
  rowMap : Option (Finset ρ)
  changeList : List (TableChange ρ)
  changesCount : ℕ
  changesMax : ℕ
  dirty : Bool
  /-- `morkTable_kRewriteBit` of `mTable_Flags`. -/
  rewrite : Bool
  /-- `mSpace_CanDirty` of the row space, or `mStore_CanDirty`. -/
  canDirty : Bool

namespace Table

section Model

variable {ρ : Type*}

/-! ## Dirty tables and notes -/

def setTableClean (t : Table ρ) : Table ρ :=
  { t with changeList := [], changesCount := 0, rewrite := false, dirty := false }

def noteTableSetAll (t : Table ρ) : Table ρ :=
  { t with changeList := [], changesCount := 0, rewrite := true }

def hasChangeOverflow (t : Table ρ) : Bool := t.changesCount ≥ t.changesMax

/-- What `note_row_move` and `note_row_change` do with a change. -/
def noteChange (t : Table ρ) (change : TableChange ρ) : Table ρ :=
  if t.rewrite || t.hasChangeOverflow then t.noteTableSetAll
  else { t with changeList := t.changeList ++ [change], changesCount := t.changesCount + 1 }

def noteRowMove (t : Table ρ) (ioRow : ρ) (inNewPos : ℕ) : Table ρ :=
  t.noteChange (.move ioRow inNewPos)

def noteTableAddRow (t : Table ρ) (ioRow : ρ) : Table ρ := t.noteChange (.add ioRow)

def noteTableCutRow (t : Table ρ) (ioRow : ρ) : Table ρ := t.noteChange (.cut ioRow)

def maybeDirtySpaceStoreAndTable (t : Table ρ) : Table ρ × Bool :=
  if t.canDirty then
    let changesMax := if t.dirty then t.changesMax else min (t.rowArray.length / 4) 0x07FFF
    ({ t with changesMax := changesMax, dirty := true }, true)
  else (t, false)

/-- The value of `canDirty` in `AddRow`, `CutRow` and `MoveRow`. -/
def dirtyIfClean (t : Table ρ) : Table ρ × Bool :=
  if t.dirty then (t, true) else t.maybeDirtySpaceStoreAndTable

/-! ## Members -/

variable [DecidableEq ρ]

def buildRowMap (t : Table ρ) : Table ρ :=
  match t.rowMap with
  | none => { t with rowMap := some t.rowArray.toFinset }
  | some _ => t

def findMemberRow (t : Table ρ) (ioRow : ρ) : Bool :=
  match t.rowMap with
  | some map => ioRow ∈ map
  | none => t.rowArray.contains ioRow

def addRow (t : Table ρ) (ioRow : ρ) : Table ρ :=
  if t.findMemberRow ioRow then t
  else
    let (t, canDirty) := t.dirtyIfClean
    let t := { t with rowArray := t.rowArray ++ [ioRow] }
    let t := match t.rowMap with
      | some map => { t with rowMap := some (insert ioRow map) }
      | none => if t.rowArray.length ≥ 17 then t.buildRowMap else t
    if canDirty then t.noteTableAddRow ioRow else t

/-- The array after the slot of a row is searched and cut in `CutRow`. -/
def cutRowSlot (rowArray : List ρ) (row : ρ) : List ρ :=
  match rowArray.findIdx? (· == row) with
  | some pos => rowArray.eraseIdx pos
  | none => rowArray

def cutRow (t : Table ρ) (ioRow : ρ) : Table ρ :=
  if t.findMemberRow ioRow then
    let (t, canDirty) := t.dirtyIfClean
    let t := { t with rowArray := cutRowSlot t.rowArray ioRow }
    let t := { t with rowMap := t.rowMap.map fun map => map.erase ioRow }
    if canDirty then t.noteTableCutRow ioRow else t
  else t

def cutAllRows (t : Table ρ) : Table ρ :=
  let (t, canDirty) := t.maybeDirtySpaceStoreAndTable
  let t := if canDirty then { t with rewrite := true }.noteTableSetAll else t
  { t with rowArray := [], rowMap := t.rowMap.map fun _ => ∅ }

/-! ## Moving a row -/

/-- A position is brought into the range of the slots. -/
def clampPos (lastPos : ℕ) (inPos : ℤ) : ℕ :=
  if inPos > lastPos then lastPos else if inPos < 0 then 0 else inPos.toNat

/-- The loop of the spiral search in `MoveRow`: `lo` slots are left to see from the
start of the array, and all slots from `hi` on. -/
def spiralSearch (rows : List ρ) (ioRow : ρ) : ℕ → ℕ → ℕ → Option ℕ
  | 0, _, _ => none
  | fuel + 1, lo, hi =>
    if lo ≠ 0 ∨ hi < rows.length then
      if lo ≠ 0 ∧ rows[lo - 1]? = some ioRow then some (lo - 1)
      else if hi < rows.length ∧ rows[hi]? = some ioRow then some hi
      else spiralSearch rows ioRow fuel (lo - 1) (if hi < rows.length then hi + 1 else hi)
    else none

/-- The slot of the row in `MoveRow`. -/
def fromSlot (rows : List ρ) (ioRow : ρ) (hintFromPos : ℕ) : Option ℕ :=
  if hintFromPos = 0 then rows.findIdx? (· == ioRow)
  else spiralSearch rows ioRow rows.length (hintFromPos + 1) hintFromPos

/-- A slot is copied over another one. -/
def copySlot (rows : List ρ) (toPos fromPos : ℕ) : List ρ :=
  match rows[fromPos]? with
  | some row => rows.set toPos row
  | none => rows

/-- The loop for a row that moves upwards by `n` slots. -/
def shiftDown (rows : List ρ) (pos : ℕ) : ℕ → List ρ
  | 0 => rows
  | n + 1 => shiftDown (copySlot rows pos (pos + 1)) (pos + 1) n

/-- The loop for a row that moves downwards by `n` slots. -/
def shiftUp (rows : List ρ) (pos : ℕ) : ℕ → List ρ
  | 0 => rows
  | n + 1 => shiftUp (copySlot rows pos (pos - 1)) (pos - 1) n

def moveRow (t : Table ρ) (ioRow : ρ) (inHintFromPos inToPos : ℤ) : Table ρ × ℤ :=
  let (t, canDirty) := t.dirtyIfClean
  let rows := t.rowArray
  if rows.length = 0 then (t, -1)
  else
    let toPos := clampPos (rows.length - 1) inToPos
    let hintFromPos := clampPos (rows.length - 1) inHintFromPos
    match fromSlot rows ioRow hintFromPos with
    | none => (t, -1)
    | some outPos =>
      if outPos = toPos then (t, outPos)
      else
        let shifted :=
          if outPos < toPos then shiftDown rows outPos (toPos - outPos)
          else shiftUp rows outPos (outPos - toPos)
        let t := { t with rowArray := shifted.set toPos ioRow }
        (if canDirty then t.noteRowMove ioRow toPos else t, toPos)

end Model

/-! ## An edit and its note -/

section Notes

variable {ρ : Type*} {t : Table ρ}

section

variable (change : TableChange ρ)

@[simp] theorem noteChange_rowArray : (t.noteChange change).rowArray = t.rowArray := by
  rw [noteChange]
  split_ifs <;> rfl

@[simp] theorem noteChange_rowMap : (t.noteChange change).rowMap = t.rowMap := by
  rw [noteChange]
  split_ifs <;> rfl

@[simp] theorem noteChange_canDirty : (t.noteChange change).canDirty = t.canDirty := by
  rw [noteChange]
  split_ifs <;> rfl

theorem noteChange_cases :
    (t.noteChange change).rewrite = true ∨
      (t.noteChange change).rewrite = t.rewrite ∧
        (t.noteChange change).changeList = t.changeList ++ [change] := by
  rw [noteChange]
  split_ifs
  · exact .inl rfl
  · exact .inr ⟨rfl, rfl⟩

end

/-- Getting dirty changes nothing but the dirty flag and the bound on the notes. -/
theorem dirtyIfClean_eq (t : Table ρ) :
    ∃ dirty changesMax canDirty,
      t.dirtyIfClean = ({ t with dirty := dirty, changesMax := changesMax }, canDirty) := by
  rw [dirtyIfClean, maybeDirtySpaceStoreAndTable]
  split_ifs
  · exact ⟨t.dirty, t.changesMax, true, rfl⟩
  · exact ⟨_, _, _, rfl⟩
  · exact ⟨t.dirty, t.changesMax, false, rfl⟩

theorem dirtyIfClean_snd (h : t.canDirty = true) : t.dirtyIfClean.2 = true := by
  rw [dirtyIfClean, maybeDirtySpaceStoreAndTable]
  split_ifs <;> rfl

/-- The table after its rows are changed by an edit and the edit is noted. -/
def edited (t : Table ρ) (rowArray : List ρ) (rowMap : Option (Finset ρ))
    (change : TableChange ρ) : Table ρ :=
  let (t, canDirty) := t.dirtyIfClean
  let t := { t with rowArray := rowArray, rowMap := rowMap }
  if canDirty then t.noteChange change else t

variable {rowArray : List ρ} {rowMap : Option (Finset ρ)} {change : TableChange ρ}

@[simp] theorem edited_rowArray : (t.edited rowArray rowMap change).rowArray = rowArray := by
  obtain ⟨dirty, changesMax, canDirty, hdirty⟩ := t.dirtyIfClean_eq
  rw [edited, hdirty]
  cases canDirty with
  | false => rfl
  | true => exact noteChange_rowArray change

@[simp] theorem edited_rowMap : (t.edited rowArray rowMap change).rowMap = rowMap := by
  obtain ⟨dirty, changesMax, canDirty, hdirty⟩ := t.dirtyIfClean_eq
  rw [edited, hdirty]
  cases canDirty with
  | false => rfl
  | true => exact noteChange_rowMap change

@[simp] theorem edited_canDirty : (t.edited rowArray rowMap change).canDirty = t.canDirty := by
  obtain ⟨dirty, changesMax, canDirty, hdirty⟩ := t.dirtyIfClean_eq
  rw [edited, hdirty]
  cases canDirty with
  | false => rfl
  | true => exact noteChange_canDirty change

/-- The edit is noted in a store that may get dirty, or the table is written anew. -/
theorem edited_cases (h : t.canDirty = true) :
    (t.edited rowArray rowMap change).rewrite = true ∨
      (t.edited rowArray rowMap change).rewrite = t.rewrite ∧
        (t.edited rowArray rowMap change).changeList = t.changeList ++ [change] := by
  obtain ⟨dirty, changesMax, canDirty, hdirty⟩ := t.dirtyIfClean_eq
  obtain rfl : canDirty = true := by simpa [hdirty] using dirtyIfClean_snd h
  rw [edited, hdirty]
  exact noteChange_cases change

@[simp] theorem cutAllRows_rowArray : t.cutAllRows.rowArray = [] := rfl

@[simp] theorem cutAllRows_canDirty : t.cutAllRows.canDirty = t.canDirty := by
  rw [cutAllRows, maybeDirtySpaceStoreAndTable]
  split_ifs <;> rfl

/-- In a store that may get dirty, a table deprived of all its rows is written anew. -/
theorem cutAllRows_rewrite (h : t.canDirty = true) : t.cutAllRows.rewrite = true := by
  rw [cutAllRows, maybeDirtySpaceStoreAndTable, if_pos h]
  rfl

end Notes

/-! ## The rows after each function -/

section Rows

variable {ρ : Type*} [DecidableEq ρ] {t : Table ρ}

/-- The rows are distinct, and the row map holds exactly them. -/
structure Consistent (t : Table ρ) : Prop where
  nodup : t.rowArray.Nodup
  /-- The row map, when there is one, holds the rows of the array. -/
  mem_map : ∀ map, t.rowMap = some map → ∀ row, row ∈ map ↔ row ∈ t.rowArray

theorem findMemberRow_iff (h : t.Consistent) (row : ρ) :
    t.findMemberRow row = true ↔ row ∈ t.rowArray := by
  rw [findMemberRow]
  cases hmap : t.rowMap with
  | none => simp
  | some map => simpa using h.mem_map map hmap row

/-- The row map after a row is added. -/
def mapWith (t : Table ρ) (row : ρ) : Option (Finset ρ) :=
  match t.rowMap with
  | some map => some (insert row map)
  | none => if t.rowArray.length + 1 ≥ 17 then some (t.rowArray ++ [row]).toFinset else none

theorem addRow_eq (h : t.Consistent) (row : ρ) :
    t.addRow row =
      if row ∈ t.rowArray then t else t.edited (t.rowArray ++ [row]) (t.mapWith row) (.add row) := by
  by_cases hrow : row ∈ t.rowArray
  · rw [addRow, if_pos ((findMemberRow_iff h row).mpr hrow), if_pos hrow]
  · obtain ⟨dirty, changesMax, canDirty, hdirty⟩ := t.dirtyIfClean_eq
    rw [addRow, if_neg (mt (findMemberRow_iff h row).mp hrow), if_neg hrow, edited, hdirty,
      mapWith]
    cases hmap : t.rowMap with
    | some map => rfl
    | none =>
      by_cases hlen : t.rowArray.length + 1 ≥ 17
      · simp [hlen, noteTableAddRow, buildRowMap]
      · simp [hlen, noteTableAddRow]

theorem cutRowSlot_eq (rowArray : List ρ) (row : ρ) : cutRowSlot rowArray row = rowArray.erase row := by
  rw [erase_eq_eraseIdx, cutRowSlot, List.idxOf?]
  cases rowArray.findIdx? (· == row) <;> rfl

theorem cutRow_eq (h : t.Consistent) (row : ρ) :
    t.cutRow row =
      if row ∈ t.rowArray then
        t.edited (t.rowArray.erase row) (t.rowMap.map fun map => map.erase row) (.cut row)
      else t := by
  by_cases hrow : row ∈ t.rowArray
  · obtain ⟨dirty, changesMax, canDirty, hdirty⟩ := t.dirtyIfClean_eq
    rw [cutRow, if_pos ((findMemberRow_iff h row).mpr hrow), if_pos hrow, edited, hdirty]
    simp only [cutRowSlot_eq, noteTableCutRow]
  · rw [cutRow, if_neg (mt (findMemberRow_iff h row).mp hrow), if_neg hrow]

end Rows

/-! ## The move of a row -/

section Slots

variable {ρ : Type*}

/-- The rows above the slot are shifted down over it, and the row is put behind them. -/
theorem set_shiftDown (a b c : List ρ) (x row : ρ) :
    (shiftDown (a ++ x :: (b ++ c)) a.length b.length).set (a.length + b.length) row =
      a ++ b ++ row :: c := by
  induction b generalizing a x with
  | nil => simp [shiftDown]
  | cons y b ih =>
    have hcopy : copySlot (a ++ x :: (y :: b ++ c)) a.length (a.length + 1) =
        (a ++ [y]) ++ y :: (b ++ c) := by simp [copySlot]
    have hlen : a.length + (b.length + 1) = (a ++ [y]).length + b.length := by
      simp only [length_append, length_singleton]
      omega
    have hshift := ih (a ++ [y]) y
    rw [length_append, length_singleton] at hshift
    rw [length_cons, shiftDown, hcopy, hlen, length_append, length_singleton,
      hshift]
    simp

/-- The rows below the slot are shifted up over it, and the row is put in front of them. -/
theorem set_shiftUp (a b c : List ρ) (x row : ρ) :
    (shiftUp (a ++ b ++ x :: c) (a.length + b.length) b.length).set a.length row =
      a ++ row :: (b ++ c) := by
  induction b using List.reverseRecOn generalizing x c with
  | nil => simp [shiftUp]
  | append_singleton b y ih =>
    have hlen : (b ++ [y]).length = b.length + 1 := by simp
    have hget : (a ++ (b ++ [y]) ++ x :: c)[a.length + b.length]? = some y := by simp
    have hcopy : copySlot (a ++ (b ++ [y]) ++ x :: c) (a.length + (b.length + 1))
        (a.length + b.length) = a ++ b ++ y :: (y :: c) := by
      rw [copySlot]
      simp
    have hsub : a.length + (b.length + 1) - 1 = a.length + b.length := by omega
    rw [hlen, shiftUp, hsub, hcopy, ih]
    simp

end Slots

section Moves

variable {ρ : Type*} [DecidableEq ρ] {t : Table ρ} {rows a b c : List ρ} {row x : ρ}

theorem clampPos_le (lastPos : ℕ) (inPos : ℤ) : clampPos lastPos inPos ≤ lastPos := by
  rw [clampPos]
  split_ifs with hlast hzero
  · exact le_rfl
  · exact Nat.zero_le lastPos
  · omega

theorem getElem?_of_spiralSearch {fuel lo hi pos : ℕ}
    (h : spiralSearch rows row fuel lo hi = some pos) : rows[pos]? = some row := by
  induction fuel generalizing lo hi with
  | zero => cases h
  | succ fuel ih =>
    rw [spiralSearch] at h
    split_ifs at h with hmore hlo hhi
    · cases h
      exact hlo.2
    · cases h
      exact hhi.2
    · exact ih h
    · exact ih h

/-- The spiral search reaches every slot that its fuel allows. -/
theorem spiralSearch_ne_none {fuel lo hi pos : ℕ} (hpos : rows[pos]? = some row)
    (hreach : pos < lo ∧ lo ≤ pos + fuel ∨ hi ≤ pos ∧ pos < hi + fuel) :
    spiralSearch rows row fuel lo hi ≠ none := by
  have hlen : pos < rows.length := (List.getElem?_eq_some_iff.mp hpos).1
  induction fuel generalizing lo hi with
  | zero => omega
  | succ fuel ih =>
    rw [spiralSearch, if_pos (by omega)]
    split_ifs with hlo hhi hmore
    · exact some_ne_none _
    · exact some_ne_none _
    · refine ih ?_
      rcases hreach with ⟨hlt, hle⟩ | ⟨hle, hlt⟩
      · -- the slot below was not the row
        have hne : pos ≠ lo - 1 := by
          rintro rfl
          exact hlo ⟨by omega, hpos⟩
        exact .inl (by omega)
      · have hne : pos ≠ hi := by
          rintro rfl
          exact hhi ⟨hlen, hpos⟩
        exact .inr (by omega)
    · refine ih (.inl ?_)
      have hne : pos ≠ lo - 1 := by
        rintro rfl
        exact hlo ⟨by omega, hpos⟩
      omega

/-- The search of `MoveRow` finds the slot of the row, whatever the hint. -/
theorem fromSlot_eq (hnodup : (a ++ row :: b).Nodup) {hintFromPos : ℕ}
    (hhint : hintFromPos < (a ++ row :: b).length) :
    fromSlot (a ++ row :: b) row hintFromPos = some a.length := by
  have hpos : (a ++ row :: b)[a.length]? = some row := by simp
  have hrow : row ∉ a := fun ha => (nodup_append.mp hnodup).2.2 row ha row (by simp) rfl
  rw [fromSlot]
  split_ifs with hzero
  · rw [findIdx?_append, findIdx?_eq_none_iff.mpr fun y hy => by
      simpa using fun hyr : y = row => hrow (hyr ▸ hy)]
    simp [findIdx?_cons]
  · have hlen : a.length < (a ++ row :: b).length := by simp
    have hfound : spiralSearch (a ++ row :: b) row (a ++ row :: b).length (hintFromPos + 1)
        hintFromPos ≠ none := spiralSearch_ne_none hpos (by omega)
    obtain ⟨pos, hsearch⟩ := ne_none_iff_exists'.mp hfound
    rw [hsearch, some.injEq]
    have hsame := getElem?_of_spiralSearch hsearch
    exact ((getElem?_inj hlen hnodup).mp (hpos.trans hsame.symm)).symm

theorem fromSlot_eq_none (h : row ∉ rows) (hintFromPos : ℕ) :
    fromSlot rows row hintFromPos = none := by
  rw [fromSlot]
  split_ifs
  · exact findIdx?_eq_none_iff.mpr fun y hy => by
      simpa using fun hyr : y = row => h (hyr ▸ hy)
  · cases hsearch : spiralSearch rows row rows.length (hintFromPos + 1) hintFromPos with
    | none => rfl
    | some pos => exact absurd (mem_of_getElem? (getElem?_of_spiralSearch hsearch)) h

/-- The array after a row is moved is the list with the row moved. -/
theorem set_shift (ha : row ∉ a) {toPos : ℕ} (hto : toPos ≤ a.length + b.length) :
    (if a.length < toPos then shiftDown (a ++ row :: b) a.length (toPos - a.length)
      else shiftUp (a ++ row :: b) a.length (a.length - toPos)).set toPos row =
      moveTo (a ++ row :: b) row toPos := by
  split_ifs with hlt
  · -- the row moves upwards, behind some of the rows that follow it
    obtain ⟨u, v, rfl, hu⟩ : ∃ u v, b = u ++ v ∧ u.length = toPos - a.length :=
      ⟨b.take (toPos - a.length), b.drop (toPos - a.length), by simp, by simp; omega⟩
    have hpos : toPos = a.length + u.length := by omega
    rw [hpos, Nat.add_sub_cancel_left, set_shiftDown, moveTo_behind ha]
  · -- the row moves downwards, in front of some of the rows before it
    obtain ⟨u, v, rfl, hu⟩ : ∃ u v, a = u ++ v ∧ u.length = toPos :=
      ⟨a.take toPos, a.drop toPos, by simp, by simp; omega⟩
    rw [mem_append, not_or] at ha
    rw [← hu, length_append, Nat.add_sub_cancel_left, set_shiftUp, moveTo_front ha.1 ha.2]

/-- `MoveRow` only gets the table dirty when the row need not be moved, and moves the row
and notes it otherwise. -/
theorem moveRow_cases (h : t.rowArray.Nodup) (row : ρ) (inHintFromPos inToPos : ℤ) :
    let toPos := clampPos (t.rowArray.length - 1) inToPos
    (t.moveRow row inHintFromPos inToPos).1 = t.dirtyIfClean.1 ∧
        moveTo t.rowArray row toPos = t.rowArray ∨
      row ∈ t.rowArray ∧ (t.moveRow row inHintFromPos inToPos).1 =
        t.edited (moveTo t.rowArray row toPos) t.rowMap (.move row toPos) := by
  intro toPos
  obtain ⟨dirty, changesMax, canDirty, hdirty⟩ := t.dirtyIfClean_eq
  by_cases hrow : row ∈ t.rowArray
  · obtain ⟨a, b, hsplit⟩ := append_of_mem hrow
    rw [hsplit] at h
    have hlen : t.rowArray.length = a.length + (b.length + 1) := by simp [hsplit]
    have hne : t.rowArray.length ≠ 0 := by omega
    have hto : toPos ≤ a.length + b.length := by
      have hle := clampPos_le (t.rowArray.length - 1) inToPos
      omega
    have ha : row ∉ a := fun ha => (nodup_append.mp h).2.2 row ha row (by simp) rfl
    have hfrom : fromSlot t.rowArray row (clampPos (t.rowArray.length - 1) inHintFromPos) =
        some a.length := by
      have hle := clampPos_le (t.rowArray.length - 1) inHintFromPos
      rw [hsplit] at hle hlen ⊢
      exact fromSlot_eq h (by omega)
    have hshift := set_shift ha hto
    rw [← hsplit] at hshift
    by_cases heq : a.length = toPos
    · left
      refine ⟨by simp [moveRow, hdirty, hne, hfrom, heq, toPos], ?_⟩
      rw [← hshift, ← heq, Nat.sub_self, shiftUp, hsplit]
      simp
    · refine .inr ⟨hrow, ?_⟩
      simp only [moveRow, edited, hdirty, hne, if_false, hfrom, heq, hshift, noteRowMove, toPos]
  · left
    refine ⟨?_, moveTo_of_not_mem hrow toPos⟩
    rw [moveRow, hdirty]
    simp only [fromSlot_eq_none hrow]
    split_ifs <;> rfl

end Moves

/-! ## Calls and their edits -/

inductive Call (ρ : Type*) where
  | addRow (ioRow : ρ)
  | cutRow (ioRow : ρ)
  | moveRow (ioRow : ρ) (inHintFromPos inToPos : ℤ)
  | cutAllRows
  deriving DecidableEq, Repr

section Calls

variable {ρ : Type*} [DecidableEq ρ] {t : Table ρ}

def call (t : Table ρ) : Call ρ → Table ρ
  | .addRow ioRow => t.addRow ioRow
  | .cutRow ioRow => t.cutRow ioRow
  | .moveRow ioRow inHintFromPos inToPos => (t.moveRow ioRow inHintFromPos inToPos).1
  | .cutAllRows => t.cutAllRows

/-- What a call is for: the list of the rows after it. -/
def Call.apply : Call ρ → List ρ → List ρ
  | .addRow ioRow, l => (Edit.add ioRow).apply l
  | .cutRow ioRow, l => (Edit.cut ioRow).apply l
  | .moveRow ioRow _ inToPos, l => (Edit.move ioRow (clampPos (l.length - 1) inToPos)).apply l
  | .cutAllRows, _ => []

/-- The rows after a call are what the call is for. -/
theorem call_rowArray (h : t.Consistent) (c : Call ρ) :
    (t.call c).rowArray = c.apply t.rowArray := by
  cases c with
  | addRow ioRow =>
    rw [call, addRow_eq h, Call.apply, Edit.apply]
    split_ifs
    · rfl
    · exact edited_rowArray
  | cutRow ioRow =>
    rw [call, cutRow_eq h, Call.apply, Edit.apply]
    split_ifs with hrow
    · exact edited_rowArray
    · rw [erase_of_not_mem hrow]
  | moveRow ioRow inHintFromPos inToPos =>
    rw [call, Call.apply, Edit.apply]
    rcases moveRow_cases h.nodup ioRow inHintFromPos inToPos with ⟨hmove, hsame⟩ | ⟨-, hmove⟩
    · obtain ⟨dirty, changesMax, canDirty, hdirty⟩ := t.dirtyIfClean_eq
      rw [hmove, hdirty, hsame]
    · rw [hmove, edited_rowArray]
  | cutAllRows => rfl

/-- The row map after a call still holds exactly the rows. -/
theorem Consistent.call (h : t.Consistent) (c : Call ρ) : (t.call c).Consistent := by
  refine ⟨?_, ?_⟩
  · rw [call_rowArray h]
    cases c with
    | addRow ioRow => exact (Edit.add ioRow).apply_nodup h.nodup
    | cutRow ioRow => exact (Edit.cut ioRow).apply_nodup h.nodup
    | moveRow ioRow inHintFromPos inToPos => exact (Edit.move ioRow _).apply_nodup h.nodup
    | cutAllRows => exact nodup_nil
  · cases c with
    | addRow ioRow =>
      rw [Table.call, addRow_eq h]
      split_ifs with hrow
      · exact h.mem_map
      · rw [edited_rowMap, edited_rowArray, mapWith]
        cases hmap : t.rowMap with
        | some map =>
          rintro map' ⟨⟩ row
          rw [Finset.mem_insert, h.mem_map map hmap, mem_append, mem_singleton]
          exact or_comm
        | none =>
          intro map' hmap' row
          split_ifs at hmap' with hlen
          cases hmap'
          exact mem_toFinset
    | cutRow ioRow =>
      rw [Table.call, cutRow_eq h]
      split_ifs with hrow
      · rw [edited_rowMap, edited_rowArray]
        intro map' hmap' row
        obtain ⟨map, hmap, rfl⟩ := map_eq_some_iff.mp hmap'
        rw [Finset.mem_erase, h.mem_map map hmap, h.nodup.mem_erase_iff]
      · exact h.mem_map
    | moveRow ioRow inHintFromPos inToPos =>
      rw [Table.call]
      rcases moveRow_cases h.nodup ioRow inHintFromPos inToPos with ⟨hmove, -⟩ | ⟨-, hmove⟩
      · obtain ⟨dirty, changesMax, canDirty, hdirty⟩ := t.dirtyIfClean_eq
        rw [hmove, hdirty]
        exact h.mem_map
      · rw [hmove, edited_rowMap, edited_rowArray]
        intro map hmap row
        rw [mem_moveTo, h.mem_map map hmap]
    | cutAllRows =>
      rw [Table.call]
      intro map' hmap' row
      obtain ⟨map, -, rfl⟩ := map_eq_some_iff.mp hmap'
      simp

/-- The table has a note of what was done to its rows, or is written anew. -/
def Noted (t t' : Table ρ) : Prop :=
  t'.rewrite = true ∨ t'.rewrite = t.rewrite ∧ ∃ log, t'.changeList = t.changeList ++ log ∧
    replay (log.flatMap TableChange.edits) t.rowArray = t'.rowArray

theorem Noted.refl (t : Table ρ) : t.Noted t := .inr ⟨rfl, [], by simp, rfl⟩

theorem noted_edited (h : t.canDirty = true) (rowMap : Option (Finset ρ)) (c : TableChange ρ) :
    t.Noted (t.edited (replay c.edits t.rowArray) rowMap c) := by
  rcases edited_cases h with hall | ⟨hrewrite, hlog⟩
  · exact .inl hall
  · exact .inr ⟨hrewrite, [c], hlog, by simp⟩

theorem call_noted (h : t.Consistent) (hdirty : t.canDirty = true) (c : Call ρ) :
    t.Noted (t.call c) := by
  cases c with
  | addRow ioRow =>
    rw [call, addRow_eq h]
    split_ifs with hrow
    · exact Noted.refl t
    · have hedits : replay (TableChange.add ioRow).edits t.rowArray = t.rowArray ++ [ioRow] :=
        if_neg hrow
      rw [← hedits]
      exact noted_edited hdirty _ (.add ioRow)
  | cutRow ioRow =>
    rw [call, cutRow_eq h]
    split_ifs
    · exact noted_edited hdirty _ (.cut ioRow)
    · exact Noted.refl t
  | moveRow ioRow inHintFromPos inToPos =>
    rw [call]
    rcases moveRow_cases h.nodup ioRow inHintFromPos inToPos with ⟨hmove, -⟩ | ⟨hrow, hmove⟩
    · obtain ⟨dirty, changesMax, canDirty, hdirty⟩ := t.dirtyIfClean_eq
      rw [hmove, hdirty]
      exact .inr ⟨rfl, [], by simp, rfl⟩
    · have hedits : ∀ pos, replay (TableChange.move ioRow pos).edits t.rowArray =
          moveTo t.rowArray ioRow pos := fun pos => by
        simp [TableChange.edits, replay, Edit.apply, hrow]
      rw [hmove, ← hedits]
      exact noted_edited hdirty _ (.move ioRow _)
  | cutAllRows => exact .inl (cutAllRows_rewrite hdirty)

/-- Calls do not change whether the store may get dirty. -/
theorem call_canDirty (h : t.Consistent) (c : Call ρ) : (t.call c).canDirty = t.canDirty := by
  cases c with
  | addRow ioRow =>
    rw [call, addRow_eq h]
    split_ifs
    · rfl
    · exact edited_canDirty
  | cutRow ioRow =>
    rw [call, cutRow_eq h]
    split_ifs
    · exact edited_canDirty
    · rfl
  | moveRow ioRow inHintFromPos inToPos =>
    rw [call]
    rcases moveRow_cases h.nodup ioRow inHintFromPos inToPos with ⟨hmove, -⟩ | ⟨-, hmove⟩
    · obtain ⟨dirty, changesMax, canDirty, hdirty⟩ := t.dirtyIfClean_eq
      rw [hmove, hdirty]
    · rw [hmove, edited_canDirty]
  | cutAllRows => exact cutAllRows_canDirty

end Calls

end Table

end CommCentral.Mork
