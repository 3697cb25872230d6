import CommCentral.Lib.Machine
import CommCentral.Lib.Keyed
import Mathlib.Data.BitVec

/-!
# Rows and their cells

The model of a `morkRow`: a vector of cells, each with a column, a change mark and an atom.
The parser collects the cells of a row in a vector and flushes it with `TakeCells`;
`AddColumn` and `CutColumn` are the edits of the program.

`TakeCells` first counts how many cells of the vector change a cell of the row, and `MergeCells`
searches the row only as long as the count is not used up.  A cell with the atom the row has
already is not counted, and neither is a cut of a cell that is cut.  So a row that is read again
with an unchanged value gets a second cell for the column, and a row whose cut is read again
gets a blank cell at its end.

The row refines a finite map from columns to cells along every run whose flushes bring the
columns of the row with other atoms, and a column new to the row once
(`row_is_map_along`).

Use counts of atoms, the seed of the row, its delta and the indexes of the row space are left
out: no cell depends on them.
-/

namespace CommCentral.Mork

open List Keyed

/-! ## Cells -/

/-- `mork_change`: what happened to a cell since the last commit. -/
inductive Change
  | nil
  | add
  | cut
  | put
  | set
  | dup
deriving DecidableEq, Repr

/-- `morkCell`.  The delta word packs 24 bits of column and 8 of change. -/
structure Cell (α : Type*) where
  /-- The upper 24 bits of `mCell_Delta`. -/
  column : BitVec 24
  /-- The lower 8 bits of `mCell_Delta`. -/
  change : Change
  atom : Option α
deriving DecidableEq, Repr

/-- A cell the builder puts in its vector. -/
abbrev BuilderCell (α : Type*) := {c : Cell α // c.change = .add ∨ c.change = .cut}

/-- The largest `mRow_Length`, a `mork_u2`, is one less. -/
def maxRowLength : ℕ := 65536

section Code

variable {α : Type*}

def Cell.getColumn (c : Cell α) : BitVec 32 := c.column.setWidth 32

/-- `morkCell::SetColumnAndChange`, which shifts out the upper bits of the column. -/
def Cell.setColumnAndChange (c : Cell α) (inCol : BitVec 32) (inChange : Change) : Cell α :=
  { c with column := inCol.setWidth 24, change := inChange }

def Cell.setAtom (c : Cell α) (ioAtom : Option α) : Cell α := { c with atom := ioAtom }

/-- A cell of zeroed memory. -/
def Cell.blank : Cell α := ⟨0, .nil, none⟩

/-- `morkRow::GetCell`: the position of the first cell with the column. -/
def getCell (cells : List (Cell α)) (inColumn : BitVec 32) : Option ℕ :=
  Keyed.index Cell.getColumn inColumn cells

/-- `morkPool::AddRowCells`.  The new length is cut to 16 bits. -/
def addRowCells (cells : List (Cell α)) (inNewSize : ℕ) : List (Cell α) × Bool :=
  if cells.length < inNewSize then
    let newCells := cells ++ List.replicate (inNewSize - cells.length) Cell.blank
    let length := inNewSize % maxRowLength
    (newCells.take length, inNewSize ≤ length)
  else (cells, inNewSize ≤ cells.length)

def cutRowCells (cells : List (Cell α)) (inNewSize : ℕ) : List (Cell α) :=
  if inNewSize < cells.length then cells.take inNewSize else cells

/-- `morkRow::NewCell`: the row, and the position of the new cell when there is one. -/
def newCell (cells : List (Cell α)) (inColumn : BitVec 32) (canDirty : Bool) :
    List (Cell α) × Option ℕ :=
  let (grown, good) := addRowCells cells (cells.length + 1)
  if good then
    (grown.modify cells.length fun cell =>
      cell.setColumnAndChange inColumn (if canDirty then .add else .nil), some cells.length)
  else (grown, none)

/-- The atom a cell is given by `AddColumn`, which wants one other than the old. -/
def setNewAtom (atom : Option α) (cells : List (Cell α)) (pos : ℕ) : List (Cell α) :=
  if atom.isSome then cells.modify pos (·.setAtom atom) else cells

/-- `morkRow::AddColumn`, with the atom that `YarnToAtom` answers for the yarn. -/
def addColumn (cells : List (Cell α)) (inColumn : BitVec 32) (canDirty : Bool)
    (atom : Option α) : List (Cell α) :=
  match getCell cells inColumn with
  | some pos => setNewAtom atom cells pos
  | none =>
    match newCell cells inColumn canDirty with
    | (grown, some pos) => setNewAtom atom grown pos
    | (grown, none) => grown

/-- `morkRow::CutColumn` of a row in a row space. -/
def cutColumn (cells : List (Cell α)) (inColumn : BitVec 32) : List (Cell α) :=
  match getCell cells inColumn with
  | some pos =>
    let cells := cells.modify pos (·.setAtom none)
    let last := cells.length - 1
    let moved :=
      if pos < last then cells.take pos ++ cells.drop (pos + 1) ++ [Cell.blank] else cells
    cutRowCells moved last
  | none => cells

variable [DecidableEq α]

/-- `morkRow::CountOverlap`: the count, and the vector with its `kDup` marks. -/
def countOverlap (cells : List (Cell α)) : List (Cell α) → ℕ × List (Cell α)
  | [] => (0, [])
  | c :: cs =>
    let (outCount, marked) := countOverlap cells cs
    match (getCell cells c.getColumn).bind (cells[·]?) with
    | some old =>
      if c.change ≠ .cut ∨ old.change ≠ c.change then
        (if c.atom ≠ old.atom then outCount + 1 else outCount, c :: marked)
      else (outCount, c.setColumnAndChange c.getColumn .dup :: marked)
    | none => (outCount, c :: marked)

/-- The cell of the row that `MergeCells` overwrites, searched while some overlap is left. -/
def overlapCell (cells : List (Cell α)) (inOverlap : ℕ) (col : BitVec 32) : Option ℕ :=
  if inOverlap ≠ 0 then getCell cells col else none

def mergeCells (cells : List (Cell α)) (newCells newEnd inOverlap : ℕ) :
    List (Cell α) → Except String (List (Cell α))
  | [] => .ok cells
  | src :: srcs =>
    if src.change = .dup then mergeCells cells newCells newEnd inOverlap srcs
    else match overlapCell cells inOverlap src.getColumn with
      | some dst => mergeCells (cells.set dst src) newCells newEnd (inOverlap - 1) srcs
      | none =>
        if newCells < newEnd then
          mergeCells (cells.set newCells src) (newCells + 1) newEnd inOverlap srcs
        else .error "out of new cells"

/-- `morkRow::TakeCells`.  The end of the new cells it hands on lies behind the row. -/
def takeCells (cells vector : List (Cell α)) : Except String (List (Cell α)) :=
  if vector = [] then .ok cells
  else
    let (overlap, marked) := countOverlap cells vector
    let growth := vector.length - overlap
    let (grown, good) :=
      if growth ≠ 0 then addRowCells cells (cells.length + growth) else (cells, true)
    if good = false then .error "cannot take cells"
    else if cells.length + growth ≤ grown.length then
      mergeCells grown cells.length (cells.length + grown.length) overlap marked
    else .error "not enough new cells"

inductive RowOp (α : Type*)
  /-- `morkBuilder::FlushBuilderCells`. -/
  | flush (vector : List (BuilderCell α))
  | addColumn (inColumn : BitVec 32) (canDirty : Bool) (atom : α)
  | cutColumn (inColumn : BitVec 32)

def RowOp.call (cells : List (Cell α)) : RowOp α → Except String (List (Cell α))
  | .flush vector => takeCells cells (vector.map Subtype.val)
  | .addColumn inColumn canDirty atom => .ok (Mork.addColumn cells inColumn canDirty (some atom))
  | .cutColumn inColumn => .ok (Mork.cutColumn cells inColumn)

/-- The row as a machine.  A call on a row with an error in its environment does nothing. -/
def rowStep : Machine.Step (Except String (List (Cell α))) (RowOp α) Unit
  | .ok cells, op => (op.call cells, ())
  | .error e, _ => (.error e, ())

end Code

/-! ## A vector taken cleanly -/

section Take

variable {α : Type*}

/-- The columns of a row. -/
abbrev columns (cells : List (Cell α)) : List (BitVec 32) := cells.map Cell.getColumn

/-- The vectors that `TakeCells` takes as it should. -/
structure TakenCleanly (cells vector : List (Cell α)) : Prop where
  /-- A cell of a column of the row brings another atom, and cuts no cell that is cut. -/
  changes : ∀ c ∈ vector, ∀ old ∈ cells, old.getColumn = c.getColumn →
    c.atom ≠ old.atom ∧ (c.change = .cut → old.change ≠ .cut)
  /-- A column that is new to the row comes once. -/
  once : vector.Pairwise fun c d => c.getColumn ∉ columns cells → d.getColumn ≠ c.getColumn
  /-- The column of the blank cells, when it is new to the row, comes after all columns of
  the row. -/
  blankLast : vector.Pairwise fun c d =>
    c.getColumn = 0 → c.getColumn ∉ columns cells → d.getColumn ∉ columns cells
  fits : ∀ c ∈ vector, c.getColumn ∉ columns cells →
    cells.length + vector.countP (·.getColumn ∉ columns cells) < maxRowLength

open Cell

@[simp] theorem getColumn_blank : (blank : Cell α).getColumn = 0 := rfl

variable {cells : List (Cell α)}

/-- A row with room in its length field gets blank cells at its end. -/
theorem addRowCells_eq {n : ℕ} (h : cells.length + n < maxRowLength) :
    addRowCells cells (cells.length + n) = (cells ++ List.replicate n blank, true) := by
  rw [addRowCells]
  split
  · rw [Nat.mod_eq_of_lt h]
    simp [take_of_length_le]
  · obtain rfl : n = 0 := by omega
    simp

/-- `MergeCells` is a fold of `upsert`.  The row consists of what is `done` and of one blank
cell for each column still to come that is not in `base`, the columns of the row at first.
The induction is on the vector, and the overlap that is left is the number of columns of
`base` still to come. -/
theorem mergeCells_eq {base : List (BitVec 32)} {newEnd : ℕ} {srcs done : List (Cell α)}
    (hbase : ∀ col ∈ base, col ∈ columns done)
    (hnew : ∀ c ∈ srcs, c.getColumn ∉ base → c.getColumn ∉ columns done)
    (hmarks : ∀ c ∈ srcs, c.change ≠ .dup)
    (honce : srcs.Pairwise fun c d => c.getColumn ∉ base → d.getColumn ≠ c.getColumn)
    (hblank : srcs.Pairwise fun c d =>
      c.getColumn = 0 → c.getColumn ∉ base → d.getColumn ∉ base)
    (hend : done.length + srcs.countP (·.getColumn ∉ base) ≤ newEnd) :
    mergeCells (done ++ List.replicate (srcs.countP (·.getColumn ∉ base)) blank)
        done.length newEnd (srcs.countP (·.getColumn ∈ base)) srcs =
      .ok (srcs.foldl (upsert getColumn) done) := by
  induction srcs generalizing done with
  | nil => simp [mergeCells]
  | cons c cs ih =>
    have hmark : c.change ≠ .dup := hmarks c (by simp)
    rw [pairwise_cons] at honce hblank
    obtain ⟨hc1, honce⟩ := honce
    obtain ⟨hc0, hblank⟩ := hblank
    have hmarks' : ∀ d ∈ cs, d.change ≠ .dup := fun d hd => hmarks d (by simp [hd])
    by_cases hc : c.getColumn ∈ base
    · -- a column of the row: some overlap is left, so the cell is found and overwritten
      obtain ⟨l, old, r, rfl, hold, hl⟩ := exists_split (hbase _ hc)
      have hup : upsert getColumn (l ++ old :: r) c = l ++ c :: r :=
        upsert_split hold hl
      have hcols : columns (l ++ c :: r) = columns (l ++ old :: r) := by simp [hold]
      rw [countP_cons_of_neg (by simpa using hc)] at hend ⊢
      rw [countP_cons_of_pos (by simpa using hc), mergeCells, if_neg hmark,
        overlapCell, if_pos (Nat.succ_ne_zero _), getCell, append_assoc,
        cons_append, index_split hold hl]
      have hset := @ih (l ++ c :: r) (hcols ▸ hbase)
        (fun d hd hdb => hcols ▸ hnew d (by simp [hd]) hdb) hmarks' honce hblank
        (by simpa using hend)
      rw [foldl_cons, hup, ← hset]
      simp
    · -- a new column: it is not found, so the next blank cell becomes its cell
      have hcd : c.getColumn ∉ columns done := hnew c (by simp) hc
      rw [countP_cons_of_pos (by simpa using hc)] at hend ⊢
      rw [countP_cons_of_neg (by simpa using hc), mergeCells, if_neg hmark]
      have hnone : overlapCell (done ++ List.replicate
          (cs.countP (·.getColumn ∉ base) + 1) blank)
          (cs.countP (·.getColumn ∈ base)) c.getColumn = none := by
        rw [overlapCell]
        split
        · rename_i hleft
          refine index_eq_none fun hmem => ?_
          rw [map_append, mem_append, map_replicate] at hmem
          rcases hmem with hmem | hmem
          · exact hcd hmem
          · -- a blank cell would be found only with some column of the row still to come
            obtain ⟨d, hd, hdb⟩ := countP_pos_iff.mp (Nat.pos_of_ne_zero hleft)
            exact hc0 d hd (eq_of_mem_replicate hmem) hc (by simpa using hdb)
        · rfl
      rw [hnone]
      have hroom : done.length < newEnd := by omega
      have hset := @ih (done ++ [c])
        (fun col hcol => by simpa using .inl (by simpa using hbase col hcol))
        (fun d hd hdb hmem => by
          rw [columns, map_append, mem_append] at hmem
          rcases hmem with hmem | hmem
          · exact hnew d (by simp [hd]) hdb hmem
          · exact hc1 d hd hc (by simpa using hmem))
        hmarks' honce hblank (by rw [length_append, length_singleton]; omega)
      rw [foldl_cons, upsert_of_notMem hcd, ← hset]
      simp only [hroom, if_true]
      rw [replicate_succ, set_append_right _ _ (Nat.le_refl _)]
      simp

variable [DecidableEq α]

/-- When every cell of the vector is a change, the count is that of the columns of the row,
and no cell is marked. -/
theorem countOverlap_eq {vector : List (Cell α)}
    (h : ∀ c ∈ vector, ∀ old ∈ cells, old.getColumn = c.getColumn →
      c.atom ≠ old.atom ∧ (c.change = .cut → old.change ≠ .cut)) :
    countOverlap cells vector = (vector.countP (·.getColumn ∈ columns cells), vector) := by
  induction vector with
  | nil => rfl
  | cons c cs ih =>
    rw [countOverlap, ih fun d hd => h d (mem_cons_of_mem c hd)]
    by_cases hc : c.getColumn ∈ columns cells
    · rw [countP_cons_of_pos (by simpa using hc)]
      obtain ⟨l, old, r, rfl, hold, hl⟩ := exists_split hc
      obtain ⟨hatom, hcut⟩ := h c (by simp) old (by simp) hold
      have hchange : c.change ≠ .cut ∨ old.change ≠ c.change := by
        by_cases hchg : c.change = .cut
        · exact .inr (hchg ▸ hcut hchg)
        · exact .inl hchg
      rw [getCell, index_split hold hl]
      simp [hchange, hatom]
    · rw [countP_cons_of_neg (by simpa using hc), getCell, index_eq_none hc]
      rfl

/-- `TakeCells` of a vector taken cleanly is a fold of `upsert`. -/
theorem takeCells_eq {vector : List (Cell α)} (h : TakenCleanly cells vector)
    (hmarks : ∀ c ∈ vector, c.change ≠ .dup) :
    takeCells cells vector = .ok (vector.foldl (upsert getColumn) cells) := by
  rw [takeCells]
  split
  · rename_i hnil
    rw [hnil]
    rfl
  · rw [countOverlap_eq h.changes]
    have hgrowth : vector.length - vector.countP (·.getColumn ∈ columns cells) =
        vector.countP (·.getColumn ∉ columns cells) := by
      rw [length_eq_countP_add_countP (·.getColumn ∈ columns cells) (l := vector)]
      simp
    simp only [hgrowth]
    have hgrown : (if vector.countP (·.getColumn ∉ columns cells) ≠ 0 then
        addRowCells cells (cells.length + vector.countP (·.getColumn ∉ columns cells))
        else (cells, true)) =
        (cells ++ List.replicate (vector.countP (·.getColumn ∉ columns cells)) blank,
          true) := by
      split
      · rename_i hpos
        obtain ⟨c, hc, hcol⟩ := countP_pos_iff.mp (Nat.pos_of_ne_zero hpos)
        exact addRowCells_eq (h.fits c hc (by simpa using hcol))
      · rename_i hzero
        rw [not_not.mp hzero]
        simp
    rw [hgrown]
    simp only [Bool.true_eq_false, if_false, length_append, length_replicate,
      Nat.le_refl, if_true]
    exact mergeCells_eq (fun _ => id) (fun _ _ => id) hmarks h.once h.blankLast (by omega)

end Take

/-! ## The row as a finite map -/

section Runs

variable {α : Type*}

/-- The cell of each column, as `GetCell` finds it. -/
abbrev contents (cells : List (Cell α)) : BitVec 32 → Option (Cell α) :=
  Keyed.lookup Cell.getColumn cells

/-- The map with a cell written in its column. -/
def writeCell (m : BitVec 32 → Option (Cell α)) (c : Cell α) : BitVec 32 → Option (Cell α) :=
  Function.update m c.getColumn (some c)

/-- What the calls do to a finite map from columns to cells: a flush writes the cells of its
vector, `AddColumn` writes an atom, and `CutColumn` removes a column. -/
def rowSpec (m : BitVec 32 → Option (Cell α)) : RowOp α → BitVec 32 → Option (Cell α)
  | .flush vector =>
    (vector.map Subtype.val).foldl writeCell m
  | .addColumn inColumn canDirty atom =>
    Function.update m inColumn <| some <| match m inColumn with
      | some c => c.setAtom (some atom)
      | none => ⟨inColumn.setWidth 24, if canDirty then .add else .nil, some atom⟩
  | .cutColumn inColumn => Function.update m inColumn none

/-- The finite map as a machine. -/
def rowSpecStep : Machine.Step (BitVec 32 → Option (Cell α)) (RowOp α) Unit :=
  fun m op => (rowSpec m op, ())

/-- The calls that do what they should: a flush whose vector is taken cleanly, and the first
`AddColumn` of a column that fits in a cell of a row that has room. -/
def RowCall : Except String (List (Cell α)) → RowOp α → Prop
  | .ok cells, .flush vector => TakenCleanly cells (vector.map Subtype.val)
  | .ok cells, .addColumn inColumn _ _ =>
    inColumn ∉ columns cells → inColumn < 2 ^ 24 ∧ cells.length + 1 < maxRowLength
  | .ok _, .cutColumn _ => True
  | .error _, _ => False

/-- A row that holds a finite map, no column twice. -/
structure HoldsMap (s : Except String (List (Cell α))) (m : BitVec 32 → Option (Cell α)) :
    Prop where
  intro ::
  /-- There is no error, no column comes twice, and `GetCell` finds what the map has. -/
  row : ∃ cells, s = .ok cells ∧ (columns cells).Nodup ∧ contents cells = m

variable {cells : List (Cell α)}

theorem nodup_foldl_upsert (h : (columns cells).Nodup) (vector : List (Cell α)) :
    (columns (vector.foldl (upsert Cell.getColumn) cells)).Nodup := by
  induction vector generalizing cells with
  | nil => exact h
  | cons c cs ih => exact ih (nodup_upsert h)

theorem contents_foldl_upsert (cells vector : List (Cell α)) :
    contents (vector.foldl (upsert Cell.getColumn) cells) =
      vector.foldl writeCell (contents cells) := by
  induction vector generalizing cells with
  | nil => rfl
  | cons c cs ih =>
    rw [foldl_cons, ih]
    exact congrArg (cs.foldl writeCell) (lookup_upsert c)

theorem getColumn_setWidth {inColumn : BitVec 32} (h : inColumn < 2 ^ 24) (change : Change)
    (atom : Option α) : Cell.getColumn ⟨inColumn.setWidth 24, change, atom⟩ = inColumn := by
  apply BitVec.eq_of_toNat_eq
  have hlt : inColumn.toNat < 2 ^ 24 := h
  simp only [Cell.getColumn, BitVec.toNat_setWidth]
  omega

/-- `AddColumn` of a column of the row gives its cell the atom. -/
theorem addColumn_of_split {l r : List (Cell α)} {c : Cell α} (hl : c.getColumn ∉ columns l)
    (canDirty : Bool) (atom : α) :
    addColumn (l ++ c :: r) c.getColumn canDirty (some atom) =
      l ++ c.setAtom (some atom) :: r := by
  rw [addColumn, getCell, index_split rfl hl]
  exact modify_append_cons l r c _

/-- `AddColumn` of a new column appends a cell. -/
theorem addColumn_of_notMem {inColumn : BitVec 32} (h : inColumn ∉ columns cells)
    (hroom : cells.length + 1 < maxRowLength) (canDirty : Bool) (atom : α) :
    addColumn cells inColumn canDirty (some atom) =
      cells ++ [⟨inColumn.setWidth 24, if canDirty then .add else .nil, some atom⟩] := by
  rw [addColumn, getCell, index_eq_none h, newCell, addRowCells_eq hroom]
  simp only [setNewAtom, Option.isSome_some, if_true, replicate_one,
    modify_append_cons]
  rfl

/-- `CutColumn` removes the cell that `GetCell` finds. -/
theorem cutColumn_of_split {l r : List (Cell α)} {c : Cell α} (hl : c.getColumn ∉ columns l) :
    cutColumn (l ++ c :: r) c.getColumn = l ++ r := by
  rw [cutColumn, getCell, index_split rfl hl]
  simp only [modify_append_cons, cutRowCells]
  cases r with
  | nil => simp
  | cons d r =>
    have hmoved : l.length < (l ++ c.setAtom none :: d :: r).length - 1 := by
      rw [length_append, length_cons, length_cons]
      omega
    have htake : l.take (l.length + (r.length + 1)) = l :=
      take_of_length_le (Nat.le_add_right _ _)
    simp [take_append, drop_append, htake]

/-- `AddColumn` of a column that fits writes it. -/
theorem addColumn_holdsMap {inColumn : BitVec 32} (h : (columns cells).Nodup)
    (hcall : inColumn ∉ columns cells → inColumn < 2 ^ 24 ∧ cells.length + 1 < maxRowLength)
    (canDirty : Bool) (atom : α) :
    HoldsMap (.ok (addColumn cells inColumn canDirty (some atom)))
      (rowSpec (contents cells) (.addColumn inColumn canDirty atom)) := by
  have hupsert : ∃ c : Cell α, c.getColumn = inColumn ∧
      addColumn cells inColumn canDirty (some atom) = upsert Cell.getColumn cells c ∧
      rowSpec (contents cells) (.addColumn inColumn canDirty atom) =
        writeCell (contents cells) c := by
    by_cases hmem : inColumn ∈ columns cells
    · obtain ⟨l, c, r, rfl, rfl, hl⟩ := exists_split hmem
      refine ⟨c.setAtom (some atom), rfl, ?_, ?_⟩
      · exact (addColumn_of_split hl canDirty atom).trans
          (upsert_split (a := c) (b := c.setAtom (some atom)) rfl hl).symm
      · rw [rowSpec, contents, lookup_append_cons, lookup_eq_none hl]
        simp [writeCell, Cell.getColumn, Cell.setAtom]
    · obtain ⟨hcol, hroom⟩ := hcall hmem
      refine ⟨_, getColumn_setWidth hcol (if canDirty then .add else .nil) (some atom), ?_, ?_⟩
      · rw [addColumn_of_notMem hmem hroom, upsert_of_notMem]
        rwa [getColumn_setWidth hcol]
      · rw [rowSpec, contents, lookup_eq_none hmem, writeCell, getColumn_setWidth hcol]
  obtain ⟨c, -, hadd, hspec⟩ := hupsert
  rw [hadd, hspec]
  exact ⟨_, rfl, nodup_upsert h, lookup_upsert c⟩

/-- `CutColumn` removes a column. -/
theorem cutColumn_holdsMap (h : (columns cells).Nodup) (inColumn : BitVec 32) :
    HoldsMap (.ok (cutColumn cells inColumn))
      (rowSpec (contents cells) (.cutColumn inColumn)) := by
  by_cases hmem : inColumn ∈ columns cells
  · obtain ⟨l, c, r, rfl, rfl, hl⟩ := exists_split hmem
    have herase : (l ++ c :: r).eraseIdx l.length = l ++ r := by
      simp [eraseIdx_append_of_length_le]
    refine ⟨_, rfl, ?_, ?_⟩
    · rw [cutColumn_of_split hl, ← herase]
      exact h.sublist ((eraseIdx_sublist _ _).map _)
    · rw [cutColumn_of_split hl, ← herase, contents,
        lookup_eraseIdx h (index_split rfl hl)]
      rfl
  · refine ⟨cells, ?_, h, ?_⟩
    · rw [cutColumn, getCell, index_eq_none hmem]
    · rw [rowSpec, update_lookup_of_notMem hmem]

/-- A flush of a vector taken cleanly writes its cells. -/
theorem flush_holdsMap [DecidableEq α] {vector : List (BuilderCell α)} (h : (columns cells).Nodup)
    (hclean : TakenCleanly cells (vector.map Subtype.val)) :
    HoldsMap (takeCells cells (vector.map Subtype.val))
      (rowSpec (contents cells) (.flush vector)) := by
  have hmarks : ∀ c ∈ vector.map Subtype.val, c.change ≠ .dup := by
    intro c hc
    obtain ⟨⟨c, hadd | hcut⟩, -, rfl⟩ := mem_map.mp hc
    · simp [hadd]
    · simp [hcut]
  rw [takeCells_eq hclean hmarks]
  exact ⟨_, rfl, nodup_foldl_upsert h _, contents_foldl_upsert cells _⟩

variable [DecidableEq α]

/-- Along every run whose calls do what they should, a row whose columns are distinct refines
a finite map: in every state no column comes twice, and `GetCell` finds for every column the
cell written last, nothing for a column that was cut, and the cell there was for a column that
was not mentioned. -/
theorem row_is_map_along (cells : List (Cell α)) (hdistinct : (columns cells).Nodup)
    (ops : List (RowOp α)) (hops : Machine.Along rowStep RowCall (.ok cells) ops) :
    ∀ before, before <+: ops →
      HoldsMap (Machine.exec rowStep (.ok cells) before)
        (Machine.exec rowSpecStep (contents cells) before) := by
  intro before hbefore
  refine (Machine.simulation (n := rowSpecStep) (R := HoldsMap) ?_
    ⟨cells, rfl, hdistinct, rfl⟩ (hops.restrict hbefore)).2
  rintro s m op ⟨row, rfl, hrow, rfl⟩ hop
  refine ⟨rfl, ?_⟩
  cases op with
  | flush vector => exact flush_holdsMap hrow hop
  | addColumn inColumn canDirty atom => exact addColumn_holdsMap hrow hop canDirty atom
  | cutColumn inColumn => exact cutColumn_holdsMap hrow inColumn

/-- A new column is flushed, an old one is set again, and the new one is cut. -/
theorem row_is_map_along_flushed :
    HoldsMap (Machine.exec rowStep (.ok [⟨1, .nil, some 5⟩])
        [.flush [⟨⟨2, .add, some 7⟩, .inl rfl⟩], .addColumn 1 true 9, .cutColumn 2])
      (Machine.exec rowSpecStep (contents [(⟨1, .nil, some 5⟩ : Cell ℕ)])
        [.flush [⟨⟨2, .add, some 7⟩, .inl rfl⟩], .addColumn 1 true 9, .cutColumn 2]) := by
  have hops : Machine.Along rowStep RowCall (.ok [(⟨1, .nil, some 5⟩ : Cell ℕ)])
      [.flush [⟨⟨2, .add, some 7⟩, .inl rfl⟩], .addColumn 1 true 9, .cutColumn 2] := by
    refine ⟨⟨by decide, by decide, by decide, by decide⟩, fun h => absurd ?_ h, trivial, trivial⟩
    decide
  exact row_is_map_along [⟨1, .nil, some 5⟩] (by decide) _ hops _ (prefix_refl _)

/-- A row that is read again with the value it has gets a second cell for the column. -/
theorem row_reread_twice :
    (columns [(⟨1, .nil, some 5⟩ : Cell ℕ)]).Nodup ∧
      Machine.exec rowStep (.ok [(⟨1, .nil, some 5⟩ : Cell ℕ)])
          [.flush [⟨⟨1, .add, some 5⟩, .inl rfl⟩]] =
        .ok [⟨1, .nil, some 5⟩, ⟨1, .add, some 5⟩] ∧
      ¬ (columns [(⟨1, .nil, some 5⟩ : Cell ℕ), ⟨1, .add, some 5⟩]).Nodup :=
  ⟨by decide, rfl, by decide⟩

end Runs

end CommCentral.Mork
