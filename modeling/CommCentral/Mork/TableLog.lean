import CommCentral.Mork.Table

/-!
# The records of a table

What a commit writes of a table and how it is read back, from
`db/mork/src/morkWriter.cpp` (`PutTable`), `morkParser.cpp` (`ReadTable`,
`ReadRow`) and `morkBuilder.cpp`.

* The text of a table is the minus sign behind its opening brace, if there is
  one, and its rows.  A row has a minus sign before it when it is cut and a
  position behind it when it is moved.  Its cells are left out.
* A full write (a compress commit) writes all rows; an incremental one writes the
  changes, or all rows when they are not known.

`read_putTable` says that an incremental commit brings a table that was read
before to the rows that it has now, in order.
-/

namespace CommCentral.Mork

open List RowOrder Table TableChange

/-! ## Writing -/

/-- A row in the text of a table. -/
structure RowItem (ρ : Type*) where
  minus : Bool
  row : ρ
  /-- What stands behind an exclamation mark, if one follows. -/
  pos : Option ℕ
  deriving DecidableEq, Repr

structure TableText (ρ : Type*) where
  /-- Whether a minus sign follows the opening brace. -/
  cutAllRows : Bool
  items : List (RowItem ρ)
  deriving DecidableEq, Repr

section Writer

variable {ρ : Type*}

def putRow (r : ρ) : RowItem ρ := ⟨false, r, none⟩

def putTableChange : TableChange ρ → RowItem ρ
  | .add row => putRow row
  | .cut row => { putRow row with minus := true }
  | .move row pos => { putRow row with pos := some pos }

/-- `PutTable`: the text, and the table, which is clean then.  `mWriter_NeedDirtyAll` is the
opposite of `mWriter_Incremental`. -/
def putTable (incremental : Bool) (ioTable : Table ρ) : TableText ρ × Table ρ :=
  let items :=
    if ioTable.rewrite || !incremental then ioTable.rowArray.map putRow
    else ioTable.changeList.map putTableChange
  (⟨ioTable.rewrite && incremental, items⟩, ioTable.setTableClean)

end Writer

/-! ## Reading -/

/-- The fields of `morkBuilder` that reading a table uses. -/
structure TableBuilder (ρ : Type*) where
  table : Table ρ
  row : Option ρ
  doCutRow : Bool

namespace TableBuilder

variable {ρ : Type*} [DecidableEq ρ]

def onNewTable (table : Table ρ) (inCutAllRows : Bool) : TableBuilder ρ :=
  ⟨if inCutAllRows then table.cutAllRows else table, none, false⟩

def onMinusRow (b : TableBuilder ρ) : TableBuilder ρ := { b with doCutRow := true }

def onNewRow (b : TableBuilder ρ) (row : ρ) : TableBuilder ρ :=
  ⟨if b.doCutRow then b.table.cutRow row else b.table.addRow row, some row, false⟩

def onRowPos (b : TableBuilder ρ) (inRowPos : ℕ) : TableBuilder ρ :=
  match b.row with
  | some row => { b with table := (b.table.moveRow row 0 inRowPos).1 }
  | none => b

/-- A row is read: its minus sign in `ReadTable`, itself and its position in `ReadRow`. -/
def readRow (b : TableBuilder ρ) (item : RowItem ρ) : TableBuilder ρ :=
  let b := if item.minus then b.onMinusRow else b
  let b := b.onNewRow item.row
  match item.pos with
  | some pos => b.onRowPos pos
  | none => b

end TableBuilder

/-- `ReadTable`: the table after its text is read. -/
def TableText.read {ρ : Type*} [DecidableEq ρ] (text : TableText ρ) (table : Table ρ) : Table ρ :=
  (text.items.foldl TableBuilder.readRow (.onNewTable table text.cutAllRows)).table

/-! ## Records are replayed -/

section Replay

variable {ρ : Type*} [DecidableEq ρ] {b : TableBuilder ρ}

/-- The builder stands between two rows of a table. -/
structure TableBuilder.Between (b : TableBuilder ρ) : Prop where
  consistent : b.table.Consistent
  doCutRow : b.doCutRow = false

/-- A position that was written is read as it is, up to the end of the array. -/
theorem moveTo_clampPos (l : List ρ) (row : ρ) (pos : ℕ) :
    moveTo l row (clampPos (l.length - 1) pos) = moveTo l row pos := by
  have hclamp : clampPos (l.length - 1) pos = min pos (l.length - 1) := by
    rw [clampPos]
    split_ifs <;> omega
  rw [hclamp, moveTo_min]

/-- A row whose record is read is edited as the record says. -/
theorem TableBuilder.Between.readRow (h : b.Between) (c : TableChange ρ) :
    (b.readRow (putTableChange c)).Between ∧
      (b.readRow (putTableChange c)).table.rowArray = replay c.edits b.table.rowArray := by
  obtain ⟨table, row, doCutRow⟩ := b
  obtain ⟨hcons, rfl : doCutRow = false⟩ := h
  cases c with
  | add row =>
    exact ⟨⟨hcons.call (.addRow row), rfl⟩, call_rowArray hcons (.addRow row)⟩
  | cut row =>
    exact ⟨⟨hcons.call (.cutRow row), rfl⟩, call_rowArray hcons (.cutRow row)⟩
  | move row pos =>
    have hadded : (table.addRow row).Consistent := hcons.call (.addRow row)
    have hrows : (table.addRow row).rowArray = (Edit.add row).apply table.rowArray :=
      call_rowArray hcons (.addRow row)
    refine ⟨⟨hadded.call (.moveRow row 0 pos), rfl⟩, ?_⟩
    calc ((table.addRow row).moveRow row 0 pos).1.rowArray
        = moveTo (table.addRow row).rowArray row
            (clampPos ((table.addRow row).rowArray.length - 1) pos) :=
          call_rowArray hadded (.moveRow row 0 pos)
      _ = moveTo ((Edit.add row).apply table.rowArray) row pos := by
          rw [moveTo_clampPos, hrows]
      _ = replay (move row pos).edits table.rowArray := rfl

theorem TableBuilder.Between.readRows (h : b.Between) (log : List (TableChange ρ)) :
    ((log.map putTableChange).foldl TableBuilder.readRow b).table.rowArray =
      replay (log.flatMap edits) b.table.rowArray := by
  induction log generalizing b with
  | nil => rfl
  | cons c log ih =>
    obtain ⟨hnext, hrows⟩ := h.readRow c
    rw [map_cons, foldl_cons, ih hnext, hrows, flatMap_cons, replay_append]

/-- The rows of a table, written one after the other, are read into an empty table. -/
theorem TableBuilder.Between.readAll (h : b.Between) (hempty : b.table.rowArray = [])
    {rows : List ρ} (hnodup : rows.Nodup) :
    ((rows.map putRow).foldl TableBuilder.readRow b).table.rowArray = rows := by
  have hrecords : rows.map putRow = (rows.map add).map putTableChange := by
    rw [map_map]
    rfl
  have hedits : (rows.map add).flatMap edits = rows.map Edit.add := by
    rw [flatMap_map]
    exact flatMap_pure_eq_map Edit.add rows
  rw [hrecords, h.readRows, hempty, hedits, replay_adds (l := []) hnodup, List.nil_append]

end Replay

/-! ## Runs on a clean table -/

section Runs

variable {ρ : Type*} [DecidableEq ρ] {t live stored : Table ρ} {rows : List ρ}

def Table.calls (t : Table ρ) (cs : List (Table.Call ρ)) : Table ρ := cs.foldl Table.call t

/-- A clean table, as a commit leaves it. -/
structure Table.Clean (t : Table ρ) : Prop where
  dirty : t.dirty = false
  changeList : t.changeList = []

/-- The table is written anew, or its notes lead from the rows it had to those it has. -/
structure Table.Logged (rows : List ρ) (t : Table ρ) : Prop where
  consistent : t.Consistent
  canDirty : t.canDirty = true
  complete : t.rewrite = true ∨ replay (t.changeList.flatMap TableChange.edits) rows = t.rowArray

theorem Table.Logged.call (h : t.Logged rows) (c : Call ρ) : (t.call c).Logged rows := by
  refine ⟨h.consistent.call c, (call_canDirty h.consistent c).trans h.canDirty, ?_⟩
  rcases call_noted h.consistent h.canDirty c with hall | ⟨hrewrite, log, hlog, hreplay⟩
  · exact .inl hall
  · rw [hrewrite, hlog, flatMap_append, replay_append]
    rcases h.complete with hall | hcomplete
    · exact .inl hall
    · exact .inr (by rw [hcomplete, hreplay])

theorem Table.Logged.calls (h : t.Logged rows) (cs : List (Call ρ)) :
    (t.calls cs).Logged rows := by
  induction cs generalizing t with
  | nil => exact h
  | cons c cs ih => exact ih (h.call c)

/-- What an incremental commit writes brings a table from the rows it had to those it has. -/
theorem Table.Logged.read (h : t.Logged stored.rowArray) (hstored : stored.Consistent) :
    ((putTable true t).1.read stored).rowArray = t.rowArray := by
  cases hrewrite : t.rewrite with
  | true =>
    have hall : (putTable true t).1 = ⟨true, t.rowArray.map putRow⟩ := by
      simp [putTable, hrewrite]
    rw [hall]
    exact TableBuilder.Between.readAll ⟨hstored.call .cutAllRows, rfl⟩ rfl h.consistent.nodup
  | false =>
    have hlog : (putTable true t).1 = ⟨false, t.changeList.map putTableChange⟩ := by
      simp [putTable, hrewrite]
    have hcomplete := h.complete.resolve_left (by simp [hrewrite])
    rw [hlog, ← hcomplete]
    exact TableBuilder.Between.readRows ⟨hstored, rfl⟩ t.changeList

/-- A table is clean and has the rows of one that was read.  After any calls, what an
incremental commit writes of it, read into the other table, gives the rows that it has now,
in order. -/
theorem read_putTable (hclean : live.Clean) (hdirty : live.canDirty = true)
    (hlive : live.Consistent) (hstored : stored.Consistent)
    (hrows : stored.rowArray = live.rowArray) (cs : List (Table.Call ρ)) :
    ((putTable true (live.calls cs)).1.read stored).rowArray = (live.calls cs).rowArray := by
  have hlogged : live.Logged stored.rowArray :=
    ⟨hlive, hdirty, .inr (by rw [hclean.changeList, hrows]; rfl)⟩
  exact (hlogged.calls cs).read hstored

end Runs

/-- A clean table of twelve rows, in a store that may get dirty or not. -/
def twelveRows (canDirty : Bool) : Table ℕ :=
  ⟨List.range 12, none, [], 0, 0, false, false, canDirty⟩

/-- Three records of a table are read back. -/
theorem read_putTable_twelveRows :
    let cs : List (Table.Call ℕ) := [.addRow 20, .moveRow 20 3 1, .cutRow 5]
    (putTable true ((twelveRows true).calls cs)).1 =
        ⟨false, [⟨false, 20, none⟩, ⟨false, 20, some 1⟩, ⟨true, 5, none⟩]⟩ ∧
      ((putTable true ((twelveRows true).calls cs)).1.read (twelveRows false)).rowArray =
        ((twelveRows true).calls cs).rowArray := by
  intro cs
  have hcons : ∀ canDirty, (twelveRows canDirty).Consistent := fun canDirty =>
    ⟨nodup_range, fun map hmap => by cases hmap⟩
  exact ⟨by decide, read_putTable ⟨rfl, rfl⟩ rfl (hcons true) (hcons false) rfl cs⟩

end CommCentral.Mork
