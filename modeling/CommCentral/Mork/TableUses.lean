import CommCentral.Lib.Machine
import CommCentral.Mork.Table
import Mathlib.Data.Finset.Card
import Mathlib.Data.Fintype.Basic

/-!
# Tables and the use counts of their rows

The tables of a store with `mRow_GcUses` of its rows, from
`db/mork/src/morkTable.cpp` and `morkRow.cpp`.  A compress commit drops the rows
whose count is zero, so the count of a row has to be the number of the tables
that contain it.

A count that has reached its limit is frozen.  Below the limit all calls keep
the counts right but one: `CutAllRows` takes the uses back by walking over the
row map, and a table of few rows has none.
-/

namespace CommCentral.Mork

open Function List Machine Table

structure TableStore (ι ρ : Type*) where
  tables : ι → Table ρ
  gcUses : ρ → ℕ

def addRowGcUse (gcUses : ℕ) : ℕ := if gcUses < 0x0FF then gcUses + 1 else gcUses

def cutRowGcUse (gcUses : ℕ) : ℕ :=
  if gcUses ≠ 0 then if gcUses < 0x0FF then gcUses - 1 else gcUses else gcUses

namespace TableStore

variable {ι ρ : Type*} [DecidableEq ι] [DecidableEq ρ]

def new (canDirty : ι → Bool) : TableStore ι ρ where
  tables i := ⟨[], none, [], 0, 0, false, false, canDirty i⟩
  gcUses _ := 0

/-- The use counts after a call on a table. -/
def usesAfter (gcUses : ρ → ℕ) (t : Table ρ) : Table.Call ρ → ρ → ℕ
  | .addRow ioRow =>
    if t.findMemberRow ioRow then gcUses
    else Function.update gcUses ioRow (addRowGcUse (gcUses ioRow))
  | .cutRow ioRow =>
    if t.findMemberRow ioRow then Function.update gcUses ioRow (cutRowGcUse (gcUses ioRow))
    else gcUses
  | .moveRow _ _ _ => gcUses
  | .cutAllRows =>
    match t.rowMap with
    | some map => fun r => if r ∈ map then cutRowGcUse (gcUses r) else gcUses r
    | none => gcUses

def step : Step (TableStore ι ρ) (ι × Table.Call ρ) Unit := fun s (i, c) =>
  (⟨Function.update s.tables i ((s.tables i).call c), usesAfter s.gcUses (s.tables i) c⟩, ())

/-! ## Tables that contain a row -/

section Holders

variable [Fintype ι] {tables : ι → Table ρ} {i : ι} {r : ρ}

/-- The number of the tables that contain a row. -/
def holders (tables : ι → Table ρ) (r : ρ) : ℕ :=
  (Finset.univ.filter fun i => r ∈ (tables i).rowArray).card

/-- The number of the other tables that contain a row. -/
def othersHolding (tables : ι → Table ρ) (i : ι) (r : ρ) : ℕ :=
  ((Finset.univ.erase i).filter fun j => r ∈ (tables j).rowArray).card

open Finset

theorem holders_eq (tables : ι → Table ρ) (i : ι) (r : ρ) :
    holders tables r = othersHolding tables i r + if r ∈ (tables i).rowArray then 1 else 0 := by
  rw [holders, othersHolding, ← insert_erase (mem_univ i), filter_insert]
  split_ifs with hr
  · rw [card_insert_of_notMem (by simp), erase_insert (by simp)]
  · rw [erase_insert (by simp), Nat.add_zero]

theorem othersHolding_update (tables : ι → Table ρ) (i : ι) (t : Table ρ) (r : ρ) :
    othersHolding (Function.update tables i t) i r = othersHolding tables i r := by
  rw [othersHolding]
  congr 1
  refine filter_congr fun j hj => ?_
  rw [update_of_ne (ne_of_mem_erase hj)]

/-- The bookkeeping of the memberships is right. -/
structure Kept (s : TableStore ι ρ) : Prop where
  /-- The rows of a table are distinct, and its row map holds exactly them. -/
  consistent : ∀ i, (s.tables i).Consistent
  /-- The count of a row is the number of the tables that contain it. -/
  gcUses : ∀ r, s.gcUses r = holders s.tables r

end Holders

/-! ## What a call keeps -/

/-- The rows that a call adds to a table or takes out of it. -/
def touched (t : Table ρ) : Table.Call ρ → List ρ
  | .addRow ioRow => if ioRow ∈ t.rowArray then [] else [ioRow]
  | .cutRow ioRow => if ioRow ∈ t.rowArray then [ioRow] else []
  | .moveRow _ _ _ => []
  | .cutAllRows => t.rowArray

/-- The counts of the rows that a call adds or takes out are below their limit. -/
def BelowLimit (s : TableStore ι ρ) : ι × Table.Call ρ → Prop
  | (i, c) => ∀ r ∈ touched (s.tables i) c, s.gcUses r < 0x0FF

/-- `CutAllRows` is called on tables without rows or with a row map only. -/
def CutsAllMapped (s : TableStore ι ρ) : ι × Table.Call ρ → Prop
  | (i, .cutAllRows) => (s.tables i).rowArray = [] ∨ (s.tables i).rowMap.isSome
  | _ => True

section Counts

variable {t : Table ρ} {gcUses others : ρ → ℕ}

theorem addRowGcUse_eq_iff (n : ℕ) : addRowGcUse n = n + 1 ↔ n < 0x0FF := by
  rw [addRowGcUse]
  split_ifs with h
  · exact iff_of_true rfl h
  · exact iff_of_false (Nat.ne_add_one n) h

/-- A use is taken from a count exactly below the limit. -/
theorem cutRowGcUse_eq_iff (n : ℕ) : cutRowGcUse (n + 1) = n ↔ n + 1 < 0x0FF := by
  rw [cutRowGcUse, if_pos (Nat.succ_ne_zero n)]
  split_ifs with h
  · exact iff_of_true rfl h
  · exact iff_of_false (Nat.ne_add_one n).symm h

section

variable (h : t.Consistent) (huses : ∀ r, gcUses r = others r + if r ∈ t.rowArray then 1 else 0)

include h huses

/-- The counts stay right after `AddRow` exactly when the count of a new row is below its
limit. -/
theorem usesAfter_addRow_iff (row : ρ) :
    (∀ r, usesAfter gcUses t (.addRow row) r =
        others r + if r ∈ (Call.addRow row).apply t.rowArray then 1 else 0) ↔
      ∀ r ∈ touched t (.addRow row), gcUses r < 0x0FF := by
  rw [usesAfter, touched, Call.apply, RowOrder.Edit.apply]
  simp only [findMemberRow_iff h]
  split_ifs with hrow
  · exact iff_of_true huses (by simp)
  · have hcount : gcUses row = others row := by rw [huses, if_neg hrow, Nat.add_zero]
    rw [forall_mem_singleton, ← addRowGcUse_eq_iff]
    constructor
    · intro hall
      have hadd := hall row
      rwa [update_self, if_pos (by simp), ← hcount] at hadd
    · intro hadd r
      rcases eq_or_ne r row with rfl | hne
      · rw [update_self, if_pos (by simp), hadd, hcount]
      · rw [update_of_ne hne, huses]
        simp [hne]

/-- The counts stay right after `CutRow` exactly when the count of a member is below its
limit. -/
theorem usesAfter_cutRow_iff (row : ρ) :
    (∀ r, usesAfter gcUses t (.cutRow row) r =
        others r + if r ∈ (Call.cutRow row).apply t.rowArray then 1 else 0) ↔
      ∀ r ∈ touched t (.cutRow row), gcUses r < 0x0FF := by
  rw [usesAfter, touched, Call.apply, RowOrder.Edit.apply]
  simp only [findMemberRow_iff h]
  split_ifs with hrow
  · have hcount : gcUses row = others row + 1 := by rw [huses, if_pos hrow]
    have hcut : row ∉ t.rowArray.erase row := h.nodup.not_mem_erase
    rw [forall_mem_singleton, hcount, ← cutRowGcUse_eq_iff]
    constructor
    · intro hall
      have hrow' := hall row
      rwa [update_self, if_neg hcut, Nat.add_zero] at hrow'
    · intro hrow' r
      rcases eq_or_ne r row with rfl | hne
      · rw [update_self, if_neg hcut, hrow', Nat.add_zero]
      · rw [update_of_ne hne, huses]
        simp only [mem_erase_of_ne hne]
  · rw [erase_of_not_mem hrow]
    exact iff_of_true huses (by simp)

/-- The counts stay right after `CutAllRows` exactly when there is a row map, or no row, and
the counts of the rows are below their limit. -/
theorem usesAfter_cutAllRows_iff :
    (∀ r, usesAfter gcUses t .cutAllRows r = others r) ↔
      (∀ r ∈ t.rowArray, gcUses r < 0x0FF) ∧ (t.rowArray = [] ∨ t.rowMap.isSome) := by
  rw [usesAfter]
  cases hmap : t.rowMap with
  | none =>
    constructor
    · intro hall
      have hempty : t.rowArray = [] := by
        rw [eq_nil_iff_forall_not_mem]
        intro r hr
        have hcount := (huses r).symm.trans (hall r)
        rw [if_pos hr] at hcount
        omega
      exact ⟨by simp [hempty], .inl hempty⟩
    · rintro ⟨-, hempty | hsome⟩ r
      · simp [huses r, hempty]
      · cases hsome
  | some map =>
    simp only [h.mem_map map hmap, Option.isSome_some, or_true, and_true]
    refine forall_congr' fun r => ?_
    split_ifs with hr
    · rw [huses, if_pos hr, cutRowGcUse_eq_iff]
      exact ⟨fun hlt _ => hlt, fun hlt => hlt hr⟩
    · rw [huses, if_neg hr]
      exact iff_of_true rfl fun hmem => absurd hmem hr

end

end Counts

section Kept

variable [Fintype ι] {s : TableStore ι ρ}

omit [DecidableEq ι] in
theorem kept_new (canDirty : ι → Bool) : (new canDirty : TableStore ι ρ).Kept := by
  refine ⟨fun i => ⟨nodup_nil, fun map hmap => ?_⟩, fun r => ?_⟩
  · cases hmap
  · simp [new, holders]

/-- A call keeps the bookkeeping right exactly when it keeps the counts right. -/
theorem kept_step_iff_usesAfter (h : s.Kept) (i : ι) (c : Call ρ) :
    (step s (i, c)).1.Kept ↔ ∀ r, usesAfter s.gcUses (s.tables i) c r =
      othersHolding s.tables i r + if r ∈ c.apply (s.tables i).rowArray then 1 else 0 := by
  have hholders : ∀ r, holders (step s (i, c)).1.tables r =
      othersHolding s.tables i r + if r ∈ c.apply (s.tables i).rowArray then 1 else 0 := by
    intro r
    rw [holders_eq _ i]
    simp only [step, othersHolding_update, update_self,
      call_rowArray (h.consistent i)]
  constructor
  · intro hkept r
    exact (hkept.gcUses r).trans (hholders r)
  · intro hall
    refine ⟨fun j => ?_, fun r => (hall r).trans (hholders r).symm⟩
    show (Function.update s.tables i ((s.tables i).call c) j).Consistent
    rcases eq_or_ne j i with rfl | hj
    · rw [update_self]
      exact (h.consistent j).call c
    · rw [update_of_ne hj]
      exact h.consistent j

/-- A call keeps the bookkeeping right exactly when the counts it changes are below their
limit and it does not cut all rows of a table without a row map. -/
theorem kept_step_iff (h : s.Kept) (op : ι × Call ρ) :
    (step s op).1.Kept ↔ s.BelowLimit op ∧ s.CutsAllMapped op := by
  obtain ⟨i, c⟩ := op
  have hcons := h.consistent i
  have huses : ∀ r, s.gcUses r = othersHolding s.tables i r +
      if r ∈ (s.tables i).rowArray then 1 else 0 := fun r => by rw [h.gcUses, holders_eq _ i]
  rw [kept_step_iff_usesAfter h]
  cases c with
  | addRow row =>
    rw [usesAfter_addRow_iff hcons huses]
    exact (and_iff_left trivial).symm
  | cutRow row =>
    rw [usesAfter_cutRow_iff hcons huses]
    exact (and_iff_left trivial).symm
  | moveRow row inHintFromPos inToPos =>
    refine iff_of_true (fun r => ?_) ⟨by simp [BelowLimit, touched], trivial⟩
    rw [usesAfter, huses]
    simp [Call.apply, RowOrder.Edit.apply]
  | cutAllRows =>
    exact usesAfter_cutAllRows_iff hcons huses

/-- In every state of a run the rows of each table are distinct, its row map holds exactly
them, and the count of each row is the number of the tables that contain it, exactly when
the run touches no row whose count has reached its limit and never cuts all rows of a table
that has rows and no row map. -/
theorem memberships_kept_iff (canDirty : ι → Bool) (ops : List (ι × Table.Call ρ)) :
    (∀ before, before <+: ops → (Machine.exec step (new canDirty : TableStore ι ρ) before).Kept) ↔
      Along step (fun s op => s.BelowLimit op ∧ s.CutsAllMapped op) (new canDirty) ops :=
  forall_prefix_iff (I := Kept) (fun _ op h => kept_step_iff h op) (kept_new canDirty)

end Kept

/-! ## A table of one row -/

/-- After all rows of a table of one row are cut, the row is still counted as used. -/
theorem cutAllRows_leaves_use :
    let ops : List (Unit × Table.Call ℕ) := [((), .addRow 7), ((), .cutAllRows)]
    Along step BelowLimit (new fun _ => true) ops ∧
      (Machine.exec step (new fun _ => true) ops).gcUses 7 = 1 ∧
      holders (Machine.exec step (new fun _ => true) ops).tables 7 = 0 ∧
      ¬ (Machine.exec step (new fun _ => true) ops).Kept := by
  intro ops
  have huses : (Machine.exec step (new fun _ => true) ops).gcUses 7 = 1 := by decide
  have hholders : holders (Machine.exec step (new fun _ => true) ops).tables 7 = 0 := by decide
  refine ⟨?_, huses, hholders, fun h => ?_⟩
  · refine ⟨fun r _ => Nat.zero_lt_succ _, fun r hr => ?_, trivial⟩
    obtain rfl : r = 7 := mem_singleton.mp hr
    decide
  · have hcount := h.gcUses 7
    cases hcount

end TableStore

end CommCentral.Mork
