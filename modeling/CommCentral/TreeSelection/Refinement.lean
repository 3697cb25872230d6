import CommCentral.TreeSelection.Invariant

/-!
# `JSTreeSelection` against a set of rows

`Selected` is the abstract selection: a set of rows, with the two points that
decide where a shift-selection starts.  Each operation acts on it as its
documentation says, `toggleSelect` by symmetric difference and so on.

The refinement holds already when the ranges may touch (`Valid 0`), up to
`toggleSelect`.  A row beyond the last range falls through its loop and is not
added, and a row at which a range starts that touches the one below is not
taken away.  `Toggles` excludes exactly these calls, in the state before them.
-/

namespace CommCentral.TreeSelection

open Ranges Machine JSTreeSelection

/-! ## The abstract selection -/

/-- A set of selected rows, and the points of the selection. -/
structure Selected where
  rows : Set ℤ
  shiftSelectPivot : Option ℤ
  currentIndex : Option ℤ

def Selected.fresh : Selected := ⟨∅, none, none⟩

def Selected.call (A : Selected) : Op → Selected
  | .select i => ⟨{i}, none, setCurrentIndex A.currentIndex i⟩
  | .toggleSelect i =>
    { A with rows := symmDiff A.rows {i}, currentIndex := setCurrentIndex A.currentIndex i }
  | .rangedSelect a b aug =>
    let start := rangeStart A.shiftSelectPivot A.currentIndex a b
    ⟨if aug then A.rows ∪ Set.uIcc start b else Set.uIcc start b, some start,
      setCurrentIndex A.currentIndex b⟩
  | .clearRange a b => { A with rows := A.rows \ Set.Icc a b }
  | .clearSelection => { A with rows := ∅, shiftSelectPivot := none }
  | .selectAll none => A
  | .selectAll (some n) => if n = 0 then A else { A with rows := Set.Ico 0 (n : ℤ) }
  | .adjustSelection i n =>
    ⟨if n ≥ 0 then {x ∈ A.rows | x < i} ∪ (· + n) '' {x ∈ A.rows | i ≤ x}
      else {x ∈ A.rows | x < i} ∪ (· + n) '' {x ∈ A.rows | i - n ≤ x},
      if n = 0 then A.shiftSelectPivot else adjustPoint A.shiftSelectPivot i n,
      if n = 0 then A.currentIndex else adjustPoint A.currentIndex i n⟩

open Classical in
/-- A call, answered with the selected rows after it. -/
noncomputable def specStep : Machine.Step Selected Op (ℤ → Bool)
  | A, op => (A.call op, fun i => decide (i ∈ (A.call op).rows))

/-- The calls in the scope of the refinement: `clearRange` has its start at or
below its end. -/
def Op.Ordered : Op → Prop
  | .clearRange a b => a ≤ b
  | _ => True

/-- The calls that act on the rows as documented. -/
def Toggles (s : JSTreeSelection) : Op → Prop
  | .toggleSelect i => (s.ranges = [] ∨ ¬ Beyond s.ranges i) ∧ ¬ Fuses s.ranges i
  | _ => True

/-! ## The refinement relation -/

/-- The selection has these rows and points. -/
structure Represents (s : JSTreeSelection) (A : Selected) : Prop where
  valid : Valid 0 s
  rows : s.rows = A.rows
  pivot : s.shiftSelectPivot = A.shiftSelectPivot
  current : s.currentIndex = A.currentIndex

theorem represents_fresh : Represents fresh Selected.fresh :=
  ⟨valid_fresh 0, cover_nil, rfl, rfl⟩

/-- The rows that an adjustment by `n ≥ 0` rows moves up. -/
theorem mem_moved_up {S : Set ℤ} {i n x : ℤ} :
    x ∈ {x ∈ S | x < i} ∪ (· + n) '' {x ∈ S | i ≤ x} ↔
      (x < i ∧ x ∈ S) ∨ (i + n ≤ x ∧ x - n ∈ S) := by
  simp only [Set.mem_union, Set.mem_ofPred_eq, Set.mem_image]
  refine or_congr and_comm ?_
  constructor
  · rintro ⟨y, ⟨hy, hle⟩, rfl⟩
    exact ⟨by omega, by simpa using hy⟩
  · rintro ⟨hle, hx⟩
    exact ⟨x - n, ⟨hx, by omega⟩, by omega⟩

/-- The rows that an adjustment by `n < 0` rows moves down. -/
theorem mem_moved_down {S : Set ℤ} {i n x : ℤ} :
    x ∈ {x ∈ S | x < i} ∪ (· + n) '' {x ∈ S | i - n ≤ x} ↔
      (x < i ∧ x ∈ S) ∨ (i ≤ x ∧ x - n ∈ S) := by
  simp only [Set.mem_union, Set.mem_ofPred_eq, Set.mem_image]
  refine or_congr and_comm ?_
  constructor
  · rintro ⟨y, ⟨hy, hle⟩, rfl⟩
    exact ⟨by omega, by simpa using hy⟩
  · rintro ⟨hle, hx⟩
    exact ⟨x - n, ⟨hx, by omega⟩, by omega⟩

section Calls

variable {s : JSTreeSelection} {A : Selected}

theorem adjustSelection_points {i n : ℤ} (hn : n ≠ 0) :
    (s.adjustSelection i n).shiftSelectPivot = adjustPoint s.shiftSelectPivot i n ∧
      (s.adjustSelection i n).currentIndex = adjustPoint s.currentIndex i n := by
  unfold adjustSelection
  simp only [if_neg hn, clearRange_points]
  split_ifs
  · exact ⟨rfl, rfl⟩
  · exact ⟨rfl, rfl⟩

theorem represents_adjustSelection (h : Represents s A) (i n : ℤ) :
    Represents (s.adjustSelection i n) (A.call (.adjustSelection i n)) := by
  rcases lt_trichotomy n 0 with hn | rfl | hn
  · have hpts := adjustSelection_points (s := s) (i := i) hn.ne
    refine ⟨⟨?_, adjustSelection_down_counted le_rfl h.valid hn⟩, ?_, ?_, ?_⟩
    · rw [(adjustSelection_down_ranges hn).1]
      exact removeRows_spaced le_rfl zero_le_one hn h.valid.spaced (.inl rfl)
    · ext x
      simp only [Selected.call, if_neg (show ¬ n ≥ 0 by omega)]
      rw [adjustSelection_down_rows le_rfl h.valid hn, h.rows, mem_moved_down]
    · simp only [Selected.call, if_neg hn.ne, hpts.1, h.pivot]
    · simp only [Selected.call, if_neg hn.ne, hpts.2, h.current]
  · rw [adjustSelection_zero]
    refine ⟨h.valid, ?_, by simp [Selected.call, h.pivot], by simp [Selected.call, h.current]⟩
    ext x
    simp only [Selected.call, ge_iff_le, le_refl, if_true]
    rw [mem_moved_up, h.rows]
    simp only [add_zero, sub_zero, ← or_and_right]
    exact (and_iff_right (by omega)).symm
  · have hpts := adjustSelection_points (s := s) (i := i) hn.ne'
    obtain ⟨hv, hrows⟩ := adjustSelection_up_valid (i := i) le_rfl zero_le_one h.valid hn
    refine ⟨hv, ?_, ?_, ?_⟩
    · ext x
      simp only [Selected.call, if_pos hn.le]
      rw [hrows, h.rows, mem_moved_up]
    · simp only [Selected.call, if_neg hn.ne', hpts.1, h.pivot]
    · simp only [Selected.call, if_neg hn.ne', hpts.2, h.current]

theorem represents_call (h : Represents s A) {op : Op} (ho : op.Ordered) (ht : Toggles s op) :
    Represents (s.call op) (A.call op) := by
  cases op with
  | select i =>
    obtain ⟨hv, hr⟩ := select_valid h.valid i
    refine ⟨hv, hr, ?_, ?_⟩
    · simp only [call, select, Selected.call]
      split_ifs <;> rfl
    · simp only [call, select, Selected.call, ← h.current]
      split_ifs <;> rfl
  | toggleSelect i =>
    refine ⟨toggleSelect_valid le_rfl zero_le_one h.valid ht.2, ?_, ?_, ?_⟩
    · exact (toggleSelect_rows le_rfl zero_le_one h.valid ht.2 ht.1).trans (by rw [h.rows]; rfl)
    · simp only [call, toggleSelect, Selected.call, ← h.pivot]
      split_ifs <;> rfl
    · simp only [call, toggleSelect, Selected.call, ← h.current]
      split_ifs <;> rfl
  | rangedSelect a b aug =>
    obtain ⟨hv, hr⟩ := rangedSelect_valid le_rfl zero_le_one h.valid a b aug
    refine ⟨hv, ?_, ?_, ?_⟩
    · simp only [call, Selected.call, hr, h.rows, h.pivot, h.current]
    · simp only [call, rangedSelect, Selected.call, h.pivot,
        h.current]
      split_ifs <;> rfl
    · simp only [call, rangedSelect, Selected.call, ← h.current]
      split_ifs <;> rfl
  | clearRange a b =>
    obtain ⟨hv, hr⟩ := clearRange_valid le_rfl zero_le_one h.valid ho
    refine ⟨hv, ?_, ?_, ?_⟩
    · simp only [call, Selected.call, hr, h.rows]
    · simp only [call, clearRange, Selected.call, ← h.pivot]
      split <;> rfl
    · simp only [call, clearRange, Selected.call, ← h.current]
      split <;> rfl
  | clearSelection =>
    obtain ⟨hv, hr⟩ := clearSelection_valid (g := 0) (s := s)
    exact ⟨hv, hr, rfl, h.current⟩
  | selectAll view =>
    obtain ⟨hv, hr⟩ := selectAll_valid h.valid view
    cases view with
    | none => exact h
    | some n =>
      simp only [call, Selected.call, selectAll] at hv hr ⊢
      split_ifs at hv hr ⊢
      · exact h
      · exact ⟨hv, hr, h.pivot, h.current⟩
  | adjustSelection i n => exact represents_adjustSelection h i n

/-- The answers after a call agree when the rows do. -/
theorem answer_eq_iff {op : Op} :
    (step s op).2 = (specStep A op).2 ↔ (s.call op).rows = (A.call op).rows := by
  simp only [step, specStep, funext_iff, Set.ext_iff]
  refine forall_congr' fun i => ?_
  rw [Bool.eq_iff_iff, isSelected_iff, @decide_eq_true_iff _ (Classical.propDecidable _)]

/-- A call that does not toggle its row as documented leaves other rows. -/
theorem rows_ne_of_not_toggles (h : Represents s A) {op : Op} (ht : ¬ Toggles s op) :
    (s.call op).rows ≠ (A.call op).rows := by
  cases op with
  | toggleSelect i =>
    intro heq
    have hi := Set.ext_iff.mp heq i
    have hcount := h.valid.count_eq_zero_iff
    by_cases hfuse : Fuses s.ranges i
    · -- the row was selected and still is
      have hasc : Ascending s.ranges := h.valid.spaced.ascending le_rfl
      obtain ⟨hmem, hmem'⟩ := mem_toggleFrom_of_fuses hasc hfuse
      have hne : s.count ≠ 0 := by
        intro hc
        rw [hcount.mp hc] at hmem
        simp at hmem
      have hA : i ∈ A.rows := h.rows ▸ hmem
      have hs : i ∈ (s.call (.toggleSelect i)).rows := by
        simp only [call, toggleSelect, if_neg hne,
          rows]
        exact hmem'
      simp [Selected.call, hs, hA, Set.mem_symmDiff] at hi
    · -- the row was not selected and still is not
      have hb : ¬ (s.ranges = [] ∨ ¬ Beyond s.ranges i) := fun hno => ht ⟨hno, hfuse⟩
      obtain ⟨hne, hbeyond⟩ := not_or.mp hb
      have hbeyond := not_not.mp hbeyond
      have hne' : s.count ≠ 0 := fun hc => hne (hcount.mp hc)
      have hnot : i ∉ s.rows :=
        notMem_cover_of_gt fun r hr => by have := hbeyond r hr; omega
      have hA : i ∉ A.rows := h.rows ▸ hnot
      have hs : i ∉ (s.call (.toggleSelect i)).rows := by
        simp only [call, toggleSelect, if_neg hne',
          rows, toggleFrom_beyond h.valid.spaced.le hbeyond]
        exact hnot
      simp [Selected.call, hs, hA, Set.mem_symmDiff] at hi
  | select i => exact absurd trivial ht
  | rangedSelect a b aug => exact absurd trivial ht
  | clearRange a b => exact absurd trivial ht
  | clearSelection => exact absurd trivial ht
  | selectAll view => exact absurd trivial ht
  | adjustSelection i n => exact absurd trivial ht

end Calls

/-! ## Whole runs -/

/-- In a run from a fresh selection, `isSelected` answers after every call as the
abstract set does exactly when every `toggleSelect` of the run toggles its row as
documented. -/
theorem selected_rows_iff (ops : List Op) (ho : ∀ op ∈ ops, op.Ordered) :
    outputs step JSTreeSelection.fresh ops = outputs specStep Selected.fresh ops ↔
      Along step Toggles JSTreeSelection.fresh ops := by
  refine outputs_eq_iff (m := step) (n := specStep) (R := Represents) (P := Toggles)
    (Q := Op.Ordered) (fun s A op hs hop ht => ?_) (fun s A op hs _ ht => ?_) represents_fresh ho
  · have hs' := represents_call hs hop ht
    exact ⟨answer_eq_iff.mpr hs'.rows, hs'⟩
  · exact fun heq => rows_ne_of_not_toggles hs ht (answer_eq_iff.mp heq)

/-- A run that toggles a row of the selection off again. -/
theorem selected_rows_iff_toggle_off :
    outputs step JSTreeSelection.fresh [.toggleSelect 3, .toggleSelect 4, .toggleSelect 3] =
        outputs specStep Selected.fresh [.toggleSelect 3, .toggleSelect 4, .toggleSelect 3] ↔
      Along step Toggles JSTreeSelection.fresh
        [.toggleSelect 3, .toggleSelect 4, .toggleSelect 3] :=
  selected_rows_iff _ (by simp [Op.Ordered])

/-- `toggleSelect(7)` does nothing when row 3 is the last selected row. -/
theorem toggleSelect_beyond_selection :
    ¬ ∀ ops : List Op, (∀ op ∈ ops, op.Ordered) →
      outputs step JSTreeSelection.fresh ops = outputs specStep Selected.fresh ops := by
  intro h
  have hrun := h [.toggleSelect 3, .toggleSelect 7] (by simp [Op.Ordered])
  have hcode : (fresh.call (.toggleSelect 3)).call (.toggleSelect 7) =
      ⟨[(3, 3)], 1, none, some 7⟩ := by decide
  simp only [outputs_cons, outputs_nil, List.cons.injEq, step, hcode, specStep] at hrun
  have h7 := congrFun hrun.2.1 7
  simp [isSelected, Selected.call, Set.mem_symmDiff, Selected.fresh] at h7

end CommCentral.TreeSelection
