import CommCentral.Lib.Machine
import CommCentral.Lib.Ranges
import Mathlib.Tactic.Linarith
import Mathlib.Data.Int.ConditionallyCompleteOrder

/-!
# `JSTreeSelection`

The selection of a tree view, from `mailnews/base/util/JsTreeSelection.jsm`.
The selected rows are kept as a list of `[low, high]` pairs with a count of the
rows.  The two points `_shiftSelectPivot` and `_currentIndex` decide where a
shift-selection starts.

A row index is an integer.  The loops over `this._ranges.entries()` are
recursions over the pairs with the index `iTupe`, and `splice` is the array
method.  What the code does for the tree box and the view (invalidation, the
select events and their suppression, the log of `adjustSelection` calls) does
not act on the selection and is left out.  `selectAll` is given the row count
of the view, if there is one.
-/

namespace CommCentral.TreeSelection

structure JSTreeSelection where
  /-- `_ranges`, documented as non-overlapping, non-adjacent and ascending. -/
  ranges : List (ℤ × ℤ)
  count : ℤ
  shiftSelectPivot : Option ℤ
  currentIndex : Option ℤ
  deriving DecidableEq, Repr

/-- `new JSTreeSelection(aTree)`. -/
def JSTreeSelection.fresh : JSTreeSelection := ⟨[], 0, none, none⟩

/-! ## Helpers -/

def splice (rs : List (ℤ × ℤ)) (start deleteCount : ℕ) (items : List (ℤ × ℤ)) :
    List (ℤ × ℤ) :=
  rs.take start ++ items ++ rs.drop (start + deleteCount)

/-- The count that `_updateCount` computes. -/
def countRows : List (ℤ × ℤ) → ℤ
  | [] => 0
  | (low, high) :: rs => high - low + 1 + countRows rs

def JSTreeSelection.isSelected (s : JSTreeSelection) (aViewIndex : ℤ) : Bool :=
  s.ranges.any fun r => aViewIndex ≥ r.1 && aViewIndex ≤ r.2

/-- The setter of `currentIndex`. -/
def setCurrentIndex (current : Option ℤ) (aIndex : ℤ) : Option ℤ :=
  if aIndex = current.getD (-1) then current else if aIndex ≠ -1 then some aIndex else none

/-- Where a ranged selection starts: a start of `-1` is a shift-selection. -/
def rangeStart (pivot current : Option ℤ) (aRangeStart aRangeEnd : ℤ) : ℤ :=
  if aRangeStart = -1 then
    match pivot, current with
    | some p, _ => p
    | none, some c => c
    | none, none => aRangeEnd
  else aRangeStart

def adjustPoint (aPoint : Option ℤ) (aDeltaAt aDelta : ℤ) : Option ℤ :=
  match aPoint with
  | none => none
  | some p =>
    if p < aDeltaAt then some p
    else if aDelta < 0 ∧ p ≥ aDeltaAt ∧ p + aDelta < aDeltaAt then none
    else some (p + aDelta)

/-- The loop of `_findRangeContainingRow` from the pair with index `iTupe` on. -/
def findRangeFrom (aIndex : ℤ) : List (ℤ × ℤ) → ℕ → Option ℕ × ℕ
  | [], iTupe => (none, iTupe)
  | (low, high) :: rs, iTupe =>
    if aIndex ≥ low ∧ aIndex ≤ high then (some iTupe, iTupe)
    else if aIndex < low then (none, iTupe)
    else findRangeFrom aIndex rs (iTupe + 1)

/-! ## `select` and `toggleSelect` -/

def JSTreeSelection.select (s : JSTreeSelection) (aViewIndex : ℤ) : JSTreeSelection :=
  let s' := { s with shiftSelectPivot := none,
                     currentIndex := setCurrentIndex s.currentIndex aViewIndex }
  if s.count = 1 ∧ s.ranges.head?.map Prod.fst = some aViewIndex then s'
  else { s' with count := 1, ranges := [(aViewIndex, aViewIndex)] }

/-- What `toggleSelect` does with a row just above the range that starts at
`low`, over the pairs behind it: it fuses into the range, and possibly the next one. -/
def fuseAbove (aIndex low : ℤ) : List (ℤ × ℤ) → List (ℤ × ℤ)
  | [] => [(low, aIndex)]
  | (low', high') :: rest =>
    if low' = aIndex + 1 then (low, high') :: rest else (low, aIndex) :: (low', high') :: rest

/-- The loop of `toggleSelect` over the pairs from `iTupe` on: these pairs
afterwards, and what is added to the count. -/
def toggleFrom (aIndex : ℤ) : List (ℤ × ℤ) → List (ℤ × ℤ) × ℤ
  | [] => ([], 0)
  | (low, high) :: rs =>
    if aIndex < low then
      if aIndex = low - 1 then ((aIndex, high) :: rs, 1)
      else ((aIndex, aIndex) :: (low, high) :: rs, 1)
    else if aIndex ≥ low ∧ aIndex ≤ high then
      if aIndex = low ∧ aIndex = high then (rs, -1)
      else if aIndex = low then ((aIndex + 1, high) :: rs, -1)
      else if aIndex = high then ((low, aIndex - 1) :: rs, -1)
      else ((low, aIndex - 1) :: (aIndex + 1, high) :: rs, -1)
    else if aIndex = high + 1 then (fuseAbove aIndex low rs, 1)
    else
      let r := toggleFrom aIndex rs
      ((low, high) :: r.1, r.2)

def JSTreeSelection.toggleSelect (s : JSTreeSelection) (aIndex : ℤ) : JSTreeSelection :=
  let s' := { s with currentIndex := setCurrentIndex s.currentIndex aIndex }
  if s.count = 0 then { s' with count := 1, ranges := [(aIndex, aIndex)] }
  else
    let r := toggleFrom aIndex s.ranges
    { s' with ranges := r.1, count := s.count + r.2 }

/-! ## `rangedSelect` and `clearRange` -/

/-- The pairs that a range overlaps or obviates. -/
structure Marks where
  /-- The pair of which the low part is kept. -/
  lowOverlap : Option ℕ := none
  lowNuke : Option ℕ := none
  highNuke : Option ℕ := none
  /-- The pair of which the high part is kept. -/
  highOverlap : Option ℕ := none
  deriving DecidableEq, Repr

/-- The loop of `rangedSelect`, which also finds the insertion point. -/
def rangedMarks (aRangeStart aRangeEnd : ℤ) :
    List (ℤ × ℤ) → ℕ → Marks → Marks × ℕ
  | [], iTupe, m => (m, iTupe)
  | (low, high) :: rs, iTupe, m =>
    let m1 : Marks :=
      if aRangeStart ≤ low ∧ aRangeEnd ≥ high then
        { m with lowNuke := m.lowNuke.or (some iTupe), highNuke := some iTupe }
      else m
    let m2 : Marks :=
      if aRangeStart ≥ low - 1 ∧ aRangeStart ≤ high + 1 ∧ m1.lowOverlap = none then
        { m1 with lowOverlap := some iTupe, lowNuke := some iTupe, highNuke := some iTupe }
      else m1
    let m3 : Marks :=
      if aRangeEnd ≥ low - 1 ∧ aRangeEnd ≤ high + 1 then
        { m2 with highOverlap := some iTupe, highNuke := some iTupe,
                  lowNuke := m2.lowNuke.or (some iTupe) }
      else m2
    if aRangeEnd < low then (m3, iTupe)
    else rangedMarks aRangeStart aRangeEnd rs (iTupe + 1) m3

/-- The pairs after `rangedSelect` with `aAugment`, for a start that is not
above the end. -/
def augment (rs : List (ℤ × ℤ)) (aRangeStart aRangeEnd : ℤ) : List (ℤ × ℤ) :=
  let r := rangedMarks aRangeStart aRangeEnd rs 0 {}
  let m := r.1
  let start := (m.lowOverlap.bind (rs[·]?)).elim aRangeStart fun p => min aRangeStart p.1
  let stop := (m.highOverlap.bind (rs[·]?)).elim aRangeEnd fun p => max aRangeEnd p.2
  match m.lowNuke with
  | some lowNuke => splice rs lowNuke (m.highNuke.getD 0 + 1 - lowNuke) [(start, stop)]
  | none => splice rs r.2 0 [(start, stop)]

def JSTreeSelection.rangedSelect (s : JSTreeSelection) (aRangeStart aRangeEnd : ℤ)
    (aAugment : Bool) : JSTreeSelection :=
  let start := rangeStart s.shiftSelectPivot s.currentIndex aRangeStart aRangeEnd
  let s' := { s with shiftSelectPivot := some start,
                     currentIndex := setCurrentIndex s.currentIndex aRangeEnd }
  -- the ordering constraint of the ranges
  let low := if start > aRangeEnd then aRangeEnd else start
  let high := if start > aRangeEnd then start else aRangeEnd
  if aAugment then
    let rs := augment s.ranges low high
    { s' with ranges := rs, count := countRows rs }
  else { s' with ranges := [(low, high)], count := high - low + 1 }

/-- The loop of `clearRange`. -/
def clearMarks (aRangeStart aRangeEnd : ℤ) : List (ℤ × ℤ) → ℕ → Marks → Marks
  | [], _, m => m
  | (low, high) :: rs, iTupe, m =>
    let m1 : Marks :=
      if aRangeStart ≤ low ∧ aRangeEnd ≥ high then
        { m with lowNuke := m.lowNuke.or (some iTupe), highNuke := some iTupe }
      else m
    let m2 : Marks :=
      if aRangeStart ≥ low ∧ aRangeStart ≤ high ∧ m1.lowNuke = none then
        { m1 with lowNuke := some iTupe, highNuke := some iTupe,
                  lowOverlap := if aRangeStart > low then some iTupe else m1.lowOverlap }
      else m1
    let m3 : Marks :=
      if aRangeEnd ≥ low ∧ aRangeEnd ≤ high then
        { m2 with highNuke := some iTupe,
                  highOverlap := if aRangeEnd < high then some iTupe else m2.highOverlap,
                  lowNuke := m2.lowNuke.or (some iTupe) }
      else m2
    if aRangeEnd < low then m3 else clearMarks aRangeStart aRangeEnd rs (iTupe + 1) m3

def JSTreeSelection.clearRange (s : JSTreeSelection) (aRangeStart aRangeEnd : ℤ) :
    JSTreeSelection :=
  let m := clearMarks aRangeStart aRangeEnd s.ranges 0 {}
  match m.lowNuke with
  | none => s
  | some lowNuke =>
    let lowPart := (m.lowOverlap.bind (s.ranges[·]?)).elim [] fun p => [(p.1, aRangeStart - 1)]
    let highPart := (m.highOverlap.bind (s.ranges[·]?)).elim [] fun p => [(aRangeEnd + 1, p.2)]
    let rs := splice s.ranges lowNuke (m.highNuke.getD 0 + 1 - lowNuke) (lowPart ++ highPart)
    { s with ranges := rs, count := countRows rs }

/-! ## `clearSelection` and `selectAll` -/

def JSTreeSelection.clearSelection (s : JSTreeSelection) : JSTreeSelection :=
  { s with shiftSelectPivot := none, count := 0, ranges := [] }

/-- `selectAll`, with the row count of the view, if there is a view. -/
def JSTreeSelection.selectAll (s : JSTreeSelection) (view : Option ℕ) : JSTreeSelection :=
  match view with
  | none => s
  | some rowCount =>
    if rowCount = 0 then s
    else { s with count := rowCount, ranges := [(0, (rowCount : ℤ) - 1)] }

/-! ## `adjustSelection` -/

/-- The ranges after rows were inserted: the range at the index is split, and
what is above moves up. -/
def insertRows (rs : List (ℤ × ℤ)) (aIndex aCount : ℤ) : List (ℤ × ℤ) :=
  let up : ℤ × ℤ → ℤ × ℤ := fun r => (r.1 + aCount, r.2 + aCount)
  let (iContain, iInsert) := findRangeFrom aIndex rs 0
  match iContain.bind fun i => rs[i]?.map (i, ·) with
  | some (i, low, high) =>
    if aIndex ≠ low then
      let rs' := splice rs i 1 [(low, aIndex - 1), (aIndex, high)]
      rs'.take (iInsert + 1) ++ (rs'.drop (iInsert + 1)).map up
    else rs.take iInsert ++ (rs.drop iInsert).map up
  | none => rs.take iInsert ++ (rs.drop iInsert).map up

/-- The translation loop after a removal, over the ranges from `iTrans` on: the
translated ranges and the index at which the loop ends. -/
def translateFrom (aIndex aCount : ℤ) : List (ℤ × ℤ) → ℕ → List (ℤ × ℤ) × ℕ
  | [], iTrans => ([], iTrans)
  | (low, high) :: rs, iTrans =>
    let r := translateFrom aIndex aCount rs (iTrans + 1)
    ((if low ≥ aIndex then low + aCount else low, high + aCount) :: r.1, r.2)

/-- The merge of the ranges `iTrans - 1` and `iTrans`. -/
def mergeAt (rs : List (ℤ × ℤ)) (iTrans : ℕ) : List (ℤ × ℤ) :=
  match rs[iTrans - 1]?, rs[iTrans]? with
  | some below, some translated =>
    if iTrans > 0 ∧ below.2 = translated.1 then
      splice rs (iTrans - 1) 2 [(below.1, translated.2)]
    else rs
  | _, _ => rs

def JSTreeSelection.adjustSelection (s : JSTreeSelection) (aIndex aCount : ℤ) :
    JSTreeSelection :=
  if aCount = 0 then s
  else
    let s' := { s with shiftSelectPivot := adjustPoint s.shiftSelectPivot aIndex aCount,
                       currentIndex := adjustPoint s.currentIndex aIndex aCount }
    if aCount > 0 then { s' with ranges := insertRows s.ranges aIndex aCount }
    else
      let cleared := s'.clearRange aIndex (aIndex - aCount - 1)
      let iTrans := (findRangeFrom aIndex cleared.ranges 0).2
      let r := translateFrom aIndex aCount (cleared.ranges.drop iTrans) iTrans
      { cleared with ranges := mergeAt (cleared.ranges.take iTrans ++ r.1) r.2 }

/-! ## Runs -/

inductive Op where
  | select (aViewIndex : ℤ)
  | toggleSelect (aIndex : ℤ)
  | rangedSelect (aRangeStart aRangeEnd : ℤ) (aAugment : Bool)
  | clearRange (aRangeStart aRangeEnd : ℤ)
  | clearSelection
  /-- `selectAll()`, when the view has so many rows. -/
  | selectAll (view : Option ℕ)
  | adjustSelection (aIndex aCount : ℤ)
  deriving DecidableEq

def JSTreeSelection.call (s : JSTreeSelection) : Op → JSTreeSelection
  | .select i => s.select i
  | .toggleSelect i => s.toggleSelect i
  | .rangedSelect a b aug => s.rangedSelect a b aug
  | .clearRange a b => s.clearRange a b
  | .clearSelection => s.clearSelection
  | .selectAll view => s.selectAll view
  | .adjustSelection i n => s.adjustSelection i n

/-- A call, answered with `isSelected` of every row after it. -/
def step : Machine.Step JSTreeSelection Op (ℤ → Bool)
  | s, op => (s.call op, (s.call op).isSelected)

end CommCentral.TreeSelection
