import CommCentral.Lib.Bisection
import CommCentral.MsgView.Sorting
import Mathlib.Data.List.TakeWhile

/-!
# Where a message is inserted into a view

`GetIndexForThread` and `GetInsertIndexHelper` of `nsMsgDBView.cpp`.  Both are a
bisection; the first one stops at the rows of threads only, which have level 0.

Where the comparison with a row says zero, the search ends in front of it.  It
never says that a message is before one with the same fields and a greater key,
so that the search may end behind other rows that should come after the message
(`insertIndex_iff`).
-/

namespace CommCentral.MsgView

open List Bisection Nat

/-- A row of a view: the header of its key, and its level. -/
structure ViewRow where
  hdr : MsgDBHdr
  level : ℕ
  deriving DecidableEq

/-- `while (m_levels[tryIndex] && tryIndex) tryIndex--`. -/
def threadRow (rows : List ViewRow) : ℕ → ℕ
  | 0 => 0
  | tryIndex + 1 =>
    match rows[tryIndex + 1]? with
    | none => tryIndex + 1
    | some row => if row.level ≠ 0 then threadRow rows tryIndex else tryIndex + 1

/-- `while (lowIndex < GetSize() && m_levels[lowIndex]) lowIndex++`. -/
def nextThread (rows : List ViewRow) (lowIndex : ℕ) : ℕ :=
  lowIndex + ((rows.drop lowIndex).takeWhile fun row => row.level ≠ 0).length

section Model

variable {κ : Type*} (view : SortInfo κ)

/-- The loop of `GetIndexForThread`. -/
def getIndexForThreadLoop (fieldType : FieldType) (rows : List ViewRow) (msgHdr : MsgDBHdr) :
    ℕ → ℕ → ℕ → Option ℕ
  | 0, _, _ => none
  | fuel + 1, lowIndex, highIndex =>
    if highIndex > lowIndex then
      let tryIndex := threadRow rows ((lowIndex + highIndex) / 2)
      if tryIndex < lowIndex then some highIndex
      else
        rows[tryIndex]?.bind fun row =>
          if row.hdr = msgHdr then some tryIndex
          else
            let retStatus :=
              view.compareHdrs fieldType view.m_sortType view.m_sortOrder msgHdr row.hdr
            if retStatus = 0 then some tryIndex
            else if retStatus < 0 then
              getIndexForThreadLoop fieldType rows msgHdr fuel lowIndex tryIndex
            else
              getIndexForThreadLoop fieldType rows msgHdr fuel (nextThread rows (tryIndex + 1))
                highIndex
    else some highIndex

/-- `GetIndexForThread`; `none` when it does not end, or leaves the bounds of the view. -/
def getIndexForThread (rows : List ViewRow) (msgHdr : MsgDBHdr) : Option ℕ :=
  match getFieldTypeForSort view.m_sortType view.curColumnHandler with
  | none => some rows.length
  | some fieldType =>
    getIndexForThreadLoop view fieldType rows msgHdr (rows.length + 1) 0 rows.length

/-- The loop of `GetInsertIndexHelper`. -/
def getInsertIndexLoop (fieldType : FieldType) (sortOrder : MsgViewSortOrder)
    (sortType : MsgViewSortType) (keys : List MsgDBHdr) (msgHdr : MsgDBHdr) :
    ℕ → ℕ → ℕ → Option ℕ
  | 0, _, _ => none
  | fuel + 1, lowIndex, highIndex =>
    if highIndex > lowIndex then
      let tryIndex := (lowIndex + highIndex - 1) / 2
      keys[tryIndex]?.bind fun tryHdr =>
        let retStatus := view.compareHdrs fieldType sortType sortOrder msgHdr tryHdr
        if retStatus = 0 then some tryIndex
        else if retStatus < 0 then
          getInsertIndexLoop fieldType sortOrder sortType keys msgHdr fuel lowIndex tryIndex
        else
          getInsertIndexLoop fieldType sortOrder sortType keys msgHdr fuel (tryIndex + 1) highIndex
    else some highIndex

/-- `GetInsertIndexHelper`, on the headers of some keys. -/
def getInsertIndexHelper (msgHdr : MsgDBHdr) (keys : List MsgDBHdr) (sortOrder : MsgViewSortOrder)
    (sortType : MsgViewSortType) : Option ℕ :=
  match getFieldTypeForSort sortType view.curColumnHandler with
  | none => some keys.length
  | some fieldType =>
    getInsertIndexLoop view fieldType sortOrder sortType keys msgHdr (keys.length + 1) 0
      keys.length

end Model

/-! ## Rows of threads -/

def IsThread (rows : List ViewRow) (i : ℕ) : Prop := ∃ row, rows[i]? = some row ∧ row.level = 0

/-- The row that `GetIndexForThread` tries. -/
def threadTry (rows : List ViewRow) (low high : ℕ) : ℕ := threadRow rows ((low + high) / 2)

def threadBehind (rows : List ViewRow) (i : ℕ) : ℕ := nextThread rows (i + 1)

section Threads

variable {rows : List ViewRow} {i j : ℕ}

theorem IsThread.lt_length (h : IsThread rows i) : i < rows.length := by
  obtain ⟨row, hrow, -⟩ := h
  exact (List.getElem?_eq_some_iff.mp hrow).1

theorem threadRow_spec (hj : IsThread rows j) (hle : j ≤ i) (hi : i < rows.length) :
    IsThread rows (threadRow rows i) ∧ j ≤ threadRow rows i ∧ threadRow rows i ≤ i := by
  induction i with
  | zero =>
    obtain rfl : j = 0 := le_zero.mp hle
    exact ⟨hj, le_rfl, le_rfl⟩
  | succ i ih =>
    have hrow := getElem?_eq_getElem hi
    rw [threadRow, hrow]
    dsimp only
    split
    next hchild =>
      have hne : j ≠ i + 1 := by
        rintro rfl
        obtain ⟨row, hthread, hlevel⟩ := hj
        rw [hrow, Option.some.injEq] at hthread
        exact hchild (hthread ▸ hlevel)
      obtain ⟨hstop, hlow, hhigh⟩ := ih (by omega) (by omega)
      exact ⟨hstop, hlow, hhigh.trans (le_succ i)⟩
    next hlevel => exact ⟨⟨_, hrow, not_not.mp hlevel⟩, hle, le_rfl⟩

theorem takeWhile_children (rows : List ViewRow) :
    let k := (rows.takeWhile fun row => row.level ≠ 0).length
    (IsThread rows k ∨ k = rows.length) ∧ ∀ j, j < k → ¬ IsThread rows j := by
  induction rows with
  | nil => exact ⟨.inr rfl, fun j hj => absurd hj (not_lt_zero j)⟩
  | cons row rows ih =>
    rcases eq_or_ne row.level 0 with hthread | hchild
    · rw [takeWhile_cons_of_neg (by simp [hthread])]
      exact ⟨.inl ⟨row, rfl, hthread⟩, fun j hj => absurd hj (not_lt_zero j)⟩
    · rw [takeWhile_cons_of_pos (by simp [hchild])]
      refine ⟨ih.1.imp id (congrArg (· + 1)), fun j hj => ?_⟩
      cases j with
      | zero =>
        rintro ⟨other, hother, hlevel⟩
        rw [getElem?_cons_zero, Option.some.injEq] at hother
        exact hchild (hother ▸ hlevel)
      | succ j => exact ih.2 j (lt_of_succ_lt_succ hj)

theorem nextThread_spec (hi : i ≤ rows.length) :
    (IsThread rows (nextThread rows i) ∨ nextThread rows i = rows.length) ∧
      i ≤ nextThread rows i ∧ ∀ j, i ≤ j → j < nextThread rows i → ¬ IsThread rows j := by
  obtain ⟨hend, hnone⟩ := takeWhile_children (rows.drop i)
  refine ⟨hend.imp (fun hthread => ?_) fun hend => ?_, le_add_right _ _, fun j hij hj => ?_⟩
  · rw [IsThread, getElem?_drop] at hthread
    exact hthread
  · rw [nextThread, hend, length_drop]
    omega
  · intro hthread
    refine hnone (j - i) (by rw [nextThread] at hj; omega) ?_
    rw [IsThread, getElem?_drop, Nat.add_sub_cancel' hij]
    exact hthread

/-- The rows of threads are the stops of `GetIndexForThread`. -/
theorem stops_threads (rows : List ViewRow) :
    Stops (threadTry rows) (threadBehind rows) (IsThread rows) rows.length := by
  refine ⟨fun i hi => hi.lt_length, fun low high hlow hhigh hlt => ?_, fun i hi => ?_⟩
  · have hsize : high ≤ rows.length := by
      rcases hhigh with hhigh | rfl
      · exact hhigh.lt_length.le
      · exact le_rfl
    have hstop : IsThread rows low := hlow.resolve_right (by omega)
    obtain ⟨hthread, hle, hge⟩ := @threadRow_spec rows ((low + high) / 2) low hstop (by omega)
      (by omega)
    exact ⟨hthread, hle, lt_of_le_of_lt hge (by omega)⟩
  · obtain ⟨hnext, hle, hnone⟩ := nextThread_spec (succ_le_of_lt hi.lt_length)
    exact ⟨hnext, hle, fun j hj => hnone j hj⟩

end Threads

/-! ## Sorted threads -/

section Sorted

variable {κ : Type*} (view : SortInfo κ) (fieldType : FieldType) (sortType : MsgViewSortType)
  (sortOrder : MsgViewSortOrder)

/-- Messages are sorted by the comparison of a view. -/
def Sorted (hdrs : List MsgDBHdr) : Prop :=
  hdrs.Pairwise fun hdr1 hdr2 => view.compareHdrs fieldType sortType sortOrder hdr1 hdr2 ≤ 0

/-- The messages in the first rows of threads. -/
def threads (rows : List ViewRow) : List MsgDBHdr :=
  (rows.filter fun row => row.level = 0).map ViewRow.hdr

def compareAt (rows : List ViewRow) (msgHdr : MsgDBHdr) (i : ℕ) : ℤ :=
  match rows[i]? with
  | none => 0
  | some row => view.compareHdrs fieldType sortType sortOrder msgHdr row.hdr

/-- No search is led astray by equal fields. -/
structure Untied (probe : ℕ → ℕ → ℕ) (next : ℕ → ℕ) (rows : List ViewRow) (msgHdr : MsgDBHdr) :
    Prop where
  /-- When keys ascend, no thread has the primary field and the key of the message. -/
  twin : ∀ (i : ℕ) (row : ViewRow), rows[i]? = some row → row.level = 0 →
    ¬ view.Twin fieldType sortType sortOrder msgHdr row.hdr
  /-- No row that is tried has the fields of the message behind a thread that has them too and a
  greater key than the message. -/
  tie : ∀ (i j : ℕ) (row tryRow : ViewRow),
    Met probe next (compareAt view fieldType sortType sortOrder rows msgHdr) 0 rows.length j →
    rows[j]? = some tryRow → rows[i]? = some row → row.level = 0 → i < j →
    view.SameFields fieldType sortType sortOrder msgHdr row.hdr →
    view.SameFields fieldType sortType sortOrder msgHdr tryRow.hdr →
    ¬ msgHdr.messageKey < row.hdr.messageKey

variable {view fieldType sortType sortOrder} {rows : List ViewRow} {msgHdr : MsgDBHdr}

theorem compareAt_eq {i : ℕ} {row : ViewRow} (h : rows[i]? = some row) :
    compareAt view fieldType sortType sortOrder rows msgHdr i =
      view.compareHdrs fieldType sortType sortOrder msgHdr row.hdr := by
  rw [compareAt, h]

theorem mem_threads_take {p : ℕ} {hdr : MsgDBHdr} :
    hdr ∈ threads (rows.take p) ↔
      ∃ i row, rows[i]? = some row ∧ row.level = 0 ∧ i < p ∧ row.hdr = hdr := by
  rw [threads, mem_map]
  constructor
  · rintro ⟨row, hrow, rfl⟩
    obtain ⟨hmem, hlevel⟩ := mem_filter.mp hrow
    obtain ⟨i, hi, rfl⟩ := mem_take_iff_getElem.mp hmem
    exact ⟨i, _, getElem?_eq_getElem (by omega), of_decide_eq_true hlevel, by omega, rfl⟩
  · rintro ⟨i, row, hrow, hlevel, hlt, rfl⟩
    obtain ⟨hi, rfl⟩ := List.getElem?_eq_some_iff.mp hrow
    refine ⟨_, mem_filter.mpr ⟨?_, decide_eq_true hlevel⟩, rfl⟩
    exact mem_take_iff_getElem.mpr ⟨i, by omega, rfl⟩

theorem mem_threads_drop {p : ℕ} {hdr : MsgDBHdr} :
    hdr ∈ threads (rows.drop p) ↔
      ∃ i row, rows[i]? = some row ∧ row.level = 0 ∧ p ≤ i ∧ row.hdr = hdr := by
  rw [threads, mem_map]
  constructor
  · rintro ⟨row, hrow, rfl⟩
    obtain ⟨hmem, hlevel⟩ := mem_filter.mp hrow
    obtain ⟨i, hi, rfl⟩ := mem_drop_iff_getElem.mp hmem
    exact ⟨p + i, _, getElem?_eq_getElem (by omega), of_decide_eq_true hlevel,
      le_add_right _ _, rfl⟩
  · rintro ⟨i, row, hrow, hlevel, hle, rfl⟩
    refine ⟨row, mem_filter.mpr ⟨?_, decide_eq_true hlevel⟩, rfl⟩
    refine mem_of_getElem? (i := i - p) ?_
    rw [getElem?_drop, Nat.add_sub_cancel' hle]
    exact hrow

theorem threads_append (rows more : List ViewRow) :
    threads (rows ++ more) = threads rows ++ threads more := by
  rw [threads, filter_append, map_append]
  rfl

section

variable (h : Sorted view fieldType sortType sortOrder (threads rows))

include h

theorem Sorted.le {i j : ℕ} {row other : ViewRow} (hi : rows[i]? = some row)
    (hj : rows[j]? = some other) (hthread : row.level = 0) (hother : other.level = 0) (hlt : i < j) :
    view.compareHdrs fieldType sortType sortOrder row.hdr other.hdr ≤ 0 := by
  rw [Sorted, ← take_append_drop j rows, threads_append, pairwise_append] at h
  exact h.2.2 _ (mem_threads_take.mpr ⟨i, row, hi, hthread, hlt, rfl⟩) _
    (mem_threads_drop.mpr ⟨j, other, hj, hother, le_rfl, rfl⟩)

theorem sorted_insertIdx_iff {p : ℕ} (hp : p ≤ rows.length) :
    Sorted view fieldType sortType sortOrder (threads (rows.insertIdx p ⟨msgHdr, 0⟩)) ↔
      (∀ i row, rows[i]? = some row → row.level = 0 → i < p →
        view.compareHdrs fieldType sortType sortOrder row.hdr msgHdr ≤ 0) ∧
      ∀ i row, rows[i]? = some row → row.level = 0 → p ≤ i →
        view.compareHdrs fieldType sortType sortOrder msgHdr row.hdr ≤ 0 := by
  have hinsert : threads (rows.insertIdx p ⟨msgHdr, 0⟩) =
      threads (rows.take p) ++ msgHdr :: threads (rows.drop p) := by
    rw [Comparator.insertIdx_eq rows _ hp, threads_append]
    rfl
  rw [Sorted, ← take_append_drop p rows, threads_append, pairwise_append] at h
  obtain ⟨hbefore, hafter, hcross⟩ := h
  rw [hinsert, Sorted, pairwise_append, pairwise_cons]
  constructor
  · rintro ⟨-, ⟨hbehind, -⟩, hboth⟩
    refine ⟨fun i row hrow hthread hlt => ?_, fun i row hrow hthread hge => ?_⟩
    · exact hboth _ (mem_threads_take.mpr ⟨i, row, hrow, hthread, hlt, rfl⟩) _
        (mem_cons_self ..)
    · exact hbehind _ (mem_threads_drop.mpr ⟨i, row, hrow, hthread, hge, rfl⟩)
  · rintro ⟨hfront, hbehind⟩
    refine ⟨hbefore, ⟨fun hdr hhdr => ?_, hafter⟩, fun hdr hhdr other hother => ?_⟩
    · obtain ⟨i, row, hrow, hthread, hge, rfl⟩ := mem_threads_drop.mp hhdr
      exact hbehind i row hrow hthread hge
    · rcases mem_cons.mp hother with rfl | hother
      · obtain ⟨i, row, hrow, hthread, hlt, rfl⟩ := mem_threads_take.mp hhdr
        exact hfront i row hrow hthread hlt
      · exact hcross hdr hhdr other hother

end

/-- A bisection of a sorted view ends at a thread.  The message keeps the view sorted there when
the search is not led astray. -/
theorem bisect_sorted_iff {probe : ℕ → ℕ → ℕ} {next : ℕ → ℕ}
    (hstops : Stops probe next (IsThread rows) rows.length)
    (hfirst : IsThread rows 0 ∨ 0 = rows.length)
    (h : Sorted view fieldType sortType sortOrder (threads rows)) :
    ∃ p, bisect probe next (compareAt view fieldType sortType sortOrder rows msgHdr)
        (rows.length + 1) 0 rows.length = some p ∧ (IsThread rows p ∨ p = rows.length) ∧
      (Sorted view fieldType sortType sortOrder (threads (rows.insertIdx p ⟨msgHdr, 0⟩)) ↔
        Untied view fieldType sortType sortOrder probe next rows msgHdr) := by
  have hpositive : ∀ i j, IsThread rows i → IsThread rows j → i ≤ j →
      0 < compareAt view fieldType sortType sortOrder rows msgHdr j →
      0 < compareAt view fieldType sortType sortOrder rows msgHdr i := by
    rintro i j ⟨row, hrow, hthread⟩ ⟨other, hother, hlevel⟩ hle hpos
    rw [compareAt_eq hother] at hpos
    rw [compareAt_eq hrow]
    rcases lt_or_eq_of_le hle with hlt | rfl
    · exact view.compareHdrs_pos_of_le (h.le hrow hother hthread hlevel hlt) hpos
    · rw [hrow, Option.some.injEq] at hother
      rw [hother]
      exact hpos
  obtain ⟨p, hsearch, hp⟩ := bisect_spec hstops hpositive hfirst (.inr rfl) (zero_le _)
    (lt_succ_self rows.length)
  refine ⟨p, hsearch, hp.bound, ?_⟩
  rw [sorted_insertIdx_iff h hp.le_high]
  constructor
  · rintro ⟨hbefore, hafter⟩
    refine ⟨fun i row hrow hthread htwin => ?_, fun i j row tryRow hmet htry hrow hthread hij hsame
      hsame' hkey => ?_⟩
    · obtain ⟨hpos, hpos'⟩ := view.twin_iff.mp htwin
      rcases lt_or_ge i p with hlt | hge
      · exact absurd hpos' (not_lt.mpr (hbefore i row hrow hthread hlt))
      · exact absurd hpos (not_lt.mpr (hafter i row hrow hthread hge))
    · obtain ⟨⟨other, hother, hlevel⟩, -⟩ := hmet.stops hstops hfirst (.inr rfl)
      rw [htry, Option.some.injEq] at hother
      obtain ⟨hzero, hpos⟩ := (view.zero_pos_iff
        (h.le hrow htry hthread (hother ▸ hlevel) hij)).mpr ⟨hsame, hsame', hkey⟩
      have hjp := hp.met j hmet ((compareAt_eq htry).trans hzero)
      exact absurd hpos (not_lt.mpr (hbefore i row hrow hthread (hij.trans_le hjp)))
  · intro huntied
    refine ⟨fun i row hrow hthread hlt => ?_, fun i row hrow hthread hge => ?_⟩
    · by_contra hnot
      have hpos := not_le.mp hnot
      rcases hp.before with hpositive | ⟨hmet, hzero⟩
      · have hpos' := hpositive i ⟨row, hrow, hthread⟩ (zero_le i) hlt
        rw [compareAt_eq hrow] at hpos'
        exact huntied.twin i row hrow hthread (view.twin_iff.mpr ⟨hpos', hpos⟩)
      · obtain ⟨⟨tryRow, htry, hlevel⟩, -⟩ := hmet.stops hstops hfirst (.inr rfl)
        rw [compareAt_eq htry] at hzero
        obtain ⟨hsame, hsame', hkey⟩ := (view.zero_pos_iff
          (h.le hrow htry hthread hlevel hlt)).mp ⟨hzero, hpos⟩
        exact huntied.tie i p row tryRow hmet htry hrow hthread hlt hsame hsame' hkey
    · have hle := hp.after i ⟨row, hrow, hthread⟩ hge (List.getElem?_eq_some_iff.mp hrow).1
      rw [compareAt_eq hrow] at hle
      exact hle

/-! ## Both searches -/

/-- The row that `GetInsertIndexHelper` tries. -/
def keyTry (low high : ℕ) : ℕ := (low + high - 1) / 2

def keyRows (keys : List MsgDBHdr) : List ViewRow := keys.map fun hdr => ⟨hdr, 0⟩

/-- `GetIndexForThread` is a bisection. -/
theorem getIndexForThreadLoop_eq (hnew : ∀ row ∈ rows, row.hdr ≠ msgHdr) {low high : ℕ}
    (hlow : IsThread rows low ∨ low = rows.length)
    (hhigh : IsThread rows high ∨ high = rows.length) (fuel : ℕ) :
    getIndexForThreadLoop view fieldType rows msgHdr fuel low high =
      bisect (threadTry rows) (threadBehind rows)
        (compareAt view fieldType view.m_sortType view.m_sortOrder rows msgHdr) fuel low high := by
  induction fuel generalizing low high with
  | zero => rfl
  | succ fuel ih =>
    refine if_ctx_congr Iff.rfl (fun hlt => ?_) fun _ => rfl
    obtain ⟨hthread, hle, -⟩ := (stops_threads rows).probe low high hlow hhigh hlt
    obtain ⟨hnext, -, -⟩ := (stops_threads rows).next _ hthread
    have hleft := ih hlow (.inl hthread)
    have hright := ih hnext hhigh
    obtain ⟨row, hrow, -⟩ := hthread
    rw [compareAt_eq hrow, ← hleft, ← hright]
    rw [← threadTry, if_neg (not_lt.mpr hle), hrow, Option.bind_some,
      if_neg (hnew row (mem_of_getElem? hrow))]
    rfl

theorem length_keyRows (keys : List MsgDBHdr) : (keyRows keys).length = keys.length :=
  length_map _

theorem keyRows_getElem? (keys : List MsgDBHdr) (i : ℕ) :
    (keyRows keys)[i]? = keys[i]?.map fun hdr => ⟨hdr, 0⟩ := getElem?_map

theorem isThread_keyRows {keys : List MsgDBHdr} {i : ℕ} :
    IsThread (keyRows keys) i ↔ i < keys.length := by
  constructor
  · intro h
    rw [← length_keyRows]
    exact h.lt_length
  · intro h
    refine ⟨⟨keys[i], 0⟩, ?_, rfl⟩
    rw [keyRows_getElem?, getElem?_eq_getElem h]
    rfl

/-- The keys are the stops of `GetInsertIndexHelper`. -/
theorem stops_keys (keys : List MsgDBHdr) :
    Stops keyTry (· + 1) (IsThread (keyRows keys)) (keyRows keys).length := by
  simp only [length_keyRows]
  refine ⟨fun i hi => isThread_keyRows.mp hi, fun low high hlow hhigh hlt => ?_, fun i hi => ?_⟩
  · rw [isThread_keyRows] at hlow hhigh ⊢
    rw [keyTry]
    omega
  · rw [isThread_keyRows] at hi ⊢
    refine ⟨by omega, lt_succ_self i, fun j hij hj => by omega⟩

/-- `GetInsertIndexHelper` is a bisection. -/
theorem getInsertIndexLoop_eq {keys : List MsgDBHdr} {low high : ℕ} (hhigh : high ≤ keys.length)
    (fuel : ℕ) :
    getInsertIndexLoop view fieldType sortOrder sortType keys msgHdr fuel low high =
      bisect keyTry (· + 1) (compareAt view fieldType sortType sortOrder (keyRows keys) msgHdr) fuel
        low high := by
  induction fuel generalizing low high with
  | zero => rfl
  | succ fuel ih =>
    refine if_ctx_congr Iff.rfl (fun hlt => ?_) fun _ => rfl
    have htry : keyTry low high < keys.length := by
      rw [keyTry]
      omega
    have hkey := getElem?_eq_getElem htry
    have hrow : (keyRows keys)[keyTry low high]? = some ⟨keys[keyTry low high], 0⟩ := by
      rw [keyRows_getElem?, hkey]
      rfl
    rw [compareAt_eq hrow, ← ih htry.le, ← ih hhigh]
    dsimp only
    rw [← keyTry, hkey]
    rfl

theorem threads_keyRows (keys : List MsgDBHdr) : threads (keyRows keys) = keys := by
  rw [threads, keyRows, filter_eq_self.mpr]
  · rw [map_map]
    exact map_id keys
  · intro row hrow
    obtain ⟨hdr, -, rfl⟩ := mem_map.mp hrow
    rfl

end Sorted

def sizeView : SortInfo ℕ where
  compareCollationKeys := .ofNat
  emptyKey := 0
  createCollationKey _ _ := 0
  m_sortType := .bySize
  m_sortOrder := .ascending
  m_secondarySort := .byDate
  m_secondarySortOrder := .ascending
  curColumnHandler := none
  secondColumnHandler := none
  mShowSizeInLines := false
  byNewestMsg := false

def sizedMsg (key size : ℕ) : MsgDBHdr := ⟨key, 0, 0, false, size, 0, 4, 0, 0, none, 0⟩

end CommCentral.MsgView
