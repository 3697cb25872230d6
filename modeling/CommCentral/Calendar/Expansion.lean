import CommCentral.Calendar.Recurrence
import Mathlib.Data.List.Nodup
import Mathlib.Data.List.Perm.Basic

/-!
# The expansion of a series

`calculateDates` tests the exceptions, the base item, the positive dates and the
negative dates against the window by different code.  Here the list that it
returns is compared with the series.

* A *candidate* is the start of the base item, a positive date or the id of an
  exception.  The series is the candidates that no negative date removes.
* The result should be the ids of the series whose occurrence is in the window.

Two things go wrong.  The positive dates that begin exactly at the start of the
window are skipped when the events have no length.  And a negative date takes
effect only when the window, moved back by the duration, contains it, and a date
without a time is not compared with the window as the day that it stands for.
The result is right exactly when neither happens (`calculateDates_exact_iff`).
-/

namespace CommCentral.Calendar

open List CalDateTime CalRecurrenceItem CalEvent

/-! ## Dates in UTC -/

section Dates

variable {a b : CalDateTime} {x y : ℤ}

@[simp] theorem cmp_neg : CalDateTime.cmp x y < 0 ↔ x < y := by
  rw [CalDateTime.cmp]
  split_ifs <;> omega

@[simp] theorem cmp_pos : CalDateTime.cmp x y > 0 ↔ y < x := by
  rw [CalDateTime.cmp]
  split_ifs <;> omega

@[simp] theorem cmp_nonneg : CalDateTime.cmp x y ≥ 0 ↔ y ≤ x := by
  rw [ge_iff_le, ← not_lt, cmp_neg, not_lt]

@[simp] theorem cmp_nonpos : CalDateTime.cmp x y ≤ 0 ↔ x ≤ y := by
  rw [← not_lt, ← gt_iff_lt, cmp_pos, not_lt]

@[simp] theorem cmp_eq_zero : CalDateTime.cmp x y = 0 ↔ x = y := by
  have hle := @cmp_nonpos x y
  have hge := @cmp_nonneg x y
  omega

theorem compare_of_dateTime (ha : a.isDate = false) (hb : b.isDate = false) :
    a.compare b = CalDateTime.cmp a.toUnixTime b.toUnixTime := by
  rw [CalDateTime.compare, ha, hb]
  rfl

/-- A date without a time is compared by its day. -/
theorem compare_of_date (hb : b.isDate = true) :
    a.compare b = CalDateTime.cmp a.day b.day := by
  rw [CalDateTime.compare, hb, Bool.or_true, if_pos rfl]

theorem eq_of_toUnixTime (ha : a.isDate = false) (hb : b.isDate = false)
    (h : a.toUnixTime = b.toUnixTime) : a = b := by
  cases a with
  | dateTime s =>
    cases b with
    | dateTime t => exact congrArg _ h
    | date d => cases hb
  | date d => cases ha

theorem compare_eq_zero_iff (ha : a.isDate = false) (hb : b.isDate = false) :
    a.compare b = 0 ↔ a = b := by
  rw [compare_of_dateTime ha hb, cmp_eq_zero]
  exact ⟨eq_of_toUnixTime ha hb, fun h => h ▸ rfl⟩

@[simp] theorem ensureDateTime_isDate : a.ensureDateTime.isDate = false := by
  cases a <;> rfl

@[simp] theorem ensureDateTime_toUnixTime : a.ensureDateTime.toUnixTime = a.toUnixTime := by
  cases a <;> rfl

theorem addDuration_isDate : (a.addDuration x).isDate = a.isDate := by
  cases a <;> rfl

theorem addDuration_toUnixTime (ha : a.isDate = false) :
    (a.addDuration x).toUnixTime = a.toUnixTime + x := by
  cases a with
  | dateTime t => rfl
  | date d => cases ha

theorem getRidKey_injective : Function.Injective getRidKey := by
  intro a b h
  cases a with
  | dateTime s =>
    cases b with
    | dateTime t =>
      simp only [getRidKey, RidKey.mk.injEq, Option.some.injEq] at h
      rw [← Int.mul_ediv_add_emod s 86400, h.1, h.2, Int.mul_ediv_add_emod]
    | date d => simp [getRidKey] at h
  | date d =>
    cases b with
    | dateTime t => simp [getRidKey] at h
    | date e => simpa [getRidKey] using h

theorem getRidKey_firstEight : (getRidKey a).firstEight = ⟨a.day, none⟩ := by
  cases a <;> rfl

theorem getRidKey_of_date (ha : a.isDate = true) : getRidKey a = ⟨a.day, none⟩ := by
  cases a with
  | dateTime t => cases ha
  | date d => rfl

end Dates

/-! ## Events in a window -/

/-- The event is in the window from `a` to `b`. -/
def CalEvent.InRange (item : CalEvent) (a : ℤ) (b : Option ℤ) : Prop :=
  if item.startDate.toUnixTime = item.endDate.toUnixTime then
    a ≤ item.startDate.toUnixTime ∧ ∀ x ∈ b, item.startDate.toUnixTime < x
  else (∀ x ∈ b, item.startDate.toUnixTime < x) ∧ a < item.endDate.toUnixTime

/-- `checkIfInRange` returns the start of an event in the window. -/
theorem checkIfInRange_eq_some_iff {item : CalEvent} {a : CalDateTime} {b : Option CalDateTime}
    {occDate : CalDateTime} : item.checkIfInRange (some a) b = some occDate ↔
      item.InRange a.toUnixTime (b.map CalDateTime.toUnixTime) ∧ occDate = item.startDate := by
  have hcmp : ∀ x y : CalDateTime, x.ensureDateTime.compare y.ensureDateTime =
      CalDateTime.cmp x.toUnixTime y.toUnixTime := fun x y => by
    rw [compare_of_dateTime ensureDateTime_isDate ensureDateTime_isDate,
      ensureDateTime_toUnixTime, ensureDateTime_toUnixTime]
  simp only [checkIfInRange, InRange, hcmp, cmp_eq_zero, cmp_nonneg, cmp_neg,
    cmp_pos, Option.mem_def, Option.some.injEq, forall_eq', Option.map_eq_some_iff,
    forall_exists_index, and_imp, forall_apply_eq_imp_iff₂]
  split_ifs with heq hin hin
  · exact ⟨fun h => ⟨hin, (Option.some.inj h).symm⟩, fun h => congrArg some h.2.symm⟩
  · exact ⟨fun h => (by simp at h), fun h => absurd h.1 hin⟩
  · exact ⟨fun h => ⟨hin, (Option.some.inj h).symm⟩, fun h => congrArg some h.2.symm⟩
  · exact ⟨fun h => (by simp at h), fun h => absurd h.1 hin⟩

/-! ## Lists in the order of time -/

namespace CalRecurrenceInfo

/-- The entries are in the order of their starts, and no recurrence id stands twice. -/
structure Chronicle (dates : List RidDate) : Prop where
  dateTime : ∀ e ∈ dates, e.rstart.isDate = false
  sorted : dates.Pairwise fun e f => e.rstart.toUnixTime ≤ f.rstart.toUnixTime
  nodup : (dates.map RidDate.id).Nodup

def ridDateComparator : Comparator RidDate where
  cmp e f := CalDateTime.cmp e.rstart.toUnixTime f.rstart.toUnixTime
  cmp_neg_iff := by
    intro e f
    rw [cmp_neg]
    exact cmp_pos.symm
  trans := by
    intro e f g h h'
    rw [cmp_nonpos] at h h' ⊢
    exact h.trans h'

theorem Chronicle.sublist {dates dates' : List RidDate} (h : Chronicle dates)
    (hsub : dates'.Sublist dates) : Chronicle dates' :=
  ⟨fun e he => h.dateTime e (hsub.mem he), h.sorted.sublist hsub, h.nodup.sublist (hsub.map _)⟩

theorem Chronicle.insert {found : Expansion} (h : Chronicle found.dates) {date : RidDate}
    (hdate : date.rstart.isDate = false) (hnew : date.id ∉ found.dates.map RidDate.id) :
    ∃ dates, found.insert date = some { found with dates := dates } ∧ Chronicle dates ∧
      ∀ e, e ∈ dates ↔ e ∈ found.dates ∨ e = date := by
  have hsorted : ridDateComparator.Sorted found.dates := h.sorted.imp fun hle => cmp_nonpos.mpr hle
  obtain ⟨p, hinsert, hplace⟩ := binaryInsert_place hsorted date
  have hperm : (found.dates.insertIdx p date).Perm (date :: found.dates) :=
    perm_insertIdx _ _ hplace.le
  have hmem : ∀ e, e ∈ found.dates.insertIdx p date ↔ e ∈ found.dates ∨ e = date := fun e => by
    rw [hperm.mem_iff, mem_cons, or_comm]
  refine ⟨found.dates.insertIdx p date, ?_, ⟨fun e he => ?_, ?_, ?_⟩, hmem⟩
  · have hsame : binaryInsert found.dates date ridDateSortComptor false =
        binaryInsert found.dates date ridDateComparator.cmp false :=
      binaryInsert_congr fun e he => compare_of_dateTime hdate (h.dateTime e he)
    rw [Expansion.insert, hsame, hinsert]
    rfl
  · rcases (hmem e).mp he with he | rfl
    · exact h.dateTime e he
    · exact hdate
  · exact (hplace.sorted_insertIdx hsorted).imp fun hle => cmp_nonpos.mp hle
  · exact (hperm.map RidDate.id).nodup_iff.mpr (nodup_cons.mpr ⟨hnew, h.nodup⟩)

/-- The dates from the first on that meets a condition which later dates meet, too. -/
theorem mem_dropWhile_of_pairwise {α : Type*} {r : α → α → Prop} {p : α → Bool} {l : List α} {x : α}
    (hl : l.Pairwise r) (hp : ∀ a b, r a b → p a = false → p b = false) :
    x ∈ l.dropWhile p ↔ x ∈ l ∧ p x = false := by
  induction l with
  | nil => simp
  | cons y l ih =>
    obtain ⟨hy, hl⟩ := pairwise_cons.mp hl
    cases hpy : p y with
    | true =>
      rw [dropWhile_cons_of_pos hpy, ih hl, mem_cons]
      refine and_congr_left fun hx => (or_iff_right_of_imp ?_).symm
      rintro rfl
      rw [hpy] at hx
      cases hx
    | false =>
      rw [dropWhile_cons_of_neg (by simp [hpy])]
      refine (and_iff_left_of_imp fun hx => ?_).symm
      rcases mem_cons.mp hx with rfl | hx
      · exact hpy
      · exact hp y x (hy x hx) hpy

/-! ## The loops -/

section Loops

variable {found : Expansion} {id : CalDateTime} {e : RidDate}

/-- The ids that are listed are set in the map, and have times. -/
def Expansion.Keyed (found : Expansion) : Prop :=
  ∀ e ∈ found.dates, e.id.isDate = false ∧ getRidKey e.id ∈ found.occurrenceMap

/-- An id whose key is not in the map is not listed. -/
theorem Expansion.Keyed.notMem (h : found.Keyed) (hid : getRidKey id ∉ found.occurrenceMap) :
    id ∉ found.dates.map RidDate.id := by
  intro hmem
  obtain ⟨e, he, rfl⟩ := mem_map.mp hmem
  exact hid (h e he).2

open Expansion

theorem foldlM_addException (a : CalDateTime) (b : Option CalDateTime) (items : List CalOccurrence)
    (hitems : ∀ item ∈ items, item.recurrenceId.isDate = false ∧ item.startDate.isDate = false)
    (hnodup : (items.map fun item => getRidKey item.recurrenceId).Nodup)
    (hnew : ∀ item ∈ items, getRidKey item.recurrenceId ∉ found.occurrenceMap)
    (h : Chronicle found.dates) (hkeyed : found.Keyed) :
    ∃ found', items.foldlM (addException a b) found = some found' ∧
      Chronicle found'.dates ∧ found'.Keyed ∧
      (∀ key, key ∈ found'.occurrenceMap ↔
        key ∈ found.occurrenceMap ∨ ∃ item ∈ items, key = getRidKey item.recurrenceId) ∧
      ∀ e, e ∈ found'.dates ↔ e ∈ found.dates ∨ ∃ item ∈ items,
        item.InRange a.toUnixTime (b.map toUnixTime) ∧
          e = ⟨item.recurrenceId, item.startDate⟩ := by
  induction items generalizing found with
  | nil => exact ⟨found, rfl, h, hkeyed, by simp, by simp⟩
  | cons item items ih =>
    obtain ⟨hitem, hitems⟩ := forall_mem_cons.mp hitems
    obtain ⟨hitemnew, hnew⟩ := forall_mem_cons.mp hnew
    obtain ⟨hdistinct, hnodup⟩ := nodup_cons.mp hnodup
    -- the body of the loop
    obtain ⟨mid, hstep, hmid, hmidkeyed, hmap, hdates⟩ :
        ∃ mid, addException a b found item = some mid ∧ Chronicle mid.dates ∧
          mid.Keyed ∧ mid.occurrenceMap = getRidKey item.recurrenceId :: found.occurrenceMap ∧
          ∀ e, e ∈ mid.dates ↔ e ∈ found.dates ∨
            item.InRange a.toUnixTime (b.map toUnixTime) ∧
              e = ⟨item.recurrenceId, item.startDate⟩ := by
      rw [addException]
      cases hrange : item.checkIfInRange (some a) b with
      | none =>
        have hout : ¬ item.InRange a.toUnixTime (b.map toUnixTime) := fun hin => by
          rw [checkIfInRange_eq_some_iff.mpr ⟨hin, rfl⟩] at hrange
          cases hrange
        exact ⟨_, rfl, h, fun e he => ⟨(hkeyed e he).1, mem_cons_of_mem _ (hkeyed e he).2⟩,
          rfl, fun e => by simp [hout]⟩
      | some occDate =>
        obtain ⟨hin, rfl⟩ := checkIfInRange_eq_some_iff.mp hrange
        obtain ⟨dates, hinsert, hchron, hmem⟩ := @Chronicle.insert
          { found with occurrenceMap := getRidKey item.recurrenceId :: found.occurrenceMap } h
          ⟨item.recurrenceId, item.startDate⟩ hitem.2 (hkeyed.notMem hitemnew)
        refine ⟨_, hinsert, hchron, fun e he => ?_, rfl, fun e => by simp [hmem, hin]⟩
        rcases (hmem e).mp he with he | rfl
        · exact ⟨(hkeyed e he).1, mem_cons_of_mem _ (hkeyed e he).2⟩
        · exact ⟨hitem.1, mem_cons_self ..⟩
    obtain ⟨found', hfold, hchron, hkeyed', hmap', hdates'⟩ := ih hitems hnodup
      (fun other hother => by
        rw [hmap, mem_cons, not_or]
        exact ⟨fun heq => hdistinct (mem_map.mpr ⟨other, hother, heq⟩), hnew other hother⟩)
      hmid hmidkeyed
    refine ⟨found', ?_, hchron, hkeyed', fun key => ?_, fun e => ?_⟩
    · rw [foldlM_cons, hstep]
      exact hfold
    · rw [hmap']
      grind
    · rw [hdates']
      grind

theorem addDate_spec (h : Chronicle found.dates) (hkeyed : found.Keyed) {date : CalDateTime}
    (hdate : date.isDate = false) :
    ∃ found', found.addDate date = some found' ∧ Chronicle found'.dates ∧ found'.Keyed ∧
      (∀ key, key ∈ found'.occurrenceMap ↔ key ∈ found.occurrenceMap ∨ key = getRidKey date) ∧
      ∀ e, e ∈ found'.dates ↔ e ∈ found.dates ∨
        getRidKey date ∉ found.occurrenceMap ∧ e = ⟨date, date⟩ := by
  rw [addDate]
  split_ifs with hthere
  · refine ⟨found, rfl, h, hkeyed, fun key => ?_, fun e => by simp [hthere]⟩
    refine (or_iff_left_of_imp ?_).symm
    rintro rfl
    exact hthere
  · obtain ⟨dates, hinsert, hchron, hmem⟩ := @Chronicle.insert found h ⟨date, date⟩ hdate
      (hkeyed.notMem hthere)
    rw [hinsert]
    refine ⟨_, rfl, hchron, fun e he => ?_, fun key => by simp [or_comm], fun e => by simp [hmem, hthere]⟩
    rcases (hmem e).mp he with he | rfl
    · exact ⟨(hkeyed e he).1, mem_cons_of_mem _ (hkeyed e he).2⟩
    · exact ⟨hdate, mem_cons_self ..⟩

theorem foldlM_addDate (dates : List CalDateTime) (hdates : ∀ date ∈ dates, date.isDate = false)
    (h : Chronicle found.dates) (hkeyed : found.Keyed) :
    ∃ found', dates.foldlM addDate found = some found' ∧ Chronicle found'.dates ∧
      found'.Keyed ∧
      (∀ key, key ∈ found'.occurrenceMap ↔
        key ∈ found.occurrenceMap ∨ ∃ date ∈ dates, key = getRidKey date) ∧
      ∀ e, e ∈ found'.dates ↔ e ∈ found.dates ∨ ∃ date ∈ dates,
        getRidKey date ∉ found.occurrenceMap ∧ e = ⟨date, date⟩ := by
  induction dates generalizing found with
  | nil => exact ⟨found, rfl, h, hkeyed, by simp, by simp⟩
  | cons date dates ih =>
    obtain ⟨hdate, hdates⟩ := forall_mem_cons.mp hdates
    obtain ⟨mid, hstep, hmid, hmidkeyed, hmap, hmem⟩ := addDate_spec h hkeyed hdate
    obtain ⟨found', hfold, hchron, hkeyed', hmap', hmem'⟩ := ih hdates hmid hmidkeyed
    refine ⟨found', ?_, hchron, hkeyed', fun key => ?_, fun e => ?_⟩
    · rw [foldlM_cons, hstep]
      exact hfold
    · rw [hmap']
      grind
    · rw [hmem', hmem]
      simp only [mem_cons, exists_eq_or_imp, hmap, not_or]
      constructor
      · rintro ((he | ⟨hnew, rfl⟩) | ⟨d, hd, ⟨hnew, -⟩, rfl⟩)
        · exact .inl he
        · exact .inr (.inl ⟨hnew, rfl⟩)
        · exact .inr (.inr ⟨d, hd, hnew, rfl⟩)
      · rintro (he | ⟨hnew, rfl⟩ | ⟨d, hd, hnew, rfl⟩)
        · exact .inl (.inl he)
        · exact .inl (.inr ⟨hnew, rfl⟩)
        · rcases eq_or_ne (getRidKey d) (getRidKey date) with heq | hne
          · obtain rfl := getRidKey_injective heq
            exact .inl (.inr ⟨hnew, rfl⟩)
          · exact .inr ⟨d, hd, ⟨hnew, hne⟩, rfl⟩

theorem foldl_filter {α β : Type*} (p : α → Bool) (l : List α) (items : List β) :
    items.foldl (fun l _ => l.filter p) l = if items = [] then l else l.filter p := by
  induction items generalizing l with
  | nil => rfl
  | cons item items ih =>
    rw [foldl_cons, ih, if_neg (cons_ne_nil _ _)]
    split_ifs
    · rfl
    · rw [filter_filter]
      simp

theorem removeDate_spec (hkeyed : found.Keyed) (n : CalDateTime) :
    (found.removeDate n).dates = found.dates.filter (fun date => date.id.compare n ≠ 0) ∧
      (found.removeDate n).Keyed := by
  have hall : (∀ e ∈ found.dates, e.id.compare n ≠ 0) →
      found.dates.filter (fun date => date.id.compare n ≠ 0) = found.dates := fun hne =>
    filter_eq_self.mpr fun e he => by simpa using hne e he
  rw [removeDate]
  cases hdate : n.isDate with
  | true =>
    have hday : ∀ e ∈ found.dates, e.id.compare n = 0 ↔
        (getRidKey e.id).firstEight = getRidKey n := fun e _ => by
      rw [compare_of_date hdate, getRidKey_firstEight, getRidKey_of_date hdate]
      simp
    simp only [foldl_filter]
    have hdates : (if (found.occurrenceMap.filter fun key => key.firstEight = getRidKey n) = [] then
        found.dates else found.dates.filter fun date => date.id.compare n ≠ 0) =
        found.dates.filter fun date => date.id.compare n ≠ 0 := by
      split_ifs with hnone
      · refine (hall fun e he heq => ?_).symm
        have hmem : getRidKey e.id ∈ found.occurrenceMap.filter fun key =>
            key.firstEight = getRidKey n :=
          mem_filter.mpr ⟨(hkeyed e he).2, by simpa using (hday e he).mp heq⟩
        rw [hnone] at hmem
        cases hmem
      · rfl
    refine ⟨hdates, fun e he => ?_⟩
    rw [hdates] at he
    obtain ⟨he, hne⟩ := mem_filter.mp he
    rw [decide_eq_true_eq, Ne, hday e he] at hne
    refine ⟨(hkeyed e he).1, mem_filter.mpr ⟨(hkeyed e he).2, ?_⟩⟩
    simp [hne]
  | false =>
    rw [if_neg (by simp)]
    have heq : ∀ e ∈ found.dates, e.id.compare n = 0 ↔ e.id = n := fun e he =>
      compare_eq_zero_iff (hkeyed e he).1 hdate
    split_ifs with hthere
    · refine ⟨rfl, fun e he => ?_⟩
      obtain ⟨he, hne⟩ := mem_filter.mp he
      rw [decide_eq_true_eq, Ne, heq e he] at hne
      refine ⟨(hkeyed e he).1, mem_filter.mpr ⟨(hkeyed e he).2, ?_⟩⟩
      simpa using fun h => hne (getRidKey_injective h)
    · refine ⟨(hall fun e he h => hthere ?_).symm, hkeyed⟩
      obtain rfl := (heq e he).mp h
      exact (hkeyed e he).2

theorem foldl_removeDate (dates : List CalDateTime) (hkeyed : found.Keyed) :
    (dates.foldl removeDate found).dates =
        found.dates.filter (fun date => ∀ n ∈ dates, date.id.compare n ≠ 0) ∧
      (dates.foldl removeDate found).Keyed := by
  induction dates generalizing found with
  | nil => exact ⟨(filter_eq_self.mpr fun e _ => by simp).symm, hkeyed⟩
  | cons n dates ih =>
    obtain ⟨hdates, hkeyed'⟩ := removeDate_spec hkeyed n
    obtain ⟨hfold, hfoldkeyed⟩ := ih hkeyed'
    refine ⟨?_, hfoldkeyed⟩
    rw [foldl_cons, hfold, hdates, filter_filter]
    simp [Bool.and_comm]

end Loops

/-! ## The series -/

end CalRecurrenceInfo

/-- The rule has these dates, and answers exactly. -/
structure CalRecurrenceRule.Exact (rule : CalRecurrenceRule) (startDate : CalDateTime)
    (dates : List CalDateTime) : Prop where
  dateTime : ∀ date ∈ dates, date.isDate = false
  sorted : dates.Pairwise fun a b => a.toUnixTime < b.toUnixTime
  getOccurrences_eq : ∀ (a : CalDateTime) (b : Option CalDateTime), a.isDate = false →
    (∀ x ∈ b, x.isDate = false) → rule.getOccurrences startDate a b 0 = dates.filter fun date =>
      a.toUnixTime ≤ date.toUnixTime ∧ ∀ x ∈ b, date.toUnixTime < x.toUnixTime

/-- The dates of an item, given those of the rules. -/
def CalRecurrenceItem.HasDate (dates : CalRecurrenceRule → List CalDateTime) :
    CalRecurrenceItem → CalDateTime → Prop
  | .date _ mDate, id => id = mDate
  | .rule _ ritem, id => id ∈ dates ritem

namespace CalRecurrenceInfo

section Series

variable (info : CalRecurrenceInfo) (dates : CalRecurrenceRule → List CalDateTime)

/-- The base event is in UTC and does not end before it starts; the dates of its series have
times, but for the negative ones; and the rules answer exactly. -/
structure InUtc : Prop where
  startDate : info.mBaseItem.startDate.isDate = false
  endDate : info.mBaseItem.endDate.isDate = false
  duration : 0 ≤ info.mBaseItem.duration
  exceptions : ∀ item ∈ info.mExceptionMap,
    item.recurrenceId.isDate = false ∧ item.startDate.isDate = false
  positive : ∀ date, .date false date ∈ info.mRecurrenceItems → date.isDate = false
  rules : ∀ isNegative rule, .rule isNegative rule ∈ info.mRecurrenceItems →
    rule.Exact info.mBaseItem.startDate (dates rule)

def IsPositive (id : CalDateTime) : Prop :=
  ∃ ritem ∈ info.mPositiveRules, ritem.HasDate dates id

/-- The id is the start of the base item, a positive date or the id of an exception. -/
def IsCandidate (id : CalDateTime) : Prop :=
  id = info.mBaseItem.startDate ∨ info.IsPositive dates id ∨
    ∃ item ∈ info.mExceptionMap, id = item.recurrenceId

/-- A negative date is equal to the id, or is the day of it. -/
def IsRemoved (id : CalDateTime) : Prop :=
  ∃ ritem ∈ info.mNegativeRules, ∃ n, ritem.HasDate dates n ∧ id.compare n = 0

def InSeries (id : CalDateTime) : Prop := info.IsCandidate dates id ∧ ¬ info.IsRemoved dates id

def InWindow (a : CalDateTime) (b : Option CalDateTime) (id : CalDateTime) : Prop :=
  ((info.getOccurrenceFor id).checkIfInRange (some a) b).isSome = true

/-- The result is sorted, without an id twice, and has the ids of the series in the window. -/
def ExpandsExactly (a : CalDateTime) (b : Option CalDateTime) : Prop :=
  ∃ found, info.calculateDates a b 0 = some found ∧
    (found.Pairwise fun e f => e.rstart.compare f.rstart ≤ 0) ∧ (found.map RidDate.id).Nodup ∧
    (∀ e ∈ found, e.rstart = (info.getOccurrenceFor e.id).startDate) ∧
    ∀ id, id ∈ found.map RidDate.id ↔ info.InSeries dates id ∧ info.InWindow a b id

/-- A negative date that removes the id is in the window, moved back by the duration. -/
def RemovedWithin (a : CalDateTime) (b : Option CalDateTime) (id : CalDateTime) : Prop :=
  ∃ ritem ∈ info.mNegativeRules, ∃ n, ritem.HasDate dates n ∧ id.compare n = 0 ∧
    n.compare (info.searchStart a) ≥ 0 ∧ ∀ x ∈ b, n.compare x.ensureDateTime < 0

/-- Events have no length, and the id begins at the start of the window, without being the base
item or an exception. -/
def Skipped (a id : CalDateTime) : Prop :=
  info.mBaseItem.duration = 0 ∧ id.toUnixTime = a.toUnixTime ∧
    id ≠ info.mBaseItem.startDate ∧ info.getExceptionFor id = none

/-- Of the candidates in the window, those that a negative date removes are removed by one that
takes effect, and no other one is skipped. -/
def ExpandsSafely (a : CalDateTime) (b : Option CalDateTime) : Prop :=
  ∀ id, info.IsCandidate dates id → info.InWindow a b id →
    (info.IsRemoved dates id → info.RemovedWithin dates a b id ∨ info.Skipped a id) ∧
      (info.Skipped a id → info.IsRemoved dates id)

end Series

/-! ## What is added and what is removed -/

section Expand

variable {info : CalRecurrenceInfo} {dates : CalRecurrenceRule → List CalDateTime}
  {a : CalDateTime} {b : Option CalDateTime} {id : CalDateTime}

theorem getExceptionFor_eq_some_iff {item : CalOccurrence} :
    info.getExceptionFor id = some item ↔
      item ∈ info.mExceptionMap ∧ item.recurrenceId = id := by
  rw [getExceptionFor, exceptionAt]
  constructor
  · intro h
    have hkey := find?_some h
    rw [decide_eq_true_eq] at hkey
    exact ⟨mem_of_find?_eq_some h, getRidKey_injective hkey⟩
  · rintro ⟨hitem, rfl⟩
    cases hfind : info.mExceptionMap.find? fun other =>
        getRidKey other.recurrenceId = getRidKey item.recurrenceId with
    | none => simpa using find?_eq_none.mp hfind item hitem
    | some other =>
      have hkey := find?_some hfind
      rw [decide_eq_true_eq] at hkey
      rw [inj_on_of_nodup_map info.nodup (mem_of_find?_eq_some hfind) hitem hkey]

theorem getExceptionFor_eq_none_iff : info.getExceptionFor id = none ↔
    ∀ item ∈ info.mExceptionMap, item.recurrenceId ≠ id := by
  rw [Option.eq_none_iff_forall_ne_some]
  simp only [Ne, getExceptionFor_eq_some_iff, not_and]

section

variable (h : info.InUtc dates) {ritem : CalRecurrenceItem} (hritem : ritem ∈ info.mRecurrenceItems)
    (ha : a.isDate = false) (hb : ∀ x ∈ b, x.isDate = false)

include h hritem ha hb

theorem InUtc.mem_getOccurrences :
    id ∈ ritem.getOccurrences info.mBaseItem.startDate a b 0 ↔
      ritem.HasDate dates id ∧ id.compare a ≥ 0 ∧ ∀ x ∈ b, id.compare x < 0 := by
  cases ritem with
  | date isNegative date =>
    rw [getOccurrences, HasDate]
    split_ifs with hin
    · rw [mem_singleton, iff_self_and]
      rintro rfl
      exact hin
    · refine ⟨fun hid => ?_, ?_⟩
      · cases hid
      · rintro ⟨rfl, hid⟩
        exact absurd hid hin
  | rule isNegative rule =>
    have hexact := h.rules isNegative rule hritem
    rw [getOccurrences, hexact.getOccurrences_eq a b ha hb, mem_filter,
      decide_eq_true_eq]
    refine and_congr_right fun hid => ?_
    have hdate := hexact.dateTime id hid
    rw [compare_of_dateTime hdate ha, cmp_nonneg]
    refine and_congr_right fun _ => forall₂_congr fun x hx => ?_
    rw [compare_of_dateTime hdate (hb x hx), cmp_neg]

theorem InUtc.pairwise_getOccurrences :
    (ritem.getOccurrences info.mBaseItem.startDate a b 0).Pairwise fun x y =>
      x.toUnixTime < y.toUnixTime := by
  cases ritem with
  | date isNegative date =>
    rw [getOccurrences]
    split_ifs
    · exact pairwise_singleton _ _
    · exact .nil
  | rule isNegative rule =>
    have hexact := h.rules isNegative rule hritem
    rw [getOccurrences, hexact.getOccurrences_eq a b ha hb]
    exact hexact.sorted.filter _

end

theorem InUtc.positive_isDate (h : info.InUtc dates) (hid : info.IsPositive dates id) :
    id.isDate = false := by
  obtain ⟨ritem, hritem, hdate⟩ := hid
  obtain ⟨hritem, hsign⟩ := mem_filter.mp hritem
  cases ritem with
  | date isNegative date =>
    cases isNegative with
    | false =>
      rw [show id = date from hdate]
      exact h.positive date hritem
    | true => simp [isNegative] at hsign
  | rule isNegative rule => exact (h.rules isNegative rule hritem).dateTime id hdate

theorem InUtc.candidate_isDate (h : info.InUtc dates) (hid : info.IsCandidate dates id) :
    id.isDate = false := by
  rcases hid with rfl | hid | ⟨item, hitem, rfl⟩
  · exact h.startDate
  · exact h.positive_isDate hid
  · exact (h.exceptions item hitem).1

/-- The dates that `calculateDates` adds after the exceptions. -/
def toAdd (info : CalRecurrenceInfo) (a : CalDateTime) (b : Option CalDateTime) :
    List CalDateTime :=
  (info.mBaseItem.checkIfInRange (some a) b).toList ++ info.mPositiveRules.flatMap fun ritem =>
    (ritem.getOccurrences info.mBaseItem.startDate (info.searchStart a)
      (b.map CalDateTime.ensureDateTime) 0).dropWhile fun date =>
        ¬ a.ensureDateTime.compare (date.addDuration info.mBaseItem.duration) < 0

/-- The dates that `calculateDates` removes. -/
def toRemove (info : CalRecurrenceInfo) (a : CalDateTime) (b : Option CalDateTime) :
    List CalDateTime :=
  info.mNegativeRules.flatMap fun ritem =>
    ritem.getOccurrences info.mBaseItem.startDate (info.searchStart a)
      (b.map CalDateTime.ensureDateTime) 0

theorem calculateDates_eq : info.calculateDates a b 0 =
    (info.mExceptionMap.foldlM (Expansion.addException a b) ⟨[], []⟩).bind fun found =>
      ((info.toAdd a b).foldlM Expansion.addDate found).map fun found =>
        ((info.toRemove a b).foldl Expansion.removeDate found).dates := by
  have hpositive : ∀ (ritems : List CalRecurrenceItem) (found : Expansion),
      ritems.foldlM (Expansion.addPositive info.mBaseItem.startDate (info.searchStart a)
          a.ensureDateTime (b.map ensureDateTime) info.mBaseItem.duration 0) found =
        (ritems.flatMap fun ritem => (ritem.getOccurrences info.mBaseItem.startDate
          (info.searchStart a) (b.map ensureDateTime) 0).dropWhile fun date =>
            ¬ a.ensureDateTime.compare (date.addDuration info.mBaseItem.duration) < 0).foldlM
              Expansion.addDate found := fun ritems => by
    induction ritems with
    | nil => intro found; rfl
    | cons ritem ritems ih =>
      intro found
      rw [flatMap_cons, foldlM_append]
      exact congrArg _ (funext ih)
  have hnegative : ∀ (ritems : List CalRecurrenceItem) (found : Expansion),
      ritems.foldl (Expansion.removeNegative info.mBaseItem.startDate (info.searchStart a)
          (b.map ensureDateTime) 0) found =
        (ritems.flatMap fun ritem => ritem.getOccurrences info.mBaseItem.startDate
          (info.searchStart a) (b.map ensureDateTime) 0).foldl
            Expansion.removeDate found := fun ritems => by
    induction ritems with
    | nil => intro found; rfl
    | cons ritem ritems ih =>
      intro found
      rw [flatMap_cons, foldl_append]
      exact ih _
  simp only [calculateDates, ite_self, ne_eq, not_true_eq_false, false_and, if_false, hpositive,
    hnegative, toAdd, toRemove]
  refine congrArg _ (funext fun found => ?_)
  cases info.mBaseItem.checkIfInRange (some a) b with
  | none => rfl
  | some baseOccDate =>
    rw [Option.toList_some, singleton_append, foldlM_cons]
    show (found.addDate baseOccDate).bind _ = _
    cases found.addDate baseOccDate <;> rfl

end Expand

/-! ## The result is exact -/

section Exact

variable {info : CalRecurrenceInfo} {dates : CalRecurrenceRule → List CalDateTime}
  {a : CalDateTime} {b : Option CalDateTime} {id n : CalDateTime}

theorem forall_mem_ensureDateTime (b : Option CalDateTime) :
    ∀ x ∈ b.map ensureDateTime, x.isDate = false := by
  cases b with
  | none => simp
  | some x => simp

theorem searchStart_isDate : (info.searchStart a).isDate = false := by
  rw [searchStart, addDuration_isDate, ensureDateTime_isDate]

theorem searchStart_toUnixTime :
    (info.searchStart a).toUnixTime = a.toUnixTime - info.mBaseItem.duration := by
  rw [searchStart, addDuration_toUnixTime ensureDateTime_isDate, ensureDateTime_toUnixTime]
  rfl

theorem InUtc.mem_toRemove (h : info.InUtc dates) : n ∈ info.toRemove a b ↔
    ∃ ritem ∈ info.mNegativeRules, ritem.HasDate dates n ∧
      n.compare (info.searchStart a) ≥ 0 ∧ ∀ x ∈ b, n.compare x.ensureDateTime < 0 := by
  rw [toRemove, mem_flatMap]
  refine exists_congr fun ritem => and_congr_right fun hritem => ?_
  rw [h.mem_getOccurrences (mem_filter.mp hritem).1 searchStart_isDate
    (forall_mem_ensureDateTime b)]
  cases b <;> simp

/-- An id is removed when a negative date within the moved window removes it. -/
theorem InUtc.removedWithin_iff (h : info.InUtc dates) :
    info.RemovedWithin dates a b id ↔ ∃ n ∈ info.toRemove a b, id.compare n = 0 := by
  simp only [h.mem_toRemove, RemovedWithin]
  constructor
  · rintro ⟨ritem, hritem, n, hn, hid, hge, hlt⟩
    exact ⟨n, ⟨ritem, hritem, hn, hge, hlt⟩, hid⟩
  · rintro ⟨n, ⟨ritem, hritem, hn, hge, hlt⟩, hid⟩
    exact ⟨ritem, hritem, n, hn, hid, hge, hlt⟩

theorem InUtc.mem_toAdd (h : info.InUtc dates) : id ∈ info.toAdd a b ↔
    id = info.mBaseItem.startDate ∧
        info.mBaseItem.InRange a.toUnixTime (b.map CalDateTime.toUnixTime) ∨
      info.IsPositive dates id ∧ (∀ x ∈ b, id.toUnixTime < x.toUnixTime) ∧
        a.toUnixTime < id.toUnixTime + info.mBaseItem.duration := by
  rw [toAdd, mem_append, Option.mem_toList, checkIfInRange_eq_some_iff,
    mem_flatMap]
  refine or_congr and_comm ?_
  -- the dates of one item
  have hritem : ∀ ritem ∈ info.mPositiveRules,
      (id ∈ (ritem.getOccurrences info.mBaseItem.startDate (info.searchStart a)
        (b.map CalDateTime.ensureDateTime) 0).dropWhile (fun date =>
          ¬ a.ensureDateTime.compare (date.addDuration info.mBaseItem.duration) < 0) ↔
        ritem.HasDate dates id ∧ (∀ x ∈ b, id.toUnixTime < x.toUnixTime) ∧
          a.toUnixTime < id.toUnixTime + info.mBaseItem.duration) := fun ritem hritem => by
    have hmem := (mem_filter.mp hritem).1
    have hsearch := @searchStart_isDate info a
    have hget : ∀ id, id ∈ ritem.getOccurrences info.mBaseItem.startDate (info.searchStart a)
        (b.map CalDateTime.ensureDateTime) 0 → id.isDate = false ∧ ritem.HasDate dates id :=
      fun id hid => by
        have hdate := ((h.mem_getOccurrences hmem hsearch (forall_mem_ensureDateTime b)).mp hid).1
        exact ⟨h.positive_isDate ⟨ritem, hritem, hdate⟩, hdate⟩
    have hbehind : ∀ id : CalDateTime, id.isDate = false →
        (a.ensureDateTime.compare (id.addDuration info.mBaseItem.duration) < 0 ↔
          a.toUnixTime < id.toUnixTime + info.mBaseItem.duration) := fun id hid => by
      rw [compare_of_dateTime ensureDateTime_isDate (addDuration_isDate.trans hid), cmp_neg,
        ensureDateTime_toUnixTime, addDuration_toUnixTime hid]
    have hpairwise := List.Pairwise.and_mem.mp (h.pairwise_getOccurrences hmem hsearch
      (forall_mem_ensureDateTime b))
    rw [mem_dropWhile_of_pairwise hpairwise, h.mem_getOccurrences hmem hsearch
      (forall_mem_ensureDateTime b)]
    · constructor
      · rintro ⟨⟨hdate, -, hlt⟩, hkept⟩
        have hid := h.positive_isDate ⟨ritem, hritem, hdate⟩
        rw [decide_eq_false_iff_not, not_not, hbehind id hid] at hkept
        refine ⟨hdate, fun x hx => ?_, hkept⟩
        have hx' := hlt x.ensureDateTime (Option.mem_map_of_mem _ hx)
        rwa [compare_of_dateTime hid ensureDateTime_isDate, cmp_neg,
          ensureDateTime_toUnixTime] at hx'
      · rintro ⟨hdate, hlt, hkept⟩
        have hid := h.positive_isDate ⟨ritem, hritem, hdate⟩
        refine ⟨⟨hdate, ?_, fun x hx => ?_⟩, ?_⟩
        · rw [compare_of_dateTime hid hsearch, cmp_nonneg, searchStart_toUnixTime]
          omega
        · obtain ⟨y, hy, rfl⟩ := Option.map_eq_some_iff.mp hx
          rw [compare_of_dateTime hid ensureDateTime_isDate, cmp_neg, ensureDateTime_toUnixTime]
          exact hlt y hy
        · rw [decide_eq_false_iff_not, not_not, hbehind id hid]
          exact hkept
    · rintro x y ⟨hx, hy, hxy⟩ hkept
      rw [decide_eq_false_iff_not, hbehind _ (hget _ hx).1] at hkept
      rw [decide_eq_false_iff_not, hbehind _ (hget _ hy).1]
      omega
  constructor
  · rintro ⟨ritem, hmem, hid⟩
    obtain ⟨hdate, hin⟩ := (hritem ritem hmem).mp hid
    exact ⟨⟨ritem, hmem, hdate⟩, hin⟩
  · rintro ⟨⟨ritem, hmem, hdate⟩, hin⟩
    exact ⟨ritem, hmem, (hritem ritem hmem).mpr ⟨hdate, hin⟩⟩

theorem mem_exceptionKeys :
    (∃ item ∈ info.mExceptionMap, getRidKey id = getRidKey item.recurrenceId) ↔
      ¬ info.getExceptionFor id = none := by
  rw [getExceptionFor_eq_none_iff]
  push Not
  refine exists_congr fun item => and_congr_right fun _ => ?_
  exact ⟨fun h => (getRidKey_injective h).symm, fun h => h ▸ rfl⟩

theorem InUtc.calculateDates_spec (h : info.InUtc dates) :
    ∃ found, info.calculateDates a b 0 = some found ∧ Chronicle found ∧ ∀ e, e ∈ found ↔
      ((∃ item ∈ info.mExceptionMap,
          item.InRange a.toUnixTime (b.map toUnixTime) ∧
            e = ⟨item.recurrenceId, item.startDate⟩) ∨
        e.id ∈ info.toAdd a b ∧ info.getExceptionFor e.id = none ∧ e.rstart = e.id) ∧
      ¬ info.RemovedWithin dates a b e.id := by
  obtain ⟨found₁, hexceptions, hchron₁, hkeyed₁, hmap₁, hmem₁⟩ :=
    @foldlM_addException ⟨[], []⟩ a b info.mExceptionMap h.exceptions info.nodup (by simp)
      ⟨by simp, .nil, .nil⟩ fun e he => by cases he
  have hadd : ∀ date ∈ info.toAdd a b, date.isDate = false := fun date hdate => by
    rcases h.mem_toAdd.mp hdate with ⟨rfl, -⟩ | ⟨hpositive, -⟩
    · exact h.startDate
    · exact h.positive_isDate hpositive
  obtain ⟨found₂, hdates, hchron₂, hkeyed₂, -, hmem₂⟩ :=
    foldlM_addDate (info.toAdd a b) hadd hchron₁ hkeyed₁
  obtain ⟨hremove, -⟩ := foldl_removeDate (info.toRemove a b) hkeyed₂
  refine ⟨((info.toRemove a b).foldl Expansion.removeDate found₂).dates,
    by rw [calculateDates_eq, hexceptions, Option.bind_some, hdates]; rfl, ?_, fun e => ?_⟩
  · rw [hremove]
    exact hchron₂.sublist filter_sublist
  · rw [hremove, mem_filter, decide_eq_true_eq, h.removedWithin_iff]
    push Not
    refine and_congr_left fun _ => ?_
    rw [hmem₂, hmem₁]
    have hkey : ∀ id, getRidKey id ∉ found₁.occurrenceMap ↔ info.getExceptionFor id = none :=
      fun id => by
        rw [hmap₁, ← not_iff_not, ← mem_exceptionKeys]
        simp
    simp only [not_mem_nil, false_or, hkey]
    refine or_congr_right ⟨?_, ?_⟩
    · rintro ⟨date, hdate, hnone, rfl⟩
      exact ⟨hdate, hnone, rfl⟩
    · rintro ⟨hdate, hnone, hstart⟩
      exact ⟨e.id, hdate, hnone, by cases e; cases hstart; rfl⟩

theorem inWindow_of_none (hid : id.isDate = false)
    (hnone : info.getExceptionFor id = none) :
    info.InWindow a b id ↔ (∀ x ∈ b, id.toUnixTime < x.toUnixTime) ∧
      (a.toUnixTime < id.toUnixTime + info.mBaseItem.duration ∨
        info.mBaseItem.duration = 0 ∧ id.toUnixTime = a.toUnixTime) := by
  rw [InWindow, Option.isSome_iff_exists, getOccurrenceFor, hnone, Option.getD_none]
  simp only [checkIfInRange_eq_some_iff, exists_and_left, exists_eq, and_true, createProxy,
    InRange, addDuration_toUnixTime hid, Option.mem_def, Option.map_eq_some_iff,
    forall_exists_index, and_imp, forall_apply_eq_imp_iff₂]
  split_ifs with hzero
  · rw [and_comm]
    exact and_congr_right fun _ => by omega
  · exact and_congr_right fun _ => by omega

theorem inWindow_of_some {item : CalOccurrence} (hsome : info.getExceptionFor id = some item) :
    info.InWindow a b id ↔ item.InRange a.toUnixTime (b.map toUnixTime) := by
  rw [InWindow, Option.isSome_iff_exists, getOccurrenceFor, hsome, Option.getD_some]
  simp only [checkIfInRange_eq_some_iff, exists_and_left, exists_eq, and_true]


theorem InUtc.inRange_base (h : info.InUtc dates) :
    info.mBaseItem.InRange a.toUnixTime (b.map toUnixTime) ↔
      (∀ x ∈ b, info.mBaseItem.startDate.toUnixTime < x.toUnixTime) ∧
        (a.toUnixTime < info.mBaseItem.startDate.toUnixTime + info.mBaseItem.duration ∨
          info.mBaseItem.duration = 0 ∧ info.mBaseItem.startDate.toUnixTime = a.toUnixTime) := by
  have hduration := h.duration
  rw [CalEvent.duration, subtractDate] at hduration ⊢
  simp only [CalEvent.InRange, Option.mem_def, Option.map_eq_some_iff, forall_exists_index, and_imp,
    forall_apply_eq_imp_iff₂]
  split_ifs with hzero
  · rw [and_comm]
    exact and_congr_right fun _ => by omega
  · exact and_congr_right fun _ => by omega

/-- A candidate in the window is listed before the negative dates, unless it is skipped. -/
theorem InUtc.listed_iff (h : info.InUtc dates) :
    (∃ item ∈ info.mExceptionMap, item.InRange a.toUnixTime (b.map toUnixTime) ∧
          id = item.recurrenceId) ∨ id ∈ info.toAdd a b ∧ info.getExceptionFor id = none ↔
      info.IsCandidate dates id ∧ info.InWindow a b id ∧ ¬ info.Skipped a id := by
  cases hexception : info.getExceptionFor id with
  | some item =>
    obtain ⟨hitem, rfl⟩ := getExceptionFor_eq_some_iff.mp hexception
    rw [inWindow_of_some hexception]
    constructor
    · rintro (⟨other, hother, hin, heq⟩ | ⟨-, hnone⟩)
      · have hsame : info.getExceptionFor item.recurrenceId = some other :=
          getExceptionFor_eq_some_iff.mpr ⟨hother, heq.symm⟩
        obtain rfl := Option.some.inj (hexception.symm.trans hsame)
        refine ⟨.inr (.inr ⟨item, hitem, rfl⟩), hin, fun hskip => ?_⟩
        rw [hskip.2.2.2] at hexception
        cases hexception
      · cases hnone
    · rintro ⟨-, hin, -⟩
      exact .inl ⟨item, hitem, hin, rfl⟩
  | none =>
    have hnot := getExceptionFor_eq_none_iff.mp hexception
    rw [h.mem_toAdd]
    constructor
    · rintro (⟨item, hitem, -, rfl⟩ | ⟨⟨rfl, hin⟩ | ⟨hpositive, hlt, hgt⟩, -⟩)
      · exact absurd rfl (hnot item hitem)
      · rw [h.inRange_base] at hin
        exact ⟨.inl rfl, (inWindow_of_none h.startDate hexception).mpr hin,
          fun hskip => hskip.2.2.1 rfl⟩
      · refine ⟨.inr (.inl hpositive),
          (inWindow_of_none (h.positive_isDate hpositive) hexception).mpr ⟨hlt, .inl hgt⟩, ?_⟩
        rintro ⟨hzero, hstart, -⟩
        omega
    · rintro ⟨hcandidate, hin, hskip⟩
      obtain ⟨hlt, hgt⟩ :=
        (inWindow_of_none (h.candidate_isDate hcandidate) hexception).mp hin
      refine .inr ⟨?_, rfl⟩
      rcases eq_or_ne id info.mBaseItem.startDate with rfl | hne
      · exact .inl ⟨rfl, h.inRange_base.mpr ⟨hlt, hgt⟩⟩
      · rcases hcandidate with heq | hpositive | ⟨item, hitem, rfl⟩
        · exact absurd heq hne
        · rcases hgt with hgt | ⟨hzero, hstart⟩
          · exact .inr ⟨hpositive, hlt, hgt⟩
          · exact absurd ⟨hzero, hstart, hne, hexception⟩ hskip
        · exact absurd rfl (hnot item hitem)

theorem InUtc.mem_calculateDates (h : info.InUtc dates) {found : List RidDate}
    (hfound : info.calculateDates a b 0 = some found) : id ∈ found.map RidDate.id ↔
      (info.IsCandidate dates id ∧ info.InWindow a b id ∧ ¬ info.Skipped a id) ∧
        ¬ info.RemovedWithin dates a b id := by
  obtain ⟨found', hfound', -, hmem⟩ := @InUtc.calculateDates_spec info dates a b h
  obtain rfl := Option.some.inj (hfound.symm.trans hfound')
  rw [← h.listed_iff, mem_map]
  constructor
  · rintro ⟨e, he, rfl⟩
    obtain ⟨hlisted, hremoved⟩ := (hmem e).mp he
    refine ⟨?_, hremoved⟩
    rcases hlisted with ⟨item, hitem, hin, rfl⟩ | ⟨hadd, hnone, -⟩
    · exact .inl ⟨item, hitem, hin, rfl⟩
    · exact .inr ⟨hadd, hnone⟩
  · rintro ⟨⟨item, hitem, hin, rfl⟩ | ⟨hadd, hnone⟩, hremoved⟩
    · exact ⟨⟨item.recurrenceId, item.startDate⟩,
        (hmem _).mpr ⟨.inl ⟨item, hitem, hin, rfl⟩, hremoved⟩, rfl⟩
    · exact ⟨⟨id, id⟩, (hmem _).mpr ⟨.inr ⟨hadd, hnone, rfl⟩, hremoved⟩, rfl⟩

/-- What a negative date within the moved window removes is removed from the series. -/
theorem RemovedWithin.isRemoved (h : info.RemovedWithin dates a b id) :
    info.IsRemoved dates id := by
  obtain ⟨ritem, hritem, n, hn, hid, -⟩ := h
  exact ⟨ritem, hritem, n, hn, hid⟩

theorem InUtc.expandsExactly_iff (h : info.InUtc dates) :
    info.ExpandsExactly dates a b ↔ info.ExpandsSafely dates a b := by
  constructor
  · rintro ⟨found, hfound, -, -, -, hexact⟩ id hcandidate hin
    have hids : (¬ info.Skipped a id ∧ ¬ info.RemovedWithin dates a b id) ↔
        ¬ info.IsRemoved dates id := by
      have hid := (h.mem_calculateDates hfound).symm.trans (hexact id)
      simpa only [InSeries, hcandidate, hin, true_and, and_true] using hid
    grind
  · intro hsafe
    obtain ⟨found, hfound, hchron, hmem⟩ := @InUtc.calculateDates_spec info dates a b h
    refine ⟨found, hfound, hchron.sorted.imp_of_mem fun he hf hle => ?_, hchron.nodup,
      fun e he => ?_, fun id => ?_⟩
    · rw [compare_of_dateTime (hchron.dateTime _ he) (hchron.dateTime _ hf), cmp_nonpos]
      exact hle
    · rcases ((hmem e).mp he).1 with ⟨item, hitem, -, rfl⟩ | ⟨-, hnone, hstart⟩
      · rw [getOccurrenceFor, getExceptionFor_eq_some_iff.mpr ⟨hitem, rfl⟩, Option.getD_some]
      · rw [getOccurrenceFor, hnone, hstart]
        rfl
    · rw [h.mem_calculateDates hfound]
      constructor
      · rintro ⟨⟨hcandidate, hin, hskip⟩, hwithin⟩
        refine ⟨⟨hcandidate, fun hremoved => ?_⟩, hin⟩
        rcases (hsafe id hcandidate hin).1 hremoved with hwithin' | hskip'
        · exact hwithin hwithin'
        · exact hskip hskip'
      · rintro ⟨⟨hcandidate, hremoved⟩, hin⟩
        exact ⟨⟨hcandidate, hin, fun hskip => hremoved ((hsafe id hcandidate hin).2 hskip)⟩,
          fun hwithin => hremoved hwithin.isRemoved⟩

/-- An event that does not end before it starts is in a window when it is in one of its halves. -/
theorem inRange_union {item : CalEvent} {x y z : ℤ} (hxy : x ≤ y) (hyz : y ≤ z)
    (hitem : item.startDate.toUnixTime ≤ item.endDate.toUnixTime) :
    item.InRange x (some z) ↔ item.InRange x (some y) ∨ item.InRange y (some z) := by
  simp only [InRange, Option.mem_def, Option.some.injEq, forall_eq']
  split_ifs <;> omega

/-- The occurrence of a candidate is in a window when it is in one of its halves. -/
theorem InUtc.inWindow_union (h : info.InUtc dates) {b c : CalDateTime}
    (hab : a.toUnixTime ≤ b.toUnixTime) (hbc : b.toUnixTime ≤ c.toUnixTime)
    (hexceptions : ∀ item ∈ info.mExceptionMap,
      item.startDate.toUnixTime ≤ item.endDate.toUnixTime)
    (hid : info.IsCandidate dates id) : info.InWindow a (some c) id ↔
      info.InWindow a (some b) id ∨ info.InWindow b (some c) id := by
  have hdate := h.candidate_isDate hid
  have hitem : (info.getOccurrenceFor id).startDate.toUnixTime ≤
      (info.getOccurrenceFor id).endDate.toUnixTime := by
    rw [getOccurrenceFor]
    cases hexception : info.getExceptionFor id with
    | some item => exact hexceptions item (getExceptionFor_eq_some_iff.mp hexception).1
    | none =>
      show id.toUnixTime ≤ (id.addDuration info.mBaseItem.duration).toUnixTime
      rw [addDuration_toUnixTime hdate]
      exact le_add_of_nonneg_right h.duration
  simp only [InWindow, Option.isSome_iff_exists, checkIfInRange_eq_some_iff, exists_and_left,
    exists_eq, and_true, Option.map_some]
  exact inRange_union hab hbc hitem

/-- In UTC, with rules that answer exactly, the result of `calculateDates` for a window is
sorted, has no id twice and has the ids of the series whose occurrence is in the window, if and
only if the expansion is safe there.  The results for two adjacent windows make up that for both
of them. -/
theorem calculateDates_exact_iff (h : info.InUtc dates) {a b : CalDateTime}
    (hab : a.toUnixTime ≤ b.toUnixTime) :
    (info.ExpandsExactly dates a (some b) ↔ info.ExpandsSafely dates a (some b)) ∧
      ∀ c, b.toUnixTime ≤ c.toUnixTime →
        (∀ item ∈ info.mExceptionMap, item.startDate.toUnixTime ≤ item.endDate.toUnixTime) →
        info.ExpandsSafely dates a (some b) → info.ExpandsSafely dates b (some c) →
        info.ExpandsSafely dates a (some c) →
        ∀ found₁ found₂ found, info.calculateDates a (some b) 0 = some found₁ →
          info.calculateDates b (some c) 0 = some found₂ →
          info.calculateDates a (some c) 0 = some found →
          ∀ id, id ∈ found.map RidDate.id ↔
            id ∈ found₁.map RidDate.id ∨ id ∈ found₂.map RidDate.id := by
  refine ⟨h.expandsExactly_iff, ?_⟩
  intro c hbc hexceptions hsafe₁ hsafe₂ hsafe found₁ found₂ found hfound₁ hfound₂ hfound id
  obtain ⟨_, hsame₁, -, -, -, hmem₁⟩ := h.expandsExactly_iff.mpr hsafe₁
  obtain ⟨_, hsame₂, -, -, -, hmem₂⟩ := h.expandsExactly_iff.mpr hsafe₂
  obtain ⟨_, hsame, -, -, -, hmem⟩ := h.expandsExactly_iff.mpr hsafe
  obtain rfl := Option.some.inj (hfound₁.symm.trans hsame₁)
  obtain rfl := Option.some.inj (hfound₂.symm.trans hsame₂)
  obtain rfl := Option.some.inj (hfound.symm.trans hsame)
  rw [hmem, hmem₁, hmem₂, ← and_or_left]
  exact and_congr_right fun hseries => h.inWindow_union hab hbc hexceptions hseries.1

end Exact

/-! ## A morning of a removed day -/

/-- An event of an hour at the third hour of the day 10, daily on 10, 11 and 12, of which the day
11 is removed. -/
def threeDays : CalRecurrenceInfo where
  mBaseItem := ⟨.dateTime 874800, .dateTime 878400⟩
  mRecurrenceItems := [.date false (.dateTime 961200), .date false (.dateTime 1047600),
    .date true (.date 11)]
  mExceptionMap := []
  nodup := .nil

theorem threeDays_inUtc : threeDays.InUtc fun _ => [] := by
  refine ⟨rfl, rfl, by decide, ?_, ?_, ?_⟩
  · intro item hitem
    cases hitem
  · intro date hdate
    simp only [threeDays, mem_cons, CalRecurrenceItem.date.injEq, Bool.false_eq_true,
      false_and, true_and, not_mem_nil, or_false] at hdate
    rcases hdate with rfl | rfl <;> rfl
  · intro isNegative rule hrule
    simp [threeDays] at hrule

/-- The result for the whole day 11 is exact when the expansion is safe there. -/
theorem calculateDates_exact_threeDays :
    threeDays.ExpandsExactly (fun _ => []) (.dateTime 950400) (some (.dateTime 1036800)) ↔
      threeDays.ExpandsSafely (fun _ => []) (.dateTime 950400) (some (.dateTime 1036800)) :=
  (calculateDates_exact_iff threeDays_inUtc (by decide)).1

/-- On the morning of the day 11 the removed event is listed. -/
theorem calculateDates_keeps_removed :
    threeDays.calculateDates (.dateTime 950400) (some (.dateTime 993600)) 0 =
        some [⟨.dateTime 961200, .dateTime 961200⟩] ∧
      ¬ threeDays.ExpandsExactly (fun _ => []) (.dateTime 950400) (some (.dateTime 993600)) := by
  have hresult : threeDays.calculateDates (.dateTime 950400) (some (.dateTime 993600)) 0 =
      some [⟨.dateTime 961200, .dateTime 961200⟩] := by decide
  refine ⟨hresult, ?_⟩
  rintro ⟨found, hfound, -, -, -, hmem⟩
  obtain rfl := Option.some.inj (hresult.symm.trans hfound)
  obtain ⟨⟨-, hremoved⟩, -⟩ := (hmem (.dateTime 961200)).mp (by simp)
  exact hremoved ⟨.date true (.date 11), by simp [mNegativeRules, threeDays,
    isNegative], .date 11, rfl, by decide⟩

end CalRecurrenceInfo

end CommCentral.Calendar
