import CommCentral.Calendar.Expansion
import CommCentral.Lib.Keyed

/-!
# Moving a series

`onStartDateChange`, `modifyException`, `removeExceptionFor`, `getExceptionIds`
and `getOccurrences` of `CalRecurrenceInfo.jsm`, with `shiftOffset` of
`calItemUtils.jsm` and the setters of `CalEvent.jsm`.

The setter of the start moves the dates of the series before it sets the start,
the exceptions in two passes, so that none takes the place of another one.

* The setter leaves the end of the base item where it is, and with it the ends
  of all events without an exception.  The callers set the end next.
* Whole days only are added to a date without a time.  When a series has both
  kinds of dates and is moved by some hours, the dates without times stay.

With the end moved as well, and by whole days if there are both kinds of dates,
every occurrence is moved (`moveTo_movesTo`).
-/

namespace CommCentral.Calendar

open List CalDateTime

/-! ## The model -/

def CalOccurrence.shiftOffset (item : CalOccurrence) (offset : ℤ) : CalOccurrence :=
  { item with
    startDate := item.startDate.addDuration offset
    endDate := item.endDate.addDuration offset }

/-- The copy of an exception in `modifiedExceptions`. -/
def CalOccurrence.moved (ex : CalOccurrence) (timeDiff : ℤ) : CalOccurrence :=
  { ex with recurrenceId := ex.recurrenceId.addDuration timeDiff }.shiftOffset timeDiff

/-- The body of the loop over the recurrence items.  `moveUntil` moves the `untilDate` of a rule
that is not by count. -/
def CalRecurrenceItem.move (moveUntil : ℤ → CalRecurrenceRule → CalRecurrenceRule) (timeDiff : ℤ) :
    CalRecurrenceItem → CalRecurrenceItem
  | .date isNegative mDate => .date isNegative (mDate.addDuration timeDiff)
  | .rule isNegative ritem => .rule isNegative (moveUntil timeDiff ritem)

namespace CalRecurrenceInfo

variable (moveUntil : ℤ → CalRecurrenceRule → CalRecurrenceRule) (info : CalRecurrenceInfo)

theorem nodup_filter (p : CalOccurrence → Bool) :
    ((info.mExceptionMap.filter p).map fun item => getRidKey item.recurrenceId).Nodup :=
  info.nodup.sublist (filter_sublist.map _)

def removeExceptionFor (aRecurrenceId : CalDateTime) : CalRecurrenceInfo where
  mBaseItem := info.mBaseItem
  mRecurrenceItems := info.mRecurrenceItems
  mExceptionMap := info.mExceptionMap.filter fun item =>
    getRidKey item.recurrenceId ≠ getRidKey aRecurrenceId
  nodup := info.nodup_filter _

@[simp] theorem removeExceptionFor_mExceptionMap (aRecurrenceId : CalDateTime) :
    (info.removeExceptionFor aRecurrenceId).mExceptionMap = info.mExceptionMap.filter fun item =>
      getRidKey item.recurrenceId ≠ getRidKey aRecurrenceId := rfl

def modifyException (anItem : CalOccurrence) : CalRecurrenceInfo where
  mBaseItem := info.mBaseItem
  mRecurrenceItems := info.mRecurrenceItems
  mExceptionMap := Keyed.upsert (fun item => getRidKey item.recurrenceId) info.mExceptionMap anItem
  nodup := Keyed.nodup_upsert info.nodup

def getExceptionIds : List CalDateTime := info.mExceptionMap.map fun item => item.recurrenceId

/-- The body of the loop that takes out the exceptions. -/
def takeException (timeDiff : ℤ) (state : CalRecurrenceInfo × List CalOccurrence)
    (exid : CalDateTime) : CalRecurrenceInfo × List CalOccurrence :=
  match state.1.getExceptionFor exid with
  | some ex => (state.1.removeExceptionFor exid, state.2 ++ [ex.moved timeDiff])
  | none => state

def onStartDateChange (aNewStartTime : CalDateTime) (aOldStartTime : Option CalDateTime) :
    CalRecurrenceInfo :=
  match aOldStartTime with
  | none => info
  | some aOldStartTime =>
    let timeDiff := aNewStartTime.subtractDate aOldStartTime
    let info : CalRecurrenceInfo :=
      { info with mRecurrenceItems := info.mRecurrenceItems.map (.move moveUntil timeDiff) }
    let state := info.getExceptionIds.foldl (takeException timeDiff) (info, [])
    state.2.foldl modifyException state.1

/-- The setter of `startDate`, of the base item. -/
def setStartDate (value : CalDateTime) : CalRecurrenceInfo :=
  let info := info.onStartDateChange moveUntil value (some info.mBaseItem.startDate)
  { info with mBaseItem := { info.mBaseItem with startDate := value } }

/-- The setter of `endDate`, of the base item. -/
def setEndDate (value : CalDateTime) : CalRecurrenceInfo :=
  { info with mBaseItem := { info.mBaseItem with endDate := value } }

/-- The base item is moved to a new start: its start is set, and then its end. -/
def moveTo (value : CalDateTime) : CalRecurrenceInfo :=
  (info.setStartDate moveUntil value).setEndDate
    (info.mBaseItem.endDate.addDuration (value.subtractDate info.mBaseItem.startDate))

def getOccurrences (aRangeStart : CalDateTime) (aRangeEnd : Option CalDateTime) (aMaxCount : ℕ) :
    Option (List CalOccurrence) :=
  (info.calculateDates aRangeStart aRangeEnd aMaxCount).map fun dates =>
    let count := if aMaxCount ≠ 0 then min aMaxCount dates.length else dates.length
    (dates.take count).map fun date => info.getOccurrenceFor date.id

/-! ## The exceptions are put back moved -/

section Exceptions

variable {info}

theorem eq_of_parts {other : CalRecurrenceInfo} (hbase : info.mBaseItem = other.mBaseItem)
    (hitems : info.mRecurrenceItems = other.mRecurrenceItems)
    (hmap : info.mExceptionMap = other.mExceptionMap) : info = other := by
  cases other
  cases hbase
  cases hitems
  cases hmap
  rfl

/-- The first pass takes all exceptions out of the map and moves them. -/
theorem foldl_takeException (timeDiff : ℤ) (taken : List CalOccurrence) :
    ∀ (items : List CalOccurrence) (info : CalRecurrenceInfo), info.mExceptionMap = items →
      (items.map fun item => item.recurrenceId).foldl (takeException timeDiff) (info, taken) =
        ({ info with mExceptionMap := [], nodup := nodup_nil },
          taken ++ items.map fun ex => ex.moved timeDiff) := by
  intro items
  induction items generalizing taken with
  | nil =>
    intro info hmap
    rw [map_nil, map_nil, List.append_nil]
    exact congrArg (·, taken) (eq_of_parts rfl rfl hmap)
  | cons ex items ih =>
    intro info hmap
    have hnodup := info.nodup
    rw [hmap, map_cons, nodup_cons] at hnodup
    have hfound : info.getExceptionFor ex.recurrenceId = some ex := by
      rw [getExceptionFor, exceptionAt, hmap]
      exact find?_cons_of_pos (by simp)
    have hrest : (info.removeExceptionFor ex.recurrenceId).mExceptionMap = items := by
      rw [removeExceptionFor_mExceptionMap, hmap, filter_cons_of_neg (by simp),
        filter_eq_self]
      intro item hitem
      have hne : getRidKey item.recurrenceId ≠ getRidKey ex.recurrenceId := fun heq =>
        hnodup.1 (mem_map.mpr ⟨item, hitem, heq⟩)
      exact decide_eq_true hne
    have hstep : takeException timeDiff (info, taken) ex.recurrenceId =
        (info.removeExceptionFor ex.recurrenceId, taken ++ [ex.moved timeDiff]) := by
      rw [takeException, hfound]
    rw [map_cons, foldl_cons, hstep, ih _ _ hrest, append_assoc]
    rfl

/-- The second pass puts items with different keys into the map. -/
theorem foldl_modifyException :
    ∀ (items : List CalOccurrence) (info : CalRecurrenceInfo)
      (hnodup : ((info.mExceptionMap ++ items).map fun item => getRidKey item.recurrenceId).Nodup),
      items.foldl modifyException info =
        { info with mExceptionMap := info.mExceptionMap ++ items, nodup := hnodup } := by
  intro items
  induction items with
  | nil => exact fun info _ => eq_of_parts rfl rfl (List.append_nil _).symm
  | cons item items ih =>
    intro info hnodup
    have hnew : getRidKey item.recurrenceId ∉
        info.mExceptionMap.map fun item => getRidKey item.recurrenceId := fun hmem => by
      rw [map_append] at hnodup
      exact disjoint_of_nodup_append hnodup hmem (mem_map_of_mem mem_cons_self)
    have hmap : (info.modifyException item).mExceptionMap = info.mExceptionMap ++ [item] :=
      Keyed.upsert_of_notMem hnew
    have hassoc : (info.modifyException item).mExceptionMap ++ items =
        info.mExceptionMap ++ item :: items := by rw [hmap, append_assoc]; rfl
    rw [foldl_cons, ih _ (by rw [hassoc]; exact hnodup)]
    exact eq_of_parts rfl rfl hassoc

end Exceptions

end CalRecurrenceInfo

/-! ## Moved dates -/

/-- The seconds move the date exactly: it has a time, or they make up whole days. -/
def CalDateTime.MovesBy (date : CalDateTime) (timeDiff : ℤ) : Prop :=
  date.isDate = false ∨ 86400 ∣ timeDiff

section Dates

variable {a b : CalDateTime} {t x : ℤ}

theorem CalDateTime.MovesBy.toUnixTime (ha : a.MovesBy t) :
    (a.addDuration t).toUnixTime = a.toUnixTime + t := by
  cases a with
  | dateTime s => rfl
  | date d =>
    rcases ha with ha | ha
    · cases ha
    · show 86400 * (d + t.tdiv 86400) = 86400 * d + t
      rw [Int.mul_add, Int.mul_tdiv_cancel' ha]

theorem addDuration_day (ht : 86400 ∣ t) : (a.addDuration t).day = a.day + t.tdiv 86400 := by
  cases a with
  | dateTime s =>
    obtain ⟨k, rfl⟩ := ht
    show (s + 86400 * k) / 86400 = s / 86400 + (86400 * k).tdiv 86400
    rw [Int.mul_tdiv_cancel_left _ (by decide), Int.add_mul_ediv_left _ _ (by decide)]
  | date d => rfl

theorem cmp_add_right : CalDateTime.cmp (x + t) (a.toUnixTime + t) =
    CalDateTime.cmp x a.toUnixTime := by
  simp only [CalDateTime.cmp, gt_iff_lt, add_lt_add_iff_right]

/-- Dates that are moved exactly are compared as before. -/
theorem CalDateTime.MovesBy.compare (ha : a.MovesBy t) (hb : b.MovesBy t) :
    (a.addDuration t).compare (b.addDuration t) = a.compare b := by
  rw [CalDateTime.compare, CalDateTime.compare, addDuration_isDate, addDuration_isDate,
    ha.toUnixTime, hb.toUnixTime, cmp_add_right]
  split_ifs with hdate
  · have ht : 86400 ∣ t := by
      rcases ha with ha | ha
      · rcases hb with hb | hb
        · rw [ha, hb] at hdate
          cases hdate
        · exact hb
      · exact ha
    rw [addDuration_day ht, addDuration_day ht]
    simp only [CalDateTime.cmp, gt_iff_lt, add_lt_add_iff_right]
  · rfl

theorem ensureDateTime_of_dateTime (ha : a.isDate = false) : a.ensureDateTime = a :=
  eq_of_toUnixTime ensureDateTime_isDate ha ensureDateTime_toUnixTime

theorem movesBy_ensureDateTime : a.ensureDateTime.MovesBy t := .inl ensureDateTime_isDate

theorem CalDateTime.MovesBy.addDuration (ha : a.MovesBy t) : (a.addDuration x).MovesBy t := by
  rw [MovesBy, addDuration_isDate]
  exact ha

theorem addDuration_comm : (a.addDuration t).addDuration x = (a.addDuration x).addDuration t := by
  cases a with
  | dateTime s => exact congrArg dateTime (add_right_comm s t x)
  | date d => exact congrArg date (add_right_comm d _ _)

theorem addDuration_injective : Function.Injective fun a : CalDateTime => a.addDuration t := by
  intro a b h
  cases a with
  | dateTime s =>
    cases b with
    | dateTime u => simpa [addDuration] using h
    | date d => cases h
  | date d =>
    cases b with
    | dateTime u => cases h
    | date e => simpa [addDuration] using h

/-- Moved dates have the same text when the dates have. -/
theorem getRidKey_addDuration_inj :
    getRidKey (a.addDuration t) = getRidKey (b.addDuration t) ↔ getRidKey a = getRidKey b := by
  rw [getRidKey_injective.eq_iff, getRidKey_injective.eq_iff, addDuration_injective.eq_iff]

/-- A date without a time is the day of another one as before. -/
theorem firstEight_addDuration (hb : b.isDate = true) (h : b.MovesBy t) :
    (getRidKey (a.addDuration t)).firstEight = getRidKey (b.addDuration t) ↔
      (getRidKey a).firstEight = getRidKey b := by
  have ht : 86400 ∣ t := by
    rcases h with h | h
    · rw [hb] at h
      cases h
    · exact h
  rw [getRidKey_firstEight, getRidKey_firstEight, getRidKey_of_date hb,
    getRidKey_of_date (addDuration_isDate.trans hb), addDuration_day ht, addDuration_day ht]
  simp

/-- The new start is the old one, moved by their difference. -/
theorem addDuration_subtractDate :
    a.addDuration ((a.addDuration x).subtractDate a) = a.addDuration x := by
  cases a with
  | dateTime s => exact congrArg dateTime (by simp [subtractDate,
      addDuration, toUnixTime])
  | date d =>
    simp only [subtractDate, addDuration, toUnixTime]
    rw [← Int.mul_sub, add_sub_cancel_left, Int.mul_tdiv_cancel_left _ (by decide)]

/-- A date without a time is moved by whole days. -/
theorem dvd_subtractDate_of_date (ha : a.isDate = true) :
    86400 ∣ (a.addDuration x).subtractDate a := by
  cases a with
  | dateTime s => cases ha
  | date d =>
    simp only [subtractDate, addDuration, toUnixTime]
    rw [← Int.mul_sub]
    exact Int.dvd_mul_right _ _

theorem dvd_subtractDate (hx : 86400 ∣ x) : 86400 ∣ (a.addDuration x).subtractDate a := by
  cases a with
  | dateTime s =>
    simp only [subtractDate, addDuration, toUnixTime,
      add_sub_cancel_left]
    exact hx
  | date d => exact dvd_subtractDate_of_date rfl

end Dates

/-! ## Moved events -/

/-- `startDate` and `endDate`, moved. -/
def CalEvent.move (item : CalEvent) (timeDiff : ℤ) : CalEvent :=
  ⟨item.startDate.addDuration timeDiff, item.endDate.addDuration timeDiff⟩

/-- The dates of an event are moved exactly. -/
structure CalEvent.MovesBy (item : CalEvent) (timeDiff : ℤ) : Prop where
  startDate : item.startDate.MovesBy timeDiff
  endDate : item.endDate.MovesBy timeDiff

section Events

variable {item : CalEvent} {t : ℤ}

theorem CalEvent.MovesBy.duration (h : item.MovesBy t) :
    (item.move t).duration = item.duration := by
  rw [CalEvent.duration, CalEvent.duration, subtractDate, subtractDate,
    CalEvent.move, h.startDate.toUnixTime, h.endDate.toUnixTime, add_sub_add_right_eq_sub]

theorem CalEvent.MovesBy.createProxy (h : item.MovesBy t) (id : CalDateTime) :
    (item.move t).createProxy (id.addDuration t) = (item.createProxy id).moved t := by
  rw [CalEvent.createProxy, h.duration, addDuration_comm]
  rfl

theorem CalEvent.MovesBy.inRange (h : item.MovesBy t) (a : ℤ) (b : Option ℤ) :
    (item.move t).InRange (a + t) (b.map fun b => b + t) ↔ item.InRange a b := by
  have hstart : (item.move t).startDate.toUnixTime = item.startDate.toUnixTime + t :=
    h.startDate.toUnixTime
  have hend : (item.move t).endDate.toUnixTime = item.endDate.toUnixTime + t :=
    h.endDate.toUnixTime
  simp only [CalEvent.InRange, hstart, hend, add_left_inj, add_le_add_iff_right,
    add_lt_add_iff_right, Option.mem_def, Option.map_eq_some_iff, forall_exists_index, and_imp,
    forall_apply_eq_imp_iff₂]

theorem toUnixTime_moved_range (b : Option CalDateTime) :
    (b.map fun b => b.ensureDateTime.addDuration t).map toUnixTime =
      (b.map toUnixTime).map fun b => b + t := by
  cases b with
  | none => rfl
  | some b =>
    simp only [Option.map_some, movesBy_ensureDateTime.toUnixTime, ensureDateTime_toUnixTime]

/-- `checkIfInRange` of a moved event. -/
theorem CalEvent.MovesBy.checkIfInRange (h : item.MovesBy t) (a : CalDateTime)
    (b : Option CalDateTime) :
    (item.move t).checkIfInRange (some (a.ensureDateTime.addDuration t))
        (b.map fun b => b.ensureDateTime.addDuration t) =
      (item.checkIfInRange (some a) b).map fun date => date.addDuration t := by
  refine Option.ext fun occDate => ?_
  rw [checkIfInRange_eq_some_iff, toUnixTime_moved_range, movesBy_ensureDateTime.toUnixTime,
    ensureDateTime_toUnixTime, h.inRange, Option.map_eq_some_iff]
  simp only [checkIfInRange_eq_some_iff, and_assoc, exists_and_left, exists_eq_left]
  rw [@eq_comm _ occDate]
  rfl

end Events

/-! ## The loops of the expansion -/

section Relation

variable {α σ τ ω : Type*} {R : σ → τ → Prop}

theorem rel_bind {S : ω → ω → Prop} {f : σ → Option ω} {g : τ → Option ω} {s : Option σ}
    {s' : Option τ} (hs : Option.Rel R s s')
    (hstep : ∀ s s', R s s' → Option.Rel S (f s) (g s')) :
    Option.Rel S (s.bind f) (s'.bind g) := by
  cases hs with
  | none => exact .none
  | some h => exact hstep _ _ h

theorem rel_map {S : ω → ω → Prop} {f : σ → ω} {g : τ → ω} {s : Option σ} {s' : Option τ}
    (hs : Option.Rel R s s') (hstep : ∀ s s', R s s' → S (f s) (g s')) :
    Option.Rel S (s.map f) (s'.map g) := by
  cases hs with
  | none => exact .none
  | some h => exact .some (hstep _ _ h)

/-- A result that is related to another one by a function. -/
theorem eq_map_of_rel {f : ω → ω} {s s' : Option ω}
    (hs : Option.Rel (fun x y => y = f x) s s') : s' = s.map f := by
  cases hs with
  | none => rfl
  | some h => exact congrArg some h

theorem foldlM_rel {R : σ → σ → Prop} {f g : σ → α → Option σ} {l : List α}
    (hstep : ∀ x ∈ l, ∀ s s', R s s' → Option.Rel R (f s x) (g s' x)) {s s' : σ}
    (hs : R s s') : Option.Rel R (l.foldlM f s) (l.foldlM g s') := by
  induction l generalizing s s' with
  | nil => exact .some hs
  | cons x l ih =>
    obtain ⟨hx, hl⟩ := forall_mem_cons.mp hstep
    exact rel_bind (hx s s' hs) fun _ _ h => ih hl h

end Relation

open CalRecurrenceItem

theorem getOccurrences_moved (startDate : CalDateTime) {mDate rangeStart : CalDateTime}
    {rangeEnd : Option CalDateTime} {t : ℤ} (hdate : mDate.MovesBy t)
    (hstart : rangeStart.MovesBy t) (hend : ∀ b ∈ rangeEnd, b.MovesBy t) (isNegative : Bool)
    (maxCount : ℕ) :
    (date isNegative (mDate.addDuration t)).getOccurrences
        (startDate.addDuration t) (rangeStart.addDuration t)
        (rangeEnd.map fun b => b.addDuration t) maxCount =
      ((date isNegative mDate).getOccurrences startDate rangeStart rangeEnd
        maxCount).map fun date => date.addDuration t := by
  have hbefore : (∀ b ∈ rangeEnd.map fun b => b.addDuration t,
      (mDate.addDuration t).compare b < 0) ↔ ∀ b ∈ rangeEnd, mDate.compare b < 0 := by
    cases rangeEnd with
    | none => simp
    | some b =>
      have hb := hdate.compare (hend b rfl)
      simp [hb]
  simp only [getOccurrences, hdate.compare hstart, hbefore]
  split_ifs
  · rfl
  · rfl

namespace CalRecurrenceInfo

def MovedKeys (timeDiff : ℤ) (keys keys' : List RidKey) : Prop :=
  ∃ ids : List CalDateTime, keys = ids.map getRidKey ∧
    keys' = ids.map fun id => getRidKey (id.addDuration timeDiff)

namespace MovedKeys

variable {t : ℤ} {keys keys' : List RidKey}

section

variable (h : MovedKeys t keys keys')

include h

/-- The key of a moved date is there when that of the date is. -/
theorem mem_iff {id : CalDateTime} :
    getRidKey (id.addDuration t) ∈ keys' ↔ getRidKey id ∈ keys := by
  obtain ⟨ids, rfl, rfl⟩ := h
  rw [mem_map, mem_map]
  simp only [getRidKey_addDuration_inj]

theorem eq_nil_iff : keys' = [] ↔ keys = [] := by
  obtain ⟨ids, rfl, rfl⟩ := h
  rw [map_eq_nil_iff, map_eq_nil_iff]

theorem cons (id : CalDateTime) :
    MovedKeys t (getRidKey id :: keys) (getRidKey (id.addDuration t) :: keys') := by
  obtain ⟨ids, rfl, rfl⟩ := h
  exact ⟨id :: ids, rfl, rfl⟩

theorem filter {p p' : RidKey → Bool}
    (hp : ∀ id : CalDateTime, p' (getRidKey (id.addDuration t)) = p (getRidKey id)) :
    MovedKeys t (keys.filter p) (keys'.filter p') := by
  obtain ⟨ids, rfl, rfl⟩ := h
  refine ⟨ids.filter fun id => p (getRidKey id), filter_map, ?_⟩
  rw [filter_map]
  exact congrArg _ (filter_congr fun id _ => hp id)

end

end MovedKeys

def RidDate.move (timeDiff : ℤ) (date : RidDate) : RidDate :=
  ⟨date.id.addDuration timeDiff, date.rstart.addDuration timeDiff⟩

namespace Expansion

/-- The second expansion is the first one, moved. -/
structure Moved (timeDiff : ℤ) (found found' : Expansion) : Prop where
  dates : found'.dates = found.dates.map (RidDate.move timeDiff)
  movesBy : ∀ e ∈ found.dates, e.id.MovesBy timeDiff ∧ e.rstart.MovesBy timeDiff
  occurrenceMap : MovedKeys timeDiff found.occurrenceMap found'.occurrenceMap

variable {t : ℤ} {found found' : Expansion}

namespace Moved

theorem nil : Moved t ⟨[], []⟩ ⟨[], []⟩ where
  dates := rfl
  movesBy e he := by cases he
  occurrenceMap := ⟨[], rfl, rfl⟩

section

variable (h : Moved t found found')

include h

theorem cons (id : CalDateTime) :
    Moved t { found with occurrenceMap := getRidKey id :: found.occurrenceMap }
      { found' with occurrenceMap := getRidKey (id.addDuration t) :: found'.occurrenceMap } :=
  ⟨h.dates, h.movesBy, h.occurrenceMap.cons id⟩

theorem insert {date : RidDate} (hdate : date.id.MovesBy t ∧ date.rstart.MovesBy t) :
    Option.Rel (Moved t) (found.insert date) (found'.insert (date.move t)) := by
  have hsame : binaryInsert found.dates date
      (fun e f => ridDateSortComptor (e.move t) (f.move t)) false =
      binaryInsert found.dates date ridDateSortComptor false :=
    binaryInsert_congr fun e he => hdate.2.compare (h.movesBy e he).2
  rw [Expansion.insert, Expansion.insert, h.dates, binaryInsert_map, hsame]
  cases hinsert : binaryInsert found.dates date ridDateSortComptor false with
  | none => exact .none
  | some result =>
    refine .some ⟨rfl, fun e he => ?_, h.occurrenceMap⟩
    rcases mem_of_binaryInsert hinsert he with he | rfl
    · exact h.movesBy e he
    · exact hdate

theorem addException {item : CalOccurrence} (hid : item.recurrenceId.MovesBy t)
    (hitem : item.toCalEvent.MovesBy t) (a : CalDateTime) (b : Option CalDateTime) :
    Option.Rel (Moved t) (found.addException a b item)
      (found'.addException (a.ensureDateTime.addDuration t)
        (b.map fun b => b.ensureDateTime.addDuration t) (item.moved t)) := by
  have hrange := hitem.checkIfInRange a b
  have hevent : (item.moved t).toCalEvent = item.toCalEvent.move t := rfl
  rw [Expansion.addException, Expansion.addException, hevent, hrange]
  cases hin : item.checkIfInRange (some a) b with
  | none => exact .some (h.cons item.recurrenceId)
  | some occDate =>
    obtain ⟨-, rfl⟩ := checkIfInRange_eq_some_iff.mp hin
    exact @insert _ _ _ (h.cons item.recurrenceId) ⟨item.recurrenceId, item.startDate⟩
      ⟨hid, hitem.startDate⟩

theorem addDate {date : CalDateTime} (hdate : date.MovesBy t) :
    Option.Rel (Moved t) (found.addDate date) (found'.addDate (date.addDuration t)) := by
  rw [Expansion.addDate, Expansion.addDate]
  simp only [h.occurrenceMap.mem_iff]
  split_ifs
  · exact .some h
  · exact rel_map (@insert _ _ _ h ⟨date, date⟩ ⟨hdate, hdate⟩) fun _ _ h' => h'.cons date

/-- The body of the loop over the positive dates. -/
theorem addPositive (startDate : CalDateTime) {isNegative : Bool} {mDate : CalDateTime}
    (hdate : mDate.MovesBy t) {searchStart rangeStart : CalDateTime}
    (hsearch : searchStart.MovesBy t) (hrange : rangeStart.MovesBy t)
    {rangeEnd : Option CalDateTime} (hend : ∀ b ∈ rangeEnd, b.MovesBy t) (baseDuration : ℤ)
    (maxCount : ℕ) :
    Option.Rel (Moved t)
      (found.addPositive startDate searchStart rangeStart rangeEnd baseDuration maxCount
        (.date isNegative mDate))
      (found'.addPositive (startDate.addDuration t) (searchStart.addDuration t)
        (rangeStart.addDuration t) (rangeEnd.map fun b => b.addDuration t) baseDuration maxCount
        (.date isNegative (mDate.addDuration t))) := by
  rw [Expansion.addPositive, Expansion.addPositive,
    getOccurrences_moved startDate hdate hsearch hend isNegative maxCount]
  have hcmp : (rangeStart.addDuration t).compare ((mDate.addDuration t).addDuration baseDuration) =
      rangeStart.compare (mDate.addDuration baseDuration) := by
    rw [addDuration_comm]
    exact hrange.compare hdate.addDuration
  generalize hcur : (CalRecurrenceItem.date isNegative mDate).getOccurrences startDate searchStart
    rangeEnd maxCount = cur
  have hcases : cur = [] ∨ cur = [mDate] := by
    rw [← hcur, CalRecurrenceItem.getOccurrences]
    split_ifs
    · exact .inr rfl
    · exact .inl rfl
  rcases hcases with rfl | rfl
  · exact .some h
  · simp only [map_singleton, dropWhile_cons, hcmp]
    split_ifs
    · exact .some h
    · exact rel_bind (h.addDate hdate) fun _ _ h' => .some h'

/-- The entries that are left when a negative date is removed. -/
theorem filter_dates {n : CalDateTime} (hn : n.MovesBy t) :
    found'.dates.filter (fun date => date.id.compare (n.addDuration t) ≠ 0) =
      (found.dates.filter fun date => date.id.compare n ≠ 0).map (RidDate.move t) := by
  rw [h.dates, filter_map]
  refine congrArg _ (filter_congr fun e he => ?_)
  exact congrArg (fun c => decide (c ≠ 0)) ((h.movesBy e he).1.compare hn)

theorem removeDate {n : CalDateTime} (hn : n.MovesBy t) :
    Moved t (found.removeDate n) (found'.removeDate (n.addDuration t)) := by
  have hdates := h.filter_dates hn
  rw [Expansion.removeDate, Expansion.removeDate]
  simp only [addDuration_isDate]
  cases hdate : n.isDate with
  | true =>
    simp only [if_true, foldl_filter]
    have hremove : MovedKeys t
        (found.occurrenceMap.filter fun key => key.firstEight = getRidKey n)
        (found'.occurrenceMap.filter fun key => key.firstEight = getRidKey (n.addDuration t)) :=
      h.occurrenceMap.filter fun id => decide_eq_decide.mpr (firstEight_addDuration hdate hn)
    refine ⟨?_, fun e he => ?_, h.occurrenceMap.filter fun id => ?_⟩
    · simp only [hremove.eq_nil_iff]
      split_ifs
      · exact h.dates
      · exact hdates
    · split_ifs at he
      · exact h.movesBy e he
      · exact h.movesBy e (mem_filter.mp he).1
    · exact decide_eq_decide.mpr (not_congr hremove.mem_iff)
  | false =>
    simp only [Bool.false_eq_true, if_false, h.occurrenceMap.mem_iff]
    split_ifs
    · refine ⟨hdates, fun e he => h.movesBy e (mem_filter.mp he).1,
        h.occurrenceMap.filter fun id => ?_⟩
      exact decide_eq_decide.mpr (not_congr getRidKey_addDuration_inj)
    · exact h

/-- The body of the loop over the negative dates. -/
theorem removeNegative (startDate : CalDateTime) {isNegative : Bool} {mDate : CalDateTime}
    (hdate : mDate.MovesBy t) {searchStart : CalDateTime} (hsearch : searchStart.MovesBy t)
    {rangeEnd : Option CalDateTime} (hend : ∀ b ∈ rangeEnd, b.MovesBy t) (maxCount : ℕ) :
    Moved t (found.removeNegative startDate searchStart rangeEnd maxCount (.date isNegative mDate))
      (found'.removeNegative (startDate.addDuration t) (searchStart.addDuration t)
        (rangeEnd.map fun b => b.addDuration t) maxCount
        (.date isNegative (mDate.addDuration t))) := by
  rw [Expansion.removeNegative, Expansion.removeNegative,
    getOccurrences_moved startDate hdate hsearch hend isNegative maxCount,
    CalRecurrenceItem.getOccurrences]
  split_ifs
  · exact h.removeDate hdate
  · exact h

end

section Loops

variable (moveUntil : ℤ → CalRecurrenceRule → CalRecurrenceRule) {items : List CalRecurrenceItem}
  {searchStart : CalDateTime} {rangeEnd : Option CalDateTime}

section

variable (h : Moved t found found')
    (hitems : ∀ ritem ∈ items, ∃ isNegative mDate, ritem = .date isNegative mDate ∧ mDate.MovesBy t)
    (startDate : CalDateTime) (hsearch : searchStart.MovesBy t)

include h hitems hsearch

theorem foldlM_addPositive {rangeStart : CalDateTime} (hrange : rangeStart.MovesBy t)
    (hend : ∀ b ∈ rangeEnd, b.MovesBy t) (baseDuration : ℤ) (maxCount : ℕ) :
    Option.Rel (Moved t)
      (items.foldlM (Expansion.addPositive startDate searchStart rangeStart rangeEnd baseDuration
        maxCount) found)
      ((items.map (.move moveUntil t)).foldlM (Expansion.addPositive (startDate.addDuration t)
        (searchStart.addDuration t) (rangeStart.addDuration t)
        (rangeEnd.map fun b => b.addDuration t) baseDuration maxCount) found') := by
  rw [foldlM_map]
  refine foldlM_rel (fun ritem hritem _ _ hs => ?_) h
  obtain ⟨isNegative, mDate, rfl, hdate⟩ := hitems ritem hritem
  exact hs.addPositive startDate hdate hsearch hrange hend baseDuration maxCount

theorem foldl_removeNegative (hend : ∀ b ∈ rangeEnd, b.MovesBy t) (maxCount : ℕ) :
    Moved t
      (items.foldl (Expansion.removeNegative startDate searchStart rangeEnd maxCount) found)
      ((items.map (.move moveUntil t)).foldl (Expansion.removeNegative (startDate.addDuration t)
        (searchStart.addDuration t) (rangeEnd.map fun b => b.addDuration t) maxCount) found') := by
  rw [foldl_map]
  refine foldl_rel h fun ritem hritem _ _ hs => ?_
  obtain ⟨isNegative, mDate, rfl, hdate⟩ := hitems ritem hritem
  exact hs.removeNegative startDate hdate hsearch hend maxCount

end

end Loops

theorem take (h : Moved t found found') (n : ℕ) :
    (if n ≠ 0 ∧ found'.dates.length > n then found'.dates.take n else found'.dates) =
      (if n ≠ 0 ∧ found.dates.length > n then found.dates.take n else found.dates).map
        (RidDate.move t) := by
  rw [h.dates, length_map]
  split_ifs
  · exact map_take.symm
  · rfl

end Moved

end Expansion

/-! ## The moved series -/

section Series

variable (moveUntil : ℤ → CalRecurrenceRule → CalRecurrenceRule) {info : CalRecurrenceInfo} {t : ℤ}

/-- The keys of the moved exceptions are different. -/
theorem nodup_moved (t : ℤ) : ((info.mExceptionMap.map fun ex => ex.moved t).map fun item =>
    getRidKey item.recurrenceId).Nodup := by
  have hids : (info.mExceptionMap.map fun item => item.recurrenceId).Nodup :=
    List.Nodup.of_map getRidKey (by rw [map_map]; exact info.nodup)
  have hmoved : (info.mExceptionMap.map fun ex => ex.moved t).map (fun item =>
      getRidKey item.recurrenceId) = (info.mExceptionMap.map fun item => item.recurrenceId).map
        fun id => getRidKey (id.addDuration t) := by
    rw [map_map, map_map]
    rfl
  rw [hmoved]
  exact hids.map (getRidKey_injective.comp addDuration_injective)

variable (info)

def move (timeDiff : ℤ) : CalRecurrenceInfo where
  mBaseItem := info.mBaseItem.move timeDiff
  mRecurrenceItems := info.mRecurrenceItems.map (.move moveUntil timeDiff)
  mExceptionMap := info.mExceptionMap.map fun ex => ex.moved timeDiff
  nodup := nodup_moved timeDiff

/-- The two passes move all dates, but for those of the base item. -/
theorem onStartDateChange_eq (aNewStartTime aOldStartTime : CalDateTime) :
    info.onStartDateChange moveUntil aNewStartTime (some aOldStartTime) =
      { info.move moveUntil (aNewStartTime.subtractDate aOldStartTime) with
        mBaseItem := info.mBaseItem } := by
  rw [onStartDateChange]
  generalize aNewStartTime.subtractDate aOldStartTime = t
  let shifted : CalRecurrenceInfo :=
    { info with mRecurrenceItems := info.mRecurrenceItems.map (.move moveUntil t) }
  have htake : shifted.getExceptionIds.foldl (takeException t) (shifted, []) =
      ({ shifted with mExceptionMap := [], nodup := nodup_nil },
        info.mExceptionMap.map fun ex => ex.moved t) :=
    foldl_takeException t [] info.mExceptionMap shifted rfl
  rw [htake]
  exact foldl_modifyException _ _ (nodup_moved t)

/-- With the setters of the start and the end, all dates are moved. -/
theorem moveTo_eq (x : ℤ) : info.moveTo moveUntil (info.mBaseItem.startDate.addDuration x) =
    info.move moveUntil
      ((info.mBaseItem.startDate.addDuration x).subtractDate info.mBaseItem.startDate) := by
  have hstart := @addDuration_subtractDate info.mBaseItem.startDate x
  rw [moveTo, setStartDate, onStartDateChange_eq]
  rw [move, CalEvent.move, hstart]
  rfl

/-- The recurrence items are positive and negative dates. -/
def OfDates : Prop :=
  ∀ ritem ∈ info.mRecurrenceItems, ∃ isNegative mDate, ritem = .date isNegative mDate

/-- The dates of the series are moved exactly. -/
structure MovesBy (timeDiff : ℤ) : Prop where
  mBaseItem : info.mBaseItem.MovesBy timeDiff
  mRecurrenceItems : ∀ isNegative mDate, .date isNegative mDate ∈ info.mRecurrenceItems →
    mDate.MovesBy timeDiff
  mExceptionMap : ∀ item ∈ info.mExceptionMap,
    item.recurrenceId.MovesBy timeDiff ∧ item.toCalEvent.MovesBy timeDiff

variable {moveUntil} {info}

theorem exceptionAt_move (id : CalDateTime) :
    (info.move moveUntil t).exceptionAt (getRidKey (id.addDuration t)) =
      (info.exceptionAt (getRidKey id)).map fun ex => ex.moved t := by
  rw [exceptionAt, exceptionAt, move, find?_map]
  have hsame : (fun item : CalOccurrence =>
      decide (getRidKey item.recurrenceId = getRidKey (id.addDuration t))) ∘
        (fun ex : CalOccurrence => ex.moved t) =
      fun item => decide (getRidKey item.recurrenceId = getRidKey id) :=
    funext fun ex => decide_eq_decide.mpr getRidKey_addDuration_inj
  rw [hsame]

theorem MovesBy.getOccurrenceFor (h : info.MovesBy t) (id : CalDateTime) :
    (info.move moveUntil t).getOccurrenceFor (id.addDuration t) =
      (info.getOccurrenceFor id).moved t := by
  rw [CalRecurrenceInfo.getOccurrenceFor, CalRecurrenceInfo.getOccurrenceFor, getExceptionFor,
    getExceptionFor, exceptionAt_move]
  cases info.exceptionAt (getRidKey id) with
  | none => exact h.mBaseItem.createProxy id
  | some ex => rfl

theorem filter_move (p : CalRecurrenceItem → Bool)
    (hp : ∀ ritem, p (.move moveUntil t ritem) = p ritem) :
    (info.move moveUntil t).mRecurrenceItems.filter p =
      (info.mRecurrenceItems.filter p).map (.move moveUntil t) := by
  rw [move, filter_map]
  exact congrArg _ (filter_congr fun ritem _ => hp ritem)

section

variable (h : info.MovesBy t) (hitems : info.OfDates) (a : CalDateTime) (b : Option CalDateTime)
    (n : ℕ)

include h hitems

/-- The expansion of the moved series in the moved window. -/
theorem MovesBy.calculateDates :
    (info.move moveUntil t).calculateDates (a.ensureDateTime.addDuration t)
        (b.map fun b => b.ensureDateTime.addDuration t) n =
      (info.calculateDates a b n).map fun dates => dates.map (RidDate.move t) := by
  have hdates : ∀ ritem ∈ info.mRecurrenceItems, ∃ isNegative mDate,
      ritem = .date isNegative mDate ∧ mDate.MovesBy t := fun ritem hritem => by
    obtain ⟨isNegative, mDate, rfl⟩ := hitems ritem hritem
    exact ⟨isNegative, mDate, rfl, h.mRecurrenceItems isNegative mDate hritem⟩
  have hstart := ensureDateTime_of_dateTime (addDuration_isDate.trans ensureDateTime_isDate :
    (a.ensureDateTime.addDuration t).isDate = false)
  have hend : (b.map fun b => b.ensureDateTime.addDuration t).map ensureDateTime =
      (b.map ensureDateTime).map fun b => b.addDuration t := by
    cases b with
    | none => rfl
    | some b =>
      exact congrArg some
        (ensureDateTime_of_dateTime (addDuration_isDate.trans ensureDateTime_isDate))
  have hendmoves : ∀ x ∈ b.map ensureDateTime, x.MovesBy t := fun x hx => by
    obtain ⟨y, -, rfl⟩ := Option.map_eq_some_iff.mp hx
    exact movesBy_ensureDateTime
  have hduration : (info.move moveUntil t).mBaseItem.duration = info.mBaseItem.duration :=
    h.mBaseItem.duration
  have hsearch : (info.move moveUntil t).searchStart (a.ensureDateTime.addDuration t) =
      (info.searchStart a).addDuration t := by
    rw [searchStart, searchStart, hstart, addDuration_comm, hduration]
  have hsearchmoves : (info.searchStart a).MovesBy t := movesBy_ensureDateTime.addDuration
  refine eq_map_of_rel ?_
  rw [CalRecurrenceInfo.calculateDates, CalRecurrenceInfo.calculateDates, hsearch, hend, hstart]
  refine rel_bind (R := Expansion.Moved t) ?_ fun found₁ found₁' hfound₁ => rel_bind
    (R := Expansion.Moved t) ?_ fun found₂ found₂' hfound₂ => ?_
  · -- the exceptions
    rw [move, foldlM_map]
    exact foldlM_rel (fun item hitem _ _ hs => hs.addException (h.mExceptionMap item hitem).1
      (h.mExceptionMap item hitem).2 a b) .nil
  · -- the base item
    have hbase : (info.move moveUntil t).mBaseItem.checkIfInRange
        (some (a.ensureDateTime.addDuration t)) (b.map fun b => b.ensureDateTime.addDuration t) =
          (info.mBaseItem.checkIfInRange (some a) b).map fun date => date.addDuration t :=
      h.mBaseItem.checkIfInRange a b
    rw [hbase]
    cases hin : info.mBaseItem.checkIfInRange (some a) b with
    | none => exact .some hfound₁
    | some baseOccDate =>
      obtain ⟨-, rfl⟩ := checkIfInRange_eq_some_iff.mp hin
      exact hfound₁.addDate h.mBaseItem.startDate
  · have hpositive : (info.move moveUntil t).mPositiveRules =
        info.mPositiveRules.map (.move moveUntil t) :=
      filter_move _ fun ritem => by cases ritem <;> rfl
    have hnegative : (info.move moveUntil t).mNegativeRules =
        info.mNegativeRules.map (.move moveUntil t) :=
      filter_move _ fun ritem => by cases ritem <;> rfl
    simp only [hduration, hpositive, hnegative, Option.isSome_map]
    refine rel_map (R := Expansion.Moved t) ?_ fun found₃ found₃' hfound₃ => ?_
    · -- the positive dates
      exact hfound₂.foldlM_addPositive moveUntil
        (fun ritem hritem => hdates ritem (mem_filter.mp hritem).1) info.mBaseItem.startDate
        hsearchmoves movesBy_ensureDateTime hendmoves info.mBaseItem.duration _
    · -- the negative dates
      exact (hfound₃.foldl_removeNegative moveUntil
        (fun ritem hritem => hdates ritem (mem_filter.mp hritem).1) info.mBaseItem.startDate
        hsearchmoves hendmoves _).take n

/-- The occurrences of the moved series in the moved window. -/
theorem MovesBy.getOccurrences :
    (info.move moveUntil t).getOccurrences (a.ensureDateTime.addDuration t)
        (b.map fun b => b.ensureDateTime.addDuration t) n =
      (info.getOccurrences a b n).map fun found => found.map fun item => item.moved t := by
  rw [CalRecurrenceInfo.getOccurrences, CalRecurrenceInfo.getOccurrences,
    h.calculateDates hitems a b n]
  cases info.calculateDates a b n with
  | none => rfl
  | some dates =>
    simp only [Option.map_some, length_map, ← map_take, map_map]
    exact congrArg some (map_congr_left fun date _ => h.getOccurrenceFor date.id)

end

variable (info)

/-- All dates of the series have times. -/
structure HasTimes : Prop where
  mBaseItem : info.mBaseItem.startDate.isDate = false ∧ info.mBaseItem.endDate.isDate = false
  mRecurrenceItems : ∀ isNegative mDate, .date isNegative mDate ∈ info.mRecurrenceItems →
    mDate.isDate = false
  mExceptionMap : ∀ item ∈ info.mExceptionMap, item.recurrenceId.isDate = false ∧
    item.startDate.isDate = false ∧ item.endDate.isDate = false

variable {info}

theorem HasTimes.movesBy (h : info.HasTimes) (t : ℤ) : info.MovesBy t where
  mBaseItem := ⟨.inl h.mBaseItem.1, .inl h.mBaseItem.2⟩
  mRecurrenceItems isNegative mDate hdate := .inl (h.mRecurrenceItems isNegative mDate hdate)
  mExceptionMap item hitem :=
    have hdates := h.mExceptionMap item hitem
    ⟨.inl hdates.1, .inl hdates.2.1, .inl hdates.2.2⟩

theorem movesBy_of_dvd (ht : 86400 ∣ t) : info.MovesBy t where
  mBaseItem := ⟨.inr ht, .inr ht⟩
  mRecurrenceItems _ _ _ := .inr ht
  mExceptionMap _ _ := ⟨.inr ht, .inr ht, .inr ht⟩

variable (info)

/-- The second series is the first one, moved: in the moved window, the occurrences are those of
the window with their recurrence ids, starts and ends moved; and so are the exceptions, each under
the key of its new recurrence id. -/
structure MovesTo (other : CalRecurrenceInfo) (timeDiff : ℤ) : Prop where
  getOccurrences : ∀ (a : CalDateTime) (b : Option CalDateTime) (n : ℕ),
    other.getOccurrences (a.ensureDateTime.addDuration timeDiff)
        (b.map fun b => b.ensureDateTime.addDuration timeDiff) n =
      (info.getOccurrences a b n).map fun found => found.map fun item => item.moved timeDiff
  length : other.mExceptionMap.length = info.mExceptionMap.length
  exceptionAt : ∀ ex ∈ info.mExceptionMap,
    other.exceptionAt (getRidKey (ex.moved timeDiff).recurrenceId) = some (ex.moved timeDiff)

variable {info}

/-- A series of positive and negative dates whose start and end are set to be later by a duration
is moved by it, when it is an all-day series, when the duration is that of whole days or when all
dates have times. -/
theorem moveTo_movesTo (hitems : info.OfDates) (duration : ℤ)
    (hmoves : info.mBaseItem.startDate.isDate = true ∨ 86400 ∣ duration ∨ info.HasTimes) :
    let value := info.mBaseItem.startDate.addDuration duration
    info.MovesTo (info.moveTo moveUntil value) (value.subtractDate info.mBaseItem.startDate) := by
  intro value
  have hmovesBy : info.MovesBy (value.subtractDate info.mBaseItem.startDate) := by
    rcases hmoves with hdate | hdays | htimes
    · exact movesBy_of_dvd (dvd_subtractDate_of_date hdate)
    · exact movesBy_of_dvd (dvd_subtractDate hdays)
    · exact htimes.movesBy _
  rw [moveTo_eq]
  refine ⟨hmovesBy.getOccurrences hitems, length_map _, fun ex hex => ?_⟩
  have hfound : info.exceptionAt (getRidKey ex.recurrenceId) = some ex :=
    getExceptionFor_eq_some_iff.mpr ⟨hex, rfl⟩
  exact (exceptionAt_move ex.recurrenceId).trans (congrArg _ hfound)

end Series

/-! ## Three days in a row -/

/-- An event of an hour at midnight of the days 0, 1 and 2, of which those of the days 1 and 2 are
later by an hour. -/
def laterTwice : CalRecurrenceInfo where
  mBaseItem := ⟨.dateTime 0, .dateTime 3600⟩
  mRecurrenceItems := [.date false (.dateTime 86400), .date false (.dateTime 172800)]
  mExceptionMap := [⟨⟨.dateTime 90000, .dateTime 93600⟩, .dateTime 86400⟩,
    ⟨⟨.dateTime 176400, .dateTime 180000⟩, .dateTime 172800⟩]
  nodup := by decide

theorem laterTwice_ofDates : laterTwice.OfDates := by
  intro ritem hritem
  rcases mem_cons.mp hritem with rfl | hritem
  · exact ⟨false, .dateTime 86400, rfl⟩
  · exact ⟨false, .dateTime 172800, mem_singleton.mp hritem⟩

/-- By a day, the first exception gets the old key of the second one. -/
theorem moveTo_movesTo_laterTwice :
    laterTwice.MovesTo (laterTwice.moveTo (fun _ rule => rule) (.dateTime 86400)) 86400 :=
  moveTo_movesTo laterTwice_ofDates 86400 (.inr (.inl (by decide)))

theorem nodup_noExceptions :
    (([] : List CalOccurrence).map fun item => getRidKey item.recurrenceId).Nodup :=
  .nil

/-- An event of an hour at the last hour of the days 0 and 1, of which the day 1 is removed. -/
def lateEvening : CalRecurrenceInfo where
  mBaseItem := ⟨.dateTime 82800, .dateTime 86400⟩
  mRecurrenceItems := [.date false (.dateTime 169200), .date true (.date 1)]
  mExceptionMap := []
  nodup := nodup_noExceptions

/-- The setter of the start leaves the ends where they are.  And with the end set as well, a day
that is removed stays when the series is moved by two hours. -/
theorem not_movesTo_hours :
    ¬ laterTwice.MovesTo (laterTwice.setStartDate (fun _ rule => rule) (.dateTime 3600)) 3600 ∧
      ¬ lateEvening.MovesTo (lateEvening.moveTo (fun _ rule => rule) (.dateTime 90000)) 7200 := by
  constructor
  · intro h
    exact absurd (h.getOccurrences (.dateTime 0) none 0) (by decide)
  · intro h
    exact absurd (h.getOccurrences (.dateTime 0) none 0) (by decide)

end CalRecurrenceInfo

end CommCentral.Calendar
