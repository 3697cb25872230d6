import CommCentral.Calendar.BinarySearch

/-!
# Recurrence information

`calculateDates` and `getNextOccurrence` of
`calendar/base/src/CalRecurrenceInfo.jsm` with `checkIfInRange` of
`calItemUtils.jsm`, `CalRecurrenceDate.jsm` and the dates of `calDateTime.js`.

* Everything is in UTC.  A date with a time is a number of seconds, a date
  without one is a number of days.
* A recurrence id is looked up under its text.  Eight digits stand for the day,
  here an integer, and the rest for the time of the day.
* The iteration of a rule is that of the calendar library.  A rule is given by
  its two methods.
* An event has a start, so it has an end (`CalEvent.endDate`).
* `calculateDates` is `none` when a binary search does not come to an end.
-/

namespace CommCentral.Calendar

/-! ## Dates -/

/-- `calIDateTime`, in UTC. -/
inductive CalDateTime where
  | dateTime (time : ℤ)
  | date (day : ℤ)
  deriving DecidableEq, Repr

namespace CalDateTime

def isDate : CalDateTime → Bool
  | dateTime _ => false
  | date _ => true

def toUnixTime : CalDateTime → ℤ
  | dateTime time => time
  | date day => 86400 * day

/-- The year, month and day. -/
def day : CalDateTime → ℤ
  | dateTime time => time / 86400
  | date day => day

/-- Less, equal or greater. -/
def cmp (a b : ℤ) : ℤ := if a > b then 1 else if b > a then -1 else 0

/-- `compare`.  A date is equal to all times of its day. -/
def compare (this aOther : CalDateTime) : ℤ :=
  if this.isDate || aOther.isDate then cmp this.day aOther.day
  else cmp this.toUnixTime aOther.toUnixTime

def ensureDateTime (aDate : CalDateTime) : CalDateTime :=
  if !aDate.isDate then aDate else dateTime aDate.toUnixTime

/-- `addDuration`, of seconds.  Only whole days are added to a date. -/
def addDuration : CalDateTime → ℤ → CalDateTime
  | dateTime time, duration => dateTime (time + duration)
  | date day, duration => date (day + duration.tdiv 86400)

def subtractDate (this aDate : CalDateTime) : ℤ := this.toUnixTime - aDate.toUnixTime

end CalDateTime

/-- The text of a date in UTC. -/
structure RidKey where
  day : ℤ
  time : Option ℤ
  deriving DecidableEq, Repr

def getRidKey : CalDateTime → RidKey
  | .dateTime time => ⟨time / 86400, some (time % 86400)⟩
  | .date day => ⟨day, none⟩

/-- `substring(0, 8)`. -/
def RidKey.firstEight (key : RidKey) : RidKey := ⟨key.day, none⟩

/-! ## Events -/

structure CalEvent where
  startDate : CalDateTime
  endDate : CalDateTime
  deriving DecidableEq, Repr

/-- An event that stands for one date of a series. -/
structure CalOccurrence extends CalEvent where
  recurrenceId : CalDateTime
  deriving DecidableEq, Repr

namespace CalEvent

def duration (item : CalEvent) : ℤ := item.endDate.subtractDate item.startDate

def createProxy (item : CalEvent) (aRecurrenceId : CalDateTime) : CalOccurrence :=
  ⟨⟨aRecurrenceId, aRecurrenceId.addDuration item.duration⟩, aRecurrenceId⟩

/-- `checkIfInRange` of an event, which returns its start. -/
def checkIfInRange (item : CalEvent) (rangeStart rangeEnd : Option CalDateTime) :
    Option CalDateTime :=
  let start := item.startDate.ensureDateTime
  let «end» := item.endDate.ensureDateTime
  if start.compare «end» = 0 then
    if (∀ queryStart ∈ rangeStart, start.compare queryStart.ensureDateTime ≥ 0) ∧
        ∀ queryEnd ∈ rangeEnd, start.compare queryEnd.ensureDateTime < 0 then
      some item.startDate
    else none
  else if (∀ queryEnd ∈ rangeEnd, start.compare queryEnd.ensureDateTime < 0) ∧
      ∀ queryStart ∈ rangeStart, «end».compare queryStart.ensureDateTime > 0 then
    some item.startDate
  else none

end CalEvent

/-! ## Recurrence items -/

/-- `calIRecurrenceRule`, by its methods. -/
structure CalRecurrenceRule where
  isFinite : Bool
  /-- `getOccurrences`, of a start, a range with an open end and a maximal count. -/
  getOccurrences : CalDateTime → CalDateTime → Option CalDateTime → ℕ → List CalDateTime
  getNextOccurrence : CalDateTime → CalDateTime → Option CalDateTime

inductive CalRecurrenceItem where
  /-- `CalRecurrenceDate`. -/
  | date (isNegative : Bool) (date : CalDateTime)
  /-- `calIRecurrenceRule`. -/
  | rule (isNegative : Bool) (rule : CalRecurrenceRule)

namespace CalRecurrenceItem

def isNegative : CalRecurrenceItem → Bool
  | .date isNegative _ => isNegative
  | .rule isNegative _ => isNegative

def isFinite : CalRecurrenceItem → Bool
  | .date _ _ => true
  | .rule _ ritem => ritem.isFinite

def getOccurrences : CalRecurrenceItem → CalDateTime → CalDateTime → Option CalDateTime → ℕ →
    List CalDateTime
  | .date _ mDate, _, aRangeStart, aRangeEnd, _ =>
    if mDate.compare aRangeStart ≥ 0 ∧ ∀ rangeEnd ∈ aRangeEnd, mDate.compare rangeEnd < 0 then
      [mDate]
    else []
  | .rule _ ritem, aStartTime, aRangeStart, aRangeEnd, aMaxCount =>
    ritem.getOccurrences aStartTime aRangeStart aRangeEnd aMaxCount

end CalRecurrenceItem

structure CalRecurrenceInfo where
  mBaseItem : CalEvent
  mRecurrenceItems : List CalRecurrenceItem
  /-- `mExceptionMap`, in the order of insertion. -/
  mExceptionMap : List CalOccurrence
  nodup : (mExceptionMap.map fun item => getRidKey item.recurrenceId).Nodup

namespace CalRecurrenceInfo

variable (info : CalRecurrenceInfo)

def mPositiveRules : List CalRecurrenceItem := info.mRecurrenceItems.filter fun item => !item.isNegative

def mNegativeRules : List CalRecurrenceItem := info.mRecurrenceItems.filter fun item => item.isNegative

/-- The exception under a key of the map. -/
def exceptionAt (key : RidKey) : Option CalOccurrence :=
  info.mExceptionMap.find? fun item => getRidKey item.recurrenceId = key

def getExceptionFor (aRecurrenceId : CalDateTime) : Option CalOccurrence :=
  info.exceptionAt (getRidKey aRecurrenceId)

def getOccurrenceFor (aRecurrenceId : CalDateTime) : CalOccurrence :=
  (info.getExceptionFor aRecurrenceId).getD (info.mBaseItem.createProxy aRecurrenceId)

/-! ## `calculateDates` -/

/-- An entry of `dates`. -/
structure RidDate where
  id : CalDateTime
  rstart : CalDateTime
  deriving DecidableEq, Repr

def ridDateSortComptor (a b : RidDate) : ℤ := a.rstart.compare b.rstart

/-- `dates`, and the keys that are set in `occurrenceMap`. -/
structure Expansion where
  dates : List RidDate
  occurrenceMap : List RidKey

namespace Expansion

/-- `binaryInsert` into `dates`. -/
def insert (found : Expansion) (date : RidDate) : Option Expansion :=
  (binaryInsert found.dates date ridDateSortComptor false).map fun (dates, _) =>
    { found with dates := dates }

/-- The body of the loop over the exceptions. -/
def addException (aRangeStart : CalDateTime) (aRangeEnd : Option CalDateTime) (found : Expansion)
    (item : CalOccurrence) : Option Expansion :=
  let found :=
    { found with occurrenceMap := getRidKey item.recurrenceId :: found.occurrenceMap }
  match item.checkIfInRange (some aRangeStart) aRangeEnd with
  | some occDate => found.insert ⟨item.recurrenceId, occDate⟩
  | none => some found

/-- A date that is its own start is added, unless its key is there. -/
def addDate (found : Expansion) (date : CalDateTime) : Option Expansion :=
  if getRidKey date ∈ found.occurrenceMap then some found
  else
    (found.insert ⟨date, date⟩).map fun found =>
      { found with occurrenceMap := getRidKey date :: found.occurrenceMap }

/-- The body of the loop over the positive rules. -/
def addPositive (startDate searchStart rangeStart : CalDateTime) (rangeEnd : Option CalDateTime)
    (baseDuration : ℤ) (maxCount : ℕ) (found : Expansion) (ritem : CalRecurrenceItem) :
    Option Expansion :=
  let cur_dates := ritem.getOccurrences startDate searchStart rangeEnd maxCount
  let cur_dates := cur_dates.dropWhile fun date =>
    ¬ rangeStart.compare (date.addDuration baseDuration) < 0
  cur_dates.foldlM addDate found

def removeDate (found : Expansion) (dateToRemove : CalDateTime) : Expansion :=
  if dateToRemove.isDate then
    let toRemove := found.occurrenceMap.filter fun key => key.firstEight = getRidKey dateToRemove
    { dates := toRemove.foldl
        (fun dates _ => dates.filter fun date => date.id.compare dateToRemove ≠ 0) found.dates
      occurrenceMap := found.occurrenceMap.filter fun key => key ∉ toRemove }
  else if getRidKey dateToRemove ∈ found.occurrenceMap then
    { dates := found.dates.filter fun date => date.id.compare dateToRemove ≠ 0
      occurrenceMap := found.occurrenceMap.filter fun key => key ≠ getRidKey dateToRemove }
  else found

/-- The body of the loop over the negative rules. -/
def removeNegative (startDate searchStart : CalDateTime) (rangeEnd : Option CalDateTime)
    (maxCount : ℕ) (found : Expansion) (ritem : CalRecurrenceItem) : Expansion :=
  (ritem.getOccurrences startDate searchStart rangeEnd maxCount).foldl removeDate found

end Expansion

/-- The start of the search, moved back by the duration of the base item. -/
def searchStart (aRangeStart : CalDateTime) : CalDateTime :=
  aRangeStart.ensureDateTime.addDuration (-info.mBaseItem.duration)

def calculateDates (aRangeStart : CalDateTime) (aRangeEnd : Option CalDateTime) (aMaxCount : ℕ) :
    Option (List RidDate) :=
  let rangeStart := aRangeStart.ensureDateTime
  let rangeEnd := aRangeEnd.map CalDateTime.ensureDateTime
  let searchStart := info.searchStart aRangeStart
  let startDate := info.mBaseItem.startDate
  let maxCount := if rangeEnd.isSome then 0 else aMaxCount
  (info.mExceptionMap.foldlM (Expansion.addException aRangeStart aRangeEnd) ⟨[], []⟩).bind
    fun found =>
  (match info.mBaseItem.checkIfInRange (some aRangeStart) aRangeEnd with
    | some baseOccDate => found.addDate baseOccDate
    | none => some found).bind fun found =>
  (info.mPositiveRules.foldlM (Expansion.addPositive startDate searchStart rangeStart rangeEnd
    info.mBaseItem.duration maxCount) found).map fun found =>
  let dates := (info.mNegativeRules.foldl (Expansion.removeNegative startDate searchStart rangeEnd
    maxCount) found).dates
  if aMaxCount ≠ 0 ∧ dates.length > aMaxCount then dates.take aMaxCount else dates

/-! ## `getNextOccurrence` -/

/-- The keys that are set in `negMap`. -/
def negMap : List RidKey :=
  let startDate := info.mBaseItem.startDate
  (info.mNegativeRules.filter CalRecurrenceItem.isFinite).flatMap fun ritem =>
    (ritem.getOccurrences startDate startDate none 0).map getRidKey

/-- The recurrence id is that of an exception, or was removed. -/
def isInvalid (rid : CalDateTime) : Bool :=
  let nextKey := getRidKey rid
  (nextKey.firstEight ∈ info.negMap || nextKey ∈ info.negMap) ||
    ((info.exceptionAt nextKey.firstEight).isSome || (info.exceptionAt nextKey).isSome)

/-- What the search knows after some positive rules of a round. -/
structure Search where
  /-- `nextOccurrences`, as far as they are known in this round. -/
  nextOccurrences : List (Option CalDateTime)
  invalidOccurrences : ℕ
  minOccRid : Option CalDateTime

/-- The next date of a positive rule, and whether there cannot be one. -/
def nextDate (aTime : CalDateTime) : CalRecurrenceItem → Option CalDateTime →
    Option CalDateTime × Bool
  | .date _ rdate, next =>
    if next.isNone ∧ rdate.compare aTime > 0 then (some rdate, false) else (none, true)
  | .rule _ ritem, next =>
    let searchStart := next.getD info.mBaseItem.startDate
    let searchDate :=
      match next with
      | some date => if date.compare aTime > 0 then date else aTime
      | none => aTime
    (ritem.getNextOccurrence searchStart searchDate, false)

/-- The body of the loop over the positive rules. -/
def searchRule (aTime : CalDateTime) (search : Search) :
    CalRecurrenceItem × Option CalDateTime → Search
  | (ritem, next) =>
    let (next, never) := info.nextDate aTime ritem next
    let invalidOccurrences :=
      search.invalidOccurrences +
        ((if never then 1 else 0) + if next.any info.isInvalid then 1 else 0)
    let minOccRid :=
      match next with
      | none => search.minOccRid
      | some rid =>
        if info.isInvalid rid then search.minOccRid
        else if ∀ minOccRid ∈ search.minOccRid, minOccRid.compare rid > 0 then some rid
        else search.minOccRid
    ⟨search.nextOccurrences ++ [next], invalidOccurrences, minOccRid⟩

/-- The rounds of the search; `none` when it gives up. -/
def searchRounds (aTime : CalDateTime) :
    ℕ → List (Option CalDateTime) → Option CalDateTime → Option (Option CalDateTime)
  | 0, _, _ => none
  | rounds + 1, nextOccurrences, minOccRid =>
    let search := (info.mPositiveRules.zip nextOccurrences).foldl (info.searchRule aTime)
      ⟨[], 0, minOccRid⟩
    if search.invalidOccurrences = info.mPositiveRules.length then
      searchRounds aTime rounds search.nextOccurrences search.minOccRid
    else some search.minOccRid

/-- The body of the loop over the exceptions, on `minOccRid` and `minOccDate`. -/
def earlierException (aTime : CalDateTime) (best : Option (CalDateTime × CalDateTime))
    (exc : CalOccurrence) : Option (CalDateTime × CalDateTime) :=
  if exc.startDate.compare aTime > 0 ∧
      ∀ minOcc ∈ best, exc.startDate.compare minOcc.2 ≤ 0 then
    some (exc.recurrenceId, exc.startDate)
  else best

def getNextOccurrence (aTime : CalDateTime) : Option CalOccurrence :=
  (info.searchRounds aTime 101 (info.mPositiveRules.map fun _ => none) none).bind fun minOccRid =>
    (info.mExceptionMap.foldl (earlierException aTime) (minOccRid.map fun rid => (rid, rid))).map
      fun best => info.getOccurrenceFor best.1

end CalRecurrenceInfo

end CommCentral.Calendar
