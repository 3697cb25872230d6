import Mathlib.Algebra.Order.Group.Int
import Mathlib.Data.List.Basic

/-!
# The columns of a day

`computeEventMap` of `calendar/base/content/calendar-event-column.js` lays out
the events of a day.  A *blob* is a run of events without a time between them at
which there is none; its events stand in columns beside each other.

* An event has the start and the end that are chosen from its dates, and tasks
  have them too.  Times are points of native time, in one time zone.
* `sort` is stable.
* A column that does not exist is not assigned to; this would be `none`.
-/

namespace CommCentral.Calendar

/-- An event, with the dates that `computeEventMap` takes from it. -/
structure DayEvent (ι : Type*) where
  hashId : ι
  /-- `startDate || entryDate || dueDate`. -/
  startDate : ℤ
  /-- `endDate || dueDate || entryDate`. -/
  endDate : ℤ
  deriving DecidableEq

/-- An entry of `mEventInfos`. -/
structure EventInfo (ι : Type*) where
  event : DayEvent ι
  layoutStart : ℤ
  layoutEnd : ℤ
  deriving DecidableEq

structure BlobEntry (ι : Type*) where
  itemInfo : EventInfo ι
  startCol : ℕ
  colSpan : ℕ
  deriving DecidableEq

structure Blob (ι : Type*) where
  blob : List (BlobEntry ι)
  totalCols : ℕ
  deriving DecidableEq

/-- The variables of `computeEventMap`. -/
structure EventMap (ι : Type*) where
  blobs : List (Blob ι)
  currentBlob : List (BlobEntry ι)
  colEndArray : List (EventInfo ι)
  latestItemEnd : Option ℤ

def layoutInfo {ι : Type*} (mMinDuration : ℤ) (event : DayEvent ι) : EventInfo ι :=
  let secEnd := event.startDate + mMinDuration
  ⟨event, event.startDate, if secEnd > event.endDate then secEnd else event.endDate⟩

/-- `sortByStart`, as far as its sign is concerned. -/
def sortByStart {ι : Type*} (aEventInfo bEventInfo : EventInfo ι) : ℤ :=
  let startComparison := aEventInfo.layoutStart - bEventInfo.layoutStart
  if startComparison = 0 then bEventInfo.layoutEnd - aEventInfo.layoutEnd else startComparison

def fillColumns {ι : Type*} (colEndArray : List (EventInfo ι)) (low high : ℕ)
    (itemInfo : EventInfo ι) : List (EventInfo ι) :=
  colEndArray.mapIdx fun k other => if low ≤ k ∧ k < high then itemInfo else other

namespace EventMap

variable {ι : Type*} [DecidableEq ι]

/-- `latestItemEnd` with an item. -/
def latest (latestItemEnd : ℤ) (curItemInfo : EventInfo ι) : Option ℤ :=
  some (if curItemInfo.layoutEnd > latestItemEnd then curItemInfo.layoutEnd else latestItemEnd)

/-- Step 1: an item in the open columns from `j` on. -/
def intoOpenColumns (m : EventMap ι) (latestItemEnd : ℤ) (curItemInfo : EventInfo ι) (j : ℕ) :
    EventMap ι :=
  let lastCol := j + 1 + ((m.colEndArray.drop (j + 1)).takeWhile fun other =>
    other.layoutEnd ≤ curItemInfo.layoutStart).length
  { m with
    currentBlob := m.currentBlob ++ [⟨curItemInfo, j, lastCol - j⟩]
    colEndArray := fillColumns m.colEndArray j lastCol curItemInfo
    latestItemEnd := latest latestItemEnd curItemInfo }

/-- Step 2: an item in all but the first column of the one that is last in column `j`. -/
def intoSharedColumns (m : EventMap ι) (latestItemEnd : ℤ) (curItemInfo : EventInfo ι) (j : ℕ) :
    Option (EventMap ι) :=
  m.colEndArray[j]?.bind fun last =>
    match m.currentBlob.findIdx? fun entry => entry.itemInfo.event.hashId = last.event.hashId with
    | none => some m
    | some blobKey =>
      m.currentBlob[blobKey]?.bind fun entry =>
        let spanOfShrunkItem := entry.colSpan
        if j + spanOfShrunkItem - 1 ≤ m.colEndArray.length then
          some { m with
            currentBlob := m.currentBlob.set blobKey ⟨entry.itemInfo, entry.startCol, 1⟩ ++
              [⟨curItemInfo, entry.startCol + 1, spanOfShrunkItem - 1⟩]
            colEndArray :=
              fillColumns m.colEndArray j (j + spanOfShrunkItem - 1) curItemInfo
            latestItemEnd := latest latestItemEnd curItemInfo }
        else none

def intoNewColumn (m : EventMap ι) (latestItemEnd : ℤ) (curItemInfo : EventInfo ι) : EventMap ι :=
  let lastColNum := m.colEndArray.length
  { m with
    currentBlob := (m.currentBlob.map fun entry =>
      if entry.startCol + entry.colSpan = lastColNum ∧
          entry.itemInfo.layoutEnd ≤ curItemInfo.layoutStart then
        ⟨entry.itemInfo, entry.startCol, entry.colSpan + 1⟩
      else entry) ++ [⟨curItemInfo, lastColNum, 1⟩]
    colEndArray := m.colEndArray ++ [curItemInfo]
    latestItemEnd := latest latestItemEnd curItemInfo }

def openColumn (colEndArray : List (EventInfo ι)) (layoutStart : ℤ) : Option ℕ :=
  colEndArray.findIdx? fun other => other.layoutEnd ≤ layoutStart

/-- The first column with the same last item as the column before it. -/
def sharedColumn (colEndArray : List (EventInfo ι)) : Option ℕ :=
  ((colEndArray.zip colEndArray.tail).findIdx? fun (before, last) =>
    last.event.hashId = before.event.hashId).map (· + 1)

def placeItem (m : EventMap ι) (latestItemEnd : ℤ) (curItemInfo : EventInfo ι) :
    Option (EventMap ι) :=
  match openColumn m.colEndArray curItemInfo.layoutStart with
  | some j => some (m.intoOpenColumns latestItemEnd curItemInfo j)
  | none =>
    match sharedColumn m.colEndArray with
    | some j => m.intoSharedColumns latestItemEnd curItemInfo j
    | none => some (m.intoNewColumn latestItemEnd curItemInfo)

def step (m : EventMap ι) (curItemInfo : EventInfo ι) : Option (EventMap ι) :=
  let latestItemEnd := m.latestItemEnd.getD curItemInfo.layoutEnd
  let m :=
    if m.currentBlob ≠ [] ∧ curItemInfo.layoutStart ≥ latestItemEnd then
      { m with
        blobs := m.blobs ++ [⟨m.currentBlob, m.colEndArray.length⟩]
        currentBlob := []
        colEndArray := [] }
    else m
  m.placeItem latestItemEnd curItemInfo

end EventMap

def computeEventMap {ι : Type*} [DecidableEq ι] (mMinDuration : ℤ)
    (mEventInfos : List (DayEvent ι)) : Option (List (Blob ι)) :=
  let mEventInfos := (mEventInfos.map (layoutInfo mMinDuration)).mergeSort fun a b =>
    sortByStart a b ≤ 0
  (mEventInfos.foldlM EventMap.step ⟨[], [], [], none⟩).map fun m =>
    m.blobs ++ [⟨m.currentBlob, m.colEndArray.length⟩]

end CommCentral.Calendar
