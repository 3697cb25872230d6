import CommCentral.MsgView.InsertIndex

/-!
# The rows of a threaded view

A view keeps its rows in three arrays, the keys, the flags and the levels.  Below
the row of a thread it shows the other messages of the thread, or hides them.  The functions are those of
`nsMsgDBView.cpp` and `nsMsgThreadedDBView.cpp`, for a view that is threaded and
not grouped.

* A header keeps the flags that it has in the database, where no bit of a view
  is set but the one of a label, which `MSG_VIEW_FLAG_ISTHREAD` is too.
* Each thread is a tree with a recorded root, and counts its messages right.
* The levels are bytes.
* `NS_QuickSort` permutes the rows.
* Selections, notifications and the cache of headers do not act on the rows.
-/

namespace CommCentral.MsgView

/-! ## Flags -/

namespace MsgMessageFlags

def Elided : ℕ := 0x20

def Ignored : ℕ := 0x40000

end MsgMessageFlags

def MSG_VIEW_FLAG_HASCHILDREN : ℕ := 0x40000000

def MSG_VIEW_FLAG_DUMMY : ℕ := 0x20000000

def MSG_VIEW_FLAG_ISTHREAD : ℕ := 0x8000000

structure RowFlags where
  read : Bool
  ignored : Bool
  elided : Bool
  hasChildren : Bool
  dummy : Bool
  isThread : Bool
  deriving DecidableEq

/-- The flags of a header, with the flag of a read message as `AdjustReadFlag` sets it. -/
def RowFlags.ofHdr (hdr : MsgDBHdr) : RowFlags where
  read := hdr.isRead
  ignored := hdr.flags &&& MsgMessageFlags.Ignored ≠ 0
  elided := hdr.flags &&& MsgMessageFlags.Elided ≠ 0
  hasChildren := hdr.flags &&& MSG_VIEW_FLAG_HASCHILDREN ≠ 0
  dummy := hdr.flags &&& MSG_VIEW_FLAG_DUMMY ≠ 0
  isThread := hdr.flags &&& MSG_VIEW_FLAG_ISTHREAD ≠ 0

/-! ## Threads -/

structure ThreadHdr where
  hdr : MsgDBHdr
  /-- `GetThreadParent`; no key is `nsMsgKey_None`. -/
  threadParent : Option ℕ
  deriving DecidableEq

def ThreadHdr.key (m : ThreadHdr) : ℕ := m.hdr.messageKey

structure MsgThread where
  children : List ThreadHdr
  threadRootKey : ℕ
  ignored : Bool

namespace MsgThread

def numChildren (t : MsgThread) : ℕ := t.children.length

def keys (t : MsgThread) : List ℕ := t.children.map ThreadHdr.key

def getChild (t : MsgThread) (key : ℕ) : Option ThreadHdr := t.children.find? fun m => m.key = key

def isAncestorKilled (t : MsgThread) : ℕ → ThreadHdr → Bool
  | ancestorsToCheck, m =>
    if (RowFlags.ofHdr m.hdr).ignored then true
    else if m.threadParent = some m.key then false
    else
      match m.threadParent.bind t.getChild, ancestorsToCheck with
      | none, _ => false
      | some _, 0 => false
      | some parentHdr, ancestors + 1 => isAncestorKilled t ancestors parentHdr

def isKilled (t : MsgThread) (m : ThreadHdr) : Bool := t.isAncestorKilled (t.numChildren - 1) m

end MsgThread

/-- A database: its threads, in the order of `EnumerateThreads`. -/
abbrev MsgDatabase := List MsgThread

namespace MsgDatabase

/-- `GetThreadContainingMsgHdr`, of the header with a key. -/
def getThreadContaining (db : MsgDatabase) (key : ℕ) : Option MsgThread :=
  db.find? fun t => key ∈ t.keys

def getMsgHdrForKey (db : MsgDatabase) (key : ℕ) : Option ThreadHdr :=
  (db.getThreadContaining key).bind fun t => t.getChild key

end MsgDatabase

/-! ## Views -/

structure ThreadedView (κ : Type*) where
  sort : SortInfo κ
  unreadOnly : Bool
  showIgnored : Bool
  wantsThisThread : MsgThread → Bool
  /-- `!m_checkedCustomColumns && CustomColumnsInSortAndNotRegistered()`. -/
  columnsMissing : Bool
  /-- `nsMsgDBView::Sort`, on the keys and the flags. -/
  sortRows : MsgViewSortType → List (ℕ × RowFlags) → List (ℕ × RowFlags)
  sortRows_perm : ∀ sortType rows, (sortRows sortType rows).Perm rows

structure ViewArrays where
  m_keys : List ℕ
  m_flags : List RowFlags
  m_levels : List ℕ
  deriving DecidableEq

namespace ViewArrays

def getSize (a : ViewArrays) : ℕ := a.m_keys.length

/-- `nsTArray::InsertElementsAt`, of other arrays. -/
def insertElementsAt (a : ViewArrays) (index : ℕ) (b : ViewArrays) : ViewArrays where
  m_keys := a.m_keys.take index ++ b.m_keys ++ a.m_keys.drop index
  m_flags := a.m_flags.take index ++ b.m_flags ++ a.m_flags.drop index
  m_levels := a.m_levels.take index ++ b.m_levels ++ a.m_levels.drop index

def insertMsgHdrAt (a : ViewArrays) (index msgKey : ℕ) (flags : RowFlags) (level : ℕ) :
    ViewArrays :=
  if index > a.getSize then a else a.insertElementsAt index ⟨[msgKey], [flags], [level % 256]⟩

def noFlags : RowFlags := ⟨false, false, false, false, false, false⟩

def removeRows (a : ViewArrays) (viewIndex numRows : ℕ) : ViewArrays where
  m_keys := a.m_keys.take viewIndex ++ a.m_keys.drop (viewIndex + numRows)
  m_flags := a.m_flags.take viewIndex ++ a.m_flags.drop (viewIndex + numRows)
  m_levels := a.m_levels.take viewIndex ++ a.m_levels.drop (viewIndex + numRows)

/-- `m_flags[index] = flags`. -/
def setFlags (a : ViewArrays) (index : ℕ) (flags : RowFlags) : ViewArrays :=
  { a with m_flags := a.m_flags.set index flags }

end ViewArrays

/-- The scan of `FindLevelInThread` for the row of an ancestor. -/
def scanUp (a : ViewArrays) (startOfThread parentKey : ℕ) : ℕ → Option ℕ
  | 0 => none
  | indexToTry + 1 =>
    if indexToTry + 1 < startOfThread then none
    else if a.m_keys[indexToTry]? = some parentKey then a.m_levels[indexToTry]?
    else scanUp a startOfThread parentKey indexToTry

/-! ## Threads that are expanded and collapsed -/

/-- The row behind the first row of the thread of a row; behind nothing when there is none. -/
def behindStartOfThread (levels : List ℕ) : ℕ → ℕ
  | 0 => if (levels[0]?).getD 0 ≠ 0 then 0 else 1
  | index + 1 =>
    if (levels[index + 1]?).getD 0 ≠ 0 then behindStartOfThread levels index else index + 2

def countExpandedThread (a : ViewArrays) (index : ℕ) : ℕ :=
  1 + ((a.m_levels.drop (behindStartOfThread a.m_levels index)).takeWhile (· ≠ 0)).length

/-- `ExpansionDelta`, unless it fails. -/
def expansionDelta (db : MsgDatabase) (a : ViewArrays) (index : ℕ) : Option ℤ := do
  let flags ← a.m_flags[index]?
  if flags.elided then
    let key ← a.m_keys[index]?
    let t ← db.getThreadContaining key
    some (t.numChildren - 1)
  else some (-(countExpandedThread a index - 1 : ℤ))

def collapseByIndex (db : MsgDatabase) (a : ViewArrays) (index : ℕ) : ViewArrays :=
  match a.m_flags[index]? with
  | none => a
  | some flags =>
    if flags.elided ∨ ¬ flags.hasChildren then a
    else
      match expansionDelta db a index with
      | none => a
      | some rowDelta =>
        let a := a.setFlags index { flags with elided := true }
        let numRemoved := -rowDelta
        if index + 1 + numRemoved > a.getSize then
          let numRemoved := numRemoved - (index + 1 + numRemoved - a.getSize)
          if numRemoved ≤ 0 then a else a.removeRows (index + 1) numRemoved.toNat
        else a.removeRows (index + 1) numRemoved.toNat

/-! ## A thread that is moved -/

def removeByIndex (a : ViewArrays) (index : ℕ) : ViewArrays := a.removeRows index 1

def viewRows (db : MsgDatabase) (a : ViewArrays) : List ViewRow :=
  (a.m_keys.zip a.m_levels).filterMap fun row =>
    (db.getMsgHdrForKey row.1).map fun m => ⟨m.hdr, row.2⟩

/-- `FindHdr`, without the dummy row of a header. -/
def findHdr (a : ViewArrays) (msgKey : ℕ) : Option ℕ :=
  (a.m_keys.idxOf? msgKey).bind fun viewIndex =>
    if (a.m_flags[viewIndex]?).any RowFlags.dummy then
      ((a.m_keys.drop (viewIndex + 1)).idxOf? msgKey).map (· + (viewIndex + 1))
    else some viewIndex

namespace ThreadedView

variable {κ : Type*} (view : ThreadedView κ) (db : MsgDatabase)

def getInsertIndex (a : ViewArrays) (m : ThreadHdr) : Option ℕ :=
  if a.getSize = 0 then some 0 else getIndexForThread view.sort (viewRows db a) m.hdr

/-- `AddHdr`: the rows, and the index of the new one when there is one. -/
def addHdr (a : ViewArrays) (t : MsgThread) (m : ThreadHdr) : Option (ViewArrays × Option ℕ) :=
  if !view.showIgnored && (t.ignored || t.isKilled m) then some (a, none)
  else
    let flags := RowFlags.ofHdr m.hdr
    let flags := if m.threadParent = none then { flags with isThread := true } else flags
    (view.getInsertIndex db a m).map fun insertIndex =>
      (a.insertMsgHdrAt insertIndex m.key flags 0, some insertIndex)

def childRows (a : ViewArrays) (threadIndex : ℕ) : ViewArrays :=
  let n := ((a.m_levels.drop (threadIndex + 1)).takeWhile (· ≠ 0)).length
  ⟨(a.m_keys.drop (threadIndex + 1)).take n, (a.m_flags.drop (threadIndex + 1)).take n,
    (a.m_levels.drop (threadIndex + 1)).take n⟩

/-- `MoveThreadAt`, unless it does not end. -/
def moveThreadAt (a : ViewArrays) (threadIndex : ℕ) : Option ViewArrays := do
  let saveFlags ← a.m_flags[threadIndex]?
  let key ← a.m_keys[threadIndex]?
  let t ← db.getThreadContaining key
  let threadHdr ← t.getChild key
  let threadIsExpanded := !saveFlags.elided
  let thread := childRows a threadIndex
  let a := if threadIsExpanded then collapseByIndex db a threadIndex else a
  let a := removeByIndex a threadIndex
  let added ← view.addHdr db a t threadHdr
  let newIndex := added.2.or (findHdr added.1 threadHdr.key)
  -- no index is the greatest one, so that the next one is 0
  let a := if threadIsExpanded then
    added.1.insertElementsAt ((newIndex.map (· + 1)).getD 0) thread else added.1
  some (a.setFlags (newIndex.getD 0) saveFlags)

end ThreadedView

/-! ## Consistent rows -/

structure RowsConsistent (a : ViewArrays) : Prop where
  flags_length : a.m_flags.length = a.m_keys.length
  levels_length : a.m_levels.length = a.m_keys.length
  /-- The first row is the first one of a thread. -/
  first : ∀ level, a.m_levels[0]? = some level → level = 0
  nodup : a.m_keys.Nodup
  /-- Behind an elided row, there is another thread. -/
  elided : ∀ i flags, a.m_flags[i]? = some flags → flags.elided = true →
    ∀ level, a.m_levels[i + 1]? = some level → level = 0

end CommCentral.MsgView
