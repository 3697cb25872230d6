import Mathlib.Data.List.Basic
import Mathlib.Algebra.Group.Int.Defs
import Mathlib.Algebra.Group.Nat.Defs

/-!
# Threads of cross-folder search views

`nsMsgXFViewThread`: the messages of a thread of several folders, as three
arrays of keys, folders and levels.  `AddHdr` looks for the newest reference of
a message that is in the view, puts the message below that parent by date, or
above a child of it, and else above or below the root.  `RemoveChildHdr` takes a
message out.

A folder and a message id are anything with an equality.  An id is never empty,
since `ParseReferences` drops those.  What the hash table of the view has for an
id is a parameter of each call, and so is the database.  A level is written
modulo 256.
-/

namespace CommCentral.MsgView

/-- What a thread reads of an `nsIMsgDBHdr`. -/
structure XFHdr (Folder Id : Type*) where
  folder : Folder
  key : ℕ
  date : ℕ
  read : Bool
  watched : Bool
  messageId : Id
  /-- `GetStringReference`, the oldest one first. -/
  references : List Id

structure XFViewThread (Folder : Type*) where
  keys : List ℕ
  folders : List Folder
  levels : List ℕ
  numChildren : ℤ
  numUnreadChildren : ℤ
  newestMsgDate : ℕ
  watched : Bool

namespace XFViewThread

variable {Folder Id : Type*}

def new : XFViewThread Folder := ⟨[], [], [], 0, 0, 0, false⟩

/-- A message is inserted into the three arrays. -/
def insertAt (s : XFViewThread Folder) (i : ℕ) (hdr : XFHdr Folder Id) (level : ℕ) :
    XFViewThread Folder :=
  { s with
    keys := s.keys.insertIdx i hdr.key
    folders := s.folders.insertIdx i hdr.folder
    levels := s.levels.insertIdx i (level % 256) }

def getChildHdrAt (db : Folder → ℕ → Option (XFHdr Folder Id)) (s : XFViewThread Folder)
    (aIndex : ℕ) : Option (XFHdr Folder Id) :=
  match s.folders[aIndex]?, s.keys[aIndex]? with
  | some folder, some key => db folder key
  | _, _ => none

/-- The references of a message, the newest one first.  Their number is a `uint16_t`. -/
def referencesFromNewest (hdr : XFHdr Folder Id) : List Id :=
  (hdr.references.take (hdr.references.length % 2 ^ 16)).reverse

section Find

variable [DecidableEq Folder] [DecidableEq Id]

/-- `HdrIndex`, without a message at -1. -/
def hdrIndex (s : XFViewThread Folder) (hdr : XFHdr Folder Id) : Option ℕ :=
  (s.keys.zip s.folders).findIdx? fun row => row = (hdr.key, hdr.folder)

/-- The loop of `IsHdrParentOf`. -/
def isIdParentOf (hash : Id → Option (XFHdr Folder Id)) (messageId : Id) : List Id → Bool
  | [] => false
  | reference :: more =>
    if reference = messageId then true
    -- an ancestor that is there comes before
    else if (hash reference).isSome then false
    else isIdParentOf hash messageId more

def isHdrParentOf (hash : Id → Option (XFHdr Folder Id))
    (possibleParent possibleChild : XFHdr Folder Id) : Bool :=
  isIdParentOf hash possibleParent.messageId (referencesFromNewest possibleChild)

/-- The loop of `AddHdr` over the references: the parent and its index. -/
def findParent (hash : Id → Option (XFHdr Folder Id)) (s : XFViewThread Folder) :
    List Id → Option (XFHdr Folder Id × ℕ)
  | [] => none
  | reference :: more =>
    match hash reference with
    | none => findParent hash s more
    | some parent => (hdrIndex s parent).map fun parentIndex => (parent, parentIndex)

/-- The rows behind a child, as far as they are deeper, get deeper. -/
def bumpBehind (childLevel : ℕ) : List ℕ → List ℕ
  | [] => []
  | level :: levels =>
    if childLevel < level then (level + 1) % 256 :: bumpBehind childLevel levels
    else level :: levels

/-- "Bump all the children of the current child, and the child". -/
def bumpAt (insertIndex : ℕ) (levels : List ℕ) : List ℕ :=
  match levels.drop insertIndex with
  | [] => levels
  | childLevel :: behind =>
    levels.take insertIndex ++ (childLevel + 1) % 256 :: bumpBehind childLevel behind

/-- How many rows are behind a sibling, as far as they are deeper. -/
def countBehind (insertLevel : ℕ) : List ℕ → ℕ
  | [] => 0
  | level :: levels => if insertLevel < level then countBehind insertLevel levels + 1 else 0

/-- The loop of `AddHdr` over the rows from the parent on: `insertIndex`, `insertLevel` and the
levels. -/
def placeLoop (db : Folder → ℕ → Option (XFHdr Folder Id)) (hash : Id → Option (XFHdr Folder Id))
    (s : XFViewThread Folder) (newHdr : XFHdr Folder Id) (reparentChildren : Bool)
    (parentIndex parentLevel : ℕ) : ℕ → ℕ → ℕ → ℕ → ℕ × ℕ × List ℕ
  | 0, _, insertIndex, insertLevel => (insertIndex, insertLevel, s.levels)
  | fuel + 1, i, insertIndex, insertLevel =>
    if i < s.keys.length ∧ (i = parentIndex ∨ parentLevel ≤ s.levels.getD i 0) then
      match getChildHdrAt db s i with
      | none =>
        placeLoop db hash s newHdr reparentChildren parentIndex parentLevel fuel (i + 1)
          insertIndex insertLevel
      | some child =>
        if reparentChildren ∧ isHdrParentOf hash newHdr child then
          (i, insertLevel, bumpAt i s.levels)
        else if s.levels.getD i 0 = parentLevel + 1 ∧ newHdr.date < child.date then
          let insertLevel := s.levels.getD i 0
          let insertIndex := i + countBehind insertLevel (s.levels.drop (i + 1))
          if reparentChildren then
            placeLoop db hash s newHdr reparentChildren parentIndex parentLevel fuel (i + 1)
              insertIndex insertLevel
          else (insertIndex, insertLevel, s.levels)
        else
          placeLoop db hash s newHdr reparentChildren parentIndex parentLevel fuel (i + 1)
            insertIndex insertLevel
    else (insertIndex, insertLevel, s.levels)

/-- The loop that adjusts the levels of the old root and its children, from a row on. -/
def adjustRoot : ℕ → ℕ → List ℕ → List ℕ
  | 0, _, levels => levels
  | fuel + 1, i, levels =>
    if i < levels.length then
      adjustRoot fuel (i + 1) (levels.set i ((levels.getD 1 0 + 1) % 256))
    else levels

/-- The counters and flags that `AddHdr` changes first. -/
def countHdr (s : XFViewThread Folder) (newHdr : XFHdr Folder Id) : XFViewThread Folder :=
  { s with
    newestMsgDate := max s.newestMsgDate newHdr.date
    watched := s.watched || newHdr.watched
    numChildren := s.numChildren + 1
    numUnreadChildren := s.numUnreadChildren + if newHdr.read then 0 else 1 }

/-- `AddHdr`: the thread, `whereInserted` and `outParent`. -/
def addHdr (db : Folder → ℕ → Option (XFHdr Folder Id)) (hash : Id → Option (XFHdr Folder Id))
    (s : XFViewThread Folder) (newHdr : XFHdr Folder Id) (reparentChildren : Bool) :
    XFViewThread Folder × ℕ × Option (XFHdr Folder Id) :=
  let s := countHdr s newHdr
  if s.numChildren = 1 then (s.insertAt 0 newHdr 0, 0, none)
  else
    match findParent hash s (referencesFromNewest newHdr) with
    | some (parent, parentIndex) =>
      let parentLevel := s.levels.getD parentIndex 0
      let (insertIndex, insertLevel, levels) :=
        placeLoop db hash s newHdr reparentChildren parentIndex parentLevel s.keys.length
          parentIndex s.keys.length (parentLevel + 1)
      (({ s with levels := levels }).insertAt insertIndex newHdr insertLevel, insertIndex,
        some parent)
    | none =>
      match getChildHdrAt db s 0 with
      | some rootHdr =>
        if isHdrParentOf hash newHdr rootHdr then
          let s := s.insertAt 0 newHdr 0
          ({ s with levels := adjustRoot s.keys.length 1 s.levels }, 0, none)
        else (s.insertAt s.keys.length newHdr 1, s.keys.length, some rootHdr)
      | none => (s.insertAt s.keys.length newHdr 1, s.keys.length, none)

/-- The rows behind a removed one, as far as they are deeper than a level, get less deep. -/
def lowerBehind (levelRemoved : ℕ) : List ℕ → List ℕ
  | [] => []
  | level :: levels =>
    if levelRemoved < level then (level - 1) :: lowerBehind levelRemoved levels
    else level :: levels

/-- `RemoveChildHdr`, and whether there is such a child. -/
def removeChildHdr (s : XFViewThread Folder) (child : XFHdr Folder Id) :
    XFViewThread Folder × Bool :=
  let s := if child.date = s.newestMsgDate then { s with newestMsgDate := 0 } else s
  match hdrIndex s child with
  | none => (s, false)
  | some childIndex =>
    -- the level that is kept is made of the key
    let levelRemoved := s.keys.getD childIndex 0 % 256
    let levels :=
      s.levels.take (childIndex + 1) ++ lowerBehind levelRemoved (s.levels.drop (childIndex + 1))
    ({ s with
        keys := s.keys.eraseIdx childIndex
        folders := s.folders.eraseIdx childIndex
        levels := levels.eraseIdx childIndex
        numUnreadChildren := s.numUnreadChildren - if child.read then 0 else 1
        numChildren := s.numChildren - 1 },
      true)

end Find

end XFViewThread

end CommCentral.MsgView
