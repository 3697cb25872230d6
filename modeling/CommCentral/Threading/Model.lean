import CommCentral.Lib.Machine
import CommCentral.Lib.ParentTree
import CommCentral.Lib.RowOrder
import Mathlib.Algebra.Group.Int.Defs
import Mathlib.Algebra.Group.Nat.Defs
import Mathlib.Data.List.Infix

/-!
# `nsMsgThread`

The tree of one thread of the message database, from
`mailnews/db/msgdb/src/nsMsgThread.cpp`, with what `nsMsgHdr.cpp` decides about
references.  A thread is a table of rows in display order, the key of its root
and the `threadParent` column of the headers.

* `nsMsgKey_None` is `none`.  The number of children is the number of rows.
* The database is the list of the headers it has: the rows of the thread and
  the headers outside it, which every call is given.
* The loops over child indices read the row at each index from the table as it
  is by then, because `AddChild` moves rows while it loops.
* `ThreadNewHdr` clears the thread parent of a header and sets its thread id
  before `AddChild`, so a member never has another thread's id.

Flags, unread and child counters, the newest date and the change notifications
do not act on the tree and are left out.  A string is the list of its
characters without the final null.
-/

namespace CommCentral.Threading

/-- `nsMsgKey`. -/
abbrev MsgKey := ℕ

/-- What threading reads of an `nsMsgHdr`. -/
structure MsgHdr where
  messageKey : MsgKey
  messageId : List Char
  /-- The raw text of the references column, if it is set. -/
  references : Option (List Char)
  date : ℤ
  /-- Whether the subject starts with `Re:` (`nsMsgMessageFlags::HasRe`). -/
  hasRe : Bool
  deriving DecidableEq, Repr

/-! ## References -/

/-- The second half of `GetNextReference`, after a `<`: up to the `>`.  The loop
that found the `<` has stepped over the character after it. -/
def afterLessThan (acceptNonDelimitedReferences : Bool)
    (firstMessageIdChar whitespaceEndedAt : List Char) : List Char × List Char :=
  match firstMessageIdChar.tail.dropWhile (· ≠ '>') with
  | [] => ([], if acceptNonDelimitedReferences then whitespaceEndedAt else [])
  | _ :: ptr => (ptr, firstMessageIdChar.take 1 ++ firstMessageIdChar.tail.takeWhile (· ≠ '>'))

/-- `GetNextReference`: the text from which to go on, and the reference. -/
def getNextReference (acceptNonDelimitedReferences : Bool) :
    Option (List Char) → List Char → List Char × List Char
  | whitespaceEndedAt, [] =>
    ([], if acceptNonDelimitedReferences then whitespaceEndedAt.getD [] else [])
  | whitespaceEndedAt, c :: ptr =>
    if c = ' ' ∨ c = '\r' ∨ c = '\n' ∨ c = '\t' then
      getNextReference acceptNonDelimitedReferences whitespaceEndedAt ptr
    else if c = '<' then
      afterLessThan acceptNonDelimitedReferences ptr (whitespaceEndedAt.getD ptr)
    else
      getNextReference acceptNonDelimitedReferences
        (some (whitespaceEndedAt.getD (c :: ptr))) ptr

/-- The loop of `ParseReferences`, which drops self-references.  The first
argument bounds the passes. -/
def parseReferences (messageId : List Char) : ℕ → Bool → List Char → List (List Char)
  | 0, _, _ => []
  | _ + 1, _, [] => []
  | fuel + 1, atStart, c :: startNextRef =>
    let next := getNextReference atStart none (c :: startNextRef)
    if next.2 ≠ [] ∧ next.2 ≠ messageId then
      next.2 :: parseReferences messageId fuel false next.1
    else parseReferences messageId fuel false next.1

/-- `m_references`. -/
def MsgHdr.stringReferences (hdr : MsgHdr) : List (List Char) :=
  let references := hdr.references.getD []
  parseReferences hdr.messageId references.length true references

/-- `GetNumReferences`, an `uint16_t`. -/
def MsgHdr.numReferences (hdr : MsgHdr) : ℕ := hdr.stringReferences.length % 2 ^ 16

def getMsgHdrForKey (db : List MsgHdr) (key : Option MsgKey) : Option MsgHdr :=
  key.bind fun k => db.find? (·.messageKey = k)

def getMsgHdrForMessageID (db : List MsgHdr) (messageId : List Char) : Option MsgHdr :=
  db.find? (·.messageId = messageId)

/-- The loop of `IsParentOf` over the references, the last one first. -/
def isParentOfLoop (db : List MsgHdr) (messageId : List Char) : List (List Char) → Bool
  | [] => false
  | reference :: references =>
    if reference = messageId then true
    -- a reference to a header that exists hides the ones before it
    else if (getMsgHdrForMessageID db reference).isSome then false
    else isParentOfLoop db messageId references

def MsgHdr.isParentOf (db : List MsgHdr) (hdr possibleChild : MsgHdr) : Bool :=
  isParentOfLoop db hdr.messageId
    (possibleChild.stringReferences.take possibleChild.numReferences).reverse

/-- `IsAncestorOf`: a `strstr` in the raw references. -/
def MsgHdr.isAncestorOf (hdr possibleChild : MsgHdr) : Bool :=
  possibleChild.references.any fun references => decide (hdr.messageId <:+: references)

/-! ## The thread -/

structure MsgThread where
  /-- The rows of `m_mdbTable`, in order. -/
  rows : List MsgHdr
  threadRootKey : Option MsgKey
  threadParent : MsgKey → Option MsgKey

namespace MsgThread

def keys (t : MsgThread) : List MsgKey := t.rows.map (·.messageKey)

def setThreadRootKey (t : MsgThread) (key : Option MsgKey) : MsgThread :=
  { t with threadRootKey := key }

def setThreadParent (t : MsgThread) (key : MsgKey) (parent : Option MsgKey) : MsgThread :=
  { t with threadParent := Function.update t.threadParent key parent }

def moveRow (t : MsgThread) (hdr : MsgHdr) (pos : ℕ) : MsgThread :=
  { t with rows := RowOrder.moveTo t.rows hdr pos }

def addRow (t : MsgThread) (hdr : MsgHdr) : MsgThread :=
  if hdr ∈ t.rows then t else { t with rows := t.rows ++ [hdr] }

/-- `RemoveChild`, which cuts the row from the table. -/
def removeChild (t : MsgThread) (msgKey : MsgKey) : MsgThread :=
  { t with rows := t.rows.eraseP (·.messageKey = msgKey) }

/-! ## Reparenting -/

/-- One row of `ReparentNonReferenceChildrenOf`. -/
def reparentNonReferenceChild (db : List MsgHdr) (oldTopLevelHdr : MsgHdr)
    (newParentKey : MsgKey) (t : MsgThread) (curHdr : MsgHdr) : MsgThread :=
  if t.threadParent curHdr.messageKey = some oldTopLevelHdr.messageKey ∧
      curHdr.messageKey ≠ newParentKey ∧ ¬ oldTopLevelHdr.isParentOf db curHdr then
    t.setThreadParent curHdr.messageKey (some newParentKey)
  else t

def reparentNonReferenceChildrenOf (db : List MsgHdr) (t : MsgThread)
    (oldTopLevelHdr : MsgHdr) (newParentKey : MsgKey) : MsgThread :=
  t.rows.foldl (reparentNonReferenceChild db oldTopLevelHdr newParentKey) t

/-- What one pass of the loop of `RerootThread` leaves. -/
structure AncestorClimb where
  /-- `ancestorHdr`, null when the header was not found. -/
  ancestorHdr : Option MsgHdr
  newRoot : MsgKey
  newHdrAncestor : Option MsgKey

/-- The body of the loop of `RerootThread`. -/
def climbOnce (db : List MsgHdr) (t : MsgThread) (ancestorHdr : MsgHdr) (newRoot : MsgKey) :
    AncestorClimb :=
  let newHdrAncestor := t.threadParent ancestorHdr.messageKey
  if newHdrAncestor ≠ none ∧ newHdrAncestor ≠ t.threadRootKey ∧ newHdrAncestor ≠ some newRoot then
    ⟨getMsgHdrForKey db newHdrAncestor, newHdrAncestor.getD newRoot, newHdrAncestor⟩
  else ⟨some ancestorHdr, newRoot, newHdrAncestor⟩

/-- The exit test of the loop of `RerootThread`. -/
def climbsOn (t : MsgThread) (c : AncestorClimb) : Bool :=
  c.ancestorHdr.isSome ∧ c.newHdrAncestor ≠ none ∧ c.newHdrAncestor ≠ t.threadRootKey ∧
    c.newHdrAncestor ≠ some c.newRoot

/-- The loop of `RerootThread`.  The first argument bounds the passes. -/
def climb (db : List MsgHdr) (t : MsgThread) : ℕ → MsgHdr → MsgKey → Option AncestorClimb
  | 0, _, _ => none
  | fuel + 1, ancestorHdr, newRoot =>
    let c := climbOnce db t ancestorHdr newRoot
    if climbsOn t c then c.ancestorHdr.bind fun a => climb db t fuel a c.newRoot else some c

/-- `RerootThread`, after its loop. -/
def rerootAt (db : List MsgHdr) (t : MsgThread) (oldRoot : MsgHdr) (c : AncestorClimb) :
    MsgThread :=
  let t := reparentNonReferenceChildrenOf db (t.setThreadRootKey (some c.newRoot)) oldRoot c.newRoot
  c.ancestorHdr.elim t fun ancestorHdr =>
    (t.moveRow ancestorHdr 0).setThreadParent ancestorHdr.messageKey none

def rerootThread (db : List MsgHdr) (t : MsgThread) (newParentOfOldRoot oldRoot : MsgHdr) :
    MsgThread :=
  (climb db t (db.length + 1) newParentOfOldRoot newParentOfOldRoot.messageKey).elim t
    (rerootAt db t oldRoot)

/-! ## The root header -/

/-- One row of `ReparentMsgsWithInvalidParent`. -/
def reparentMsgWithInvalidParent (threadParentKey : MsgKey) (t : MsgThread) (curChild : MsgHdr) :
    MsgThread :=
  let childKey := curChild.messageKey
  match t.threadParent childKey with
  | none => t
  | some parentKey =>
    if parentKey ∉ t.keys then t.setThreadParent childKey (some threadParentKey)
    else if childKey = parentKey then
      t.setThreadParent childKey
        (if t.threadRootKey = some childKey then none else t.threadRootKey)
    else t

def reparentMsgsWithInvalidParent (t : MsgThread) (threadParentKey : MsgKey) : MsgThread :=
  t.rows.foldl (reparentMsgWithInvalidParent threadParentKey) t

def getChildHdrForKey (t : MsgThread) (desiredKey : MsgKey) : Option MsgHdr :=
  t.rows.find? (·.messageKey = desiredKey)

/-- The second half of `GetRootHdr`: the recorded root is not a root. -/
def resetRootHdr (t : MsgThread) : MsgThread × Option MsgHdr :=
  match t.rows.find? (t.threadParent ·.messageKey = none) with
  | some curChild =>
    (reparentMsgsWithInvalidParent (t.setThreadRootKey (some curChild.messageKey))
      curChild.messageKey, some curChild)
  | none => (t, t.rows[0]?)

def getRootHdr (t : MsgThread) : MsgThread × Option MsgHdr :=
  match t.threadRootKey with
  | none => (t, t.rows[0]?)
  | some rootKey =>
    match (t.getChildHdrForKey rootKey).filter (t.threadParent ·.messageKey = none) with
    | some root => (t, some root)
    | none => resetRootHdr t

/-! ## `AddChild` -/

/-- The local variables of the loop of `AddChild`. -/
structure AddLoop where
  thread : MsgThread
  hdrMoved : Bool
  moveIndex : ℕ
  parentKeyNeedsSetting : Bool

/-- The first member that the new header is a parent of: the header is moved in
front of it, and may take over as the root. -/
def adoptFirst (db : List MsgHdr) (hdr curHdr : MsgHdr) (childIndex : ℕ) (st : AddLoop) :
    AddLoop :=
  let t := st.thread.moveRow hdr childIndex
  let curParent := getMsgHdrForKey db (t.threadParent curHdr.messageKey)
  match curParent.filter (hdr.isAncestorOf ·) with
  | some curParent =>
    if some curParent.messageKey = t.threadRootKey then
      { st with
        thread := rerootThread db (t.moveRow hdr 0) hdr curParent
        hdrMoved := true
        parentKeyNeedsSetting := false }
    else { st with thread := t, hdrMoved := true }
  | none =>
    if some curHdr.messageKey = t.threadRootKey then
      { st with
        thread := rerootThread db t hdr curHdr
        hdrMoved := true
        parentKeyNeedsSetting := false }
    else { st with thread := t, hdrMoved := true }

/-- A member that the new header is a parent of becomes its child. -/
def adopt (db : List MsgHdr) (hdr curHdr : MsgHdr) (childIndex : ℕ) (st : AddLoop) : AddLoop :=
  -- `msgKey` is set for the first such member only
  let msgKey := if st.hdrMoved then none else some curHdr.messageKey
  let st := if st.hdrMoved then st else adoptFirst db hdr curHdr childIndex st
  { st with
    thread := st.thread.setThreadParent curHdr.messageKey (some hdr.messageKey)
    parentKeyNeedsSetting :=
      if msgKey = some hdr.messageKey then false else st.parentKeyNeedsSetting }

/-- The body of the loop of `AddChild`. -/
def adoptAt (db : List MsgHdr) (hdr : MsgHdr) (st : AddLoop) (childIndex : ℕ) : AddLoop :=
  match st.thread.rows[childIndex]? with
  | none => st
  | some curHdr =>
    if hdr.isParentOf db curHdr then adopt db hdr curHdr childIndex st
    else if st.hdrMoved = false ∧ childIndex > 0 ∧ st.moveIndex = 0 ∧ hdr.date < curHdr.date then
      { st with moveIndex := childIndex }
    else st

/-- The loop of `AddChild`, for threads with fewer than 1000 messages. -/
def adoptChildren (db : List MsgHdr) (hdr : MsgHdr) (numChildren : ℕ) (st : AddLoop) : AddLoop :=
  if numChildren < 1000 then (List.range numChildren).foldl (adoptAt db hdr) st else st

/-- A header that is older than the root and does not start with `Re:` becomes
the root. -/
def makeTopLevel (db : List MsgHdr) (t : MsgThread) (hdr topLevelHdr : MsgHdr) : MsgThread :=
  let t := (rerootThread db t hdr topLevelHdr).moveRow hdr 0
  let t := t.setThreadParent topLevelHdr.messageKey (some hdr.messageKey)
  let t := (t.setThreadRootKey (some hdr.messageKey)).setThreadParent hdr.messageKey none
  reparentNonReferenceChildrenOf db t topLevelHdr hdr.messageKey

/-- The comparison of the new header's date with the root's. -/
def checkTopLevel (db : List MsgHdr) (hdr : MsgHdr) (st : AddLoop) : AddLoop :=
  let root := getRootHdr st.thread
  match root.2.filter (hdr.date < ·.date) with
  | some topLevelHdr =>
    { st with
      thread := makeTopLevel db root.1 hdr topLevelHdr
      hdrMoved := true
      parentKeyNeedsSetting := false }
  | none => { st with thread := root.1 }

/-- The end of `AddChild`: a header that nothing has parented goes under the
root, and one that was not moved is put in date order. -/
def finishChild (hdr : MsgHdr) (numChildren : ℕ) (st : AddLoop) : MsgThread :=
  let t := if numChildren > 0 ∧ st.parentKeyNeedsSetting then
    st.thread.setThreadParent hdr.messageKey st.thread.threadRootKey else st.thread
  if st.hdrMoved = false ∧ st.moveIndex > 0 then t.moveRow hdr st.moveIndex else t

/-- The start of `AddChild`: the header is put into the table and under the one
that it replies to. -/
def enterChild (t : MsgThread) (hdr : MsgHdr) (inReplyTo : Option MsgHdr) : MsgThread :=
  let t := if t.rows.length = 0 then t.setThreadRootKey (some hdr.messageKey) else t
  let t := t.addRow hdr
  inReplyTo.elim t fun m => t.setThreadParent hdr.messageKey (some m.messageKey)

def addChild (others : List MsgHdr) (t : MsgThread) (hdr : MsgHdr) (inReplyTo : Option MsgHdr) :
    MsgThread :=
  let numChildren := t.rows.length
  let t := enterChild t hdr inReplyTo
  let db := t.rows ++ others
  let st := adoptChildren db hdr numChildren ⟨t, false, 0, inReplyTo.isNone⟩
  let st := if numChildren > 0 ∧ hdr.hasRe = false ∧ inReplyTo.isNone then checkTopLevel db hdr st
    else st
  finishChild hdr numChildren st

/-! ## `RemoveChildHdr` -/

/-- One row of `ReparentChildrenOf`, with the current `newParent`: the first
child of a removed root becomes the root and the parent of the others. -/
def reparentChildOf (oldParent : MsgKey) (st : MsgThread × Option MsgKey) (curHdr : MsgHdr) :
    MsgThread × Option MsgKey :=
  if st.1.threadParent curHdr.messageKey = some oldParent then
    let t := st.1.setThreadParent curHdr.messageKey st.2
    if st.2 = none then (t.setThreadRootKey (some curHdr.messageKey), some curHdr.messageKey)
    else (t, st.2)
  else st

def reparentChildrenOf (t : MsgThread) (oldParent : MsgKey) (newParent : Option MsgKey) :
    MsgThread :=
  (t.rows.foldl (reparentChildOf oldParent) (t, newParent)).1

def removeChildHdr (t : MsgThread) (child : MsgHdr) : MsgThread :=
  let key := child.messageKey
  (reparentChildrenOf t key (t.threadParent key)).removeChild key

end MsgThread

/-! ## Runs -/

inductive ThreadOp where
  /-- `AddChild`, when the database has the headers `others` outside the thread. -/
  | addChild (child : MsgHdr) (inReplyTo : Option MsgHdr) (others : List MsgHdr)
  | removeChildHdr (child : MsgHdr)

/-- One call, as `ThreadNewHdr` and `RemoveHeaderFromThread` make it. -/
def step : Machine.Step MsgThread ThreadOp Unit
  | t, .addChild child inReplyTo others =>
    (MsgThread.addChild others (t.setThreadParent child.messageKey none) child inReplyTo, ())
  | t, .removeChildHdr child => (t.removeChildHdr child, ())

/-- What callers keep to: a new header, replying to a member, in a thread below
the limit of the search; and the removal of a member. -/
def ThreadOp.Admissible (t : MsgThread) : ThreadOp → Prop
  | .addChild child inReplyTo _ =>
    child.messageKey ∉ t.keys ∧ (∀ m, inReplyTo = some m → m ∈ t.rows) ∧ t.rows.length < 1000
  | .removeChildHdr child => child ∈ t.rows

/-- The tree that a thread is meant to be: one member, the one recorded as the
root, has no parent; the parent of any other member is a member; and from every
member the parents lead to the root. -/
def TreeInvariant (t : MsgThread) : Prop :=
  t.rows ≠ [] → ∃ root ∈ t.keys, t.threadRootKey = some root ∧
    (∀ k ∈ t.keys, t.threadParent k = none ↔ k = root) ∧
    (∀ k ∈ t.keys, k ≠ root → ∃ p ∈ t.keys, t.threadParent k = some p) ∧
    ∀ k ∈ t.keys, ParentTree.Climbs t.threadParent k root

/-- A reference in angle brackets is the text between them. -/
example : (MsgHdr.mk 1 "me".toList (some "<a@b>\n\t<me> <c>".toList) 0 false).stringReferences =
    ["a@b".toList, "c".toList] := by decide

end CommCentral.Threading
