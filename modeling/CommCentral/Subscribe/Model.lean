import Mathlib.Data.Char
import Mathlib.Data.List.Lex
import Mathlib.Order.Compare

/-!
# The subscribe tree

`nsSubscribableServer` keeps the folders that can be subscribed to in a tree of
nodes.  The children of a node are doubly linked in reverse alphabetical order,
and a node remembers the child that was asked for last.  The rows of the tree
view are an array of nodes; a row is opened by inserting the nodes below it,
and closed by deleting the rows up to the next sibling.

A node is an address in the heap, and nodes are never freed while the tree
lives.  Names are C strings, without a NUL; a character stands for a byte.
-/

namespace CommCentral.Subscribe

structure SubscribeTreeNode where
  name : List Char
  path : List Char
  isSubscribed : Bool
  /-- The previous child of the parent, which has a greater name. -/
  prevSibling : Option ℕ
  nextSibling : Option ℕ
  firstChild : Option ℕ
  lastChild : Option ℕ
  parent : Option ℕ
  cachedChild : Option ℕ
  isSubscribable : Bool
  /-- The rows of the children are shown. -/
  isOpen : Bool

/-- The nodes that were created. -/
structure Heap where
  node : ℕ → SubscribeTreeNode
  size : ℕ

def Heap.modify (h : Heap) (i : ℕ) (f : SubscribeTreeNode → SubscribeTreeNode) : Heap :=
  { h with node := Function.update h.node i (f (h.node i)) }

structure SubscribableServer where
  heap : Heap
  /-- `mIncomingServerUri`, the name of the root. -/
  mIncomingServerUri : List Char
  mDelimiter : Char
  mStopped : Bool
  mTreeRoot : Option ℕ
  mRowMap : List ℕ

/-- A node before it is created. -/
def SubscribeTreeNode.new : SubscribeTreeNode :=
  { name := [], path := [], isSubscribed := false, prevSibling := none, nextSibling := none,
    firstChild := none, lastChild := none, parent := none, cachedChild := none,
    isSubscribable := false, isOpen := false }

/-- A server without a tree. -/
def SubscribableServer.new (mIncomingServerUri : List Char) (mDelimiter : Char) :
    SubscribableServer :=
  { heap := { node := fun _ => .new, size := 0 }, mIncomingServerUri := mIncomingServerUri,
    mDelimiter := mDelimiter, mStopped := false, mTreeRoot := none, mRowMap := [] }

/-! ## Nodes -/

def createNode (h : Heap) (parent : Option ℕ) (name aPath : List Char) : Heap × ℕ :=
  let node := { SubscribeTreeNode.new with
    name := name, path := aPath, parent := parent, isOpen := true }
  let created : Heap := { node := Function.update h.node h.size node, size := h.size + 1 }
  match parent with
  | some parent => (created.modify parent fun n => { n with cachedChild := some h.size }, h.size)
  | none => (created, h.size)

def strcmp (s t : List Char) : Ordering := cmp s t

/-- Where a name belongs among the children. -/
inductive Place where
  | before (current : ℕ)
  | found (current : ℕ)
  | atEnd

/-- The loop of `AddChildNode`. -/
def findPlace (h : Heap) (name : List Char) : ℕ → Option ℕ → Place
  | 0, _ => .atEnd
  | _, none => .atEnd
  | fuel + 1, some current =>
    match strcmp (h.node current).name name with
    | .eq => .found current
    | .lt => .before current
    | .gt => findPlace h name fuel (h.node current).nextSibling

/-- The child is linked in front of another one. -/
def linkBefore (h : Heap) (parent child current : ℕ) : Heap :=
  let h := h.modify child fun n => { n with nextSibling := some current }
  let h := h.modify child fun n => { n with prevSibling := (h.node current).prevSibling }
  let h := h.modify current fun n => { n with prevSibling := some child }
  match (h.node child).prevSibling with
  | none => h.modify parent fun n => { n with firstChild := some child }
  | some prev => h.modify prev fun n => { n with nextSibling := some child }

def linkLast (h : Heap) (parent child : ℕ) : Option Heap :=
  let h := h.modify child fun n => { n with prevSibling := (h.node parent).lastChild }
  let h := h.modify child fun n => { n with nextSibling := none }
  match (h.node parent).lastChild with
  | none => none
  | some last =>
    let h := h.modify last fun n => { n with nextSibling := some child }
    some (h.modify parent fun n => { n with lastChild := some child })

def addChildNode (h : Heap) (parent : ℕ) (name aPath : List Char) : Option (Heap × ℕ) :=
  if aPath = [] then none
  else if (h.node parent).firstChild = none then
    let (h, child) := createNode h (some parent) name aPath
    let h := h.modify parent fun n => { n with firstChild := some child }
    some (h.modify parent fun n => { n with lastChild := some child }, child)
  else
    match (h.node parent).cachedChild.filter fun c => strcmp (h.node c).name name = .eq with
    | some child => some (h, child)
    | none =>
      match findPlace h name (h.size + 1) (h.node parent).firstChild with
      | .before current =>
        let (h, child) := createNode h (some parent) name aPath
        some (linkBefore h parent child current, child)
      | .found current =>
        some (h.modify parent fun n => { n with cachedChild := some current }, current)
      | .atEnd =>
        let (h, child) := createNode h (some parent) name aPath
        (linkLast h parent child).map fun h => (h, child)

def findChar (mDelimiter : Char) (aPath : List Char) (offset : ℕ) : Option ℕ :=
  ((aPath.drop offset).findIdx? fun c => c = mDelimiter).map (· + offset)

/-- The loop of `FindAndCreateNode`.  A token is taken up to its first NUL. -/
def findAndCreateLoop (mDelimiter : Char) (aPath : List Char) :
    ℕ → Heap → ℕ → Option ℕ → ℕ → Option ℕ → Option (Heap × Option ℕ)
  | 0, _, _, _, _, _ => none
  | fuel + 1, h, parent, child, tokenStart, tokenEnd =>
    if tokenEnd = none ∧ aPath.length ≤ tokenStart then some (h, child)
    else
      let tokenEnd := tokenEnd.getD aPath.length
      let token := (aPath.take tokenEnd).drop tokenStart
      match addChildNode h parent (token.takeWhile (· ≠ Char.ofNat 0)) (aPath.take tokenEnd) with
      | none => none
      | some (h, child) =>
        findAndCreateLoop mDelimiter aPath fuel h child (some child) (tokenEnd + 1)
          (findChar mDelimiter aPath (tokenEnd + 1))

namespace SubscribableServer

/-- The root is created when there is none. -/
def ensureRoot (s : SubscribableServer) : SubscribableServer × ℕ :=
  match s.mTreeRoot with
  | some root => (s, root)
  | none =>
    let (h, root) := createNode s.heap none s.mIncomingServerUri []
    ({ s with heap := h, mTreeRoot := some root }, root)

/-- `FindAndCreateNode`: the node, if one was found, or an error. -/
def findAndCreateNode (s : SubscribableServer) (aPath : List Char) :
    Option (SubscribableServer × Option ℕ) :=
  let (s, root) := s.ensureRoot
  if aPath = [] then some (s, some root)
  else
    -- the delimiter at the beginning of a path belongs to the first token
    (findAndCreateLoop s.mDelimiter aPath (aPath.length + 2) s.heap root none 0
      (findChar s.mDelimiter aPath 1)).map fun r => ({ s with heap := r.1 }, r.2)

def setAsSubscribed (s : SubscribableServer) (path : List Char) : Option SubscribableServer :=
  match s.findAndCreateNode path with
  | some (s, some node) => some { s with
      heap := s.heap.modify node fun n => { n with isSubscribable := true, isSubscribed := true } }
  | _ => none

def addTo (s : SubscribableServer) (aName : List Char)
    (aAddAsSubscribed aSubscribable aChangeIfExists : Bool) : Option SubscribableServer :=
  if s.mStopped then none
  else
    match s.findAndCreateNode aName with
    | some (s, some node) =>
      let h := if aChangeIfExists then
          s.heap.modify node fun n => { n with isSubscribed := aAddAsSubscribed }
        else s.heap
      some { s with heap := h.modify node fun n => { n with isSubscribable := aSubscribable } }
    | _ => none

end SubscribableServer

/-! ## Rows -/

mutual

/-- `AddSubtree`: the rows, and how many were added. -/
def addSubtree (h : Heap) : ℕ → ℕ → ℕ → List ℕ → List ℕ × ℕ
  | 0, _, _, mRowMap => (mRowMap, 0)
  | fuel + 1, node, index, mRowMap =>
    let mRowMap := mRowMap.insertIdx index node
    if (h.node node).isOpen then addSiblings h fuel (h.node node).lastChild index 1 mRowMap
    else (mRowMap, 1)

/-- The loop over the siblings, with the rows that were added so far. -/
def addSiblings (h : Heap) : ℕ → Option ℕ → ℕ → ℕ → List ℕ → List ℕ × ℕ
  | 0, _, _, total, mRowMap => (mRowMap, total)
  | _, none, _, total, mRowMap => (mRowMap, total)
  | fuel + 1, some node, index, total, mRowMap =>
    let (mRowMap, added) := addSubtree h fuel node (index + total) mRowMap
    addSiblings h fuel (h.node node).prevSibling index (total + added) mRowMap

end

def indexOf (mRowMap : List ℕ) (node start : ℕ) : ℤ :=
  match (mRowMap.drop start).findIdx? fun n => n = node with
  | some i => i + start
  | none => -1

/-- The loop of `ToggleOpenState` that finds the next sibling, or the beginning of the next
subtree. -/
def closeCount (h : Heap) (mRowMap : List ℕ) (aIndex : ℕ) : ℕ → ℕ → Option ℤ
  | 0, _ => none
  | fuel + 1, node =>
    match (h.node node).prevSibling with
    | some sibling =>
      let count := indexOf mRowMap sibling aIndex - aIndex - 1
      if count = 0 ∧ (h.node node).parent ≠ none then closeCount h mRowMap aIndex fuel node
      else some count
    | none =>
      match (h.node node).parent with
      | none => none
      | some node =>
        if (h.node node).parent = none then some (mRowMap.length - aIndex - 1)
        else closeCount h mRowMap aIndex fuel node

def removeElementsAt (mRowMap : List ℕ) (start : ℕ) (count : ℤ) : Option (List ℕ) :=
  if 0 ≤ count ∧ start + count ≤ mRowMap.length then
    some (mRowMap.take start ++ mRowMap.drop (start + count.toNat))
  else none

namespace SubscribableServer

def isContainer (s : SubscribableServer) (aIndex : ℕ) : Bool :=
  match s.mRowMap[aIndex]? with
  | some node => (s.heap.node node).firstChild ≠ none
  | none => false

/-- A bound on the steps of `addSubtree`. -/
def rowFuel (s : SubscribableServer) : ℕ := (s.heap.size + 2) * (s.heap.size + 2)

def toggleOpenState (s : SubscribableServer) (aIndex : ℕ) : Option SubscribableServer := do
  let node ← s.mRowMap[aIndex]?
  if (s.heap.node node).isOpen then
    let h := s.heap.modify node fun n => { n with isOpen := false }
    let count ← closeCount h s.mRowMap aIndex (h.size + 1) node
    let mRowMap ← removeElementsAt s.mRowMap (aIndex + 1) count
    return { s with heap := h, mRowMap := mRowMap }
  else
    let h := s.heap.modify node fun n => { n with isOpen := true }
    let (mRowMap, _) :=
      addSiblings h s.rowFuel (h.node node).lastChild (aIndex + 1) 0 s.mRowMap
    return { s with heap := h, mRowMap := mRowMap }

/-- The loop of `StopPopulating` that adds the top level items as closed. -/
def addTopLevel : ℕ → Option ℕ → Heap → List ℕ → Heap × List ℕ
  | 0, _, h, mRowMap => (h, mRowMap)
  | _, none, h, mRowMap => (h, mRowMap)
  | fuel + 1, some node, h, mRowMap =>
    let h := h.modify node fun n => { n with isOpen := false }
    addTopLevel fuel (h.node node).prevSibling h (mRowMap ++ [node])

/-- The loop of `StopPopulating` that opens the top level items from the last one on. -/
def openContainers : ℕ → SubscribableServer → Option SubscribableServer
  | 0, s => some s
  | i + 1, s => do
    let s ← if s.isContainer i then s.toggleOpenState i else some s
    openContainers i s

def stopPopulating (s : SubscribableServer) : Option SubscribableServer :=
  let s := { s with mStopped := true, mRowMap := [] }
  match s.mTreeRoot with
  | none => some s
  | some root =>
    let (h, mRowMap) := addTopLevel (s.heap.size + 1) (s.heap.node root).lastChild s.heap []
    openContainers mRowMap.length { s with heap := h, mRowMap := mRowMap }

end SubscribableServer

end CommCentral.Subscribe
