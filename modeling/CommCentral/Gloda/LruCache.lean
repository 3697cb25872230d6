import CommCentral.Lib.DoublyLinked
import CommCentral.Lib.Machine
import Mathlib.Data.Finset.Card

/-!
# `GlodaLRUCacheCollection`

The cache of Gloda that discards what was used least recently, from
`mailnews/db/gloda/modules/Collection.jsm`.

* The items carry the links themselves (`_lruPrev` and `_lruNext`), as well as the
  flag `dirty`.  Of a noun only the ids and the unique values of its items are
  used; they are distinct.
* A statement that sets a property of null or undefined throws.  What was done
  before stays done, so `Except.error` carries the state as well.
* `objUpdate` is the datastore; the items it was called with are kept in a list.

`Usage` says what a cache is for: which items are in it, when each was used last,
and how often each was written.  `follows` relates the two along every run.
-/

namespace CommCentral.Gloda

open Function List DoublyLinked

/-- What the cache uses of a noun. -/
structure Noun (ι Id U : Type) where
  id : ι → Id
  uniqueValue : ι → U
  usesUniqueValue : Bool
  id_injective : Function.Injective id
  uniqueValue_injective : Function.Injective uniqueValue

/-- `GlodaLRUCacheCollection`, with the properties of the items. -/
structure LruCache (ι Id U : Type) where
  /-- `_head` and `_tail`, and `_lruNext` and `_lruPrev` of the items. -/
  links : Links ι
  idMap : Id → Option ι
  uniqueValueMap : Option (U → Option ι)
  size : ℤ
  maxCacheSize : ℤ
  dirty : ι → Bool
  updates : List ι

/-! ## Maps that index a list -/

/-- A map finds exactly the items of the list, under their keys. -/
def Indexes {ι κ : Type} (key : ι → κ) (m : κ → Option ι) (l : List ι) : Prop :=
  ∀ k o, m k = some o ↔ o ∈ l ∧ key o = k

section Maps

variable {ι κ : Type} {key : ι → κ} {m : κ → Option ι} {l u w : List ι} {item : ι}

theorem Indexes.insert [DecidableEq κ] (h : Indexes key m l) (hkey : Injective key) (item : ι) :
    Indexes key (update m (key item) (some item)) (l ++ [item]) := by
  intro k o
  rcases eq_or_ne k (key item) with rfl | hk
  · rw [update_self, hkey.eq_iff, Option.some.injEq]
    refine ⟨?_, fun ho => ho.2.symm⟩
    rintro rfl
    simp
  · rw [update_of_ne hk, h k o, mem_append, mem_singleton, or_and_right]
    refine (or_iff_left ?_).symm
    rintro ⟨rfl, hko⟩
    exact hk hko.symm

theorem Indexes.erase [DecidableEq κ] (h : Indexes key m (u ++ item :: w)) (hkey : Injective key)
    (hnodup : (u ++ item :: w).Nodup) :
    Indexes key (update m (key item) none) (u ++ w) := by
  have hitem : item ∉ u ++ w := (nodup_middle.mp hnodup).notMem
  intro k o
  rcases eq_or_ne k (key item) with rfl | hk
  · rw [hkey.eq_iff]
    refine iff_of_false (by simp) ?_
    rintro ⟨ho, rfl⟩
    exact hitem ho
  · rw [update_of_ne hk, h k o]
    have hoi : key o = k → o ≠ item := by
      rintro hko rfl
      exact hk hko.symm
    constructor
    · rintro ⟨ho, hko⟩
      exact ⟨by simp_all, hko⟩
    · rintro ⟨ho, hko⟩
      exact ⟨by rw [mem_append, mem_cons]; grind, hko⟩

/-- An item is found exactly when it is in the list. -/
theorem Indexes.isSome_iff (h : Indexes key m l) (hkey : Injective key) (item : ι) :
    (m (key item)).isSome ↔ item ∈ l := by
  rw [Option.isSome_iff_exists]
  constructor
  · rintro ⟨o, ho⟩
    obtain ⟨hol, hoi⟩ := (h _ o).mp ho
    rwa [← hkey hoi]
  · exact fun hi => ⟨item, (h _ item).mpr ⟨hi, rfl⟩⟩

end Maps

section Model

variable {ι Id U : Type} [DecidableEq ι] [DecidableEq Id] [DecidableEq U]

/-! ## Statements on the links -/

/-- `r._lruNext = v`. -/
def setNext (L : Links ι) (r v : Ref ι) : Except (Links ι) (Links ι) :=
  match r with
  | .obj i => .ok { L with next := Function.update L.next i v }
  | _ => .error L

/-- `r._lruPrev = v`. -/
def setPrev (L : Links ι) (r v : Ref ι) : Except (Links ι) (Links ι) :=
  match r with
  | .obj i => .ok { L with prev := Function.update L.prev i v }
  | _ => .error L

/-- The links in `add`: the item comes last. -/
def appendItem (L : Links ι) (item : ι) : Except (Links ι) (Links ι) := do
  let L := { L with prev := Function.update L.prev item L.tail }
  let L ← if L.tail ≠ .null then setNext L L.tail (.obj item) else .ok { L with head := .obj item }
  .ok { L with next := Function.update L.next item .null, tail := .obj item }

/-- The links in the eviction loop of `add`: the item was the first one. -/
def dropHead (L : Links ι) (item : ι) : Except (Links ι) (Links ι) := do
  let L := { L with head := L.next item }
  let L ← setPrev L L.head .null
  .ok (clear L item)

/-- `if (aItem._lruPrev !== null)`: the item is unlinked from what is in front of it. -/
def unlinkPrev (L : Links ι) (aItem : ι) : Except (Links ι) (Links ι) :=
  if L.prev aItem ≠ .null then setNext L (L.prev aItem) (L.next aItem)
  else .ok { L with head := L.next aItem }

/-- `hit`. -/
def hitLinks (L : Links ι) (aItem : ι) : Except (Links ι) (Links ι) :=
  if L.head = L.tail ∨ L.tail = .obj aItem then .ok L
  else do
    -- unlink the item
    let L ← unlinkPrev L aItem
    let L ← setPrev L (L.next aItem) (L.prev aItem)
    -- link it in to the end
    let L ← setNext L L.tail (.obj aItem)
    .ok { L with
      prev := Function.update L.prev aItem L.tail
      next := Function.update L.next aItem .null
      tail := .obj aItem }

/-- The links in `deleted`. -/
def deletedLinks (L : Links ι) (aItem : ι) : Except (Links ι) (Links ι) := do
  let L ← unlinkPrev L aItem
  let L ← if L.next aItem ≠ .null then setPrev L (L.next aItem) (L.prev aItem)
    else .ok { L with tail := L.prev aItem }
  .ok (clear L aItem)

namespace LruCache

/-! ## The cache -/

def new (noun : Noun ι Id U) (aCacheSize : ℤ) : LruCache ι Id U where
  links := ⟨fun _ => .undefined, fun _ => .undefined, .null, .null⟩
  idMap := fun _ => none
  uniqueValueMap := if noun.usesUniqueValue then some fun _ => none else none
  size := 0
  maxCacheSize := if aCacheSize < 32 then 32 else aCacheSize
  dirty := fun _ => false
  updates := []

def onLinks (s : LruCache ι Id U) (r : Except (Links ι) (Links ι)) :
    Except (LruCache ι Id U) (LruCache ι Id U) :=
  match r with
  | .ok L => .ok { s with links := L }
  | .error L => .error { s with links := L }

/-- The item is found under its id and its unique value, or is no longer. -/
def setMaps (noun : Noun ι Id U) (s : LruCache ι Id U) (item : ι) (v : Option ι) :
    LruCache ι Id U :=
  { s with
    idMap := Function.update s.idMap (noun.id item) v
    uniqueValueMap := s.uniqueValueMap.map fun m => Function.update m (noun.uniqueValue item) v }

/-- The first loop of `add`. -/
def addItems (noun : Noun ι Id U) :
    List ι → LruCache ι Id U → Except (LruCache ι Id U) (LruCache ι Id U)
  | [], s => .ok s
  | item :: aItems, s =>
    if (s.idMap (noun.id item)).isSome then addItems noun aItems s
    else do
      let s := s.setMaps noun item (some item)
      let s ← s.onLinks (appendItem s.links item)
      addItems noun aItems { s with size := s.size + 1 }

/-- `if (item.dirty)`: flush dirty items to disk. -/
def flush (s : LruCache ι Id U) (item : ι) : LruCache ι Id U :=
  if s.dirty item then
    { s with updates := s.updates ++ [item], dirty := Function.update s.dirty item false }
  else s

/-- One pass of the second loop of `add`. -/
def evict (noun : Noun ι Id U) (s : LruCache ι Id U) :
    Except (LruCache ι Id U) (LruCache ι Id U) :=
  match s.links.head with
  | .obj item => do
    let s ← s.onLinks (dropHead s.links item)
    let s := (s.setMaps noun item none).flush item
    .ok { s with size := s.size - 1 }
  | _ => .error s

/-- The second loop of `add`, with a bound on the number of passes. -/
def evictLoop (noun : Noun ι Id U) :
    ℕ → LruCache ι Id U → Except (LruCache ι Id U) (LruCache ι Id U)
  | 0, s => .ok s
  | fuel + 1, s =>
    if s.maxCacheSize < s.size then s.evict noun >>= evictLoop noun fuel else .ok s

/-- `add`.  Each pass of the second loop makes the size smaller by one. -/
def add (noun : Noun ι Id U) (s : LruCache ι Id U) (aItems : List ι) :
    Except (LruCache ι Id U) (LruCache ι Id U) := do
  let s ← addItems noun aItems s
  evictLoop noun (s.size - s.maxCacheSize).toNat s

def hit (s : LruCache ι Id U) (aItem : ι) : Except (LruCache ι Id U) (LruCache ι Id U) :=
  s.onLinks (hitLinks s.links aItem)

def deleted (noun : Noun ι Id U) (s : LruCache ι Id U) (aItem : ι) :
    Except (LruCache ι Id U) (LruCache ι Id U) := do
  let s ← s.onLinks (deletedLinks s.links aItem)
  let s := s.setMaps noun aItem none
  .ok { s with size := s.size - 1 }

end LruCache

inductive CacheOp (ι : Type) where
  | add (aItems : List ι)
  | hit (aItem : ι)
  | deleted (aItem : ι)
  | setDirty (item : ι)

/-- The state that a call leaves, whether it throws or not. -/
def outcome {σ : Type} : Except σ σ → σ
  | .ok s => s
  | .error s => s

def LruCache.step (noun : Noun ι Id U) : Machine.Step (LruCache ι Id U) (CacheOp ι) Unit
  | s, .add aItems => (outcome (s.add noun aItems), ())
  | s, .hit aItem => (outcome (s.hit aItem), ())
  | s, .deleted aItem => (outcome (s.deleted noun aItem), ())
  | s, .setDirty item => ({ s with dirty := Function.update s.dirty item true }, ())

/-! ## What a cache is for -/

/-- Which items are in the cache, and what became of them. -/
structure Usage (ι : Type) where
  clock : ℕ
  lastUse : ι → ℕ
  members : Finset ι
  dirty : ι → Bool
  writes : ι → ℕ

namespace Usage

/-- Nothing is in the cache. -/
def empty : Usage ι := ⟨0, fun _ => 0, ∅, fun _ => false, fun _ => 0⟩

/-- An item is used, and is in the cache from now on. -/
def use (a : Usage ι) (item : ι) : Usage ι :=
  { a with
    clock := a.clock + 1
    lastUse := Function.update a.lastUse item a.clock
    members := insert item a.members }

/-- The members that were used after an item. -/
def later (a : Usage ι) (item : ι) : Finset ι :=
  a.members.filter fun other => a.lastUse item < a.lastUse other

/-- Some items leave the cache; the dirty ones are written. -/
def forget (a : Usage ι) (gone : ι → Bool) : Usage ι :=
  { a with
    members := a.members.filter fun item => gone item = false
    dirty := fun item => a.dirty item && !gone item
    writes := fun item => a.writes item + (gone item && a.dirty item).toNat }

/-- The least recently used members leave a cache that is too large: those with
at least `max` members that were used later. -/
def evict (a : Usage ι) (max : ℕ) : Usage ι :=
  a.forget fun item => decide (item ∈ a.members ∧ max ≤ (a.later item).card)

/-- New items are used one after the other, and then the cache gets small again. -/
def add (a : Usage ι) (max : ℕ) (items : List ι) : Usage ι :=
  (items.foldl (fun a item => if item ∈ a.members then a else a.use item) a).evict max

def step (max : ℕ) : Machine.Step (Usage ι) (CacheOp ι) Unit
  | a, .add items => (a.add max items, ())
  | a, .hit item => (if item ∈ a.members then a.use item else a, ())
  | a, .deleted item => ({ a with members := a.members.erase item }, ())
  | a, .setDirty item => ({ a with dirty := Function.update a.dirty item true }, ())

end Usage

end Model

variable {ι Id U : Type} [DecidableEq ι]

/-! ## The links -/

variable {L : Links ι} {l u w : List ι} {item : ι}

theorem appendItem_eq (h : Linked L l) : appendItem L item = .ok (pushBack L item) := by
  have htail : L.tail = .null ∨ ∃ t, L.tail = .obj t := by
    rw [h.tail_eq]
    by_cases hl : l = []
    · exact Or.inl (by rw [hl]; rfl)
    · obtain ⟨-, t, -, hlast⟩ := exists_last hl .null
      exact Or.inr ⟨t, hlast⟩
  rcases htail with htail | ⟨t, htail⟩ <;>
    simp [appendItem, setNext, pushBack, htail, bind, Except.bind]

theorem dropHead_eq (h : Linked L (item :: w)) (hw : w ≠ []) :
    dropHead L item = .ok (remove L item) := by
  obtain ⟨q, w, rfl⟩ := exists_cons_of_ne_nil hw
  obtain ⟨hprev, hnext⟩ := Linked.links_eq (u := []) h
  simp [dropHead, setPrev, remove, unlink, hprev, hnext, bind, Except.bind]

/-- The link in front of the item is led past it. -/
theorem unlinkPrev_eq (h : Linked L (u ++ item :: w)) :
    unlinkPrev L item =
      .ok { L with next := (unlink L item).next, head := (unlink L item).head } := by
  obtain ⟨hprev, -⟩ := h.links_eq
  by_cases hu : u = []
  · subst hu
    simp [unlinkPrev, unlink, hprev]
  · obtain ⟨-, p, -, hlast⟩ := exists_last hu .null
    rw [hlast] at hprev
    simp [unlinkPrev, unlink, setNext, hprev]

theorem unlink_next_self (h : Linked L (u ++ item :: w)) : (unlink L item).next item = L.next item := by
  obtain ⟨hprev, -⟩ := h.links_eq
  have hnodup := nodup_append.mp h.nodup
  simp only [unlink]
  cases hp : L.prev item with
  | obj p =>
    have hpu : p ∈ u := mem_of_last (hprev ▸ hp)
    exact update_of_ne (fun hip => hnodup.2.2 p hpu item (by simp) hip.symm) _ _
  | undefined => rfl
  | null => rfl

theorem unlink_eq_of_last (hnext : L.next item = .null) :
    unlink L item =
      { L with
        next := (unlink L item).next, head := (unlink L item).head, tail := L.prev item } := by
  simp [unlink, hnext]

theorem unlink_eq_of_next {q : ι} (hnext : L.next item = .obj q) :
    unlink L item =
      { L with
        next := (unlink L item).next
        prev := update L.prev q (L.prev item)
        head := (unlink L item).head } := by
  simp [unlink, hnext]

theorem deletedLinks_eq (h : Linked L (u ++ item :: w)) :
    deletedLinks L item = .ok (remove L item) := by
  obtain ⟨-, hnext⟩ := h.links_eq
  have hself := unlink_next_self h
  simp only [deletedLinks, unlinkPrev_eq h, bind, Except.bind, hself]
  cases w with
  | nil =>
    rw [remove, unlink_eq_of_last hnext, hnext, if_neg (by simp)]
  | cons q w =>
    rw [remove, unlink_eq_of_next hnext, hnext]
    rfl

theorem hitLinks_of_mem (h : Linked L (u ++ item :: w)) :
    ∃ L', hitLinks L item = .ok L' ∧ Linked L' (u ++ w ++ [item]) := by
  obtain ⟨-, hnext⟩ := h.links_eq
  cases w with
  | nil =>
    have htail : L.tail = .obj item := by
      rw [h.tail_eq]
      exact last_concat _ _ _
    exact ⟨L, by simp [hitLinks, htail], by simpa using h⟩
  | cons q w =>
    have hself := unlink_next_self h
    obtain ⟨hiu, hiw⟩ : item ∉ u ∧ item ∉ q :: w := by
      have hnodup := nodup_append.mp h.nodup
      exact ⟨fun hi => hnodup.2.2 item hi item (by simp) rfl, (nodup_cons.mp hnodup.2.1).1⟩
    obtain ⟨l', t, hl', hlast⟩ := exists_last (cons_ne_nil q w) (.obj item)
    have htail : L.tail = .obj t := by
      rw [h.tail_eq, last_append, last_cons, hlast]
    have hti : t ≠ item := ne_of_mem_of_not_mem (by simp [hl']) hiw
    have htw : t ∈ q :: w := by simp [hl']
    have hends : L.head ≠ .obj t := by
      have hdisjoint := (nodup_append.mp h.nodup).2.2
      rw [h.head_eq]
      cases u with
      | nil => simpa using hti.symm
      | cons x u => simpa using hdisjoint x (by simp) t (mem_cons_of_mem _ htw)
    have hremoved := h.remove.pushBack (i := item) (by simp_all)
    rw [remove, pushBack_clear] at hremoved
    · refine ⟨_, ?_, hremoved⟩
      rw [hitLinks, if_neg (by simp [hends, htail, hti])]
      simp only [unlinkPrev_eq h, bind, Except.bind, hself, hnext, first_cons, setPrev, setNext,
        htail]
      rw [unlink_eq_of_next hnext]
      simp [pushBack, htail]
    · rw [unlink_eq_of_next hnext]
      simp [htail, hti]

/-- Without links the item is not touched: the first statement throws. -/
theorem hitLinks_of_not_mem (h : Linked L l) (hi : item ∉ l) :
    hitLinks L item = .ok L ∨ hitLinks L item = .error L := by
  rw [hitLinks]
  split
  · exact Or.inl rfl
  · refine Or.inr ?_
    simp [unlinkPrev, (h.absent item hi).2, setNext, bind, Except.bind]

theorem deletedLinks_of_not_mem (h : Linked L l) (hi : item ∉ l) :
    deletedLinks L item = .error L := by
  simp [deletedLinks, unlinkPrev, (h.absent item hi).2, setNext, bind, Except.bind]

/-! ## The cache and its use -/

/-- The cache holds the items of the list, which are the members, in the order of
their last use. -/
structure Tracks (noun : Noun ι Id U) (limit : ℕ) (s : LruCache ι Id U) (a : Usage ι)
    (l : List ι) : Prop where
  linked : Linked s.links l
  ids : Indexes noun.id s.idMap l
  uniqueValues : ∀ m ∈ s.uniqueValueMap, Indexes noun.uniqueValue m l
  size_eq : s.size = l.length
  max_eq : s.maxCacheSize = limit
  members : ∀ o, o ∈ a.members ↔ o ∈ l
  order : l.Pairwise fun x y => a.lastUse x < a.lastUse y
  recent : ∀ o ∈ l, a.lastUse o < a.clock
  dirty_eq : s.dirty = a.dirty
  writes_eq : ∀ o, a.writes o = s.updates.count o

variable {noun : Noun ι Id U} {limit : ℕ} {s : LruCache ι Id U} {a : Usage ι}

open Usage

theorem Tracks.new (noun : Noun ι Id U) (aCacheSize : ℤ) :
    Tracks noun (max 32 aCacheSize).toNat (.new noun aCacheSize) .empty [] where
  linked := ⟨nodup_nil, rfl, rfl, trivial, fun _ _ => ⟨rfl, rfl⟩⟩
  ids := by simp [Indexes, LruCache.new]
  uniqueValues := by
    intro m hm
    rw [LruCache.new] at hm
    split at hm
    · cases hm
      simp [Indexes]
    · cases hm
  size_eq := rfl
  max_eq := by
    simp only [LruCache.new]
    omega
  members := by simp [empty]
  order := List.Pairwise.nil
  recent := by simp
  dirty_eq := rfl
  writes_eq := by simp [empty, LruCache.new]

theorem order_use {item : ι} (horder : l.Pairwise fun x y => a.lastUse x < a.lastUse y)
    (hrecent : ∀ o ∈ l, a.lastUse o < a.clock) (hi : item ∉ l) :
    ((l ++ [item]).Pairwise fun x y => (a.use item).lastUse x < (a.use item).lastUse y) ∧
      ∀ o ∈ l ++ [item], (a.use item).lastUse o < (a.use item).clock := by
  have hother : ∀ o ∈ l, (a.use item).lastUse o = a.lastUse o := fun o ho =>
    update_of_ne (ne_of_mem_of_not_mem ho hi) _ _
  have hself : (a.use item).lastUse item = a.clock := update_self ..
  constructor
  · refine pairwise_append.mpr ⟨?_, pairwise_singleton _ _, ?_⟩
    · exact horder.imp_of_mem fun hx hy hlt => by rwa [hother _ hx, hother _ hy]
    · intro x hx y hy
      rw [mem_singleton.mp hy, hother x hx, hself]
      exact hrecent x hx
  · intro o ho
    rcases mem_append.mp ho with ho | ho
    · rw [hother o ho]
      exact (hrecent o ho).trans (Nat.lt_succ_self _)
    · rw [mem_singleton.mp ho, hself]
      exact Nat.lt_succ_self _

theorem Tracks.flush (h : Tracks noun limit s a l) (item : ι) :
    Tracks noun limit (s.flush item)
      { a with
        dirty := fun i => a.dirty i && !decide (i = item)
        writes := fun i => a.writes i + (decide (i = item) && a.dirty i).toNat } l := by
  have hdirty := h.dirty_eq
  have hwrites := h.writes_eq
  rw [LruCache.flush]
  split
  · rename_i hd
    refine ⟨h.linked, h.ids, h.uniqueValues, h.size_eq, h.max_eq, h.members, h.order, h.recent,
      funext fun o => ?_, fun o => ?_⟩
    · rcases eq_or_ne o item with rfl | ho
      · simp
      · simp [ho, hdirty]
    · rw [count_append]
      rcases eq_or_ne o item with rfl | ho
      · simp_all
      · simp [ho, hwrites, ho.symm]
  · rename_i hd
    refine ⟨h.linked, h.ids, h.uniqueValues, h.size_eq, h.max_eq, h.members, h.order, h.recent,
      funext fun o => ?_, fun o => ?_⟩
    · rcases eq_or_ne o item with rfl | ho
      · simp_all
      · simp [ho, hdirty]
    · rcases eq_or_ne o item with rfl | ho
      · simp_all
      · simp [ho, hwrites]

open LruCache

theorem flush_size (s : LruCache ι Id U) (item : ι) :
    { s.flush item with size := (s.flush item).size - 1 } =
      flush { s with size := s.size - 1 } item := by
  simp only [flush]
  split <;> rfl

/-- A call of `hit`. -/
theorem Tracks.hit (h : Tracks noun limit s a l) (item : ι) :
    ∃ l', Tracks noun limit (outcome (s.hit item)) (if item ∈ a.members then a.use item else a) l' ∧
      l'.length = l.length := by
  by_cases hi : item ∈ l
  · obtain ⟨u, w, rfl⟩ := append_of_mem hi
    obtain ⟨L', hhit, hL'⟩ := hitLinks_of_mem h.linked
    have hsub : (u ++ w).Sublist (u ++ item :: w) :=
      (List.Sublist.refl u).append (sublist_cons_self item w)
    have hnot : item ∉ u ++ w := (nodup_middle.mp h.linked.nodup).notMem
    obtain ⟨horder, hrecent⟩ := order_use (h.order.sublist hsub)
      (fun o ho => h.recent o (hsub.subset ho)) hnot
    have hsame : ∀ o, o ∈ u ++ w ++ [item] ↔ o ∈ u ++ item :: w := fun o => by
      grind
    have hlength : (u ++ w ++ [item]).length = (u ++ item :: w).length := by
      simp only [length_append, length_cons, length_nil]
      omega
    rw [if_pos ((h.members item).mpr hi), LruCache.hit, hhit]
    refine ⟨u ++ w ++ [item], ⟨hL', ?_, ?_, ?_, h.max_eq, ?_, horder, hrecent, h.dirty_eq,
      h.writes_eq⟩, hlength⟩
    · exact fun k o => (h.ids k o).trans (and_congr_left fun _ => (hsame o).symm)
    · exact fun m hm k o => (h.uniqueValues m hm k o).trans (and_congr_left fun _ => (hsame o).symm)
    · rw [hlength]
      exact h.size_eq
    · intro o
      rw [hsame o, ← h.members]
      simp only [use, Finset.mem_insert]
      refine or_iff_right_of_imp ?_
      rintro rfl
      exact (h.members o).mpr hi
  · have hsame : outcome (s.hit item) = s := by
      rcases hitLinks_of_not_mem h.linked hi with hhit | hhit <;> rw [LruCache.hit, hhit] <;> rfl
    rw [if_neg (fun hm => hi ((h.members item).mp hm)), hsame]
    exact ⟨l, h, rfl⟩

/-- The members that were used later stand behind an item. -/
theorem Tracks.card_later (h : Tracks noun limit s a (u ++ item :: w)) :
    (a.later item).card = w.length := by
  have hw : w.Nodup := (nodup_cons.mp (nodup_append.mp h.linked.nodup).2.1).2
  have hlater : a.later item = w.toFinset := by
    ext o
    obtain ⟨-, hiw, hui⟩ := pairwise_append.mp h.order
    have hu := fun ho : o ∈ u => hui o ho item (by simp)
    have hw := fun ho : o ∈ w => (pairwise_cons.mp hiw).1 o ho
    simp only [later, Finset.mem_filter, h.members, mem_append, mem_cons,
      mem_toFinset]
    constructor
    · rintro ⟨ho | rfl | ho, hlt⟩
      · exact absurd (hu ho) (by omega)
      · exact absurd hlt (lt_irrefl _)
      · exact ho
    · exact fun ho => ⟨Or.inr (Or.inr ho), hw ho⟩
  rw [hlater, toFinset_card_of_nodup hw]

/-- The items with too many later ones are the first ones. -/
theorem Tracks.evict_eq (h : Tracks noun limit s a l) :
    a.evict limit = a.forget fun i => decide (i ∈ l.take (l.length - limit)) := by
  rw [Usage.evict]
  congr 1
  funext i
  rw [decide_eq_decide, h.members]
  constructor
  · rintro ⟨hi, hlater⟩
    obtain ⟨u, w, rfl⟩ := append_of_mem hi
    rw [h.card_later] at hlater
    rw [take_append, mem_append, length_append, length_cons]
    obtain ⟨k, hk⟩ : ∃ k, u.length + (w.length + 1) - limit - u.length = k + 1 :=
      ⟨w.length - limit, by omega⟩
    rw [hk]
    simp
  · intro hi
    obtain ⟨u, w, hl⟩ := append_of_mem (mem_of_mem_take hi)
    refine ⟨mem_of_mem_take hi, ?_⟩
    subst hl
    rw [h.card_later]
    by_contra hlater
    have hiu : i ∉ u := fun hiu => (nodup_append.mp h.linked.nodup).2.2 i hiu i (by simp) rfl
    rw [take_append_of_le_length (by simp; omega)] at hi
    exact hiu (mem_of_mem_take hi)

variable [DecidableEq Id] [DecidableEq U]

theorem Tracks.insert (h : Tracks noun limit s a l) (hi : item ∉ l) :
    Tracks noun limit
      { s.setMaps noun item (some item) with
        links := pushBack s.links item
        size := s.size + 1 } (a.use item) (l ++ [item]) := by
  obtain ⟨horder, hrecent⟩ := order_use h.order h.recent hi
  refine ⟨h.linked.pushBack hi, h.ids.insert noun.id_injective item, ?_, ?_, h.max_eq, ?_, horder,
    hrecent, h.dirty_eq, h.writes_eq⟩
  · intro m hm
    obtain ⟨m', hm', rfl⟩ := Option.map_eq_some_iff.mp hm
    exact (h.uniqueValues m' hm').insert noun.uniqueValue_injective item
  · simp [h.size_eq]
  · intro o
    simp [use, h.members, or_comm]

/-- The first loop of `add`. -/
theorem Tracks.addItems (items : List ι) (h : Tracks noun limit s a l) :
    ∃ s' l', addItems noun items s = .ok s' ∧
      Tracks noun limit s' (items.foldl (fun a i => if i ∈ a.members then a else a.use i) a) l' := by
  induction items generalizing s a l with
  | nil => exact ⟨s, l, rfl, h⟩
  | cons item items ih =>
    rw [addItems, foldl_cons]
    split
    · rename_i hfound
      have hi : item ∈ a.members :=
        (h.members item).mpr ((h.ids.isSome_iff noun.id_injective item).mp hfound)
      rw [if_pos hi]
      exact ih h
    · rename_i hfound
      have hi : item ∉ l := fun hi => hfound ((h.ids.isSome_iff noun.id_injective item).mpr hi)
      rw [if_neg (fun hmem => hi ((h.members item).mp hmem))]
      have happend : appendItem (s.setMaps noun item (some item)).links item =
          .ok (pushBack s.links item) := appendItem_eq h.linked
      simp only [happend, onLinks, bind, Except.bind]
      exact ih (h.insert hi)

/-- An item that leaves the cache, if it is written or not. -/
theorem Tracks.erase (h : Tracks noun limit s a (u ++ item :: w)) :
    Tracks noun limit
      { s.setMaps noun item none with
        links := remove s.links item
        size := s.size - 1 }
      { a with members := a.members.erase item } (u ++ w) := by
  have hsub : (u ++ w).Sublist (u ++ item :: w) :=
    (List.Sublist.refl u).append (sublist_cons_self item w)
  have hitem : item ∉ u ++ w := (nodup_middle.mp h.linked.nodup).notMem
  refine ⟨h.linked.remove, h.ids.erase noun.id_injective h.linked.nodup, ?_, ?_, h.max_eq, ?_,
    h.order.sublist hsub, fun o ho => h.recent o (hsub.subset ho), h.dirty_eq, h.writes_eq⟩
  · intro m hm
    obtain ⟨m', hm', rfl⟩ := Option.map_eq_some_iff.mp hm
    exact (h.uniqueValues m' hm').erase noun.uniqueValue_injective h.linked.nodup
  · simp only [h.size_eq, length_append, length_cons]
    omega
  · intro o
    have hne : o ∈ u ++ w → o ≠ item := fun ho => ne_of_mem_of_not_mem ho hitem
    rw [Finset.mem_erase, h.members]
    grind

/-! ## Eviction -/

/-- The least recently used item leaves the cache. -/
theorem Tracks.evict (h : Tracks noun limit s a (item :: l)) (hl : l ≠ []) :
    ∃ s', s.evict noun = .ok s' ∧ Tracks noun limit s' (a.forget fun i => decide (i = item)) l := by
  have hhead : s.links.head = .obj item := h.linked.head_eq
  have hforget : a.forget (fun i => decide (i = item)) =
      { a with
        members := a.members.erase item
        dirty := fun i => a.dirty i && !decide (i = item)
        writes := fun i => a.writes i + (decide (i = item) && a.dirty i).toNat } := by
    have hmembers : (a.members.filter fun i => decide (i = item) = false) = a.members.erase item := by
      ext o
      simp [and_comm]
    rw [forget, hmembers]
  rw [LruCache.evict, hhead, hforget]
  simp only [dropHead_eq h.linked hl, LruCache.onLinks, bind, Except.bind]
  refine ⟨_, rfl, ?_⟩
  rw [flush_size]
  exact (Tracks.erase (u := []) h).flush item

theorem forget_forget {κ : Type} (a : Usage κ) (gone gone' : κ → Bool) :
    (a.forget gone).forget gone' = a.forget fun i => gone i || gone' i := by
  simp only [Usage.forget, Usage.mk.injEq, true_and, Finset.filter_filter]
  refine ⟨?_, ?_, ?_⟩
  · simp
  · funext i
    cases gone i <;> simp
  · funext i
    cases gone i <;> simp

/-- As many of the least recently used items leave as there are too many. -/
theorem Tracks.evictLoop {n : ℕ} (hlimit : 0 < limit) (hn : l.length - limit = n)
    (h : Tracks noun limit s a l) :
    ∃ s', evictLoop noun n s = .ok s' ∧
      Tracks noun limit s' (a.forget fun i => decide (i ∈ l.take n)) (l.drop n) := by
  induction n generalizing s a l with
  | zero => exact ⟨s, rfl, by simpa [forget] using h⟩
  | succ n ih =>
    cases l with
    | nil => simp at hn
    | cons item l =>
      rw [length_cons] at hn
      have hlarge : s.maxCacheSize < s.size := by
        rw [h.max_eq, h.size_eq, length_cons]
        omega
      obtain ⟨s₁, hevict, h₁⟩ := h.evict (ne_nil_of_length_pos (by omega))
      obtain ⟨s₂, hloop, h₂⟩ := ih (by omega) h₁
      refine ⟨s₂, ?_, ?_⟩
      · rw [evictLoop, if_pos hlarge, hevict]
        exact hloop
      · rw [forget_forget] at h₂
        simpa [take_succ_cons] using h₂

/-! ## Whole runs -/

/-- A call of `add`. -/
theorem Tracks.add (hlimit : 0 < limit) (h : Tracks noun limit s a l) (items : List ι) :
    ∃ s' l', s.add noun items = .ok s' ∧ Tracks noun limit s' (a.add limit items) l' ∧
      l'.length ≤ limit := by
  obtain ⟨s₁, l₁, hitems, h₁⟩ := h.addItems items
  have hfuel : (s₁.size - s₁.maxCacheSize).toNat = l₁.length - limit := by
    rw [h₁.size_eq, h₁.max_eq]
    omega
  obtain ⟨s₂, hloop, h₂⟩ := h₁.evictLoop hlimit rfl
  refine ⟨s₂, l₁.drop (l₁.length - limit), ?_, ?_, ?_⟩
  · rw [LruCache.add, hitems]
    simp only [bind, Except.bind]
    rw [hfuel, hloop]
  · rw [Usage.add, h₁.evict_eq]
    exact h₂
  · rw [length_drop]
    omega

/-- A call of `deleted`. -/
theorem Tracks.deleted (h : Tracks noun limit s a l) (item : ι) :
    ∃ l', Tracks noun limit (outcome (s.deleted noun item))
        { a with members := a.members.erase item } l' ∧ l'.length ≤ l.length := by
  by_cases hi : item ∈ l
  · obtain ⟨u, w, rfl⟩ := append_of_mem hi
    refine ⟨u ++ w, ?_, by simp⟩
    rw [LruCache.deleted, deletedLinks_eq h.linked]
    exact h.erase
  · have hmembers : a.members.erase item = a.members :=
      Finset.erase_eq_of_notMem fun hm => hi ((h.members item).mp hm)
    rw [LruCache.deleted, deletedLinks_of_not_mem h.linked hi, hmembers]
    exact ⟨l, h, le_rfl⟩

/-- The cache is in order: it holds the members in the order of their last use,
not more than it may, and each item was written as often as it had to be. -/
def Follows (noun : Noun ι Id U) (limit : ℕ) (s : LruCache ι Id U) (a : Usage ι) : Prop :=
  ∃ l, Tracks noun limit s a l ∧ s.size ≤ s.maxCacheSize

theorem Follows.step (hlimit : 0 < limit) (h : Follows noun limit s a) (op : CacheOp ι) :
    Follows noun limit (LruCache.step noun s op).1 (Usage.step limit a op).1 := by
  obtain ⟨l, h, hsize⟩ := h
  have hle : l.length ≤ limit := by
    rw [h.size_eq, h.max_eq] at hsize
    exact_mod_cast hsize
  have hfollows : ∀ {s' : LruCache ι Id U} {a' : Usage ι} {l' : List ι},
      Tracks noun limit s' a' l' → l'.length ≤ limit → Follows noun limit s' a' := by
    intro s' a' l' h' hl'
    refine ⟨l', h', ?_⟩
    rw [h'.size_eq, h'.max_eq]
    exact_mod_cast hl'
  cases op with
  | add items =>
    obtain ⟨s', l', hadd, h', hl'⟩ := h.add hlimit items
    simp only [LruCache.step, Usage.step, hadd]
    exact hfollows h' hl'
  | hit item =>
    obtain ⟨l', h', hl'⟩ := h.hit item
    exact hfollows h' (hl'.le.trans hle)
  | deleted item =>
    obtain ⟨l', h', hl'⟩ := h.deleted item
    exact hfollows h' (hl'.trans hle)
  | setDirty item =>
    refine ⟨l, ⟨h.linked, h.ids, h.uniqueValues, h.size_eq, h.max_eq, h.members, h.order, h.recent,
      ?_, h.writes_eq⟩, hsize⟩
    simp only [LruCache.step, Usage.step, h.dirty_eq]

/-- Whatever is called, the cache follows the use of its items. -/
theorem cache_follows_usage (noun : Noun ι Id U) (aCacheSize : ℤ) (ops : List (CacheOp ι)) :
    Follows noun (max 32 aCacheSize).toNat
      (Machine.exec (LruCache.step noun) (.new noun aCacheSize) ops)
      (Machine.exec (Usage.step (max 32 aCacheSize).toNat) .empty ops) := by
  have hstart : Follows noun (max 32 aCacheSize).toNat (.new noun aCacheSize) .empty := by
    refine ⟨[], Tracks.new noun aCacheSize, ?_⟩
    rw [(Tracks.new noun aCacheSize).max_eq]
    exact Int.natCast_nonneg _
  have hstep : ∀ s a op, Follows noun (max 32 aCacheSize).toNat s a → True →
      (step noun s op).2 = (step (max 32 aCacheSize).toNat a op).2 ∧
        Follows noun (max 32 aCacheSize).toNat (step noun s op).1
          (step (max 32 aCacheSize).toNat a op).1 :=
    fun s a op h _ => ⟨rfl, h.step (by omega) op⟩
  exact (Machine.simulation hstep hstart (.of_forall fun _ _ => trivial)).2

end CommCentral.Gloda
