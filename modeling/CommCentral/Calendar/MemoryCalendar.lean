import Mathlib.Data.List.Basic

/-!
# `CalMemoryCalendar`

The calendar in memory, from `calendar/providers/memory/CalMemoryCalendar.jsm`, with
parent items only.  It answers the listener before a call returns.

* `volatile` holds SEQUENCE and the stamps LAST-MODIFIED and DTSTAMP.  The generation,
  a property as well, stands beside them.  All other properties are the content.
* `ItemForm` holds what the calendars use of the items: how `compareContent` sees a
  content, how `makeImmutable` sets the stamps and how `prepareSequence` sets SEQUENCE.
* A call that throws ends with the answer `thrown`.  Observers and the status of the
  calendar are left out.
-/

namespace CommCentral.Calendar

open Function

/-! ## Items -/

structure CalItem (Id Cal C V : Type) where
  id : Option Id
  calendar : Cal
  generation : ℕ
  /-- SEQUENCE, LAST-MODIFIED and DTSTAMP. -/
  volatile : V
  content : C

/-- What a call finds in its environment: the time, and a new id. -/
structure Fresh (Id T : Type) where
  now : T
  uuid : Id

/-- The functions of items that calendars and transactions use. -/
structure ItemForm (Id Cal C V T N : Type) where
  /-- `normalizeComponent`: what `compareContent` compares. -/
  normalize : C → N
  /-- `makeImmutable` sets the stamps of an item that has been changed. -/
  stamp : T → V → V
  /-- `prepareSequence` sets SEQUENCE of the new item. -/
  sequence : CalItem Id Cal C V → CalItem Id Cal C V → V

/-- What a calendar tells the listener, or that the call throws. -/
inductive Answer (Id Cal C V : Type) where
  /-- The call succeeds, with `aDetail`. -/
  | done (detail : CalItem Id Cal C V)
  | failed (message : String)
  | thrown (error : String)

def Answer.isDone {Id Cal C V : Type} : Answer Id Cal C V → Bool
  | done _ => true
  | _ => false

def Answer.isThrown {Id Cal C V : Type} : Answer Id Cal C V → Bool
  | thrown _ => true
  | _ => false

section Model

variable {Id Cal C V T N : Type} [DecidableEq Id] [DecidableEq N]

def prepareSequence (form : ItemForm Id Cal C V T N) (newItem oldItem : CalItem Id Cal C V) :
    CalItem Id Cal C V :=
  { newItem with volatile := form.sequence newItem oldItem }

/-- `cal.item.compareContent`, for items of the same id. -/
def compareContent (form : ItemForm Id Cal C V T N) (first second : CalItem Id Cal C V) : Bool :=
  form.normalize first.content = form.normalize second.content

/-! ## The calendar -/

structure MemoryCalendar (Id Cal C V : Type) where
  superCalendar : Cal
  readOnly : Bool
  relaxedMode : Bool
  mItems : Id → Option (CalItem Id Cal C V)

namespace MemoryCalendar

variable (form : ItemForm Id Cal C V T N) (fresh : Fresh Id T)

def store (s : MemoryCalendar Id Cal C V) (id : Id) (item : CalItem Id Cal C V) :
    MemoryCalendar Id Cal C V × Answer Id Cal C V :=
  let stored := { item with volatile := form.stamp fresh.now item.volatile }
  ({ s with mItems := Function.update s.mItems id (some stored) }, .done stored)

/-- `addItem`, with `adoptItem` of the clone.  The clone is mutable, so that it gets an id. -/
def addItem (s : MemoryCalendar Id Cal C V) (aItem : CalItem Id Cal C V) :
    MemoryCalendar Id Cal C V × Answer Id Cal C V :=
  if s.readOnly then (s, .thrown "CAL_IS_READONLY")
  else
    let id := aItem.id.getD fresh.uuid
    -- an item with this id that is in the calendar already is not looked for
    s.store form fresh id { aItem with id := some id, calendar := s.superCalendar }

def modifyItem (s : MemoryCalendar Id Cal C V) (aNewItem : CalItem Id Cal C V)
    (aOldItem : Option (CalItem Id Cal C V)) :
    MemoryCalendar Id Cal C V × Answer Id Cal C V :=
  if s.readOnly then (s, .thrown "CAL_IS_READONLY")
  else
    match aNewItem.id with
    | none => (s, .failed "ID for modifyItem item is null")
    | some id =>
      if s.relaxedMode then s.store form fresh id aNewItem
      else
        match aOldItem.or (s.mItems id), s.mItems id with
        | some old, some stored =>
          if old.id ≠ some id then (s, .failed "item ID mismatch between old and new items")
          else if !compareContent form stored old then
            (s, .failed "old item mismatch in modifyItem.")
          else if old.generation ≠ stored.generation then
            (s, .failed "generation mismatch in modifyItem")
          else if old.generation = aNewItem.generation then
            s.store form fresh id { aNewItem with generation := aNewItem.generation + 1 }
          else s.store form fresh id aNewItem
        | _, _ =>
          (s, .failed "ID for modifyItem doesn't exist, is null, or is from different calendar")

def deleteItem (s : MemoryCalendar Id Cal C V) (aItem : CalItem Id Cal C V) :
    MemoryCalendar Id Cal C V × Answer Id Cal C V :=
  if s.readOnly then (s, .failed "Calendar is readonly")
  else
    match aItem.id with
    | none => (s, .failed "ID is null in deleteItem")
    | some id =>
      let deleted := { s with mItems := Function.update s.mItems id none }
      if s.relaxedMode then (deleted, .done aItem)
      else
        match s.mItems id with
        | none => (s, .thrown "oldItem is undefined")
        | some oldItem =>
          if oldItem.generation ≠ aItem.generation then
            (s, .failed "generation mismatch in deleteItem")
          else (deleted, .done aItem)

end MemoryCalendar

end Model

/-! ## What a calendar holds -/

/-- What a calendar holds of an item: its content and its generation. -/
def CalItem.view {Id Cal C V : Type} (item : CalItem Id Cal C V) : C × ℕ :=
  (item.content, item.generation)

namespace MemoryCalendar

variable {Id Cal C V T N : Type}

/-- The ids of a calendar, with what they stand for. -/
def shelf (s : MemoryCalendar Id Cal C V) : Id → Option (C × ℕ) :=
  fun id => (s.mItems id).map CalItem.view

/-- A writable calendar that is not relaxed.  An item in it has the id under which it is stored. -/
structure Regular (s : MemoryCalendar Id Cal C V) : Prop where
  writable : s.readOnly = false
  strict : s.relaxedMode = false
  stored : ∀ id item, s.mItems id = some item →
    item.id = some id ∧ item.calendar = s.superCalendar

theorem Regular.not_readOnly {s : MemoryCalendar Id Cal C V} (h : s.Regular) :
    ¬s.readOnly = true := by
  rw [h.writable]
  exact Bool.false_ne_true

theorem Regular.not_relaxed {s : MemoryCalendar Id Cal C V} (h : s.Regular) :
    ¬s.relaxedMode = true := by
  rw [h.strict]
  exact Bool.false_ne_true

structure Stores (s s' : MemoryCalendar Id Cal C V) [DecidableEq Id] (id : Id) (view : C × ℕ)
    (detail : CalItem Id Cal C V) : Prop where
  regular : s'.Regular
  superCalendar : s'.superCalendar = s.superCalendar
  /-- The item is there, and nothing else has changed. -/
  shelf : s'.shelf = Function.update s.shelf id (some view)
  detail_id : detail.id = some id
  detail_calendar : detail.calendar = s.superCalendar
  detail_view : detail.view = view

variable [DecidableEq Id] {form : ItemForm Id Cal C V T N} {fresh : Fresh Id T}
  {s : MemoryCalendar Id Cal C V} {id : Id}

theorem shelf_update (item : Option (CalItem Id Cal C V)) :
    shelf { s with mItems := update s.mItems id item } =
      update s.shelf id (item.map CalItem.view) := by
  funext x
  by_cases hx : x = id
  · subst hx
    simp [shelf]
  · simp [shelf, hx]

theorem Regular.update (h : s.Regular) {item : Option (CalItem Id Cal C V)}
    (hitem : ∀ found, item = some found →
      found.id = some id ∧ found.calendar = s.superCalendar) :
    Regular { s with mItems := update s.mItems id item } := by
  refine ⟨h.writable, h.strict, fun x found hx => ?_⟩
  dsimp only at hx
  by_cases hxid : x = id
  · subst hxid
    rw [update_self] at hx
    exact hitem found hx
  · rw [update_of_ne hxid] at hx
    exact h.stored x found hx

theorem Regular.store (h : s.Regular) {item : CalItem Id Cal C V} (hid : item.id = some id)
    (hcalendar : item.calendar = s.superCalendar) :
    ∃ s' detail, s.store form fresh id item = (s', .done detail) ∧
      Stores s s' id item.view detail := by
  refine ⟨_, _, rfl, h.update fun found hfound => ?_, rfl, shelf_update _, hid, hcalendar, rfl⟩
  obtain rfl := Option.some.inj hfound
  exact ⟨hid, hcalendar⟩

/-- `addItem` stores the item, whatever was there. -/
theorem Regular.addItem (h : s.Regular) (aItem : CalItem Id Cal C V) :
    ∃ s' detail, s.addItem form fresh aItem = (s', .done detail) ∧
      Stores s s' (aItem.id.getD fresh.uuid) aItem.view detail := by
  rw [MemoryCalendar.addItem, if_neg h.not_readOnly]
  exact h.store rfl rfl

/-- `modifyItem` takes the stored item for the old one if content and generation are the same. -/
theorem Regular.modifyItem [DecidableEq N] (h : s.Regular) {aNewItem aOldItem : CalItem Id Cal C V}
    (hnew : aNewItem.id = some id) (hcalendar : aNewItem.calendar = s.superCalendar)
    (hold : aOldItem.id = some id) (hshelf : s.shelf id = some aOldItem.view) :
    ∃ s' detail, s.modifyItem form fresh aNewItem (some aOldItem) = (s', .done detail) ∧
      Stores s s' id (aNewItem.content, if aOldItem.generation = aNewItem.generation then
        aNewItem.generation + 1 else aNewItem.generation) detail := by
  obtain ⟨stored, hstored, hview⟩ := Option.map_eq_some_iff.1 hshelf
  have hcontent : stored.content = aOldItem.content := congrArg Prod.fst hview
  have hgeneration : stored.generation = aOldItem.generation := congrArg Prod.snd hview
  rw [MemoryCalendar.modifyItem, if_neg h.not_readOnly, hnew]
  dsimp only
  rw [if_neg h.not_relaxed, hstored]
  dsimp only [Option.or]
  rw [if_neg (not_not.2 hold), compareContent, hcontent, decide_eq_true rfl, Bool.not_true,
    if_neg Bool.false_ne_true, hgeneration, if_neg (not_not.2 rfl)]
  split
  · exact h.store rfl hcalendar
  · exact h.store hnew hcalendar

/-- `deleteItem` deletes an item of the same generation. -/
theorem Regular.deleteItem (h : s.Regular) {aItem : CalItem Id Cal C V} (hid : aItem.id = some id)
    (hshelf : s.shelf id = some aItem.view) :
    ∃ s', s.deleteItem aItem = (s', .done aItem) ∧ s'.Regular ∧
      s'.superCalendar = s.superCalendar ∧ s'.shelf = Function.update s.shelf id none := by
  obtain ⟨stored, hstored, hview⟩ := Option.map_eq_some_iff.1 hshelf
  have hgeneration : stored.generation = aItem.generation := congrArg Prod.snd hview
  rw [MemoryCalendar.deleteItem, if_neg h.not_readOnly, hid]
  dsimp only
  rw [if_neg h.not_relaxed, hstored]
  dsimp only
  rw [if_neg (not_not.2 hgeneration)]
  have hregular : Regular { s with mItems := Function.update s.mItems id none } := by
    apply h.update
    intro found hfound
    cases hfound
  exact ⟨_, rfl, hregular, rfl, shelf_update none⟩

end MemoryCalendar

end CommCentral.Calendar
