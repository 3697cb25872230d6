import CommCentral.Lib.UndoStack
import CommCentral.Calendar.MemoryCalendar

/-!
# Calendar transactions

`CalTransaction` and its manager, from `calendar/base/src/CalTransactionManager.jsm`, over
calendars in memory.  A transaction remembers the new and the old item.  What a calendar
answers takes the place of the one or the other, by the direction of the transaction.

The manager of the toolkit keeps the transactions that are in effect on one stack and those
that were undone on another (`UndoStack`).  No invitations are sent.

Undoing and redoing bring back the contents and generations of all calendars, unless an item
is moved to a calendar that has an item with its id already.  The calendar overwrites that
item, and undoing the move deletes it (`calTransactions_run`).
-/

namespace CommCentral.Calendar

open Function List UndoStack

variable {Id Cal C V T N : Type}

/-! ## Transactions -/

/-- `mAction`, and the type of an operation. -/
inductive CalAction
  | add
  | modify
  | delete
deriving DecidableEq

structure CalTransaction (Id Cal C V : Type) where
  mAction : CalAction
  mItem : CalItem Id Cal C V
  mCalendar : Cal
  mOldItem : Option (CalItem Id Cal C V)
  mOldCalendar : Option Cal
  mIsDoTransaction : Bool

def CalTransaction.new (aAction : CalAction) (aItem : CalItem Id Cal C V) (aCalendar : Cal)
    (aOldItem : Option (CalItem Id Cal C V)) : CalTransaction Id Cal C V :=
  ⟨aAction, aItem, aCalendar, aOldItem, none, false⟩

/-- All calendars, by their ids. -/
abbrev Calendars (Id Cal C V : Type) : Type := Cal → MemoryCalendar Id Cal C V

/-- What a transaction does: the calendars, the transaction and the answers of the calendars. -/
structure Outcome (Id Cal C V : Type) where
  calendars : Calendars Id Cal C V
  txn : CalTransaction Id Cal C V
  answers : List (Answer Id Cal C V)

def CalTransaction.onOperationComplete (t : CalTransaction Id Cal C V)
    (aOperationType : CalAction) (answer : Answer Id Cal C V) : CalTransaction Id Cal C V :=
  match answer with
  | .done aDetail =>
    if aOperationType = .add ∨ aOperationType = .modify then
      if t.mIsDoTransaction then { t with mItem := aDetail } else { t with mOldItem := some aDetail }
    else t
  | _ => t

section Model

variable [DecidableEq Id] [DecidableEq Cal] [DecidableEq N] (form : ItemForm Id Cal C V T N)
  (fresh : Fresh Id T)

/-- A call on one calendar, whose answer goes to the transaction. -/
def callOn (w : Calendars Id Cal C V) (t : CalTransaction Id Cal C V) (c : Cal)
    (aOperationType : CalAction) (reply : MemoryCalendar Id Cal C V × Answer Id Cal C V) :
    Outcome Id Cal C V :=
  ⟨Function.update w c reply.1, t.onOperationComplete aOperationType reply.2, [reply.2]⟩

/-- Another call, after one. -/
def Outcome.andThen (o : Outcome Id Cal C V)
    (next : Calendars Id Cal C V → CalTransaction Id Cal C V → Outcome Id Cal C V) :
    Outcome Id Cal C V :=
  let o' := next o.calendars o.txn
  { o' with answers := o.answers ++ o'.answers }

def CalTransaction.doTransaction (w : Calendars Id Cal C V) (t : CalTransaction Id Cal C V) :
    Outcome Id Cal C V :=
  let t := { t with mIsDoTransaction := true }
  match t.mAction with
  | .add => callOn w t t.mCalendar .add ((w t.mCalendar).addItem form fresh t.mItem)
  | .modify =>
    match t.mOldItem with
    | none => ⟨w, t, [.thrown "mOldItem is null"]⟩
    | some mOldItem =>
      if t.mItem.calendar = mOldItem.calendar then
        callOn w t t.mCalendar .modify ((w t.mCalendar).modifyItem form fresh
          (prepareSequence form t.mItem mOldItem) (some mOldItem))
      else
        let t := { t with mOldCalendar := some mOldItem.calendar }
        let added := callOn w t t.mCalendar .add ((w t.mCalendar).addItem form fresh t.mItem)
        if added.answers.all Answer.isDone then
          added.andThen fun w t =>
            callOn w t mOldItem.calendar .delete ((w mOldItem.calendar).deleteItem mOldItem)
        else added
  | .delete => callOn w t t.mCalendar .delete ((w t.mCalendar).deleteItem t.mItem)

def CalTransaction.undoTransaction (w : Calendars Id Cal C V) (t : CalTransaction Id Cal C V) :
    Outcome Id Cal C V :=
  let t := { t with mIsDoTransaction := false }
  match t.mAction with
  | .add => callOn w t t.mCalendar .delete ((w t.mCalendar).deleteItem t.mItem)
  | .modify =>
    match t.mOldItem with
    | none => ⟨w, t, [.thrown "mOldItem is null"]⟩
    | some mOldItem =>
      if mOldItem.calendar = t.mItem.calendar then
        callOn w t t.mCalendar .modify ((w t.mCalendar).modifyItem form fresh
          (prepareSequence form mOldItem t.mItem) (some t.mItem))
      else
        let deleted := callOn w t t.mCalendar .delete ((w t.mCalendar).deleteItem t.mItem)
        if deleted.answers.any Answer.isThrown then deleted
        else
          deleted.andThen fun w t =>
            match t.mOldCalendar with
            | none => ⟨w, t, [.thrown "mOldCalendar is null"]⟩
            | some mOldCalendar =>
              callOn w t mOldCalendar .add ((w mOldCalendar).addItem form fresh mOldItem)
  | .delete => callOn w t t.mCalendar .add ((w t.mCalendar).addItem form fresh t.mItem)

/-- The transactions of the manager.  One that throws stays on its stack. -/
def txnActions : UndoStack.Actions (Calendars Id Cal C V) (CalTransaction Id Cal C V) (Fresh Id T)
    (List (Answer Id Cal C V)) where
  perform fresh w t :=
    let o := t.doTransaction form fresh w
    (o.calendars, o.txn, o.answers)
  revert fresh w t :=
    let o := t.undoTransaction form fresh w
    (o.calendars, o.txn, o.answers)
  stuck answers := answers.any Answer.isThrown

end Model

/-! ## What all calendars hold -/

/-- The ids of all calendars, with what they stand for. -/
abbrev Shelves (Id Cal C : Type) : Type := Cal → Id → Option (C × ℕ)

def shelves (w : Calendars Id Cal C V) : Shelves Id Cal C := fun c => (w c).shelf

structure RegularCalendars (w : Calendars Id Cal C V) : Prop where
  regular : ∀ c, (w c).Regular
  superCalendar : ∀ c, (w c).superCalendar = c

/-- No call is rejected. -/
def AllDone (answers : List (Answer Id Cal C V)) : Prop :=
  ∀ answer ∈ answers, answer.isDone = true

theorem not_thrown {answers : List (Answer Id Cal C V)} (h : AllDone answers) :
    answers.any Answer.isThrown = false := by
  rw [any_eq_false]
  intro answer hanswer hthrown
  have hdone := h answer hanswer
  cases answer with
  | done detail => cases hthrown
  | failed message => cases hdone
  | thrown error => cases hdone

/-- Some calls have succeeded: what the calendars hold then, and the transaction. -/
structure Calls (w : Calendars Id Cal C V) (o : Outcome Id Cal C V) (S : Shelves Id Cal C)
    (t : CalTransaction Id Cal C V) : Prop where
  done : AllDone o.answers
  regular : RegularCalendars o.calendars
  shelves : shelves o.calendars = S
  txn : o.txn = t

section Calendars

variable {w : Calendars Id Cal C V}

theorem Calls.andThen {o : Outcome Id Cal C V} {S S' : Shelves Id Cal C}
    {t t' : CalTransaction Id Cal C V} (h : Calls w o S t)
    {next : Calendars Id Cal C V → CalTransaction Id Cal C V → Outcome Id Cal C V}
    (hnext : Calls o.calendars (next o.calendars t) S' t') : Calls w (o.andThen next) S' t' := by
  rw [Outcome.andThen, h.txn]
  refine ⟨?_, hnext.regular, hnext.shelves, hnext.txn⟩
  intro answer hanswer
  rcases mem_append.1 hanswer with hfirst | hsecond
  · exact h.done answer hfirst
  · exact hnext.done answer hsecond

variable [DecidableEq Cal] {c : Cal} {s' : MemoryCalendar Id Cal C V}

theorem RegularCalendars.update (h : RegularCalendars w) (hs : s'.Regular)
    (hc : s'.superCalendar = (w c).superCalendar) : RegularCalendars (Function.update w c s') := by
  constructor
  · intro d
    by_cases hd : d = c
    · subst hd
      rw [update_self]
      exact hs
    · rw [update_of_ne hd]
      exact h.regular d
  · intro d
    by_cases hd : d = c
    · subst hd
      rw [update_self, hc]
      exact h.superCalendar d
    · rw [update_of_ne hd]
      exact h.superCalendar d

end Calendars

section Proofs

variable [DecidableEq Id] [DecidableEq Cal]

/-- What stands for an id in a calendar changes. -/
def Shelves.put (S : Shelves Id Cal C) (c : Cal) (id : Id) (v : Option (C × ℕ)) :
    Shelves Id Cal C :=
  Function.update S c (Function.update (S c) id v)

theorem Shelves.put_self (S : Shelves Id Cal C) (c : Cal) (id : Id) (v : Option (C × ℕ)) :
    S.put c id v c id = v := by
  rw [put, update_self, update_self]

theorem Shelves.put_of_ne {c c' : Cal} (h : c' ≠ c) (S : Shelves Id Cal C) (id id' : Id)
    (v : Option (C × ℕ)) : S.put c id v c' id' = S c' id' := by
  rw [put, update_of_ne h]

theorem Shelves.put_put (S : Shelves Id Cal C) (c : Cal) (id : Id) (v v' : Option (C × ℕ)) :
    (S.put c id v).put c id v' = S.put c id v' := by
  rw [put, put, update_self, update_idem, update_idem, put]

theorem Shelves.put_same {S : Shelves Id Cal C} {c : Cal} {id : Id} {v : Option (C × ℕ)}
    (h : S c id = v) : S.put c id v = S := by
  rw [put, ← h, update_eq_self, update_eq_self]

theorem Shelves.put_comm {c c' : Cal} (h : c ≠ c') (S : Shelves Id Cal C) (id id' : Id)
    (v v' : Option (C × ℕ)) :
    (S.put c id v).put c' id' v' = (S.put c' id' v').put c id v := by
  rw [put, put, put, put, update_of_ne h.symm, update_of_ne h,
    update_comm h]

variable {w : Calendars Id Cal C V} {c : Cal} {s' : MemoryCalendar Id Cal C V} {id : Id}

open Shelves

theorem shelves_update {v : Option (C × ℕ)} (h : s'.shelf = Function.update (w c).shelf id v) :
    shelves (Function.update w c s') = (shelves w).put c id v := by
  funext d
  by_cases hd : d = c
  · subst hd
    rw [shelves, update_self, h, put, update_self]
    rfl
  · rw [shelves, update_of_ne hd, put, update_of_ne hd]
    rfl

/-! ## The calls of a transaction -/

/-- An item is stored in a calendar, and the transaction gets it. -/
theorem calls_add (form : ItemForm Id Cal C V T N) (fresh : Fresh Id T) (h : RegularCalendars w)
    (t : CalTransaction Id Cal C V) (c : Cal)
    (item : CalItem Id Cal C V) :
    ∃ detail, detail.id = some (item.id.getD fresh.uuid) ∧ detail.calendar = c ∧
      detail.view = item.view ∧
      Calls w (callOn w t c .add ((w c).addItem form fresh item))
        ((shelves w).put c (item.id.getD fresh.uuid) (some item.view))
        (if t.mIsDoTransaction then { t with mItem := detail }
          else { t with mOldItem := some detail }) := by
  obtain ⟨s', detail, heq, hstores⟩ : ∃ s' detail, (w c).addItem form fresh item =
      (s', .done detail) ∧ (w c).Stores s' _ _ detail := (h.regular c).addItem item
  rw [heq]
  refine ⟨detail, hstores.detail_id, hstores.detail_calendar.trans (h.superCalendar c),
    hstores.detail_view, ?_, h.update hstores.regular hstores.superCalendar,
    shelves_update hstores.shelf, rfl⟩
  intro answer hanswer
  obtain rfl := mem_singleton.1 hanswer
  rfl

/-- The stored item is replaced, and the transaction gets the new one. -/
theorem calls_modify [DecidableEq N] (form : ItemForm Id Cal C V T N) (fresh : Fresh Id T)
    (h : RegularCalendars w) (t : CalTransaction Id Cal C V)
    {newItem oldItem : CalItem Id Cal C V} (hnew : newItem.id = some id)
    (hcalendar : newItem.calendar = c) (hold : oldItem.id = some id)
    (hshelf : shelves w c id = some oldItem.view) :
    ∃ detail, detail.id = some id ∧ detail.calendar = c ∧
      detail.view = (newItem.content, if oldItem.generation = newItem.generation then
        newItem.generation + 1 else newItem.generation) ∧
      Calls w (callOn w t c .modify ((w c).modifyItem form fresh
          (prepareSequence form newItem oldItem) (some oldItem)))
        ((shelves w).put c id (some detail.view))
        (if t.mIsDoTransaction then { t with mItem := detail }
          else { t with mOldItem := some detail }) := by
  have hprepared : (prepareSequence form newItem oldItem).id = some id := hnew
  have hplace : (prepareSequence form newItem oldItem).calendar = (w c).superCalendar := by
    rw [h.superCalendar]
    exact hcalendar
  obtain ⟨s', detail, heq, hstores⟩ : ∃ s' detail, (w c).modifyItem form fresh
      (prepareSequence form newItem oldItem) (some oldItem) = (s', .done detail) ∧
      (w c).Stores s' _ _ detail := (h.regular c).modifyItem hprepared hplace hold hshelf
  rw [heq]
  refine ⟨detail, hstores.detail_id, hstores.detail_calendar.trans (h.superCalendar c),
    hstores.detail_view, ?_, h.update hstores.regular hstores.superCalendar, ?_, rfl⟩
  · intro answer hanswer
    obtain rfl := mem_singleton.1 hanswer
    rfl
  · rw [hstores.detail_view]
    exact shelves_update hstores.shelf

/-- The stored item is deleted, and the transaction stays as it is. -/
theorem calls_delete (h : RegularCalendars w) (t : CalTransaction Id Cal C V)
    {item : CalItem Id Cal C V} (hid : item.id = some id)
    (hshelf : shelves w c id = some item.view) :
    Calls w (callOn w t c .delete ((w c).deleteItem item)) ((shelves w).put c id none) t := by
  obtain ⟨s', heq, hregular, hsuper, hshelf'⟩ := (h.regular c).deleteItem hid hshelf
  rw [heq]
  refine ⟨?_, h.update hregular hsuper, shelves_update hshelf', rfl⟩
  intro answer hanswer
  obtain rfl := mem_singleton.1 hanswer
  rfl

/-! ## Doing, undoing and redoing -/

/-- A transaction that has been done leads from some shelves to others. -/
inductive Leads (t : CalTransaction Id Cal C V) (S : Shelves Id Cal C) : Shelves Id Cal C → Prop
  | add {id : Id} (haction : t.mAction = .add) (hid : t.mItem.id = some id)
      (hnone : S t.mCalendar id = none) : Leads t S (S.put t.mCalendar id (some t.mItem.view))
  | modify {id : Id} {oldItem : CalItem Id Cal C V} (haction : t.mAction = .modify)
      (hold : t.mOldItem = some oldItem) (hcalendar : t.mItem.calendar = t.mCalendar)
      (holdCalendar : oldItem.calendar = t.mCalendar) (hid : t.mItem.id = some id)
      (holdId : oldItem.id = some id) (hgeneration : oldItem.generation ≠ t.mItem.generation)
      (hshelf : S t.mCalendar id = some oldItem.view) :
      Leads t S (S.put t.mCalendar id (some t.mItem.view))
  | move {id : Id} {oldItem : CalItem Id Cal C V} (haction : t.mAction = .modify)
      (hold : t.mOldItem = some oldItem) (hcalendar : t.mItem.calendar = t.mCalendar)
      (holdCalendar : t.mOldCalendar = some oldItem.calendar)
      (hne : t.mCalendar ≠ oldItem.calendar) (hid : t.mItem.id = some id)
      (holdId : oldItem.id = some id) (hshelf : S oldItem.calendar id = some oldItem.view)
      (hnone : S t.mCalendar id = none) :
      Leads t S ((S.put t.mCalendar id (some t.mItem.view)).put oldItem.calendar id none)
  | delete {id : Id} (haction : t.mAction = .delete) (hid : t.mItem.id = some id)
      (hshelf : S t.mCalendar id = some t.mItem.view) : Leads t S (S.put t.mCalendar id none)

variable [DecidableEq N] (form : ItemForm Id Cal C V T N) (fresh : Fresh Id T)
  {t : CalTransaction Id Cal C V}

open Leads

theorem doTransaction_add (h : RegularCalendars w) (haction : t.mAction = .add)
    (hnone : shelves w t.mCalendar (t.mItem.id.getD fresh.uuid) = none) :
    ∃ t', Calls w (t.doTransaction form fresh w)
        ((shelves w).put t.mCalendar (t.mItem.id.getD fresh.uuid) (some t.mItem.view)) t' ∧
      Leads t' (shelves w)
        ((shelves w).put t.mCalendar (t.mItem.id.getD fresh.uuid) (some t.mItem.view)) := by
  obtain ⟨mAction, mItem, mCalendar, mOldItem, mOldCalendar, mIsDoTransaction⟩ := t
  subst haction
  obtain ⟨detail, hid, -, hview, hcalls⟩ := calls_add form fresh h
    ⟨.add, mItem, mCalendar, mOldItem, mOldCalendar, true⟩ mCalendar mItem
  refine ⟨⟨.add, detail, mCalendar, mOldItem, mOldCalendar, true⟩, hcalls, ?_⟩
  rw [← hview]
  exact add rfl hid hnone

section

variable (h : RegularCalendars w) {oldItem : CalItem Id Cal C V} (haction : t.mAction = .modify)
    (hold : t.mOldItem = some oldItem) (hcalendar : t.mItem.calendar = t.mCalendar)

include h haction hold hcalendar

theorem doTransaction_modify (holdCalendar : oldItem.calendar = t.mCalendar)
    (hid : t.mItem.id = some id) (holdId : oldItem.id = some id)
    (hshelf : shelves w t.mCalendar id = some oldItem.view) :
    ∃ t' v, v = (t.mItem.content, if oldItem.generation = t.mItem.generation then
        t.mItem.generation + 1 else t.mItem.generation) ∧
      Calls w (t.doTransaction form fresh w) ((shelves w).put t.mCalendar id (some v)) t' ∧
      Leads t' (shelves w) ((shelves w).put t.mCalendar id (some v)) := by
  obtain ⟨mAction, mItem, mCalendar, mOldItem, mOldCalendar, mIsDoTransaction⟩ := t
  subst haction hold
  obtain ⟨detail, hdetail, hplace, hview, hcalls⟩ := calls_modify form fresh h
    ⟨.modify, mItem, mCalendar, some oldItem, mOldCalendar, true⟩ hid hcalendar holdId hshelf
  refine ⟨⟨.modify, detail, mCalendar, some oldItem, mOldCalendar, true⟩, detail.view, hview,
    ?_, ?_⟩
  · rw [CalTransaction.doTransaction]
    dsimp only
    rw [if_pos (hcalendar.trans holdCalendar.symm)]
    exact hcalls
  · refine modify rfl rfl hplace holdCalendar hdetail holdId ?_ hshelf
    have hgeneration := congrArg Prod.snd hview
    dsimp only [CalItem.view] at hgeneration ⊢
    rw [hgeneration]
    split <;> omega

/-- Moving the stored item to a calendar without an item of its id. -/
theorem doTransaction_move (hne : t.mCalendar ≠ oldItem.calendar) (hid : t.mItem.id = some id)
    (holdId : oldItem.id = some id) (hshelf : shelves w oldItem.calendar id = some oldItem.view)
    (hnone : shelves w t.mCalendar id = none) :
    ∃ t', Calls w (t.doTransaction form fresh w)
        (((shelves w).put t.mCalendar id (some t.mItem.view)).put oldItem.calendar id none) t' ∧
      Leads t' (shelves w)
        (((shelves w).put t.mCalendar id (some t.mItem.view)).put oldItem.calendar id none) := by
  obtain ⟨mAction, mItem, mCalendar, mOldItem, mOldCalendar, mIsDoTransaction⟩ := t
  subst haction hold
  obtain ⟨detail, hdetail, hplace, hview, hcalls⟩ := calls_add form fresh h
    ⟨.modify, mItem, mCalendar, some oldItem, some oldItem.calendar, true⟩ mCalendar mItem
  rw [hid] at hdetail hcalls
  refine ⟨⟨.modify, detail, mCalendar, some oldItem, some oldItem.calendar, true⟩, ?_, ?_⟩
  · have hthere : ¬mItem.calendar = oldItem.calendar := by
      rw [hcalendar]
      exact hne
    rw [CalTransaction.doTransaction]
    dsimp only
    rw [if_neg hthere, if_pos (all_eq_true.2 hcalls.done)]
    have hshelf' := congrFun (congrFun hcalls.shelves oldItem.calendar) id
    rw [put_of_ne hne.symm, hshelf] at hshelf'
    have hdelete := calls_delete hcalls.regular
      ⟨.modify, detail, mCalendar, some oldItem, some oldItem.calendar, true⟩ holdId hshelf'
    rw [hcalls.shelves] at hdelete
    exact hcalls.andThen hdelete
  · rw [← hview]
    exact move rfl rfl hplace rfl hne hdetail holdId hshelf hnone

end

theorem doTransaction_delete (h : RegularCalendars w) (haction : t.mAction = .delete)
    (hid : t.mItem.id = some id) (hshelf : shelves w t.mCalendar id = some t.mItem.view) :
    ∃ t', Calls w (t.doTransaction form fresh w) ((shelves w).put t.mCalendar id none) t' ∧
      Leads t' (shelves w) ((shelves w).put t.mCalendar id none) := by
  obtain ⟨mAction, mItem, mCalendar, mOldItem, mOldCalendar, mIsDoTransaction⟩ := t
  subst haction
  have hcalls :=
    calls_delete h ⟨.delete, mItem, mCalendar, mOldItem, mOldCalendar, true⟩ hid hshelf
  exact ⟨_, hcalls, delete rfl hid hshelf⟩

theorem redo_leads (h : RegularCalendars w) {S' : Shelves Id Cal C}
    (ht : Leads t (shelves w) S') :
    ∃ t', Calls w (t.doTransaction form fresh w) S' t' ∧ Leads t' (shelves w) S' := by
  cases ht with
  | @add id haction hid hnone =>
    have hgetD : t.mItem.id.getD fresh.uuid = id := by rw [hid, Option.getD_some]
    rw [← hgetD] at hnone ⊢
    exact doTransaction_add form fresh h haction hnone
  | modify haction hold hcalendar holdCalendar hid holdId hgeneration hshelf =>
    obtain ⟨t', v, hv, hdo⟩ :=
      doTransaction_modify form fresh h haction hold hcalendar holdCalendar hid holdId hshelf
    rw [if_neg hgeneration] at hv
    obtain rfl : v = t.mItem.view := hv
    exact ⟨t', hdo⟩
  | move haction hold hcalendar holdCalendar hne hid holdId hshelf hnone =>
    exact doTransaction_move form fresh h haction hold hcalendar hne hid holdId hshelf hnone
  | delete haction hid hshelf => exact doTransaction_delete form fresh h haction hid hshelf

theorem undo_leads (h : RegularCalendars w) {S : Shelves Id Cal C} (ht : Leads t S (shelves w)) :
    ∃ t', Calls w (t.undoTransaction form fresh w) S t' ∧ Leads t' S (shelves w) := by
  obtain ⟨mAction, mItem, mCalendar, mOldItem, mOldCalendar, mIsDoTransaction⟩ := t
  generalize hS : shelves w = S' at ht
  cases ht with
  | @add id haction hid hnone =>
    subst haction
    have hshelf : shelves w mCalendar id = some mItem.view := by rw [hS, put_self]
    have hcalls := calls_delete h ⟨.add, mItem, mCalendar, mOldItem, mOldCalendar, false⟩ hid
      hshelf
    rw [hS, put_put, put_same hnone] at hcalls
    exact ⟨_, hcalls, add rfl hid hnone⟩
  | @modify id oldItem haction hold hcalendar holdCalendar hid holdId hgeneration hshelf =>
    subst haction hold
    have hitem : shelves w mCalendar id = some mItem.view := by rw [hS, put_self]
    obtain ⟨detail, hdetail, hplace, hview, hcalls⟩ := calls_modify form fresh h
      ⟨.modify, mItem, mCalendar, some oldItem, mOldCalendar, false⟩ holdId
      holdCalendar hid hitem
    rw [if_neg hgeneration.symm] at hview
    have hold : detail.view = oldItem.view := hview
    rw [hS, put_put, hold, put_same hshelf] at hcalls
    refine ⟨⟨.modify, mItem, mCalendar, some detail, mOldCalendar, false⟩, ?_, ?_⟩
    · rw [CalTransaction.undoTransaction]
      dsimp only
      rw [if_pos (holdCalendar.trans hcalendar.symm)]
      exact hcalls
    · refine modify rfl rfl hcalendar hplace hid hdetail ?_ (hshelf.trans ?_)
      · have hsame : detail.generation = oldItem.generation := congrArg Prod.snd hold
        rw [hsame]
        exact hgeneration
      · rw [hold]
  | @move id oldItem haction hold hcalendar holdCalendar hne hid holdId hshelf hnone =>
    subst haction hold holdCalendar
    have hitem : shelves w mCalendar id = some mItem.view := by
      rw [hS, put_of_ne hne, put_self]
    have hdelete := calls_delete h
      ⟨.modify, mItem, mCalendar, some oldItem, some oldItem.calendar, false⟩ hid hitem
    obtain ⟨detail, hdetail, hplace, hview, hcalls⟩ := calls_add form fresh hdelete.regular
      ⟨.modify, mItem, mCalendar, some oldItem, some oldItem.calendar, false⟩ oldItem.calendar
      oldItem
    rw [holdId, Option.getD_some] at hdetail hcalls
    -- what was moved leaves the new calendar and comes back to the old one
    have hback : (((((S.put mCalendar id (some mItem.view)).put oldItem.calendar id none).put
        mCalendar id none).put oldItem.calendar id (some oldItem.view))) = S := by
      rw [put_comm hne.symm, put_put, put_put, put_same hnone,
        put_same hshelf]
    rw [hdelete.shelves, hS, hback] at hcalls
    refine ⟨⟨.modify, mItem, mCalendar, some detail, some oldItem.calendar, false⟩,
      ?_, ?_⟩
    · have hthere : ¬oldItem.calendar = mItem.calendar := by
        rw [hcalendar]
        exact hne.symm
      rw [CalTransaction.undoTransaction]
      dsimp only
      rw [if_neg hthere, if_neg (Bool.eq_false_iff.1 (not_thrown hdelete.done))]
      exact hdelete.andThen hcalls
    · rw [← hplace]
      refine move rfl rfl hcalendar ?_ ?_ hid hdetail ?_ hnone
      · rw [hplace]
      · rw [hplace]
        exact hne
      · rw [hplace, hview]
        exact hshelf
  | @delete id haction hid hshelf =>
    subst haction
    obtain ⟨detail, -, -, -, hcalls⟩ := calls_add form fresh h
      ⟨.delete, mItem, mCalendar, mOldItem, mOldCalendar, false⟩ mCalendar mItem
    rw [hid, Option.getD_some, hS, put_put, put_same hshelf] at hcalls
    exact ⟨⟨.delete, mItem, mCalendar, some detail, mOldCalendar, false⟩, hcalls,
      delete rfl hid hshelf⟩

/-! ## First executions -/

/-- A transaction is built from what the calendars hold. -/
inductive Built (w : Calendars Id Cal C V) (fresh : Fresh Id T) : CalTransaction Id Cal C V → Prop
  | add {c : Cal} {item : CalItem Id Cal C V}
      (hnew : (w c).mItems (item.id.getD fresh.uuid) = none) :
      Built w fresh (.new .add item c none)
  /-- A changed copy of a stored item, for the same calendar or for another one. -/
  | modify {c c' : Cal} {id : Id} {item oldItem : CalItem Id Cal C V}
      (hold : (w c).mItems id = some oldItem) (hid : item.id = some id)
      (hgeneration : item.generation = oldItem.generation) (hcalendar : item.calendar = c') :
      Built w fresh (.new .modify item c' (some oldItem))
  | delete {c : Cal} {id : Id} {item : CalItem Id Cal C V} (hitem : (w c).mItems id = some item) :
      Built w fresh (.new .delete item c none)

/-- A move goes to a calendar without an item of the same id. -/
def MovesToFree (w : Calendars Id Cal C V) (t : CalTransaction Id Cal C V) : Prop :=
  ∀ oldItem id, t.mAction = .modify → t.mOldItem = some oldItem →
    t.mItem.calendar ≠ oldItem.calendar → t.mItem.id = some id →
      (w t.mCalendar).mItems id = none

omit [DecidableEq Id] [DecidableEq Cal] in
/-- A stored item knows its id and its calendar, and stands on the shelf. -/
theorem RegularCalendars.stored (h : RegularCalendars w) {item : CalItem Id Cal C V}
    (hitem : (w c).mItems id = some item) :
    item.id = some id ∧ item.calendar = c ∧ shelves w c id = some item.view := by
  obtain ⟨hid, hcalendar⟩ := (h.regular c).stored id item hitem
  refine ⟨hid, hcalendar.trans (h.superCalendar c), ?_⟩
  rw [shelves, MemoryCalendar.shelf, hitem]
  rfl

omit [DecidableEq Id] [DecidableEq Cal] in
theorem shelves_eq_none (hnone : (w c).mItems id = none) : shelves w c id = none := by
  rw [shelves, MemoryCalendar.shelf, hnone]
  rfl

/-- A transaction that is built from what the calendars hold leads to what they hold afterwards. -/
theorem first_leads (h : RegularCalendars w) (hbuilt : Built w fresh t) (hfree : MovesToFree w t) :
    ∃ t' S', Calls w (t.doTransaction form fresh w) S' t' ∧ Leads t' (shelves w) S' := by
  cases hbuilt with
  | add hnew =>
    obtain ⟨t', hdo⟩ := doTransaction_add form fresh h (t := .new .add _ _ none) rfl
      (shelves_eq_none hnew)
    exact ⟨t', _, hdo⟩
  | @modify c c' id item oldItem hold hid hgeneration hcalendar =>
    obtain ⟨holdId, hplace, hshelf⟩ := h.stored hold
    subst hplace
    by_cases hsame : c' = oldItem.calendar
    · subst hsame
      obtain ⟨t', v, -, hdo⟩ := doTransaction_modify form fresh h
        (t := .new .modify item oldItem.calendar (some oldItem)) rfl rfl hcalendar rfl hid holdId
        hshelf
      exact ⟨t', _, hdo⟩
    · have hne : item.calendar ≠ oldItem.calendar := by
        rw [hcalendar]
        exact hsame
      obtain ⟨t', hdo⟩ := doTransaction_move form fresh h
        (t := .new .modify item c' (some oldItem)) rfl rfl hcalendar hsame hid holdId hshelf
        (shelves_eq_none (hfree oldItem id rfl rfl hne hid))
      exact ⟨t', _, hdo⟩
  | delete hitem =>
    obtain ⟨hid, hplace, hshelf⟩ := h.stored hitem
    obtain ⟨t', hdo⟩ :=
      doTransaction_delete form fresh h (t := .new .delete _ _ none) rfl hid hshelf
    exact ⟨t', _, hdo⟩

/-! ## All histories -/

/-- Transactions meet the laws of undoing and redoing. -/
theorem lawful_txnActions :
    Lawful (txnActions form) shelves RegularCalendars
      (fun (t : CalTransaction Id Cal C V) S S' => Leads t S S') AllDone where
  not_stuck answers h := not_thrown h
  perform fresh w t S' h ht := by
    obtain ⟨t', hcalls, hleads⟩ := redo_leads form fresh h ht
    obtain rfl := hcalls.txn
    exact ⟨hcalls.regular, hcalls.shelves, hleads, hcalls.done⟩
  revert fresh w t S h ht := by
    obtain ⟨t', hcalls, hleads⟩ := undo_leads form fresh h ht
    obtain rfl := hcalls.txn
    exact ⟨hcalls.regular, hcalls.shelves, hleads, hcalls.done⟩

/-- The calendars with the transactions, and with what the calendars held after the first execution
of each transaction. -/
abbrev TxnHistory (Id Cal C V : Type) : Type :=
  UndoStack.Recorded (Calendars Id Cal C V) (CalTransaction Id Cal C V) (Shelves Id Cal C)

def txnStep : Machine.Step (TxnHistory Id Cal C V)
    (UndoStack.Command (CalTransaction Id Cal C V) × Fresh Id T)
    (Option (List (Answer Id Cal C V))) :=
  UndoStack.recordStep (txnActions form) shelves

/-- A new transaction is built from what the calendars hold. -/
def BuiltFromStored (r : TxnHistory Id Cal C V)
    (c : UndoStack.Command (CalTransaction Id Cal C V) × Fresh Id T) : Prop :=
  ∀ t, c.1 = .commit t → Built r.pair.state c.2 t

/-- A new transaction does not move an item onto another one. -/
def NoOverwrite (r : TxnHistory Id Cal C V)
    (c : UndoStack.Command (CalTransaction Id Cal C V) × Fresh Id T) : Prop :=
  ∀ t, c.1 = .commit t → MovesToFree r.pair.state t

/-- **Undo and redo are inverse over all histories** in which no item is moved to a calendar that
has an item with its id: no call is rejected, and when `k` transactions are in effect all calendars
hold what they held after the first execution of the `k`th. -/
theorem calTransactions_run {w : Calendars Id Cal C V} (h : RegularCalendars w)
    {commands : List (UndoStack.Command (CalTransaction Id Cal C V) × Fresh Id T)}
    (hbuilt : Machine.Along (txnStep form) BuiltFromStored (UndoStack.start shelves w) commands)
    (hfree : Machine.Along (txnStep form) NoOverwrite (UndoStack.start shelves w) commands) :
    (Machine.exec (txnStep form) (UndoStack.start shelves w) commands).Right shelves ∧
      ∀ answers,
        some answers ∈ Machine.outputs (txnStep form) (UndoStack.start shelves w) commands →
        AllDone answers := by
  refine views_run (P := fun w t fresh => Built w fresh t ∧ MovesToFree w t)
    (lawful_txnActions form) ?_ h ((hbuilt.and hfree).mono ?_)
  · rintro w t fresh hw ⟨hb, hf⟩
    obtain ⟨t', S', hcalls, hleads⟩ := first_leads form fresh hw hb hf
    obtain rfl := hcalls.txn
    obtain rfl := hcalls.shelves
    exact ⟨hcalls.regular, hleads, hcalls.done⟩
  · rintro r c ⟨hb, hf⟩ t ht
    exact ⟨hb t ht, hf t ht⟩

end Proofs

/-! ## Two calendars -/

/-- Items without volatile properties. -/
def plainForm : ItemForm ℕ Bool ℕ Unit Unit ℕ := ⟨id, fun _ _ => (), fun _ _ => ()⟩

/-- An item with the id 7. -/
def seventh (c : Bool) (content : ℕ) : CalItem ℕ Bool ℕ Unit :=
  ⟨some 7, c, 0, (), content⟩

def oneItem (c : Bool) (content : Option ℕ) : MemoryCalendar ℕ Bool ℕ Unit where
  superCalendar := c
  readOnly := false
  relaxedMode := false
  mItems id := if id = 7 then content.map (seventh c) else none

def twoCalendars (content : Bool → Option ℕ) : Calendars ℕ Bool ℕ Unit :=
  fun c => oneItem c (content c)

theorem regular_twoCalendars (content : Bool → Option ℕ) :
    RegularCalendars (twoCalendars content) := by
  refine ⟨fun c => ⟨rfl, rfl, fun id item hitem => ?_⟩, fun c => rfl⟩
  rw [twoCalendars, oneItem] at hitem
  dsimp only at hitem
  split at hitem
  · next hid =>
    obtain ⟨n, -, rfl⟩ := Option.map_eq_some_iff.1 hitem
    exact ⟨congrArg some hid.symm, rfl⟩
  · cases hitem

/-- The item with the id 7 is moved to the other calendar. -/
def moveSeventh : CalTransaction ℕ Bool ℕ Unit :=
  .new .modify (seventh true 1) true (some (seventh false 1))

def moveAndUndo : List (UndoStack.Command (CalTransaction ℕ Bool ℕ Unit) × Fresh ℕ Unit) :=
  [(.commit moveSeventh, ⟨(), 0⟩), (.undo, ⟨(), 0⟩)]

/-- The move is built from the stored item, whatever the other calendar has. -/
theorem built_moveAndUndo (other : Option ℕ) :
    Machine.Along (txnStep plainForm) BuiltFromStored
      (start shelves (twoCalendars fun c => if c then other else some 1))
      moveAndUndo := by
  refine ⟨?_, ?_, trivial⟩
  · rintro t ht
    obtain rfl := Command.commit.inj ht
    have hold : (twoCalendars (fun c => if c then other else some 1) false).mItems 7 =
        some (seventh false 1) := rfl
    exact Built.modify hold rfl rfl rfl
  · rintro t ht
    cases ht

theorem calTransactions_moveAndUndo :
    (Machine.exec (txnStep plainForm)
        (UndoStack.start shelves (twoCalendars fun c => if c then none else some 1))
        moveAndUndo).Right shelves ∧
      ∀ answers, some answers ∈ Machine.outputs (txnStep plainForm)
          (UndoStack.start shelves (twoCalendars fun c => if c then none else some 1))
          moveAndUndo → AllDone answers := by
  refine calTransactions_run plainForm (regular_twoCalendars _) (built_moveAndUndo none)
    ⟨?_, ?_, trivial⟩
  · rintro t ht oldItem id - - - hid
    obtain rfl := Command.commit.inj ht
    obtain rfl := Option.some.inj hid
    rfl
  · rintro t ht
    cases ht

/-- The other calendar has an item with the id 7.  The move overwrites it, and undoing the move
deletes it. -/
theorem not_calTransactions_overwrite :
    RegularCalendars (twoCalendars fun c => if c then some 2 else some 1) ∧
      Machine.Along (txnStep plainForm) BuiltFromStored
        (UndoStack.start shelves (twoCalendars fun c => if c then some 2 else some 1))
        moveAndUndo ∧
      ¬(Machine.exec (txnStep plainForm)
        (UndoStack.start shelves (twoCalendars fun c => if c then some 2 else some 1))
        moveAndUndo).Right shelves := by
  refine ⟨regular_twoCalendars _, built_moveAndUndo (some 2), fun hright => ?_⟩
  have hshelf := congrFun (congrFun (Option.some.inj hright) true) 7
  revert hshelf
  decide

end CommCentral.Calendar
