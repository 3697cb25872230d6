import CommCentral.Lib.Comparator

/-!
# The order of messages in a view

The comparisons of `nsMsgDBView.cpp`: a view is sorted by a primary field, and
by a secondary one where the primary fields are equal.

* Each key of a view has a header in its folder.
* What is outside of the view is a parameter: the comparison of collation keys,
  which is a total preorder, the keys that are made of the texts of a header, and
  custom columns.
* A 32-bit field that `GetLongField` does not set is 0.
-/

namespace CommCentral.MsgView

open Comparator

inductive MsgViewSortType where
  | byNone | byDate | bySubject | byAuthor | byId | byThread | byPriority | byStatus | bySize
  | byFlagged | byUnread | byRecipient | byLocation | byTags | byJunkStatus | byAttachments
  | byAccount | byCustom | byReceived | byCorrespondent
  deriving DecidableEq

inductive MsgViewSortOrder where
  | none | ascending | descending
  deriving DecidableEq

/-- A header, as far as 32-bit fields are taken from it. -/
structure MsgDBHdr where
  messageKey : ℕ
  folder : ℕ
  flags : ℕ
  isRead : Bool
  messageSize : ℕ
  lineCount : ℕ
  priority : ℕ
  dateInSeconds : ℕ
  dateReceived : ℕ
  /-- The number in the property `junkscore`, unless that is empty. -/
  junkscore : Option ℤ
  newestMsgDate : ℕ
  deriving DecidableEq

structure CustomColumnHandler (κ : Type*) where
  isString : Bool
  sortKeyForRow : MsgDBHdr → κ
  getSortLongForRow : MsgDBHdr → ℕ

inductive FieldType where
  | kCollationKey | kU32
  deriving DecidableEq

/-- `IdKey`, with the header that is found for its id and folder. -/
structure IdKey (κ : Type*) where
  hdr : MsgDBHdr
  dword : ℕ
  key : κ

def IdKey.id {κ : Type*} (info : IdKey κ) : ℕ := info.hdr.messageKey

structure SortInfo (κ : Type*) where
  compareCollationKeys : Comparator κ
  emptyKey : κ
  createCollationKey : MsgViewSortType → MsgDBHdr → κ
  m_sortType : MsgViewSortType
  m_sortOrder : MsgViewSortOrder
  m_secondarySort : MsgViewSortType
  m_secondarySortOrder : MsgViewSortOrder
  curColumnHandler : Option (CustomColumnHandler κ)
  /-- The column handler of `m_sortColumns[1]`. -/
  secondColumnHandler : Option (CustomColumnHandler κ)
  mShowSizeInLines : Bool
  /-- The view is threaded, not grouped, and does not sort threads by their root. -/
  byNewestMsg : Bool

/-! ## Flags and priorities -/

namespace MsgMessageFlags

def Read : ℕ := 0x1

def Replied : ℕ := 0x2

def Marked : ℕ := 0x4

def Forwarded : ℕ := 0x1000

def New : ℕ := 0x10000

def Attachment : ℕ := 0x10000000

end MsgMessageFlags

def MSG_STATUS_MASK : ℕ := MsgMessageFlags.Replied ||| MsgMessageFlags.Forwarded

namespace MsgPriority

def none : ℕ := 1

def normal : ℕ := 4

def highest : ℕ := 6

end MsgPriority

/-! ## Fields -/

/-- `GetFieldTypeAndLenForSort`, without the length. -/
def getFieldTypeForSort {κ : Type*} (sortType : MsgViewSortType)
    (colHandler : Option (CustomColumnHandler κ)) : Option FieldType :=
  match sortType with
  | .bySubject | .byAccount | .byTags | .byLocation | .byRecipient | .byCorrespondent
  | .byAuthor => some .kCollationKey
  | .byDate | .byReceived | .byPriority | .byThread | .byId | .bySize | .byFlagged | .byUnread
  | .byStatus | .byJunkStatus | .byAttachments => some .kU32
  | .byCustom => colHandler.map fun handler => if handler.isString then .kCollationKey else .kU32
  | .byNone => none

def getStatusSortValue (msgHdr : MsgDBHdr) : ℕ :=
  if msgHdr.flags &&& MsgMessageFlags.New ≠ 0 then 0
  else if msgHdr.flags &&& MSG_STATUS_MASK = MsgMessageFlags.Replied then 2
  else if msgHdr.flags &&& MSG_STATUS_MASK = MSG_STATUS_MASK then 1
  else if msgHdr.flags &&& MSG_STATUS_MASK = MsgMessageFlags.Forwarded then 3
  else if msgHdr.flags &&& MsgMessageFlags.Read ≠ 0 then 4
  else 5

namespace SortInfo

variable {κ : Type*} (view : SortInfo κ)

/-- `GetLongField`; `none` when the result is not set. -/
def getLongField (msgHdr : MsgDBHdr) (sortType : MsgViewSortType)
    (colHandler : Option (CustomColumnHandler κ)) : Option ℕ :=
  match sortType with
  | .bySize => some (if view.mShowSizeInLines then msgHdr.lineCount else msgHdr.messageSize)
  | .byPriority =>
    let priority :=
      if msgHdr.priority = MsgPriority.none then MsgPriority.normal else msgHdr.priority
    some ((((MsgPriority.highest : ℤ) - priority) % 2 ^ 32).toNat)
  | .byStatus => some (getStatusSortValue msgHdr)
  | .byFlagged => some (if msgHdr.flags &&& MsgMessageFlags.Marked = 0 then 1 else 0)
  | .byUnread => some (if msgHdr.isRead then 0 else 1)
  | .byJunkStatus =>
    match msgHdr.junkscore with
    | none => some 0
    | some score => some (((score + 1) % 2 ^ 32).toNat)
  | .byAttachments => some (if msgHdr.flags &&& MsgMessageFlags.Attachment = 0 then 1 else 0)
  | .byDate => some (if view.byNewestMsg then msgHdr.newestMsgDate else msgHdr.dateInSeconds)
  | .byReceived =>
    some (if view.byNewestMsg then msgHdr.newestMsgDate
      else if msgHdr.dateReceived = 0 then msgHdr.dateInSeconds
      else msgHdr.dateReceived)
  | .byCustom => colHandler.map fun handler => handler.getSortLongForRow msgHdr
  | _ => none

def getCollationKey (msgHdr : MsgDBHdr) (sortType : MsgViewSortType)
    (colHandler : Option (CustomColumnHandler κ)) : κ :=
  match sortType with
  | .byCustom =>
    match colHandler with
    | some handler => handler.sortKeyForRow msgHdr
    | none => view.emptyKey
  | _ => view.createCollationKey sortType msgHdr

def entryInfo (fieldType : FieldType) (sortType : MsgViewSortType)
    (colHandler : Option (CustomColumnHandler κ)) (msgHdr : MsgDBHdr) : IdKey κ :=
  match fieldType with
  | .kCollationKey => ⟨msgHdr, 0, view.getCollationKey msgHdr sortType colHandler⟩
  | .kU32 =>
    if sortType = .byId then ⟨msgHdr, msgHdr.messageKey, view.emptyKey⟩
    else ⟨msgHdr, (view.getLongField msgHdr sortType colHandler).getD 0, view.emptyKey⟩

/-! ## Comparisons -/

/-- The comparison of ids in `FnSortIdKey` and `FnSortIdUint32`. -/
def compareIds (p1 p2 : IdKey κ) : ℤ :=
  if view.m_secondarySortOrder = .ascending ∧ p1.id ≥ p2.id then 1 else -1

/-- `FnSortIdKey`, with the comparison where the keys are equal. -/
def fnSortIdKey (ascendingSort : Bool) (secondaryCompare : IdKey κ → IdKey κ → ℤ)
    (p1 p2 : IdKey κ) : ℤ :=
  let retVal := view.compareCollationKeys.cmp p1.key p2.key
  if retVal ≠ 0 then if ascendingSort then retVal else -retVal
  else if view.m_secondarySort = .byId then view.compareIds p1 p2
  else secondaryCompare p1 p2

/-- `FnSortIdUint32`, with the comparison where the numbers are equal. -/
def fnSortIdUint32 (ascendingSort : Bool) (secondaryCompare : IdKey κ → IdKey κ → ℤ)
    (p1 p2 : IdKey κ) : ℤ :=
  if p1.dword > p2.dword then if ascendingSort then 1 else -1
  else if p1.dword < p2.dword then if ascendingSort then -1 else 1
  else if view.m_secondarySort = .byId then view.compareIds p1 p2
  else secondaryCompare p1 p2

def comparisonFun (fieldType : FieldType) (ascendingSort : Bool)
    (secondaryCompare : IdKey κ → IdKey κ → ℤ) : IdKey κ → IdKey κ → ℤ :=
  match fieldType with
  | .kCollationKey => view.fnSortIdKey ascendingSort secondaryCompare
  | .kU32 => view.fnSortIdUint32 ascendingSort secondaryCompare

/-- `SecondaryCompare` when `isSecondarySort`. -/
def compareKeys (p1 p2 : IdKey κ) : ℤ := if p1.id > p2.id then 1 else 0

/-- `SecondaryCompare` when not `isSecondarySort`. -/
def secondaryCompare (p1 p2 : IdKey κ) : ℤ :=
  match getFieldTypeForSort view.m_secondarySort view.secondColumnHandler with
  | none => 0
  | some fieldType =>
    let entryInfo := view.entryInfo fieldType view.m_secondarySort view.secondColumnHandler
    view.comparisonFun fieldType (view.m_secondarySortOrder = .ascending) compareKeys
      (entryInfo p1.hdr) (entryInfo p2.hdr)

/-- The comparison of two headers for a sort. -/
def compareHdrs (fieldType : FieldType) (sortType : MsgViewSortType) (sortOrder : MsgViewSortOrder)
    (hdr1 hdr2 : MsgDBHdr) : ℤ :=
  let entryInfo := view.entryInfo fieldType sortType view.curColumnHandler
  view.comparisonFun fieldType (sortOrder = .ascending) view.secondaryCompare (entryInfo hdr1)
    (entryInfo hdr2)

/-! ## The order -/

def field (fieldType : FieldType) (sortType : MsgViewSortType)
    (colHandler : Option (CustomColumnHandler κ)) (ascendingSort : Bool) : Comparator MsgDBHdr :=
  let c : Comparator MsgDBHdr :=
    match fieldType with
    | .kCollationKey =>
      view.compareCollationKeys.comap fun hdr => view.getCollationKey hdr sortType colHandler
    | .kU32 =>
      Comparator.ofNat.comap fun hdr => (view.entryInfo .kU32 sortType colHandler hdr).dword
  if ascendingSort then c else c.reverse

def keyOrder : Comparator MsgDBHdr := Comparator.ofNat.comap MsgDBHdr.messageKey

/-- The order where primary fields are equal. -/
def tieOrder : Comparator MsgDBHdr :=
  if view.m_secondarySort = .byId then
    if view.m_secondarySortOrder = .ascending then keyOrder else .equal
  else
    match getFieldTypeForSort view.m_secondarySort view.secondColumnHandler with
    | none => .equal
    | some fieldType =>
      (view.field fieldType view.m_secondarySort view.secondColumnHandler
        (view.m_secondarySortOrder = .ascending)).lex keyOrder

section Order

variable {fieldType : FieldType} {sortType : MsgViewSortType} {sortOrder : MsgViewSortOrder}
  {colHandler : Option (CustomColumnHandler κ)} {ascendingSort : Bool}

theorem entryInfo_hdr (hdr : MsgDBHdr) :
    (view.entryInfo fieldType sortType colHandler hdr).hdr = hdr := by
  cases fieldType with
  | kCollationKey => rfl
  | kU32 =>
    rw [entryInfo]
    split <;> rfl

theorem reverse_ofNat_cmp (m n : ℕ) :
    ofNat.reverse.cmp m n = if m > n then -1 else if m < n then 1 else 0 := by
  show -(if m > n then (1 : ℤ) else if m < n then -1 else 0) = _
  split_ifs <;> rfl

theorem comparisonFun_eq (secondaryCompare : IdKey κ → IdKey κ → ℤ) (hdr1 hdr2 : MsgDBHdr) :
    view.comparisonFun fieldType ascendingSort secondaryCompare
        (view.entryInfo fieldType sortType colHandler hdr1)
        (view.entryInfo fieldType sortType colHandler hdr2) =
      if (view.field fieldType sortType colHandler ascendingSort).cmp hdr1 hdr2 ≠ 0 then
        (view.field fieldType sortType colHandler ascendingSort).cmp hdr1 hdr2
      else if view.m_secondarySort = .byId then
        view.compareIds (view.entryInfo fieldType sortType colHandler hdr1)
          (view.entryInfo fieldType sortType colHandler hdr2)
      else secondaryCompare (view.entryInfo fieldType sortType colHandler hdr1)
        (view.entryInfo fieldType sortType colHandler hdr2) := by
  cases fieldType with
  | kCollationKey =>
    cases ascendingSort with
    | true => rfl
    | false =>
      obtain ⟨n, hn⟩ : ∃ n, n = view.compareCollationKeys.cmp
        (view.getCollationKey hdr1 sortType colHandler)
        (view.getCollationKey hdr2 sortType colHandler) := ⟨_, rfl⟩
      have hfield : (view.field .kCollationKey sortType colHandler false).cmp hdr1 hdr2 = -n :=
        congrArg Neg.neg hn.symm
      rw [hfield, comparisonFun, fnSortIdKey]
      simp only [entryInfo, ← hn]
      refine if_congr ?_ rfl rfl
      omega
  | kU32 =>
    obtain ⟨info1, h1⟩ : ∃ info, info = view.entryInfo .kU32 sortType colHandler hdr1 := ⟨_, rfl⟩
    obtain ⟨info2, h2⟩ : ∃ info, info = view.entryInfo .kU32 sortType colHandler hdr2 := ⟨_, rfl⟩
    have hfield : (view.field .kU32 sortType colHandler ascendingSort).cmp hdr1 hdr2 =
        if info1.dword > info2.dword then if ascendingSort then 1 else -1
        else if info1.dword < info2.dword then if ascendingSort then -1 else 1
        else 0 := by
      rw [h1, h2]
      cases ascendingSort with
      | true => rfl
      | false => exact reverse_ofNat_cmp _ _
    rw [← h1, ← h2, hfield, comparisonFun, fnSortIdUint32]
    split_ifs <;> first | rfl | omega

def primary (fieldType : FieldType) (sortType : MsgViewSortType) (sortOrder : MsgViewSortOrder) :
    Comparator MsgDBHdr :=
  view.field fieldType sortType view.curColumnHandler (sortOrder = .ascending)

theorem compareHdrs_eq (hdr1 hdr2 : MsgDBHdr) :
    view.compareHdrs fieldType sortType sortOrder hdr1 hdr2 =
      if (view.primary fieldType sortType sortOrder).cmp hdr1 hdr2 ≠ 0 then
        (view.primary fieldType sortType sortOrder).cmp hdr1 hdr2
      else if view.m_secondarySort = .byId then
        if view.m_secondarySortOrder = .ascending ∧ hdr1.messageKey ≥ hdr2.messageKey then 1 else -1
      else
        match getFieldTypeForSort view.m_secondarySort view.secondColumnHandler with
        | none => 0
        | some fieldType =>
          let c := view.field fieldType view.m_secondarySort view.secondColumnHandler
            (view.m_secondarySortOrder = .ascending)
          if c.cmp hdr1 hdr2 ≠ 0 then c.cmp hdr1 hdr2
          else if hdr1.messageKey > hdr2.messageKey then 1 else 0 := by
  rw [compareHdrs, comparisonFun_eq]
  refine if_congr Iff.rfl rfl ?_
  split
  next =>
    rw [compareIds, IdKey.id, IdKey.id, entryInfo_hdr, entryInfo_hdr]
  next hbyId =>
    rw [secondaryCompare, entryInfo_hdr, entryInfo_hdr]
    cases getFieldTypeForSort view.m_secondarySort view.secondColumnHandler with
    | none => rfl
    | some fieldType =>
      dsimp only
      rw [comparisonFun_eq, if_neg hbyId, compareKeys, IdKey.id, IdKey.id, entryInfo_hdr,
        entryInfo_hdr]

/-- The order of the primary field, and the order where it is equal. -/
def rank (fieldType : FieldType) (sortType : MsgViewSortType) (sortOrder : MsgViewSortOrder) :
    Comparator MsgDBHdr :=
  (view.primary fieldType sortType sortOrder).lex view.tieOrder

/-- Messages with the same primary field are sorted by their keys, upwards. -/
def KeysAscend : Prop :=
  view.m_secondarySort = .byId ∧ view.m_secondarySortOrder = .ascending

variable {hdr1 hdr2 : MsgDBHdr}

theorem compareHdrs_of_ne (hne : (view.primary fieldType sortType sortOrder).cmp hdr1 hdr2 ≠ 0) :
    view.compareHdrs fieldType sortType sortOrder hdr1 hdr2 =
      (view.rank fieldType sortType sortOrder).cmp hdr1 hdr2 := by
  rw [compareHdrs_eq, if_pos hne]
  exact (if_pos hne).symm

theorem rank_of_eq (hzero : (view.primary fieldType sortType sortOrder).cmp hdr1 hdr2 = 0) :
    (view.rank fieldType sortType sortOrder).cmp hdr1 hdr2 = view.tieOrder.cmp hdr1 hdr2 :=
  if_neg (not_not.mpr hzero)

theorem keyOrder_cmp (hdr1 hdr2 : MsgDBHdr) :
    keyOrder.cmp hdr1 hdr2 =
      if hdr1.messageKey > hdr2.messageKey then 1
      else if hdr1.messageKey < hdr2.messageKey then -1 else 0 := rfl

theorem keyOrder_eq_zero_iff : keyOrder.cmp hdr1 hdr2 = 0 ↔ hdr1.messageKey = hdr2.messageKey := by
  rw [keyOrder_cmp]
  rcases lt_trichotomy hdr1.messageKey hdr2.messageKey with hlt | heq | hgt
  · rw [if_neg hlt.not_gt, if_pos hlt]
    exact iff_of_false (by decide) hlt.ne
  · rw [heq, if_neg (lt_irrefl _), if_neg (lt_irrefl _)]
    exact iff_of_true rfl rfl
  · rw [if_pos hgt]
    exact iff_of_false (by decide) hgt.ne'

/-- When keys ascend, a message that is not before another one counts as behind it. -/
theorem compareHdrs_pos_iff_of_keysAscend (hkeys : view.KeysAscend) (hdr1 hdr2 : MsgDBHdr) :
    0 < view.compareHdrs fieldType sortType sortOrder hdr1 hdr2 ↔
      0 ≤ (view.rank fieldType sortType sortOrder).cmp hdr1 hdr2 := by
  rcases eq_or_ne ((view.primary fieldType sortType sortOrder).cmp hdr1 hdr2) 0 with hzero | hne
  · rw [compareHdrs_eq, if_neg (not_not.mpr hzero), if_pos hkeys.1, rank_of_eq view hzero,
      tieOrder, if_pos hkeys.1, if_pos hkeys.2, keyOrder_cmp]
    simp only [hkeys.2, true_and]
    split_ifs <;> omega
  · have hrank : (view.rank fieldType sortType sortOrder).cmp hdr1 hdr2 ≠ 0 := by
      rw [rank, lex]
      dsimp only
      rw [if_pos hne]
      exact hne
    rw [compareHdrs_of_ne view hne]
    omega

/-- Otherwise a message is behind another one when it is so in the order. -/
theorem compareHdrs_pos_iff (hkeys : ¬ view.KeysAscend) (hdr1 hdr2 : MsgDBHdr) :
    0 < view.compareHdrs fieldType sortType sortOrder hdr1 hdr2 ↔
      0 < (view.rank fieldType sortType sortOrder).cmp hdr1 hdr2 := by
  rcases eq_or_ne ((view.primary fieldType sortType sortOrder).cmp hdr1 hdr2) 0 with hzero | hne
  · rw [compareHdrs_eq, if_neg (not_not.mpr hzero), rank_of_eq view hzero, tieOrder]
    rcases em (view.m_secondarySort = .byId) with hbyId | hother
    · have horder : ¬ view.m_secondarySortOrder = .ascending := fun horder => hkeys ⟨hbyId, horder⟩
      rw [if_pos hbyId, if_neg fun hboth => horder hboth.1, if_pos hbyId, if_neg horder]
      exact iff_of_false (by decide) (lt_irrefl 0)
    · rw [if_neg hother, if_neg hother]
      cases getFieldTypeForSort view.m_secondarySort view.secondColumnHandler with
      | none => exact Iff.rfl
      | some fieldType =>
        dsimp only [lex]
        rw [keyOrder_cmp]
        split_ifs <;> omega
  · rw [compareHdrs_of_ne view hne]

/-- Messages of a sorted view that come before one that a message is behind: the message is behind
them too. -/
theorem compareHdrs_pos_of_le {hdr : MsgDBHdr}
    (hle : view.compareHdrs fieldType sortType sortOrder hdr1 hdr2 ≤ 0)
    (hpos : 0 < view.compareHdrs fieldType sortType sortOrder hdr hdr2) :
    0 < view.compareHdrs fieldType sortType sortOrder hdr hdr1 := by
  rcases em view.KeysAscend with hkeys | hkeys
  · rw [← not_lt, compareHdrs_pos_iff_of_keysAscend view hkeys, not_le] at hle
    rw [compareHdrs_pos_iff_of_keysAscend view hkeys] at hpos ⊢
    exact cmp_nonneg_iff.mpr
      (lt_of_lt_of_le hle (cmp_nonneg_iff.mp hpos)).le
  · rw [← not_lt, compareHdrs_pos_iff view hkeys, not_lt] at hle
    rw [compareHdrs_pos_iff view hkeys] at hpos ⊢
    rw [← cmp_neg_iff] at hpos ⊢
    exact lt_of_le_of_lt hle hpos

/-- A message that is in the way of keys that ascend: another one with the primary field and the
key of a message. -/
def Twin (fieldType : FieldType) (sortType : MsgViewSortType) (sortOrder : MsgViewSortOrder)
    (hdr other : MsgDBHdr) : Prop :=
  view.KeysAscend ∧ (view.primary fieldType sortType sortOrder).cmp hdr other = 0 ∧
    hdr.messageKey = other.messageKey

/-- Two messages are behind each other when they are twins. -/
theorem twin_iff {hdr other : MsgDBHdr} :
    view.Twin fieldType sortType sortOrder hdr other ↔
      0 < view.compareHdrs fieldType sortType sortOrder hdr other ∧
        0 < view.compareHdrs fieldType sortType sortOrder other hdr := by
  rcases em view.KeysAscend with hkeys | hkeys
  · have hties : view.tieOrder = keyOrder := by
      rw [tieOrder, if_pos hkeys.1, if_pos hkeys.2]
    rw [compareHdrs_pos_iff_of_keysAscend view hkeys, compareHdrs_pos_iff_of_keysAscend view hkeys,
      cmp_nonneg_iff, cmp_nonneg_iff, and_comm, ← cmp_eq_zero_iff,
      rank, lex_eq_zero_iff, hties, keyOrder_eq_zero_iff, Twin, and_iff_right hkeys]
  · rw [compareHdrs_pos_iff view hkeys, compareHdrs_pos_iff view hkeys, ← cmp_neg_iff]
    exact iff_of_false (fun htwin => hkeys htwin.1) fun hboth => lt_asymm hboth.1 hboth.2

/-- The order of the primary field, and of the secondary one where it is equal. -/
def fields (fieldType : FieldType) (sortType : MsgViewSortType) (sortOrder : MsgViewSortOrder)
    (secondaryType : FieldType) : Comparator MsgDBHdr :=
  (view.primary fieldType sortType sortOrder).lex
    (view.field secondaryType view.m_secondarySort view.secondColumnHandler
      (view.m_secondarySortOrder = .ascending))

/-- Messages with the same primary and secondary field, that are told apart by their keys. -/
def SameFields (fieldType : FieldType) (sortType : MsgViewSortType) (sortOrder : MsgViewSortOrder)
    (hdr other : MsgDBHdr) : Prop :=
  view.m_secondarySort ≠ .byId ∧
    ∃ secondaryType, getFieldTypeForSort view.m_secondarySort view.secondColumnHandler =
        some secondaryType ∧
      (view.fields fieldType sortType sortOrder secondaryType).cmp hdr other = 0

theorem compareHdrs_eq_fields (hother : view.m_secondarySort ≠ .byId) {secondaryType : FieldType}
    (hsecond : getFieldTypeForSort view.m_secondarySort view.secondColumnHandler =
      some secondaryType) (hdr1 hdr2 : MsgDBHdr) :
    view.compareHdrs fieldType sortType sortOrder hdr1 hdr2 =
      if (view.fields fieldType sortType sortOrder secondaryType).cmp hdr1 hdr2 ≠ 0 then
        (view.fields fieldType sortType sortOrder secondaryType).cmp hdr1 hdr2
      else if hdr1.messageKey > hdr2.messageKey then 1 else 0 := by
  rw [compareHdrs_eq, if_neg hother, hsecond]
  rcases eq_or_ne ((view.primary fieldType sortType sortOrder).cmp hdr1 hdr2) 0 with hzero | hne
  · rw [if_neg (not_not.mpr hzero), fields, lex_cmp_of_eq hzero]
  · rw [if_pos hne, fields, lex_cmp_of_ne hne, if_pos hne]

/-- Without a secondary field, primary fields are compared only. -/
theorem compareHdrs_eq_primary (hother : view.m_secondarySort ≠ .byId)
    (hsecond : getFieldTypeForSort view.m_secondarySort view.secondColumnHandler = none)
    (hdr1 hdr2 : MsgDBHdr) :
    view.compareHdrs fieldType sortType sortOrder hdr1 hdr2 =
      (view.primary fieldType sortType sortOrder).cmp hdr1 hdr2 := by
  rw [compareHdrs_eq, hsecond]
  dsimp only
  split
  next => rfl
  next hzero => exact (not_not.mp hzero).symm

/-- The comparison says zero only where keys may not ascend. -/
theorem compareHdrs_eq_zero (hzero : view.compareHdrs fieldType sortType sortOrder hdr1 hdr2 = 0) :
    view.m_secondarySort ≠ .byId ∧
      (view.primary fieldType sortType sortOrder).cmp hdr1 hdr2 = 0 := by
  rw [compareHdrs_eq] at hzero
  split at hzero
  next hne => exact absurd hzero hne
  next hsame =>
    refine ⟨fun hbyId => ?_, not_not.mp hsame⟩
    split at hzero <;> omega

/-- Where the comparison says zero, a message before it may have to be behind. -/
theorem zero_pos_iff {hdr : MsgDBHdr}
    (hle : view.compareHdrs fieldType sortType sortOrder hdr1 hdr2 ≤ 0) :
    view.compareHdrs fieldType sortType sortOrder hdr hdr2 = 0 ∧
        0 < view.compareHdrs fieldType sortType sortOrder hdr1 hdr ↔
      view.SameFields fieldType sortType sortOrder hdr hdr1 ∧
        view.SameFields fieldType sortType sortOrder hdr hdr2 ∧
        hdr.messageKey < hdr1.messageKey := by
  rcases em (view.m_secondarySort = .byId) with hbyId | hother
  · exact iff_of_false (fun hboth => (view.compareHdrs_eq_zero hboth.1).1 hbyId)
      fun hsame => hsame.1.1 hbyId
  · cases hsecond : getFieldTypeForSort view.m_secondarySort view.secondColumnHandler with
    | none =>
      -- the comparison is the one of the primary fields
      have hcompare := @compareHdrs_eq_primary _ view fieldType sortType sortOrder hother hsecond
      rw [hcompare] at hle
      rw [hcompare, hcompare, ← cmp_neg_iff]
      refine iff_of_false (fun hboth => ?_) fun hsame => ?_
      · have hback := (cmp_eq_zero_iff.mp hboth.1).2
        exact absurd hboth.2 (not_lt.mpr (cmp_nonneg_iff.mpr
          (trans _ hle hback)))
      · obtain ⟨secondaryType, hsome, -⟩ := hsame.1.2
        rw [hsecond] at hsome
        cases hsome
    | some secondaryType =>
      obtain ⟨c, hc⟩ : ∃ c, c = view.fields fieldType sortType sortOrder secondaryType :=
        ⟨_, rfl⟩
      have hcompare := @compareHdrs_eq_fields _ view fieldType sortType sortOrder hother _ hsecond
      have hsame : ∀ other, view.SameFields fieldType sortType sortOrder hdr other ↔
          c.cmp hdr other = 0 := by
        intro other
        rw [SameFields, and_iff_right hother, hsecond]
        constructor
        · rintro ⟨secondaryType, hsome, hzero⟩
          rw [hc, Option.some.inj hsome]
          exact hzero
        · intro hzero
          exact ⟨secondaryType, rfl, hc ▸ hzero⟩
      rw [← hc] at hcompare
      rw [hcompare] at hle
      rw [hsame, hsame, hcompare, hcompare]
      constructor
      · rintro ⟨hzero, hpos⟩
        have hzero2 : c.cmp hdr hdr2 = 0 := by
          by_contra hne
          rw [if_pos hne] at hzero
          exact hne hzero
        have hle12 : c.cmp hdr1 hdr2 ≤ 0 := by
          split at hle
          next => exact hle
          next hsame => exact (not_not.mp hsame).le
        have hle1 := c.trans hle12 (cmp_eq_zero_iff.mp hzero2).2
        split at hpos
        next => exact absurd hpos (not_lt.mpr hle1)
        next hsame =>
          refine ⟨cmp_eq_zero_comm.mp (not_not.mp hsame), hzero2, ?_⟩
          by_contra hkey
          rw [if_neg hkey] at hpos
          exact lt_irrefl 0 hpos
      · rintro ⟨hzero1, hzero2, hkey⟩
        have hzero12 : c.cmp hdr1 hdr2 = 0 := by
          rw [cmp_eq_zero_iff] at hzero1 hzero2 ⊢
          exact ⟨c.trans hzero1.2 hzero2.1, c.trans hzero2.2 hzero1.1⟩
        rw [if_neg (not_not.mpr hzero12)] at hle
        rw [if_neg (not_not.mpr hzero2),
          if_neg (not_not.mpr (cmp_eq_zero_comm.mp hzero1)), if_pos hkey]
        split at hle
        next => exact absurd hle (by decide)
        next hkey12 => exact ⟨if_neg (by omega), by decide⟩

end Order

end SortInfo

end CommCentral.MsgView
