import Mathlib.Data.List.Basic

/-!
# Attributes and operators of search terms

The enumerations of `nsMsgSearchCore.idl`, without the attributes of address
books.  An arbitrary header is an attribute behind `OtherHeader`, of which there
are only so many.
-/

namespace CommCentral.Search

inductive SearchAttrib where
  | custom | default | subject | sender | body | date | priority | msgStatus | to | cc | toOrCC
  | allAddresses | location | messageKey | ageInDays | folderInfo | size | anyText | keywords
  | hasAttachmentStatus | junkStatus | junkPercent | junkScoreOrigin | label | hdrProperty
  | folderFlag | uint32HdrProperty | otherHeader
  /-- `OtherHeader + 1 + i`. -/
  | header (i : ℕ)
deriving DecidableEq

inductive SearchOp where
  | contains | doesntContain | is | isnt | isEmpty | isBefore | isAfter | isHigherThan
  | isLowerThan | beginsWith | endsWith | soundsLike | ldapDwim | isGreaterThan | isLessThan
  | nameCompletion | isInAB | isntInAB | isntEmpty | matches | doesntMatch
deriving DecidableEq

namespace SearchAttrib

/-- The attribute is above `OtherHeader` and below `kNumMsgSearchAttributes`. -/
def isArbitraryHeader : SearchAttrib → Bool
  | header i => 52 + 1 + i < 100
  | _ => false

/-- `IS_STRING_ATTRIBUTE`. -/
def isString (a : SearchAttrib) : Bool :=
  a ∉ [priority, date, msgStatus, messageKey, size, ageInDays, folderInfo, location, label,
    junkStatus, folderFlag, uint32HdrProperty, junkPercent, hasAttachmentStatus]

end SearchAttrib

end CommCentral.Search
