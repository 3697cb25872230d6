import CommCentral.Lib.Cycles
import CommCentral.MsgView.ThreadListing

/-!
# Levels and parents that are looked up

`FindLevelInThread` and `FindParentInThread` of `nsMsgDBView.cpp` climb from a
header to its parent, and look for the parent among the rows of a view.  The
links of the headers are any at all: a header may be its own parent, or be above
itself, or have a parent that is not there.

* A loop runs on fuel; `none` is a loop that has not returned.
* The rows that `FindLevelInThread` tries are those of the thread above the
  message, and the one just above the thread.

`FindLevelInThread` stops at a header that is its own parent, but not at a longer
cycle, and `FindParentInThread` stops at no cycle.  They return exactly when they
find a row or there is no such cycle (`levelLookup_iff`).
-/

namespace CommCentral.MsgView

open Option List ParentTree MsgThread Option

/-! ## The model -/

/-- `FindLevelInThread`. -/
def findLevelLoop (db : MsgDatabase) (a : ViewArrays) (startOfThread viewIndex : ℕ) :
    ℕ → ThreadHdr → Option ℕ
  | 0, _ => none
  | fuel + 1, curMsgHdr =>
    match curMsgHdr.threadParent with
    | none => some 1
    | some parentKey =>
      match scanUp a startOfThread parentKey viewIndex with
      | some level => some (level + 1)
      | none =>
        if curMsgHdr.key = parentKey then some 1
        else
          match db.getMsgHdrForKey parentKey with
          | none => some 1
          | some parentHdr => findLevelLoop db a startOfThread viewIndex fuel parentHdr

/-- `m_keys.IndexOf`, from an index on. -/
def indexOfFrom (keys : List ℕ) (key start : ℕ) : Option ℕ :=
  ((keys.drop start).idxOf? key).map (· + start)

/-- `FindParentInThread`; no key is `nsMsgKey_None`. -/
def findParentLoop (db : MsgDatabase) (a : ViewArrays) (startOfThreadViewIndex : ℕ) :
    ℕ → Option ℕ → Option ℕ
  | 0, _ => none
  | _ + 1, none => some startOfThreadViewIndex
  | fuel + 1, some parentKey =>
    match indexOfFrom a.m_keys parentKey startOfThreadViewIndex with
    | some parentIndex => some parentIndex
    | none =>
      match db.getMsgHdrForKey parentKey with
      | none => some startOfThreadViewIndex
      | some msgHdr => findParentLoop db a startOfThreadViewIndex fuel msgHdr.threadParent

/-! ## The links -/

/-- The header of the parent, unless the header is its own parent. -/
def climb (db : MsgDatabase) (m : ThreadHdr) : Option ThreadHdr :=
  if m.threadParent = some m.key then none else m.threadParent.bind db.getMsgHdrForKey

def parentKeyOf (db : MsgDatabase) (key : ℕ) : Option ℕ :=
  (db.getMsgHdrForKey key).bind ThreadHdr.threadParent

section Links

variable {db : MsgDatabase} {m h : ThreadHdr} {key : ℕ}

theorem getMsgHdrForKey_mem (hfound : db.getMsgHdrForKey key = some m) :
    m ∈ db.flatMap children := by
  obtain ⟨t, ht, hm⟩ := bind_eq_some_iff.mp hfound
  exact mem_flatMap.mpr ⟨t, mem_of_find?_eq_some ht, mem_of_find?_eq_some hm⟩

theorem climb_mem (hclimb : climb db m = some h) : h ∈ db.flatMap children := by
  rw [climb] at hclimb
  split_ifs at hclimb
  obtain ⟨parentKey, -, hfound⟩ := bind_eq_some_iff.mp hclimb
  exact getMsgHdrForKey_mem hfound

theorem parentKeyOf_mem {parentKey : ℕ} (hparent : parentKeyOf db key = some parentKey) :
    parentKey ∈ (db.flatMap children).filterMap ThreadHdr.threadParent := by
  obtain ⟨m, hm, hparent⟩ := bind_eq_some_iff.mp hparent
  exact mem_filterMap.mpr ⟨m, getMsgHdrForKey_mem hm, hparent⟩

end Links

/-! ## The rows that are tried -/

/-- The level of the nearest row with a key, going up from an index to another one. -/
def nearestRow (rows : List Row) (first viewIndex key : ℕ) : Option ℕ :=
  (((rows.take viewIndex).drop first).reverse.find? fun row => row.key = key).map Row.level

theorem nearestRow_of_le (rows : List Row) (key : ℕ) {first viewIndex : ℕ} (h : viewIndex ≤ first) :
    nearestRow rows first viewIndex key = none := by
  rw [nearestRow, drop_eq_nil_of_le ((length_take_le ..).trans h)]
  rfl

theorem nearestRow_succ (rows : List Row) (key : ℕ) {first i : ℕ} (h : first ≤ i) :
    nearestRow rows first (i + 1) key =
      match rows[i]? with
      | some row => if row.key = key then some row.level else nearestRow rows first i key
      | none => nearestRow rows first i key := by
  cases hrow : rows[i]? with
  | none =>
    have hle := List.getElem?_eq_none_iff.mp hrow
    rw [nearestRow, nearestRow, take_of_length_le hle,
      take_of_length_le (hle.trans (Nat.le_succ i))]
  | some row =>
    have hlt := (List.getElem?_eq_some_iff.mp hrow).1
    have hlength : first ≤ (rows.take i).length := by
      rw [length_take_of_le hlt.le]
      exact h
    rw [nearestRow, take_add_one, hrow, toList_some,
      drop_append_of_le_length hlength, reverse_append, reverse_singleton,
      singleton_append, find?_cons]
    cases hkey : decide (row.key = key) with
    | true => exact (if_pos (of_decide_eq_true hkey)).symm
    | false => exact (if_neg (of_decide_eq_false hkey)).symm

/-- The scan goes up to the row just above the thread. -/
theorem scanUp_eq (rows : List Row) (startOfThread key viewIndex : ℕ) :
    scanUp (columns rows) startOfThread key viewIndex =
      nearestRow rows (startOfThread - 1) viewIndex key := by
  induction viewIndex with
  | zero => exact (nearestRow_of_le rows key (Nat.zero_le _)).symm
  | succ i ih =>
    rw [scanUp]
    split_ifs with hend hkey
    · exact (nearestRow_of_le rows key (by omega)).symm
    · rw [columns_keys_getElem?] at hkey
      obtain ⟨row, hrow, hkey⟩ := map_eq_some_iff.mp hkey
      rw [nearestRow_succ rows key (by omega), columns_levels_getElem?, hrow]
      exact (if_pos hkey).symm
    · rw [nearestRow_succ rows key (by omega), ih]
      cases hrow : rows[i]? with
      | none => rfl
      | some row =>
        refine (if_neg fun heq => hkey ?_).symm
        rw [columns_keys_getElem?, hrow]
        exact congrArg some heq

/-- Among more rows, a nearest one is found when it is among fewer. -/
theorem nearestRow_isSome_mono {rows : List Row} {first first' viewIndex key : ℕ}
    (hle : first' ≤ first) (h : (nearestRow rows first viewIndex key).isSome) :
    (nearestRow rows first' viewIndex key).isSome := by
  rw [nearestRow, isSome_map, find?_isSome] at h ⊢
  obtain ⟨row, hrow, hkey⟩ := h
  refine ⟨row, ?_, hkey⟩
  rw [mem_reverse] at hrow ⊢
  exact (drop_sublist_drop_left _ hle).mem hrow

/-- The level of the nearest ancestor that a scan finds. -/
inductive NearestShown (db : MsgDatabase) (scan : ℕ → Option ℕ) : ThreadHdr → ℕ → Prop
  | parent {m : ThreadHdr} {level : ℕ} : m.threadParent.bind scan = some level →
      NearestShown db scan m level
  /-- The parent is not, and an ancestor of it is the nearest one. -/
  | above {m h : ThreadHdr} {level : ℕ} : m.threadParent.bind scan = none →
      climb db m = some h → NearestShown db scan h level → NearestShown db scan m level

/-- One more than the level of the nearest ancestor that a scan finds, or 1 if there is none. -/
def IsLevel (db : MsgDatabase) (scan : ℕ → Option ℕ) (m : ThreadHdr) (n : ℕ) : Prop :=
  (∃ level, NearestShown db scan m level ∧ n = level + 1) ∨
    (∀ level, ¬ NearestShown db scan m level) ∧ n = 1

section Level

variable {db : MsgDatabase} {scan scan' : ℕ → Option ℕ} {m h : ThreadHdr} {level level' n : ℕ}

theorem NearestShown.unique (hm : NearestShown db scan m level)
    (hm' : NearestShown db scan m level') : level = level' := by
  induction hm with
  | parent hparent =>
    cases hm' with
    | parent hparent' => exact some.inj (hparent.symm.trans hparent')
    | above hnone _ _ => cases hparent.symm.trans hnone
  | above hnone hclimb _ ih =>
    cases hm' with
    | parent hparent => cases hparent.symm.trans hnone
    | above _ hclimb' hm' =>
      obtain rfl := some.inj (hclimb.symm.trans hclimb')
      exact ih hm'

/-- A scan that finds more finds a nearest ancestor when the other one does. -/
theorem NearestShown.mono (hscan : ∀ key, (scan key).isSome → (scan' key).isSome)
    (hm : NearestShown db scan m level) : ∃ level', NearestShown db scan' m level' := by
  have hfound : ∀ {m : ThreadHdr} {level' : ℕ}, m.threadParent.bind scan = some level' →
      ∃ level', m.threadParent.bind scan' = some level' := fun {m level'} hparent => by
    obtain ⟨parentKey, hkey, hlevel⟩ := bind_eq_some_iff.mp hparent
    obtain ⟨found, hfound⟩ := isSome_iff_exists.mp
      (hscan parentKey (isSome_iff_exists.mpr ⟨level', hlevel⟩))
    exact ⟨found, bind_eq_some_iff.mpr ⟨parentKey, hkey, hfound⟩⟩
  induction hm with
  | parent hparent =>
    obtain ⟨found, hfound⟩ := hfound hparent
    exact ⟨found, .parent hfound⟩
  | @above m h level _ hclimb _ ih =>
    cases hparent : m.threadParent.bind scan' with
    | some found => exact ⟨found, .parent hparent⟩
    | none =>
      obtain ⟨found, hfound⟩ := ih
      exact ⟨found, .above hparent hclimb hfound⟩

/-- Where the parent is not found, the level is that of the parent's header. -/
theorem isLevel_above (hnone : m.threadParent.bind scan = none) (hclimb : climb db m = some h)
    (hlevel : IsLevel db scan h n) : IsLevel db scan m n := by
  rcases hlevel with ⟨level, hshown, rfl⟩ | ⟨hnot, rfl⟩
  · exact .inl ⟨level, .above hnone hclimb hshown, rfl⟩
  · refine .inr ⟨fun level hm => ?_, rfl⟩
    cases hm with
    | parent hparent => cases hparent.symm.trans hnone
    | above _ hclimb' hm =>
      obtain rfl := some.inj (hclimb.symm.trans hclimb')
      exact hnot level hm

/-- Where the parent is not found and the climb ends, the level is 1. -/
theorem isLevel_end (hnone : m.threadParent.bind scan = none) (hclimb : climb db m = none) :
    IsLevel db scan m 1 := by
  refine .inr ⟨fun level hm => ?_, rfl⟩
  cases hm with
  | parent hparent => cases hparent.symm.trans hnone
  | above _ hclimb' _ => cases hclimb.symm.trans hclimb'

end Level

/-! ## The loop of `FindLevelInThread` -/

section FindLevel

variable {db : MsgDatabase} {rows : List Row} {startOfThread viewIndex : ℕ} {m : ThreadHdr}

def tryRow (rows : List Row) (startOfThread viewIndex : ℕ) : ℕ → Option ℕ :=
  nearestRow rows (startOfThread - 1) viewIndex

/-- One round: the parent is found, or the climb goes on, or it ends. -/
theorem findLevelLoop_succ (fuel : ℕ) (m : ThreadHdr) :
    findLevelLoop db (columns rows) startOfThread viewIndex (fuel + 1) m =
      match m.threadParent.bind (tryRow rows startOfThread viewIndex), climb db m with
      | some level, _ => some (level + 1)
      | none, none => some 1
      | none, some h => findLevelLoop db (columns rows) startOfThread viewIndex fuel h := by
  rw [findLevelLoop, climb]
  cases hparent : m.threadParent with
  | none => rfl
  | some parentKey =>
    simp only [bind_some, tryRow, scanUp_eq]
    cases nearestRow rows (startOfThread - 1) viewIndex parentKey with
    | some level => rfl
    | none =>
      simp only [some.injEq, eq_comm (a := parentKey)]
      split_ifs
      · rfl
      · cases db.getMsgHdrForKey parentKey with
        | none => rfl
        | some h => rfl

theorem isLevel_of_findLevelLoop {fuel n : ℕ}
    (h : findLevelLoop db (columns rows) startOfThread viewIndex fuel m = some n) :
    IsLevel db (tryRow rows startOfThread viewIndex) m n := by
  induction fuel generalizing m with
  | zero => cases h
  | succ fuel ih =>
    rw [findLevelLoop_succ] at h
    cases hparent : m.threadParent.bind (tryRow rows startOfThread viewIndex) with
    | some level =>
      rw [hparent] at h
      exact .inl ⟨level, .parent hparent, (some.inj h).symm⟩
    | none =>
      cases hclimb : climb db m with
      | none =>
        rw [hparent, hclimb] at h
        obtain rfl := some.inj h
        exact isLevel_end hparent hclimb
      | some parentHdr =>
        rw [hparent, hclimb] at h
        exact isLevel_above hparent hclimb (ih h)

def rowFound (rows : List Row) (startOfThread viewIndex : ℕ) (m : ThreadHdr) : Bool :=
  (m.threadParent.bind (tryRow rows startOfThread viewIndex)).isSome

/-- The climb of the loop, which stops where a row is found. -/
def climbUnseen (db : MsgDatabase) (rows : List Row) (startOfThread viewIndex : ℕ)
    (m : ThreadHdr) : Option ThreadHdr :=
  if rowFound rows startOfThread viewIndex m then none else climb db m

theorem findLevelLoop_climb {h : ThreadHdr}
    (hclimb : climbUnseen db rows startOfThread viewIndex m = some h) (fuel : ℕ) :
    findLevelLoop db (columns rows) startOfThread viewIndex (fuel + 1) m =
      findLevelLoop db (columns rows) startOfThread viewIndex fuel h := by
  rw [climbUnseen] at hclimb
  split_ifs at hclimb with hfound
  rw [rowFound, isSome_iff_ne_none, not_not] at hfound
  rw [findLevelLoop_succ, hfound, hclimb]

theorem findLevelLoop_end (hclimb : climbUnseen db rows startOfThread viewIndex m = none)
    (fuel : ℕ) : ∃ n, findLevelLoop db (columns rows) startOfThread viewIndex (fuel + 1) m =
      some n := by
  rw [climbUnseen] at hclimb
  rw [findLevelLoop_succ]
  cases hparent : m.threadParent.bind (tryRow rows startOfThread viewIndex) with
  | some level => exact ⟨level + 1, rfl⟩
  | none =>
    rw [rowFound, hparent] at hclimb
    have hend : climb db m = none := hclimb
    rw [hend]
    exact ⟨1, rfl⟩

theorem findLevelLoop_of_circles
    (h : Circles (climbUnseen db rows startOfThread viewIndex) m) (fuel : ℕ) :
    findLevelLoop db (columns rows) startOfThread viewIndex fuel m = none := by
  induction fuel generalizing m with
  | zero => rfl
  | succ fuel ih =>
    obtain ⟨parentHdr, hclimb, hcircles⟩ := h.exists_next
    rw [findLevelLoop_climb hclimb]
    exact ih hcircles

theorem findLevelLoop_returns (h : ¬ Circles (climbUnseen db rows startOfThread viewIndex) m) :
    ∃ fuel n, findLevelLoop db (columns rows) startOfThread viewIndex fuel m = some n := by
  have hacc := acc_of_not_circles (db.flatMap children) (fun a b hab => by
    rw [climbUnseen] at hab
    split_ifs at hab
    exact climb_mem hab) h
  clear h
  induction hacc with
  | intro m _ ih =>
    cases hclimb : climbUnseen db rows startOfThread viewIndex m with
    | none =>
      obtain ⟨n, hn⟩ := findLevelLoop_end hclimb 0
      exact ⟨1, n, hn⟩
    | some parentHdr =>
      obtain ⟨fuel, n, hn⟩ := ih parentHdr hclimb
      exact ⟨fuel + 1, n, (findLevelLoop_climb hclimb fuel).trans hn⟩

end FindLevel

/-! ## The loop of `FindParentInThread` -/

section FindParent

variable {db : MsgDatabase} {a : ViewArrays} {start key : ℕ}

/-- The climb of the loop, which stops at the keys of rows. -/
def climbUnlisted (db : MsgDatabase) (a : ViewArrays) (start key : ℕ) : Option ℕ :=
  if key ∈ a.m_keys.drop start then none else parentKeyOf db key

theorem indexOfFrom_eq_none_iff {keys : List ℕ} :
    indexOfFrom keys key start = none ↔ key ∉ keys.drop start := by
  rw [indexOfFrom, map_eq_none_iff, idxOf?_eq_none_iff]

/-- One round on a key, from which the climb goes on. -/
theorem findParentLoop_climb {parentKey : ℕ}
    (hclimb : climbUnlisted db a start key = some parentKey) (fuel : ℕ) : findParentLoop db a start (fuel + 1) (some key) =
      findParentLoop db a start fuel (some parentKey) := by
  rw [climbUnlisted] at hclimb
  split_ifs at hclimb with hlisted
  obtain ⟨h, hfound, hparent⟩ := bind_eq_some_iff.mp hclimb
  rw [findParentLoop, indexOfFrom_eq_none_iff.mpr hlisted, hfound]
  exact congrArg _ hparent

/-- One round on a key at which the climb ends, and one more. -/
theorem findParentLoop_end (hclimb : climbUnlisted db a start key = none) (fuel : ℕ) :
    ∃ i, findParentLoop db a start (fuel + 2) (some key) = some i := by
  rw [findParentLoop]
  cases hindex : indexOfFrom a.m_keys key start with
  | some i => exact ⟨i, rfl⟩
  | none =>
    cases hfound : db.getMsgHdrForKey key with
    | none => exact ⟨start, rfl⟩
    | some h =>
      rw [climbUnlisted, if_neg (indexOfFrom_eq_none_iff.mp hindex), parentKeyOf, hfound]
        at hclimb
      have hparent : h.threadParent = none := hclimb
      exact ⟨start, congrArg (findParentLoop db a start (fuel + 1)) hparent⟩

theorem findParentLoop_of_circles (h : Circles (climbUnlisted db a start) key) (fuel : ℕ) :
    findParentLoop db a start fuel (some key) = none := by
  induction fuel generalizing key with
  | zero => rfl
  | succ fuel ih =>
    obtain ⟨parentKey, hclimb, hcircles⟩ := h.exists_next
    rw [findParentLoop_climb hclimb]
    exact ih hcircles

theorem findParentLoop_returns (h : ¬ Circles (climbUnlisted db a start) key) :
    ∃ fuel i, findParentLoop db a start fuel (some key) = some i := by
  have hacc := acc_of_not_circles
    ((db.flatMap children).filterMap ThreadHdr.threadParent) (fun a b hab => by
      rw [climbUnlisted] at hab
      split_ifs at hab
      exact parentKeyOf_mem hab) h
  clear h
  induction hacc with
  | intro key _ ih =>
    cases hclimb : climbUnlisted db a start key with
    | none =>
      obtain ⟨i, hi⟩ := findParentLoop_end hclimb 0
      exact ⟨2, i, hi⟩
    | some parentKey =>
      obtain ⟨fuel, i, hi⟩ := ih parentKey hclimb
      exact ⟨fuel + 1, i, (findParentLoop_climb hclimb fuel).trans hi⟩

end FindParent

/-! ## When the loops return -/

section Returns

variable (db : MsgDatabase) (rows : List Row)

/-- `FindLevelInThread` returns one more than the level of the nearest ancestor in the rows of the
thread above the message, or 1 if there is none. -/
def LevelRight (startOfThread viewIndex : ℕ) (msgHdr : ThreadHdr) : Prop :=
  ∃ fuel n, findLevelLoop db (columns rows) startOfThread viewIndex fuel msgHdr = some n ∧
    IsLevel db (nearestRow rows startOfThread viewIndex) msgHdr n

/-- `FindParentInThread` returns. -/
def ParentReturns (startOfThreadViewIndex : ℕ) (parentKey : Option ℕ) : Prop :=
  ∃ fuel i, findParentLoop db (columns rows) startOfThreadViewIndex fuel parentKey = some i

/-- With the row just above the thread, the nearest ancestor has the level that it has without, or
0 if there is none without. -/
def RowAboveHarmless (startOfThread viewIndex : ℕ) (msgHdr : ThreadHdr) : Prop :=
  ∀ level, NearestShown db (tryRow rows startOfThread viewIndex) msgHdr level →
    NearestShown db (nearestRow rows startOfThread viewIndex) msgHdr level ∨
      (∀ level', ¬ NearestShown db (nearestRow rows startOfThread viewIndex) msgHdr level') ∧
        level = 0

variable {db rows} {startOfThread viewIndex : ℕ} {m : ThreadHdr} {n : ℕ}

/-- The levels by both sets of rows are the same when the row above the thread does no harm. -/
theorem isLevel_iff_harmless :
    (∀ n, IsLevel db (tryRow rows startOfThread viewIndex) m n →
      IsLevel db (nearestRow rows startOfThread viewIndex) m n) ↔
        RowAboveHarmless db rows startOfThread viewIndex m := by
  constructor
  · intro h level hshown
    rcases h (level + 1) (.inl ⟨level, hshown, rfl⟩) with ⟨level', hshown', heq⟩ | ⟨hnot, heq⟩
    · obtain rfl := Nat.succ.inj heq
      exact .inl hshown'
    · exact .inr ⟨hnot, Nat.succ.inj heq⟩
  · rintro h n (⟨level, hshown, rfl⟩ | ⟨hnot, rfl⟩)
    · rcases h level hshown with hshown' | ⟨hnot, rfl⟩
      · exact .inl ⟨level, hshown', rfl⟩
      · exact .inr ⟨hnot, rfl⟩
    · refine .inr ⟨fun level hshown => ?_, rfl⟩
      obtain ⟨level', hshown'⟩ := hshown.mono fun _ =>
        nearestRow_isSome_mono (Nat.sub_le startOfThread 1)
      exact hnot level' hshown'

/-- The loop is right when it returns and the row above the thread does no harm. -/
theorem levelRight_iff : LevelRight db rows startOfThread viewIndex m ↔
    ¬ Circles (climbUnseen db rows startOfThread viewIndex) m ∧
      RowAboveHarmless db rows startOfThread viewIndex m := by
  rw [← isLevel_iff_harmless]
  constructor
  · rintro ⟨fuel, n, hreturns, hright⟩
    refine ⟨fun hcircles => ?_, fun n' hn' => ?_⟩
    · rw [findLevelLoop_of_circles hcircles] at hreturns
      cases hreturns
    · have hn := isLevel_of_findLevelLoop hreturns
      rcases hn with ⟨level, hshown, rfl⟩ | ⟨hnot, rfl⟩
      · rcases hn' with ⟨level', hshown', rfl⟩ | ⟨hnot', rfl⟩
        · obtain rfl := hshown.unique hshown'
          exact hright
        · exact absurd hshown (hnot' level)
      · rcases hn' with ⟨level', hshown', rfl⟩ | ⟨-, rfl⟩
        · exact absurd hshown' (hnot level')
        · exact hright
  · rintro ⟨hcircles, hharmless⟩
    obtain ⟨fuel, n, hreturns⟩ := findLevelLoop_returns hcircles
    exact ⟨fuel, n, hreturns, hharmless n (isLevel_of_findLevelLoop hreturns)⟩

/-- The loop returns at once without a key, and from a key when its climb does not circle. -/
theorem parentReturns_iff {start : ℕ} {parentKey : Option ℕ} :
    ParentReturns db rows start parentKey ↔
      ∀ key ∈ parentKey, ¬ Circles (climbUnlisted db (columns rows) start) key := by
  cases parentKey with
  | none =>
    constructor
    · intro _ key hkey
      cases hkey
    · intro _
      exact ⟨1, start, rfl⟩
  | some key =>
    constructor
    · rintro ⟨fuel, i, hreturns⟩ key' hkey hcircles
      obtain rfl := mem_some_iff.mp hkey
      rw [findParentLoop_of_circles hcircles] at hreturns
      cases hreturns
    · intro h
      exact findParentLoop_returns (h key rfl)

/-- `FindLevelInThread` returns the right level if and only if its climb finds a row or does not
circle, and the row just above the thread does no harm.  `FindParentInThread` returns if and only
if its climb comes to a key of a row or does not circle. -/
theorem levelLookup_iff (db : MsgDatabase) (rows : List Row) (startOfThread viewIndex : ℕ)
    (msgHdr : ThreadHdr) (startOfThreadViewIndex : ℕ) (parentKey : Option ℕ) :
    (LevelRight db rows startOfThread viewIndex msgHdr ↔
      (¬ Circles (climb db) msgHdr ∨ ∃ m, Climbs (climb db) msgHdr m ∧
        rowFound rows startOfThread viewIndex m = true) ∧
          RowAboveHarmless db rows startOfThread viewIndex msgHdr) ∧
    (ParentReturns db rows startOfThreadViewIndex parentKey ↔
      ∀ key ∈ parentKey, ¬ Circles (parentKeyOf db) key ∨
        ∃ key', Climbs (parentKeyOf db) key key' ∧
          key' ∈ (columns rows).m_keys.drop startOfThreadViewIndex) := by
  constructor
  · have hclimb := @circles_unless_iff _ (climb db) msgHdr (rowFound rows startOfThread viewIndex)
    rw [levelRight_iff]
    refine and_congr_left fun _ => (not_congr hclimb).trans ?_
    simp only [not_and_or, not_forall, Bool.not_eq_false, exists_prop]
  · rw [parentReturns_iff]
    refine forall₂_congr fun key _ => ?_
    have hclimb := @circles_unless_iff _ (parentKeyOf db) key fun key' =>
      decide (key' ∈ (columns rows).m_keys.drop startOfThreadViewIndex)
    simp only [decide_eq_true_eq] at hclimb
    refine (not_congr hclimb).trans ?_
    simp only [not_and_or, not_forall, exists_prop, decide_eq_false_iff_not, not_not]

end Returns

/-! ## Two headers that are above each other -/

/-- An unread header without flags. -/
def plainHdr (messageKey : ℕ) (threadParent : Option ℕ) : ThreadHdr :=
  ⟨⟨messageKey, 0, 0, false, 0, 0, 0, 0, 0, none, 0⟩, threadParent⟩

/-- The headers 1 and 2 are above each other, the header 3 is below 1, the header 4 is its own
parent and the header 6 is below 5, which is in another thread. -/
def corruptDatabase : MsgDatabase :=
  [⟨[plainHdr 1 (some 2), plainHdr 2 (some 1), plainHdr 3 (some 1), plainHdr 4 (some 4),
    plainHdr 6 (some 5)], 1, false⟩, ⟨[plainHdr 7 none, plainHdr 5 (some 7)], 7, false⟩]

def plainRow (key level : ℕ) : Row := ⟨key, ViewArrays.noFlags, level⟩

/-- In an empty view, the loops for the header 3 and for the key 4 do not return.  And below the
rows of the other thread, the header 6 is given the level below that of 5. -/
theorem not_levelLookup_corrupt :
    ¬ LevelRight corruptDatabase [] 0 0 (plainHdr 3 (some 1)) ∧
      ¬ ParentReturns corruptDatabase [] 0 (some 4) ∧
      ¬ LevelRight corruptDatabase [plainRow 7 0, plainRow 5 1, plainRow 1 0] 2 3
        (plainHdr 6 (some 5)) := by
  refine ⟨?_, ?_, ?_⟩
  · have hround : Circles (climbUnseen corruptDatabase [] 0 0) (plainHdr 3 (some 1)) :=
      ⟨plainHdr 1 (some 2), Climbs.step (by decide) (Climbs.refl _),
        .tail (.single (show _ = some (plainHdr 2 (some 1)) by decide)) (by decide)⟩
    exact fun h => (levelRight_iff.mp h).1 hround
  · have hround : Circles (climbUnlisted corruptDatabase (columns []) 0) 4 :=
      ⟨4, Climbs.refl 4, .single (by decide)⟩
    exact fun h => parentReturns_iff.mp h 4 rfl hround
  · intro h
    have hshown : NearestShown corruptDatabase
        (tryRow [plainRow 7 0, plainRow 5 1, plainRow 1 0] 2 3) (plainHdr 6 (some 5)) 1 :=
      .parent (by decide)
    rcases (levelRight_iff.mp h).2 1 hshown with hthread | ⟨-, hzero⟩
    · cases hthread with
      | parent hparent => exact absurd hparent (by decide)
      | above _ hclimb habove =>
        have hclimb5 : climb corruptDatabase (plainHdr 6 (some 5)) =
            some (plainHdr 5 (some 7)) := by decide
        obtain rfl := Option.some.inj (hclimb5.symm.trans hclimb)
        cases habove with
        | parent hparent => exact absurd hparent (by decide)
        | above _ hclimb habove =>
          have hclimb7 : climb corruptDatabase (plainHdr 5 (some 7)) =
              some (plainHdr 7 none) := by decide
          obtain rfl := Option.some.inj (hclimb7.symm.trans hclimb)
          cases habove with
          | parent hparent => cases hparent
          | above _ hclimb _ => cases hclimb
    · cases hzero

end CommCentral.MsgView
