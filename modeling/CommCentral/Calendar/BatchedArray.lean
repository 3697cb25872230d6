import CommCentral.Calendar.HashedArray

/-!
# `HashedArray` in batch mode

The array of calendar items that finds an item by its id, from
`calendar/base/modules/calHashedArray.jsm`, with `startBatch` and `endBatch`.
`SortedHashedArray` inherits its fields, and overrides `addItem` and
`modifyItem` alone.

* A call that throws, or that leaves a hole in `mArray`, gives `none`.

In batch mode `reindex` only notes where to begin later, so `mHash` does not
follow the array.  `itemById`, `indexOf` and `removeById` throw in batch mode,
but `modifyItem` takes the index that `mHash` has.  A run keeps, beside the
array, one on which the same calls are made without a batch.  Both answer alike
as soon as the batches are ended, exactly when each item that is modified is in
the array where `mHash` has it, or in neither (`unobservable_iff`).
-/

namespace CommCentral.Calendar

open List Machine SortedHashedArray Function

/-- `HashedArray`, whose fields are those of `SortedHashedArray`. -/
abbrev HashedArray (α Id : Type*) := SortedHashedArray α Id

namespace HashedArray

open SortedHashedArray

section Model

variable {α Id : Type*} [DecidableEq Id]

def addItem (hashAccessor : α → Id) (s : HashedArray α Id) (item : α) : HashedArray α Id :=
  SortedHashedArray.reindex hashAccessor { s with mArray := s.mArray ++ [item] } s.mArray.length
    none

def modifyItem (hashAccessor : α → Id) (s : HashedArray α Id) (item : α) :
    Option (HashedArray α Id) :=
  match s.mHash (hashAccessor item) with
  | some index =>
    if index < s.mArray.length then some { s with mArray := s.mArray.set index item }
    else if index = s.mArray.length then some { s with mArray := s.mArray ++ [item] }
    else none
  | none => some (addItem hashAccessor s item)

def startBatch (s : HashedArray α Id) : HashedArray α Id := { s with mBatch := s.mBatch + 1 }

def endBatch (hashAccessor : α → Id) (s : HashedArray α Id) : HashedArray α Id :=
  let s := { s with mBatch := s.mBatch - 1 }
  if s.mBatch = 0 ∧ s.mFirstDirty > -1 then
    { SortedHashedArray.reindex hashAccessor s s.mFirstDirty.toNat none with mFirstDirty := -1 }
  else s

/-- `itemById`; the item is missing when it is `null` or `undefined`. -/
def itemById (s : HashedArray α Id) (id : Id) : Option (Option α) :=
  if s.mBatch > 0 then none else some ((s.mHash id).bind fun index => s.mArray[index]?)

def indexOf (hashAccessor : α → Id) (s : HashedArray α Id) (item : α) : Option ℤ :=
  if s.mBatch > 0 then none
  else
    some (match s.mHash (hashAccessor item) with
      | some index => index
      | none => -1)

end Model

/-! ## Runs -/

inductive BatchCall (α : Type*) where
  | addItem (item : α)
  | modifyItem (item : α)
  | removeByIndex (index : ℕ)
  | startBatch
  | endBatch
  deriving DecidableEq

/-- The array, and one on which the same calls are made without a batch. -/
structure Twin (α Id : Type*) where
  array : HashedArray α Id
  plain : HashedArray α Id

section Runs

variable {α Id : Type*} [DecidableEq Id]

def call (hashAccessor : α → Id) (s : HashedArray α Id) :
    BatchCall α → Option (HashedArray α Id)
  | .addItem item => some (addItem hashAccessor s item)
  | .modifyItem item => modifyItem hashAccessor s item
  | .removeByIndex index => SortedHashedArray.removeByIndex hashAccessor s index
  | .startBatch => some (startBatch s)
  | .endBatch => some (endBatch hashAccessor s)

def plainCall (hashAccessor : α → Id) (s : HashedArray α Id) :
    BatchCall α → Option (HashedArray α Id)
  | .startBatch => some s
  | .endBatch => some s
  | op => call hashAccessor s op

def Twin.call (hashAccessor : α → Id) (t : Twin α Id) (op : BatchCall α) :
    Option (Twin α Id × Unit) :=
  (HashedArray.call hashAccessor t.array op).bind fun array =>
    (plainCall hashAccessor t.plain op).map fun plain => (⟨array, plain⟩, ())

/-- Both arrays as a machine. -/
def twinStep (hashAccessor : α → Id) : Step (Option (Twin α Id)) (BatchCall α) (Option Unit) :=
  ofPartial (Twin.call hashAccessor)

/-- A call that keeps ids distinct: an id is added when it is not there, and an item that is
there is removed. -/
def KeepsDistinct (hashAccessor : α → Id) (t : Twin α Id) : BatchCall α → Prop
  | .addItem item => ∀ other ∈ t.plain.mArray, hashAccessor other ≠ hashAccessor item
  | .removeByIndex index => index < t.plain.mArray.length
  | _ => True

/-- A modified item is in the array where `mHash` has it, or in neither. -/
def ModifiesKnown (hashAccessor : α → Id) (t : Twin α Id) : BatchCall α → Prop
  | .modifyItem item => ∀ index, t.array.mHash (hashAccessor item) = some index ↔
      IdAt hashAccessor t.array.mArray index (hashAccessor item)
  | _ => True

def endBatches (hashAccessor : α → Id) (s : HashedArray α Id) : HashedArray α Id :=
  (endBatch hashAccessor)^[s.mBatch] s

/-- When the batches are ended, the array answers as the one without them. -/
structure Twin.Unobservable (hashAccessor : α → Id) (t : Twin α Id) : Prop where
  mArray : (endBatches hashAccessor t.array).mArray = t.plain.mArray
  itemById : ∀ id, (itemById (endBatches hashAccessor t.array) id).isSome ∧
    itemById (endBatches hashAccessor t.array) id = itemById t.plain id
  indexOf : ∀ item, indexOf hashAccessor (endBatches hashAccessor t.array) item =
    indexOf hashAccessor t.plain item
  clean : (endBatches hashAccessor t.array).mFirstDirty = -1

end Runs

/-! ## What an array keeps -/

section Kept

variable {α Id : Type*} {f : α → Id} {l : List α} {s : HashedArray α Id} {item x : α} {id : Id}
  {i k p : ℕ}

theorem idAt_append : IdAt f (l ++ [item]) i id ↔ IdAt f l i id ∨ i = l.length ∧ f item = id := by
  rw [IdAt, IdAt]
  rcases Nat.lt_trichotomy i l.length with hlt | rfl | hgt
  · rw [getElem?_append_left hlt]
    simp [hlt.ne]
  · rw [getElem?_concat_length]
    simp
  · rw [getElem?_eq_none (by simp; omega), getElem?_eq_none hgt.le]
    simp [hgt.ne']

theorem idAt_set (hx : l[p]? = some x) (hid : f item = f x) :
    IdAt f (l.set p item) i id ↔ IdAt f l i id := by
  have hlt := (List.getElem?_eq_some_iff.mp hx).1
  rw [IdAt, IdAt]
  rcases eq_or_ne p i with rfl | hne
  · rw [getElem?_set_self hlt, hx]
    simp [hid]
  · rw [getElem?_set_ne hne]

theorem map_set_version (hx : l[p]? = some x) (hid : f item = f x) :
    (l.set p item).map f = l.map f := by
  apply ext_getElem?
  intro i
  apply Option.ext
  intro id
  rw [← idAt_iff_map, ← idAt_iff_map]
  exact idAt_set hx hid

theorem staleFrom_append (h : StaleFrom f s k) :
    StaleFrom f { s with mArray := s.mArray ++ [item] } (min k s.mArray.length) := by
  intro id hnot index
  have hne : f item ≠ id := by
    intro hid
    exact hnot _ (min_le_right _ _) (idAt_append.mpr (.inr ⟨rfl, hid⟩))
  have hold : ∀ index, k ≤ index → ¬ IdAt f s.mArray index id := by
    intro index hindex hat
    exact hnot index (le_trans (min_le_left _ _) hindex) (idAt_append.mpr (.inl hat))
  refine (h id hold index).trans ?_
  rw [idAt_append]
  simp [hne]

variable [DecidableEq Id]

/-- The items behind one that is taken out are stale. -/
theorem staleFrom_erase (h : StaleFrom f s k) (hl : (s.mArray.map f).Nodup)
    (hx : s.mArray[p]? = some x) :
    StaleFrom f { s with
      mHash := update s.mHash (f x) none
      mArray := s.mArray.eraseIdx p } (min k p) := by
  intro id hnot index
  show update s.mHash (f x) none id = some index ↔ _
  rcases eq_or_ne id (f x) with rfl | hid
  · rw [update_self]
    refine iff_of_false (by simp) ?_
    rintro ⟨y, hy, hyx⟩
    obtain ⟨i, hi, hget⟩ := mem_eraseIdx_iff_getElem?.mp (mem_of_getElem? hy)
    exact hi (IdAt.unique hl ⟨y, hget, hyx⟩ ⟨x, hx, rfl⟩)
  · rw [update_of_ne hid]
    -- an item behind the one taken out moves by one
    have hbehind : ∀ index, p ≤ index → ¬ IdAt f s.mArray index id := by
      intro index hindex hat
      obtain ⟨y, hy, hyid⟩ := hat
      rcases eq_or_lt_of_le hindex with rfl | hlt
      · obtain rfl := Option.some.inj (hy.symm.trans hx)
        exact hid hyid.symm
      · refine hnot (index - 1) (by omega) ⟨y, ?_, hyid⟩
        rwa [getElem?_eraseIdx_of_ge (by omega), Nat.sub_add_cancel (by omega)]
    have hfront : ∀ index, index < p → (IdAt f (s.mArray.eraseIdx p) index id ↔
        IdAt f s.mArray index id) := by
      intro index hindex
      rw [IdAt, IdAt, getElem?_eraseIdx_of_lt hindex]
    refine (h id (fun index hindex hat => ?_) index).trans ?_
    · rcases Nat.lt_or_ge index p with hlt | hge
      · exact hnot index (le_trans (min_le_left _ _) hindex) ((hfront index hlt).mpr hat)
      · exact hbehind index hge hat
    · rcases Nat.lt_or_ge index p with hlt | hge
      · exact (hfront index hlt).symm
      · exact iff_of_false (hbehind index hge) (hnot index (le_trans (min_le_right _ _) hge))

/-- The ids are distinct, and `mHash` is right or is to be made right at the end of the batch. -/
structure Kept (f : α → Id) (s : HashedArray α Id) : Prop where
  distinct : (s.mArray.map f).Nodup
  /-- Without a dirty index the positions are right; else only the ids of the array are stale. -/
  indexed : s.mFirstDirty = -1 ∧ Positions f s ∨
    s.mFirstDirty = 0 ∧ s.mBatch > 0 ∧ StaleFrom f s 0

omit [DecidableEq Id] in
theorem Kept.positions (h : Kept f s) (hbatch : s.mBatch = 0) :
    s.mFirstDirty = -1 ∧ Positions f s := by
  cases h.indexed with
  | inl h => exact h
  | inr h => exact absurd hbatch h.2.1.ne'

omit [DecidableEq Id] in
theorem Kept.stale (h : Kept f s) : StaleFrom f s 0 := by
  cases h.indexed with
  | inl h => exact fun id _ => h.2 id
  | inr h => exact h.2.2

/-- `reindex` behind a change of the array. -/
theorem kept_reindex (hdistinct : (s.mArray.map f).Nodup)
    (h : s.mFirstDirty = -1 ∧ StaleFrom f s k ∨
      s.mFirstDirty = 0 ∧ s.mBatch > 0 ∧ StaleFrom f s 0) :
    Kept f (reindex f s k none) := by
  refine ⟨by rwa [reindex_mArray], ?_⟩
  rcases Nat.eq_zero_or_pos s.mBatch with hbatch | hbatch
  · cases h with
    | inr h => exact absurd hbatch h.2.1.ne'
    | inl h =>
      refine .inl ⟨?_, h.2.reindex hdistinct hbatch⟩
      rw [reindex]
      split_ifs <;> first | exact h.1 | omega
  · rw [reindex]
    split
    next hempty =>
      cases h with
      | inr h => exact .inr h
      | inl h =>
        refine .inl ⟨h.1, fun id => h.2 id ?_⟩
        intro index _ hat
        have hlt := hat.lt
        omega
    next =>
      have hstale : StaleFrom f s 0 := by
        cases h with
        | inr h => exact h.2.2
        | inl h => exact fun id hnot => h.2 id fun index _ => hnot index (Nat.zero_le _)
      have hdirty : max 0 s.mFirstDirty = 0 := by
        cases h with
        | inr h => rw [h.1, max_self]
        | inl h => rw [h.1]; rfl
      refine .inr ⟨?_, hbatch, hstale⟩
      rw [hdirty]
      exact min_eq_left (Int.natCast_nonneg _)

open HashedArray

theorem Kept.addItem (h : Kept f s) (hnew : ∀ other ∈ s.mArray, f other ≠ f item) :
    Kept f (addItem f s item) := by
  refine kept_reindex ?_ ?_
  · show ((s.mArray ++ [item]).map f).Nodup
    rw [map_append, nodup_append]
    refine ⟨h.distinct, by simp, ?_⟩
    intro id hid other hother
    obtain ⟨y, hy, rfl⟩ := mem_map.mp hid
    rw [map_singleton, mem_singleton] at hother
    rw [hother]
    exact hnew y hy
  · cases h.indexed with
    | inl hright =>
      have hstale : StaleFrom f s s.mArray.length := fun id _ => hright.2 id
      have happend := @staleFrom_append _ _ _ _ item _ hstale
      rw [min_self] at happend
      exact .inl ⟨hright.1, happend⟩
    | inr hright =>
      have happend := @staleFrom_append _ _ _ _ item _ hright.2.2
      exact .inr ⟨hright.1, hright.2.1, happend⟩

theorem Kept.removeByIndex (h : Kept f s) (hx : s.mArray[p]? = some x) :
    ∃ s', SortedHashedArray.removeByIndex f s p = some s' ∧ Kept f s' ∧
      s'.mArray = s.mArray.eraseIdx p ∧ s'.mBatch = s.mBatch := by
  refine ⟨_, by rw [SortedHashedArray.removeByIndex, hx]; rfl, kept_reindex ?_ ?_, ?_, ?_⟩
  · exact h.distinct.sublist ((eraseIdx_sublist _ _).map f)
  · cases h.indexed with
    | inl hright =>
      have hstale : StaleFrom f s p := fun id _ => hright.2 id
      have herase := staleFrom_erase hstale h.distinct hx
      rw [min_self] at herase
      exact .inl ⟨hright.1, herase⟩
    | inr hright =>
      have herase := staleFrom_erase hright.2.2 h.distinct hx
      exact .inr ⟨hright.1, hright.2.1, herase⟩
  · rw [reindex_mArray]
  · rw [reindex_mBatch]

def modified (f : α → Id) (l : List α) (item : α) : List α :=
  match l.findIdx? fun other => f other = f item with
  | some index => l.set index item
  | none => l ++ [item]

theorem modified_eq_append (h : ∀ other ∈ l, f other ≠ f item) :
    modified f l item = l ++ [item] := by
  rw [modified, findIdx?_eq_none_iff.mpr]
  simpa using h

theorem modified_eq_set (hl : (l.map f).Nodup) (h : IdAt f l i (f item)) :
    modified f l item = l.set i item := by
  obtain ⟨x, hx, hid⟩ := h
  rw [modified]
  cases hj : l.findIdx? fun other => decide (f other = f item) with
  | none =>
    rw [findIdx?_eq_none_iff] at hj
    have hnot := hj x (mem_of_getElem? hx)
    rw [decide_eq_false_iff_not] at hnot
    exact absurd hid hnot
  | some j =>
    have hat : IdAt f l j (f item) := by
      have hfound := of_findIdx?_eq_some hj
      cases hy : l[j]? with
      | none => simp [hy] at hfound
      | some y => exact ⟨y, hy, by simpa [hy] using hfound⟩
    rw [hat.unique hl ⟨x, hx, hid⟩]

/-- A new version goes to its place when `mHash` knows it. -/
theorem Kept.modifyItem (h : Kept f s)
    (hknown : ∀ index, s.mHash (f item) = some index ↔ IdAt f s.mArray index (f item)) :
    ∃ s', HashedArray.modifyItem f s item = some s' ∧ Kept f s' ∧
      s'.mArray = modified f s.mArray item ∧ s'.mBatch = s.mBatch := by
  rw [HashedArray.modifyItem]
  cases hhash : s.mHash (f item) with
  | none =>
    have hnew : ∀ other ∈ s.mArray, f other ≠ f item := by
      intro other hother hid
      obtain ⟨i, hi⟩ := mem_iff_getElem?.mp hother
      rw [(hknown i).mpr ⟨other, hi, hid⟩] at hhash
      cases hhash
    refine ⟨_, rfl, h.addItem hnew, ?_, reindex_mBatch ..⟩
    rw [HashedArray.addItem, reindex_mArray, modified_eq_append hnew]
  | some i =>
    obtain ⟨x, hx, hid⟩ := (hknown i).mp hhash
    have hlt := (List.getElem?_eq_some_iff.mp hx).1
    have hids : ∀ j id, IdAt f (s.mArray.set i item) j id ↔ IdAt f s.mArray j id := fun j id =>
      idAt_set hx hid.symm
    simp only [if_pos hlt]
    refine ⟨_, rfl, ⟨?_, ?_⟩, ?_, rfl⟩
    · show ((s.mArray.set i item).map f).Nodup
      rw [map_set_version hx hid.symm]
      exact h.distinct
    · cases h.indexed with
      | inl h => exact .inl ⟨h.1, fun id j => (h.2 id j).trans (hids j id).symm⟩
      | inr h =>
        refine .inr ⟨h.1, h.2.1, fun id hnot j => (h.2.2 id ?_ j).trans (hids j id).symm⟩
        exact fun j hj hat => hnot j hj ((hids j id).mpr hat)
    · exact (modified_eq_set h.distinct ⟨x, hx, hid⟩).symm

/-- A new version that `mHash` has elsewhere does not go to its place. -/
theorem Kept.modifyItem_elsewhere (h : Kept f s)
    (hunknown : ¬ ∀ index, s.mHash (f item) = some index ↔ IdAt f s.mArray index (f item)) (s')
    (hmodify : HashedArray.modifyItem f s item = some s') :
    s'.mArray ≠ modified f s.mArray item := by
  intro hsame
  rw [HashedArray.modifyItem] at hmodify
  cases hhash : s.mHash (f item) with
  | none =>
    -- the item is in the array, and is added once more
    rw [hhash] at hmodify
    have hin : ∃ i, IdAt f s.mArray i (f item) := by
      by_contra hnot
      refine hunknown fun index => ?_
      rw [hhash]
      exact iff_of_false (by simp) fun hat => hnot ⟨index, hat⟩
    obtain ⟨i, hat⟩ := hin
    cases hmodify
    rw [HashedArray.addItem, modified_eq_set h.distinct hat] at hsame
    have hlength := congrArg List.length hsame
    simp at hlength
  | some j =>
    rw [hhash] at hmodify
    have hnot : ¬ IdAt f s.mArray j (f item) := by
      intro hat
      refine hunknown fun index => ?_
      rw [hhash, Option.some.injEq]
      constructor
      · rintro rfl
        exact hat
      · exact fun hindex => hat.unique h.distinct hindex
    have hin : ∃ i, IdAt f s.mArray i (f item) := by
      by_contra hnone
      have hright := (h.stale (f item) (fun index _ hat => hnone ⟨index, hat⟩) j).mp hhash
      exact hnot hright
    obtain ⟨i, hat⟩ := hin
    rw [modified_eq_set h.distinct hat] at hsame
    dsimp only at hmodify
    split at hmodify
    next hlt =>
      cases hmodify
      have hself : (s.mArray.set j item)[j]? = some item := getElem?_set_self hlt
      have hne : i ≠ j := by
        rintro rfl
        exact hnot hat
      rw [show s.mArray.set j item = s.mArray.set i item from hsame,
        getElem?_set_ne hne] at hself
      exact hnot ⟨item, hself, rfl⟩
    next =>
      split at hmodify
      next =>
        cases hmodify
        have hlength := congrArg List.length hsame
        simp at hlength
      next => cases hmodify

omit [DecidableEq Id] in
/-- `startBatch`. -/
theorem Kept.startBatch (h : Kept f s) : Kept f (startBatch s) := by
  refine ⟨h.distinct, ?_⟩
  cases h.indexed with
  | inl h => exact .inl h
  | inr h => exact .inr ⟨h.1, Nat.succ_pos _, h.2.2⟩

@[simp] theorem endBatch_mArray : (endBatch f s).mArray = s.mArray := by
  rw [endBatch]
  split
  · exact reindex_mArray ..
  · rfl

@[simp] theorem endBatch_mBatch : (endBatch f s).mBatch = s.mBatch - 1 := by
  rw [endBatch]
  split
  · exact reindex_mBatch ..
  · rfl

/-- `endBatch`. -/
theorem Kept.endBatch (h : Kept f s) : Kept f (HashedArray.endBatch f s) := by
  refine ⟨by rw [endBatch_mArray]; exact h.distinct, ?_⟩
  rw [HashedArray.endBatch]
  split
  next hlast =>
    refine .inl ⟨rfl, ?_⟩
    have hdirty : s.mFirstDirty.toNat = 0 := by
      cases h.indexed with
      | inl h => rw [h.1]; rfl
      | inr h => rw [h.1]; rfl
    rw [hdirty]
    have hright : Positions f
        (reindex f { s with mBatch := s.mBatch - 1 } 0 none) :=
      StaleFrom.reindex h.stale h.distinct hlast.1
    exact hright
  next hmore =>
    cases h.indexed with
    | inl h => exact .inl h
    | inr h =>
      refine .inr ⟨h.1, Nat.pos_of_ne_zero fun hzero => hmore ⟨hzero, ?_⟩, h.2.2⟩
      rw [h.1]
      decide

/-- Nothing but `mBatch` depends on how many batches are ended. -/
theorem iterate_endBatch (n : ℕ) : ((endBatch f)^[n] s).mArray = s.mArray ∧
    ((endBatch f)^[n] s).mBatch = s.mBatch - n := by
  induction n with
  | zero => exact ⟨rfl, rfl⟩
  | succ n ih =>
    rw [iterate_succ_apply', endBatch_mArray, endBatch_mBatch, ih.1, ih.2]
    exact ⟨rfl, rfl⟩

@[simp] theorem endBatches_mArray : (endBatches f s).mArray = s.mArray :=
  (iterate_endBatch _).1

@[simp] theorem endBatches_mBatch : (endBatches f s).mBatch = 0 :=
  (iterate_endBatch _).2.trans (Nat.sub_self _)

theorem Kept.endBatches (h : Kept f s) : Kept f (HashedArray.endBatches f s) := by
  have hends : ∀ n, Kept f ((HashedArray.endBatch f)^[n] s) := by
    intro n
    induction n with
    | zero => exact h
    | succ n ih =>
      rw [iterate_succ_apply']
      exact ih.endBatch
  exact hends s.mBatch

end Kept

/-! ## What both arrays keep -/

section Tracks

variable {α Id : Type*} [DecidableEq Id] {f : α → Id} {t : Twin α Id} {s : HashedArray α Id}

/-- Both arrays hold the same items, and each keeps what it must. -/
structure Twin.Tracks (f : α → Id) (t : Twin α Id) : Prop where
  mArray : t.array.mArray = t.plain.mArray
  array : Kept f t.array
  plain : Kept f t.plain
  unbatched : t.plain.mBatch = 0

omit [DecidableEq Id] in
theorem positions_unique {s s' : HashedArray α Id} (hs : Positions f s) (hs' : Positions f s')
    (hsame : s.mArray = s'.mArray) : s.mHash = s'.mHash := by
  funext id
  apply Option.ext
  intro index
  rw [hs id index, hs' id index, hsame]

/-- What is kept shows when the batches are ended. -/
theorem Twin.Tracks.unobservable (h : t.Tracks f) : t.Unobservable f := by
  obtain ⟨hdirty, hright⟩ := h.array.endBatches.positions endBatches_mBatch
  have hsame : (endBatches f t.array).mArray = t.plain.mArray := by
    rw [endBatches_mArray, h.mArray]
  have hhash := positions_unique hright (h.plain.positions h.unbatched).2 hsame
  have hnone : ¬ (endBatches f t.array).mBatch > 0 := by
    rw [endBatches_mBatch]
    exact Nat.lt_irrefl 0
  have hplain : ¬ t.plain.mBatch > 0 := by
    rw [h.unbatched]
    exact Nat.lt_irrefl 0
  refine ⟨hsame, fun id => ?_, fun item => ?_, hdirty⟩
  · rw [itemById, itemById, if_neg hnone, if_neg hplain, hhash, hsame]
    exact ⟨rfl, rfl⟩
  · rw [indexOf, indexOf, if_neg hnone, if_neg hplain, hhash]

/-- A call that keeps ids distinct, and modifies what `mHash` knows, keeps both. -/
theorem Twin.Tracks.call (h : t.Tracks f) (op : BatchCall α) (hop : KeepsDistinct f t op)
    (hknown : ModifiesKnown f t op) :
    ∃ t', t.call f op = some (t', ()) ∧ t'.Tracks f := by
  cases op with
  | addItem item =>
    refine ⟨_, rfl, ?_, h.array.addItem ?_, h.plain.addItem hop, ?_⟩
    · rw [HashedArray.addItem, HashedArray.addItem, reindex_mArray, reindex_mArray, h.mArray]
    · rw [h.mArray]
      exact hop
    · exact (reindex_mBatch ..).trans h.unbatched
  | modifyItem item =>
    obtain ⟨array, harray, hkept, hitems, -⟩ := h.array.modifyItem hknown
    obtain ⟨plain, hplain, hkept', hitems', hbatch⟩ := h.plain.modifyItem fun index =>
      (h.plain.positions h.unbatched).2 (f item) index
    refine ⟨⟨array, plain⟩, ?_, ?_, hkept, hkept', hbatch.trans h.unbatched⟩
    · simp only [Twin.call, HashedArray.call, plainCall, harray, hplain]
      rfl
    · rw [hitems, hitems', h.mArray]
  | removeByIndex index =>
    obtain ⟨x, hx⟩ : ∃ x, t.plain.mArray[index]? = some x := ⟨_, getElem?_eq_getElem hop⟩
    have hx' := hx
    rw [← h.mArray] at hx'
    obtain ⟨array, harray, hkept, hitems, -⟩ := h.array.removeByIndex hx'
    obtain ⟨plain, hplain, hkept', hitems', hbatch⟩ := h.plain.removeByIndex hx
    refine ⟨⟨array, plain⟩, ?_, ?_, hkept, hkept', hbatch.trans h.unbatched⟩
    · simp only [Twin.call, HashedArray.call, plainCall, harray, hplain]
      rfl
    · rw [hitems, hitems', h.mArray]
  | startBatch => exact ⟨_, rfl, h.mArray, h.array.startBatch, h.plain, h.unbatched⟩
  | endBatch =>
    exact ⟨_, rfl, endBatch_mArray.trans h.mArray, h.array.endBatch, h.plain, h.unbatched⟩

/-- An item that is modified elsewhere shows when the batches are ended. -/
theorem Twin.Tracks.call_unknown (h : t.Tracks f) (op : BatchCall α)
    (hunknown : ¬ ModifiesKnown f t op) (t') (hcall : t.call f op = some (t', ())) :
    ¬ t'.Unobservable f := by
  cases op with
  | addItem item => exact absurd trivial hunknown
  | removeByIndex index => exact absurd trivial hunknown
  | startBatch => exact absurd trivial hunknown
  | endBatch => exact absurd trivial hunknown
  | modifyItem item =>
    intro hsame
    obtain ⟨plain, hplain, -, hitems, -⟩ := h.plain.modifyItem fun index =>
      (h.plain.positions h.unbatched).2 (f item) index
    cases harray : HashedArray.modifyItem f t.array item with
    | none =>
      rw [Twin.call, HashedArray.call, harray] at hcall
      cases hcall
    | some array =>
      simp only [Twin.call, HashedArray.call, plainCall, harray, hplain] at hcall
      cases hcall
      refine h.array.modifyItem_elsewhere hunknown array harray ?_
      rw [h.mArray, ← hitems]
      exact endBatches_mArray.symm.trans hsame.mArray

end Tracks

/-- An array whose ids are distinct, outside of a batch. -/
structure Indexed {α Id : Type*} (f : α → Id) (s : HashedArray α Id) : Prop where
  distinct : (s.mArray.map f).Nodup
  positions : Positions f s
  unbatched : s.mBatch = 0
  clean : s.mFirstDirty = -1

/-- Whatever array and calls that keep ids distinct, with batches in any place: no call throws,
and after each call the array with its batches ended has the items, and answers every id, as the
one without batches, and is clean, exactly when every modified item is in the array where
`mHash` has it, or in neither. -/
theorem unobservable_iff {α Id : Type*} [DecidableEq Id] (f : α → Id) (s : HashedArray α Id)
    (hs : Indexed f s) (calls : List (BatchCall α))
    (hcalls : Along (twinStep f) (Unstuck (KeepsDistinct f)) (some ⟨s, s⟩) calls) :
    (∀ before, before <+: calls →
      ∃ t, exec (twinStep f) (some ⟨s, s⟩) before = some t ∧ t.Unobservable f) ↔
      Along (twinStep f) (Unstuck (ModifiesKnown f)) (some ⟨s, s⟩) calls := by
  have hkept : Kept f s := ⟨hs.distinct, .inl ⟨hs.clean, hs.positions⟩⟩
  refine forall_prefix_iff_of_seen (I := fun r => ∃ t, r = some t ∧ t.Tracks f)
    (U := fun r => ∃ t, r = some t ∧ t.Unobservable f) ?_ ?_ ?_
    ⟨_, rfl, rfl, hkept, hkept, hs.unbatched⟩ hcalls
  · rintro r ⟨t, rfl, htracks⟩
    exact ⟨t, rfl, htracks.unobservable⟩
  · rintro r op ⟨t, rfl, htracks⟩ hop hknown
    obtain ⟨t', hcall, htracks'⟩ := htracks.call op hop hknown
    exact ⟨t', by simp only [twinStep, ofPartial, hcall, Option.map_some], htracks'⟩
  · rintro r op ⟨t, rfl, htracks⟩ - hunknown ⟨t', hcall, hsame⟩
    simp only [twinStep, ofPartial, Option.map_eq_some_iff] at hcall
    obtain ⟨⟨t'', ⟨⟩⟩, hcall, rfl⟩ := hcall
    exact htracks.call_unknown op hunknown t'' hcall hsame

/-! ## Items with a version -/

/-- Items are pairs of an id and a version. -/
def twoItems : HashedArray (ℕ × ℕ) ℕ where
  mArray := [(1, 0), (2, 0)]
  mHash := fun id => if id = 1 then some 0 else if id = 2 then some 1 else none
  mBatch := 0
  mFirstDirty := -1

theorem indexed_twoItems : Indexed Prod.fst twoItems := by
  refine ⟨by decide, ?_, rfl, rfl⟩
  intro id index
  show (if id = 1 then some 0 else if id = 2 then some 1 else none) = some index ↔
    IdAt Prod.fst [(1, 0), (2, 0)] index id
  rw [idAt_iff_map]
  match index with
  | 0 => grind
  | 1 => grind
  | index + 2 => grind

/-- A new version of an item that has not moved, in the inner batch of two. -/
theorem unobservable_same_place :
    let calls : List (BatchCall (ℕ × ℕ)) :=
      [.startBatch, .addItem (3, 0), .startBatch, .modifyItem (1, 1), .endBatch,
        .removeByIndex 1, .endBatch]
    ∀ before, before <+: calls →
      ∃ t, exec (twinStep Prod.fst) (some ⟨twoItems, twoItems⟩) before = some t ∧
        t.Unobservable Prod.fst := by
  intro calls
  have hcalls : Along (twinStep Prod.fst) (Unstuck (KeepsDistinct Prod.fst))
      (some ⟨twoItems, twoItems⟩) calls := by
    refine ⟨trivial, ?_, trivial, trivial, trivial, ?_, trivial, trivial⟩
    · show ∀ other ∈ [(1, 0), (2, 0)], other.1 ≠ 3
      decide
    · show 1 < 3
      decide
  refine (unobservable_iff Prod.fst twoItems indexed_twoItems calls hcalls).mpr ?_
  refine ⟨trivial, trivial, trivial, ?_, trivial, trivial, trivial, trivial⟩
  intro index
  show some 0 = some index ↔ IdAt Prod.fst [(1, 0), (2, 0), (3, 0)] index 1
  rw [idAt_iff_map]
  match index with
  | 0 => simp
  | 1 => simp
  | 2 => simp
  | index + 3 => simp

/-- A new version of an item that has moved in the batch goes behind it. -/
theorem modifyItem_keeps_moved :
    let calls : List (BatchCall (ℕ × ℕ)) := [.startBatch, .removeByIndex 0, .modifyItem (2, 1)]
    Along (twinStep Prod.fst) (Unstuck (KeepsDistinct Prod.fst)) (some ⟨twoItems, twoItems⟩)
        calls ∧
      (exec (twinStep Prod.fst) (some ⟨twoItems, twoItems⟩) calls).map
          (fun t => ((endBatches Prod.fst t.array).mArray, t.plain.mArray)) =
        some ([(2, 0), (2, 1)], [(2, 1)]) ∧
      ¬ ∃ t, exec (twinStep Prod.fst) (some ⟨twoItems, twoItems⟩) calls = some t ∧
        t.Unobservable Prod.fst := by
  intro calls
  have harrays : (exec (twinStep Prod.fst) (some ⟨twoItems, twoItems⟩) calls).map
      (fun t => ((endBatches Prod.fst t.array).mArray, t.plain.mArray)) =
        some ([(2, 0), (2, 1)], [(2, 1)]) := by decide
  have hdistinct : 0 < 2 := by decide
  refine ⟨⟨trivial, hdistinct, trivial, trivial⟩, harrays, ?_⟩
  rintro ⟨t, ht, hsame⟩
  rw [ht, Option.map_some, Option.some.injEq, Prod.mk.injEq] at harrays
  have hequal := harrays.1.symm.trans (hsame.mArray.trans harrays.2)
  cases hequal

end HashedArray

end CommCentral.Calendar
