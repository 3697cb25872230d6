import Mathlib.Data.List.Nodup
import CommCentral.Lib.Sections
import CommCentral.MsgView.ThreadListing

/-!
# A thread that is moved

`MoveThreadAt` of `nsMsgThreadedDBView.cpp`.  The rows below the first row of the
thread are saved and taken out by `CollapseByIndex`, the first row is taken out
and added again by `AddHdr`, and the saved rows are put below it.

Three things have to go well.

* `AddHdr` refuses a message of an ignored thread, and a killed one, unless the
  view shows them.  Then the first row is lost, and the saved rows are put at the
  top of the view.
* `CollapseByIndex` takes out the rows only if the first row has the flag for
  children.
* The search for the new place must not be led astray by equal fields.

Then the rows are permuted, and each thread stays together; otherwise one of the
three fails (`moveThreadAt_iff`).
-/

namespace CommCentral.MsgView

open List Bisection Sections Row ThreadedView ViewArrays

/-! ## The threads of a view -/

/-- The row is the first one of a thread. -/
def Row.isRoot (row : Row) : Bool := row.level = 0

def rowsBelow (rows : List Row) (i : ℕ) : List Row :=
  (rows.drop (i + 1)).takeWhile fun row => !row.isRoot

def otherRows (rows : List Row) (i : ℕ) : List Row :=
  rows.take i ++ (rows.drop (i + 1)).dropWhile fun row => !row.isRoot

/-- Rows that begin with the first row of a thread. -/
theorem bound_dropWhile (rows : List Row) :
    Bound isRoot (rows.dropWhile fun row => !row.isRoot) := by
  intro row hrow
  have h := head?_dropWhile_not (fun row : Row => !row.isRoot) rows
  rw [hrow] at h
  simpa using h

theorem split_at_thread {rows : List Row} {i : ℕ} {root : Row} (hroot : rows[i]? = some root) :
    ∃ pre post, pre.length = i ∧ rows = pre ++ (root :: rowsBelow rows i ++ post) ∧
      otherRows rows i = pre ++ post ∧ Bound isRoot post := by
  obtain ⟨hi, hget⟩ := List.getElem?_eq_some_iff.mp hroot
  refine ⟨rows.take i, _, length_take_of_le hi.le, ?_, rfl, bound_dropWhile _⟩
  rw [rowsBelow, cons_append, takeWhile_append_dropWhile, ← hget,
    ← drop_eq_getElem_cons, take_append_drop]

theorem headed_rowsBelow {rows : List Row} {i : ℕ} {root : Row} (hlevel : root.level = 0) :
    Headed isRoot root (rowsBelow rows i) where
  first := decide_eq_true hlevel
  others row hrow := by simpa using mem_takeWhile_imp hrow

/-! ## The steps -/

section Steps

variable {κ : Type*} {view : ThreadedView κ} {db : MsgDatabase} {pre kids post : List Row}
  {root : Row}

/-- The levels of the rows up to the next thread. -/
theorem takeWhile_levels (hkids : ∀ row ∈ kids, row.isRoot = false)
    (hpost : Bound isRoot post) :
    ((kids ++ post).map level).takeWhile (· ≠ 0) = kids.map level := by
  induction kids with
  | nil =>
    cases post with
    | nil => rfl
    | cons row post =>
      have hzero : row.level = 0 := of_decide_eq_true (hpost row rfl)
      exact takeWhile_cons_of_neg (by simp [hzero])
  | cons kid kids ih =>
    have hne : kid.level ≠ 0 := of_decide_eq_false (hkids kid (mem_cons_self ..))
    have hrest := ih fun row hrow => hkids row (mem_cons_of_mem _ hrow)
    rw [cons_append, map_cons, takeWhile_cons_of_pos (by simp [hne]), hrest]
    rfl

theorem drop_levels (f : Row → ℕ) :
    ((pre ++ (root :: kids ++ post)).map f).drop (pre.length + 1) = (kids ++ post).map f := by
  rw [← map_drop, ← drop_drop, drop_left]
  rfl

theorem childRows_columns (hkids : ∀ row ∈ kids, row.isRoot = false)
    (hpost : Bound isRoot post) :
    childRows (columns (pre ++ (root :: kids ++ post))) pre.length = columns kids := by
  have hdrop : ∀ {β : Type} (f : Row → β),
      (((pre ++ (root :: kids ++ post)).map f).drop (pre.length + 1)).take kids.length =
        kids.map f := fun f => by
    rw [← map_drop, ← drop_drop, drop_left, ← map_take]
    exact congrArg _ (take_left' rfl)
  have hlevels : (((columns (pre ++ (root :: kids ++ post))).m_levels.drop
      (pre.length + 1)).takeWhile (· ≠ 0)).length = kids.length := by
    rw [columns, drop_levels level, takeWhile_levels hkids hpost, length_map]
  rw [childRows, hlevels]
  simp only [columns, hdrop]

theorem expansionDelta_columns (hlevel : root.level = 0) (helided : root.flags.elided = false)
    (hkids : ∀ row ∈ kids, row.isRoot = false) (hpost : Bound isRoot post) :
    expansionDelta db (columns (pre ++ (root :: kids ++ post))) pre.length =
      some (-(kids.length : ℤ)) := by
  have hroot := getElem?_middle pre root (kids ++ post)
  have hflags : (columns (pre ++ (root :: kids ++ post))).m_flags[pre.length]? =
      some root.flags := (columns_flags_getElem? _ _).trans (congrArg _ hroot)
  have hzero : (columns (pre ++ (root :: kids ++ post))).m_levels[pre.length]? = some 0 := by
    rw [columns_levels_getElem?, cons_append, hroot, Option.map_some, hlevel]
  have hbehind : behindStartOfThread (columns (pre ++ (root :: kids ++ post))).m_levels pre.length =
      pre.length + 1 := by
    cases hlength : pre.length with
    | zero =>
      rw [hlength] at hzero
      rw [behindStartOfThread, hzero]
      rfl
    | succ n =>
      rw [hlength] at hzero
      rw [behindStartOfThread, hzero]
      rfl
  have hcount : countExpandedThread (columns (pre ++ (root :: kids ++ post))) pre.length =
      1 + kids.length := by
    rw [countExpandedThread, hbehind, columns, drop_levels level,
      takeWhile_levels hkids hpost, length_map]
  rw [expansionDelta, hflags]
  simp only [Option.bind_eq_bind, Option.bind_some, helided, Bool.false_eq_true, if_false, hcount,
    Option.some.injEq]
  omega

/-- `CollapseByIndex` takes out the rows below an expanded row with the flag for children. -/
theorem collapseByIndex_columns (hlevel : root.level = 0) (helided : root.flags.elided = false)
    (hchildren : root.flags.hasChildren = true)
    (hkids : ∀ row ∈ kids, row.isRoot = false) (hpost : Bound isRoot post) :
    collapseByIndex db (columns (pre ++ (root :: kids ++ post))) pre.length =
      columns (pre ++ (⟨root.key, { root.flags with elided := true }, root.level⟩ :: post)) := by
  have hflags : (columns (pre ++ (root :: kids ++ post))).m_flags[pre.length]? =
      some root.flags := (columns_flags_getElem? _ _).trans
        (congrArg _ (getElem?_middle pre root (kids ++ post)))
  have hset := setFlags_columns pre root (kids ++ post) { root.flags with elided := true }
  have hsize : ¬ ((pre.length : ℤ) + 1 + -(-(kids.length : ℤ)) >
      (columns (pre ++ ⟨root.key, { root.flags with elided := true }, root.level⟩ ::
        (kids ++ post))).getSize) := by
    rw [getSize_columns]
    simp only [length_append, length_cons]
    omega
  rw [collapseByIndex, hflags]
  dsimp only
  rw [if_neg (by simp [helided, hchildren]), expansionDelta_columns hlevel helided hkids hpost]
  dsimp only
  rw [cons_append, hset, if_neg hsize, neg_neg]
  have hremove := removeRows_columns
    (pre ++ [⟨root.key, { root.flags with elided := true }, root.level⟩]) kids post
  rw [length_append] at hremove
  simp only [append_assoc, singleton_append] at hremove
  exact hremove

/-- Without the flag for children, `CollapseByIndex` leaves the rows. -/
theorem collapseByIndex_noChildren (hchildren : root.flags.hasChildren = false) :
    collapseByIndex db (columns (pre ++ (root :: kids ++ post))) pre.length =
      columns (pre ++ (root :: kids ++ post)) := by
  have hflags : (columns (pre ++ (root :: kids ++ post))).m_flags[pre.length]? =
      some root.flags := (columns_flags_getElem? _ _).trans
        (congrArg _ (getElem?_middle pre root (kids ++ post)))
  rw [collapseByIndex, hflags]
  exact if_pos (.inr (by simp [hchildren]))

/-- `RemoveByIndex` takes out one row. -/
theorem removeByIndex_columns (pre : List Row) (row : Row) (post : List Row) :
    removeByIndex (columns (pre ++ row :: post)) pre.length = columns (pre ++ post) := by
  have hremove := removeRows_columns pre [row] post
  rw [append_assoc] at hremove
  exact hremove

/-- What is left when the first row of a thread is taken out, after those below it. -/
theorem remove_thread (hlevel : root.level = 0) (hkids : ∀ row ∈ kids, row.isRoot = false)
    (hpost : Bound isRoot post) (helided : root.flags.elided = true → kids = []) :
    removeByIndex (if !root.flags.elided then
        collapseByIndex db (columns (pre ++ (root :: kids ++ post))) pre.length
      else columns (pre ++ (root :: kids ++ post))) pre.length =
        columns (pre ++ ((if root.flags.hasChildren then [] else kids) ++ post)) := by
  cases hflag : root.flags.elided with
  | true =>
    rw [helided hflag, ite_self]
    exact removeByIndex_columns pre root post
  | false =>
    cases hflag' : root.flags.hasChildren with
    | true =>
      rw [collapseByIndex_columns hlevel hflag hflag' hkids hpost]
      exact removeByIndex_columns pre _ post
    | false =>
      rw [collapseByIndex_noChildren hflag']
      exact removeByIndex_columns pre root (kids ++ post)

end Steps

/-! ## The new place -/

def hdrOf (db : MsgDatabase) (key : ℕ) : MsgDBHdr :=
  ((db.getMsgHdrForKey key).map ThreadHdr.hdr).getD ⟨0, 0, 0, false, 0, 0, 0, 0, 0, none, 0⟩

section Place

variable {κ : Type*} {view : ThreadedView κ} {db : MsgDatabase} {rows : List Row} {m : ThreadHdr}

theorem hdrOf_eq {key : ℕ} (hm : db.getMsgHdrForKey key = some m) : hdrOf db key = m.hdr := by
  rw [hdrOf, hm]
  rfl

theorem key_of_getMsgHdrForKey {key : ℕ} (hm : db.getMsgHdrForKey key = some m) : m.key = key := by
  obtain ⟨t, -, hm⟩ := Option.bind_eq_some_iff.mp hm
  exact of_decide_eq_true (find?_some (p := fun m : ThreadHdr => m.key = key) hm)

/-- The headers of rows whose keys are in the database. -/
theorem viewRows_columns (hrows : ∀ row ∈ rows, (db.getMsgHdrForKey row.key).isSome) :
    viewRows db (columns rows) = rows.map fun row => ⟨hdrOf db row.key, row.level⟩ := by
  rw [viewRows, columns, zip_map', filterMap_map]
  refine (filterMap_congr fun row hrow => ?_).trans (congrFun filterMap_eq_map rows)
  obtain ⟨m, hm⟩ := Option.isSome_iff_exists.mp (hrows row hrow)
  simp only [Function.comp_apply, hm, hdrOf_eq hm, Option.map_some]

theorem isThread_viewRows (hrows : ∀ row ∈ rows, (db.getMsgHdrForKey row.key).isSome) {i : ℕ} :
    IsThread (viewRows db (columns rows)) i ↔ ∃ row, rows[i]? = some row ∧ row.level = 0 := by
  rw [viewRows_columns hrows, IsThread, getElem?_map]
  constructor
  · rintro ⟨viewRow, hrow, hlevel⟩
    obtain ⟨row, hrow', rfl⟩ := Option.map_eq_some_iff.mp hrow
    exact ⟨row, hrow', hlevel⟩
  · rintro ⟨row, hrow, hlevel⟩
    exact ⟨_, Option.map_eq_some_iff.mpr ⟨row, hrow, rfl⟩, hlevel⟩

theorem bound_drop_iff {i : ℕ} (hi : i ≤ rows.length) : Bound isRoot (rows.drop i) ↔
    (∃ row, rows[i]? = some row ∧ row.level = 0) ∨ i = rows.length := by
  rw [Bound, head?_drop]
  cases hrow : rows[i]? with
  | none =>
    have hge := List.getElem?_eq_none_iff.mp hrow
    exact iff_of_true (fun row hrow => by cases hrow) (.inr (Nat.le_antisymm hi hge))
  | some row =>
    have hlt := (List.getElem?_eq_some_iff.mp hrow).1
    constructor
    · exact fun h => .inl ⟨row, rfl, of_decide_eq_true (h row rfl)⟩
    · rintro (⟨row', hrow', hlevel⟩ | rfl) row'' hrow''
      · cases hrow'
        cases hrow''
        exact decide_eq_true hlevel
      · exact absurd hlt (Nat.lt_irrefl _)

theorem getInsertIndex_eq (hrows : ∀ row ∈ rows, (db.getMsgHdrForKey row.key).isSome) :
    view.getInsertIndex db (columns rows) m =
      getIndexForThread view.sort (viewRows db (columns rows)) m.hdr := by
  rw [getInsertIndex, getSize_columns]
  split_ifs with hempty
  · obtain rfl := length_eq_zero_iff.mp hempty
    rw [getIndexForThread]
    cases getFieldTypeForSort view.sort.m_sortType view.sort.curColumnHandler with
    | none => rfl
    | some fieldType => rfl
  · rfl

/-- The new place is at the first row of a thread or at the end.  There, a message keeps a sorted
view sorted if the search is not led astray. -/
theorem getInsertIndex_spec (hrows : ∀ row ∈ rows, (db.getMsgHdrForKey row.key).isSome)
    (hfirst : Bound isRoot rows) (hnew : ∀ row ∈ rows, hdrOf db row.key ≠ m.hdr) :
    ∃ p, view.getInsertIndex db (columns rows) m = some p ∧ p ≤ rows.length ∧
      Bound isRoot (rows.drop p) ∧ ∀ fieldType,
        getFieldTypeForSort view.sort.m_sortType view.sort.curColumnHandler = some fieldType →
        Sorted view.sort fieldType view.sort.m_sortType view.sort.m_sortOrder
          (threads (viewRows db (columns rows))) →
        (Sorted view.sort fieldType view.sort.m_sortType view.sort.m_sortOrder
            (threads ((viewRows db (columns rows)).insertIdx p ⟨m.hdr, 0⟩)) ↔
          Untied view.sort fieldType view.sort.m_sortType view.sort.m_sortOrder
            (threadTry (viewRows db (columns rows))) (threadBehind (viewRows db (columns rows)))
            (viewRows db (columns rows)) m.hdr) := by
  have hlength : (viewRows db (columns rows)).length = rows.length := by
    rw [viewRows_columns hrows, length_map]
  rw [getInsertIndex_eq hrows, getIndexForThread]
  cases hfield : getFieldTypeForSort view.sort.m_sortType view.sort.curColumnHandler with
  | none =>
    refine ⟨rows.length, congrArg some hlength, le_rfl, ?_, fun fieldType h => by cases h⟩
    exact (bound_drop_iff le_rfl).mpr (.inr rfl)
  | some fieldType =>
    have hzero : IsThread (viewRows db (columns rows)) 0 ∨
        0 = (viewRows db (columns rows)).length := by
      rw [isThread_viewRows hrows, hlength]
      exact (bound_drop_iff (Nat.zero_le _)).mp hfirst
    have hnew' : ∀ row ∈ viewRows db (columns rows), row.hdr ≠ m.hdr := fun viewRow hrow => by
      rw [viewRows_columns hrows] at hrow
      obtain ⟨row, hrow', rfl⟩ := mem_map.mp hrow
      exact hnew row hrow'
    obtain ⟨p, hsearch, hp⟩ := @bisect_bound _ _
      (compareAt view.sort fieldType view.sort.m_sortType view.sort.m_sortOrder
        (viewRows db (columns rows)) m.hdr) _ _ _ _
      (stops_threads (viewRows db (columns rows))) hzero (.inr rfl) (Nat.zero_le _) _
      (Nat.lt_succ_self (viewRows db (columns rows)).length)
    have hple : p ≤ rows.length := by
      rcases hp with hp | rfl
      · exact hlength ▸ hp.lt_length.le
      · exact hlength.le
    refine ⟨p, (getIndexForThreadLoop_eq hnew' hzero (.inr rfl) _).trans hsearch, hple, ?_, ?_⟩
    · rw [isThread_viewRows hrows, hlength] at hp
      exact (bound_drop_iff hple).mpr hp
    · intro fieldType' hfield' hsorted
      cases hfield'
      obtain ⟨p', hsearch', -, hiff⟩ := bisect_sorted_iff (stops_threads _) hzero hsorted
      obtain rfl := Option.some.inj (hsearch.symm.trans hsearch')
      exact hiff

end Place

/-! ## The move -/

/-- `AddHdr` refuses a message of a thread. -/
def refuses {κ : Type*} (view : ThreadedView κ) (t : MsgThread) (m : ThreadHdr) : Bool :=
  !view.showIgnored && (t.ignored || t.isKilled m)

section Move

variable {κ : Type*} {view : ThreadedView κ} {db : MsgDatabase} {rows pre kids post : List Row}
  {i : ℕ} {root : Row} {t : MsgThread} {m : ThreadHdr}

/-- The steps of `MoveThreadAt`. -/
theorem moveThreadAt_steps (hroot : rows[i]? = some root)
    (ht : db.getThreadContaining root.key = some t) (hm : t.getChild root.key = some m) :
    view.moveThreadAt db (columns rows) i =
      (view.addHdr db (removeByIndex (if !root.flags.elided then
        collapseByIndex db (columns rows) i else columns rows) i) t m).bind fun added =>
        let newIndex := added.2.or (findHdr added.1 m.key)
        some ((if !root.flags.elided then
          added.1.insertElementsAt ((newIndex.map (· + 1)).getD 0)
            (childRows (columns rows) i) else added.1).setFlags
          (newIndex.getD 0) root.flags) := by
  have hflags : (columns rows).m_flags[i]? = some root.flags := by
    rw [columns_flags_getElem?, hroot]
    rfl
  have hkey : (columns rows).m_keys[i]? = some root.key := by
    rw [columns_keys_getElem?, hroot]
    rfl
  rw [moveThreadAt]
  simp only [hflags, hkey, ht, hm, Option.bind_eq_bind, Option.bind_some]

/-- A thread that is not refused is put at its new place. -/
theorem moveThreadAt_adds (ht : db.getThreadContaining root.key = some t)
    (hm : t.getChild root.key = some m) (hadds : refuses view t m = false)
    (hlevel : root.level = 0) (hkids : ∀ row ∈ kids, row.isRoot = false)
    (hpost : Bound isRoot post) (helided : root.flags.elided = true → kids = [])
    (hchildren : kids = [] ∨ root.flags.hasChildren = true) {p : ℕ}
    (hp : p ≤ (pre ++ post).length)
    (hplace : view.getInsertIndex db (columns (pre ++ post)) m = some p) :
    view.moveThreadAt db (columns (pre ++ (root :: kids ++ post))) pre.length =
      some (columns ((pre ++ post).take p ++ (root :: kids ++ (pre ++ post).drop p))) := by
  have hroot : (pre ++ (root :: kids ++ post))[pre.length]? = some root :=
    getElem?_middle pre root (kids ++ post)
  have hkey : m.key = root.key :=
    key_of_getMsgHdrForKey (Option.bind_eq_some_iff.mpr ⟨t, ht, hm⟩)
  have hlength : ((pre ++ post).take p).length = p := length_take_of_le hp
  have hnone : (if root.flags.hasChildren then [] else kids) = [] := by
    rcases hchildren with rfl | hflag
    · exact ite_self _
    · rw [hflag]
      rfl
  rw [moveThreadAt_steps hroot ht hm, remove_thread hlevel hkids hpost helided, hnone,
    List.nil_append, childRows_columns hkids hpost]
  generalize pre ++ post = others at hp hplace hlength ⊢
  obtain ⟨flags, hadded⟩ : ∃ flags, view.addHdr db (columns others) t m =
      some (columns (others.take p ++ ⟨root.key, flags, 0⟩ :: others.drop p), some p) := by
    refine ⟨if m.threadParent = none then { RowFlags.ofHdr m.hdr with isThread := true }
      else RowFlags.ofHdr m.hdr, ?_⟩
    have hinsert := insertMsgHdrAt_columns (others.take p) (others.drop p) root.key
      (if m.threadParent = none then { RowFlags.ofHdr m.hdr with isThread := true }
        else RowFlags.ofHdr m.hdr) 0
    rw [take_append_drop, hlength] at hinsert
    rw [refuses] at hadds
    rw [addHdr, hadds, hplace, hkey]
    exact congrArg (fun a => some (a, some p)) hinsert
  rw [hadded]
  have hresult : ∀ kids : List Row, (columns (others.take p ++ ⟨root.key, flags, 0⟩ ::
      (kids ++ others.drop p))).setFlags p root.flags =
        columns (others.take p ++ (root :: kids ++ others.drop p)) := fun kids => by
    have hset := setFlags_columns (others.take p) ⟨root.key, flags, 0⟩ (kids ++ others.drop p)
      root.flags
    rw [hlength, ← hlevel] at hset
    rw [← hlevel]
    exact hset
  cases hflag : root.flags.elided with
  | true =>
    rw [helided hflag]
    exact congrArg some (hresult [])
  | false =>
    have hinsert := insertElementsAt_columns (others.take p ++ [⟨root.key, flags, 0⟩]) kids
      (others.drop p)
    rw [length_append, hlength] at hinsert
    simp only [append_assoc, singleton_append, length_singleton] at hinsert
    refine congrArg some ((congrArg (fun a : ViewArrays => a.setFlags p root.flags) ?_).trans
      (hresult kids))
    exact hinsert

theorem insertElementsAt_keys_perm (a b : ViewArrays) (index : ℕ) :
    (a.insertElementsAt index b).m_keys.Perm (b.m_keys ++ a.m_keys) := by
  have h := perm_append_comm_assoc (a.m_keys.take index) b.m_keys (a.m_keys.drop index)
  rw [take_append_drop, ← append_assoc] at h
  exact h

section

variable (ht : db.getThreadContaining root.key = some t) (hm : t.getChild root.key = some m)

include ht hm

/-- The keys that are there when `AddHdr` is done. -/
theorem moveThreadAt_keys (hlevel : root.level = 0) (hkids : ∀ row ∈ kids, row.isRoot = false)
    (hpost : Bound isRoot post) (helided : root.flags.elided = true → kids = [])
    {a : ViewArrays}
    (hmove : view.moveThreadAt db (columns (pre ++ (root :: kids ++ post))) pre.length = some a) :
    ∃ added, view.addHdr db
        (columns (pre ++ ((if root.flags.hasChildren then [] else kids) ++ post))) t m =
          some added ∧
      a.m_keys.Perm (kids.map key ++ added.1.m_keys) := by
  have hroot : (pre ++ (root :: kids ++ post))[pre.length]? = some root :=
    getElem?_middle pre root (kids ++ post)
  rw [moveThreadAt_steps hroot ht hm, remove_thread hlevel hkids hpost helided,
    childRows_columns hkids hpost] at hmove
  obtain ⟨added, hadded, ha⟩ := Option.bind_eq_some_iff.mp hmove
  refine ⟨added, hadded, ?_⟩
  obtain rfl := Option.some.inj ha
  cases hflag : root.flags.elided with
  | true =>
    rw [helided hflag]
    exact List.Perm.refl _
  | false => exact insertElementsAt_keys_perm added.1 (columns kids) _

theorem moveThreadAt_refused (hrefuses : refuses view t m = true) (hlevel : root.level = 0)
    (hkids : ∀ row ∈ kids, row.isRoot = false) (hpost : Bound isRoot post)
    (helided : root.flags.elided = true → kids = [])
    (hnew : ∀ row ∈ pre ++ (kids ++ post), row.key ≠ root.key) {a : ViewArrays}
    (hmove : view.moveThreadAt db (columns (pre ++ (root :: kids ++ post))) pre.length = some a) :
    root.key ∉ a.m_keys := by
  obtain ⟨added, hadded, hperm⟩ := moveThreadAt_keys ht hm hlevel hkids hpost helided hmove
  rw [refuses] at hrefuses
  rw [addHdr, hrefuses] at hadded
  obtain rfl := Option.some.inj hadded
  rw [hperm.mem_iff, mem_append, not_or]
  constructor
  · intro hkey
    obtain ⟨row, hrow, heq⟩ := mem_map.mp hkey
    exact hnew row (mem_append_right _ (mem_append_left _ hrow)) heq
  · intro hkey
    obtain ⟨row, hrow, heq⟩ := mem_map.mp hkey
    refine hnew row ?_ heq
    split at hrow
    · exact (((sublist_append_right kids post).append_left pre).mem hrow)
    · exact hrow

end

/-- `AddHdr` keeps the keys. -/
theorem mem_addHdr {a : ViewArrays} {added : ViewArrays × Option ℕ}
    (hadded : view.addHdr db a t m = some added) {key : ℕ} (hkey : key ∈ a.m_keys) :
    key ∈ added.1.m_keys := by
  rw [addHdr] at hadded
  split at hadded
  · obtain rfl := Option.some.inj hadded
    exact hkey
  · obtain ⟨index, -, rfl⟩ := Option.map_eq_some_iff.mp hadded
    rw [insertMsgHdrAt]
    split
    · exact hkey
    · rw [(insertElementsAt_keys_perm a _ index).mem_iff]
      exact mem_append_right _ hkey

/-- Without the flag for children, the rows below the first one are there twice. -/
theorem moveThreadAt_noChildren (ht : db.getThreadContaining root.key = some t)
    (hm : t.getChild root.key = some m) (hlevel : root.level = 0)
    (hkids : ∀ row ∈ kids, row.isRoot = false) (hpost : Bound isRoot post)
    (helided : root.flags.elided = true → kids = []) (hchildren : root.flags.hasChildren = false)
    (hne : kids ≠ []) {a : ViewArrays}
    (hmove : view.moveThreadAt db (columns (pre ++ (root :: kids ++ post))) pre.length = some a) :
    ¬ a.m_keys.Nodup := by
  obtain ⟨added, hadded, hperm⟩ := moveThreadAt_keys ht hm hlevel hkids hpost helided hmove
  obtain ⟨kid, hkid⟩ := exists_mem_of_ne_nil kids hne
  rw [hperm.nodup_iff]
  intro hnodup
  refine disjoint_of_nodup_append hnodup (mem_map_of_mem hkid) (mem_addHdr hadded ?_)
  rw [hchildren]
  refine mem_map_of_mem ?_
  exact mem_append_right _ (mem_append_left _ hkid)

/-! ## When the rows are permuted -/

variable (view db rows i)

def RowsSorted (fieldType : FieldType) : Prop :=
  Sorted view.sort fieldType view.sort.m_sortType view.sort.m_sortOrder
    (threads (viewRows db (columns rows)))

/-- `MoveThreadAt` permutes the rows, keeps each thread together and in its order, and leaves the
view sorted if the other threads are. -/
def MovesThread : Prop :=
  ∃ rows', view.moveThreadAt db (columns rows) i = some (columns rows') ∧ rows'.Perm rows ∧
    (∀ s, IsSection Row.isRoot rows s → s <:+: rows') ∧
    ∀ fieldType,
      getFieldTypeForSort view.sort.m_sortType view.sort.curColumnHandler = some fieldType →
      RowsSorted view db (otherRows rows i) fieldType → RowsSorted view db rows' fieldType

/-- The search for the new place of a message is not led astray by equal fields. -/
def FindsPlace (key : ℕ) : Prop :=
  ∀ fieldType,
    getFieldTypeForSort view.sort.m_sortType view.sort.curColumnHandler = some fieldType →
    RowsSorted view db (otherRows rows i) fieldType →
      let others := viewRows db (columns (otherRows rows i))
      Untied view.sort fieldType view.sort.m_sortType view.sort.m_sortOrder (threadTry others)
        (threadBehind others) others (hdrOf db key)

variable {view db rows i}

theorem threads_viewRows (hrows : ∀ row ∈ rows, (db.getMsgHdrForKey row.key).isSome) :
    threads (viewRows db (columns rows)) =
      (rows.filter isRoot).map fun row => hdrOf db row.key := by
  rw [viewRows_columns hrows, threads, filter_map, map_map]
  rfl

theorem threads_insertIdx {viewRows : List ViewRow} {p : ℕ} {hdr : MsgDBHdr}
    (hp : p ≤ viewRows.length) : threads (viewRows.insertIdx p ⟨hdr, 0⟩) =
      threads (viewRows.take p) ++ hdr :: threads (viewRows.drop p) := by
  rw [Comparator.insertIdx_eq viewRows _ hp, threads_append]
  rfl

theorem threads_put {others : List Row} {p : ℕ} (hp : p ≤ others.length)
    (hheaded : Headed isRoot root kids)
    (hothers : ∀ row ∈ others, (db.getMsgHdrForKey row.key).isSome)
    (hthread : ∀ row ∈ root :: kids, (db.getMsgHdrForKey row.key).isSome) :
    threads (viewRows db (columns (others.take p ++ (root :: kids ++ others.drop p)))) =
      threads ((viewRows db (columns others)).insertIdx p ⟨hdrOf db root.key, 0⟩) := by
  have hall : ∀ row ∈ others.take p ++ (root :: kids ++ others.drop p),
      (db.getMsgHdrForKey row.key).isSome := fun row hrow => by
    rcases mem_append.mp hrow with hrow | hrow
    · exact hothers row (mem_of_mem_take hrow)
    · rcases mem_append.mp hrow with hrow | hrow
      · exact hthread row hrow
      · exact hothers row (mem_of_mem_drop hrow)
  have hkids : kids.filter isRoot = [] :=
    filter_eq_nil_iff.mpr fun row hrow => by simp [hheaded.others row hrow]
  have htake := threads_viewRows fun row hrow => hothers row (mem_of_mem_take (i := p) hrow)
  have hdrop := threads_viewRows fun row hrow => hothers row (mem_of_mem_drop (i := p) hrow)
  rw [viewRows_columns fun row hrow => hothers row (mem_of_mem_take hrow)] at htake
  rw [viewRows_columns fun row hrow => hothers row (mem_of_mem_drop hrow)] at hdrop
  rw [threads_insertIdx (by rw [viewRows_columns hothers, length_map]; exact hp),
    threads_viewRows hall, viewRows_columns hothers, ← map_take, ← map_drop, htake, hdrop,
    filter_append, cons_append, filter_cons_of_pos hheaded.first,
    filter_append, hkids, List.nil_append, map_append, map_cons]

theorem rowsBelow_of_elided (hview : RowsConsistent (columns rows)) (hroot : rows[i]? = some root)
    (helided : root.flags.elided = true) : rowsBelow rows i = [] := by
  have hflags : (columns rows).m_flags[i]? = some root.flags := by
    rw [columns_flags_getElem?, hroot]
    rfl
  rw [rowsBelow]
  cases hdrop : rows.drop (i + 1) with
  | nil => rfl
  | cons row rest =>
    have hrow : rows[i + 1]? = some row := by
      rw [← head?_drop, hdrop]
      rfl
    have hzero := hview.elided i root.flags hflags helided row.level (by
      rw [columns_levels_getElem?, hrow]
      rfl)
    exact takeWhile_cons_of_neg (by simp [isRoot, hzero])

/-- The first row is that of a thread, without another thread, too. -/
theorem bound_others (hview : RowsConsistent (columns (pre ++ (root :: kids ++ post))))
    (hpost : Bound isRoot post) : Bound isRoot (pre ++ post) := by
  cases pre with
  | nil => exact hpost
  | cons row pre => exact bound_cons (decide_eq_true (hview.first row.level rfl))

/-- In a consistent view of a database, `MoveThreadAt` of an expanded or collapsed thread permutes
the rows, keeps the threads and leaves the view sorted if and only if `AddHdr` does not refuse the
message, the first row has the flag for children when there are rows below it, and the search for
the new place is not led astray. -/
theorem moveThreadAt_iff (hview : RowsConsistent (columns rows))
    (hrows : ∀ row ∈ rows, (db.getMsgHdrForKey row.key).isSome) (hroot : rows[i]? = some root)
    (hlevel : root.level = 0) (ht : db.getThreadContaining root.key = some t)
    (hm : t.getChild root.key = some m) :
    MovesThread view db rows i ↔
      refuses view t m = false ∧
        (rowsBelow rows i = [] ∨ root.flags.hasChildren = true) ∧
        FindsPlace view db rows i root.key := by
  obtain ⟨pre, post, rfl, hsplit, hothers, hpost⟩ := split_at_thread hroot
  have hheaded := @headed_rowsBelow rows pre.length root hlevel
  have helided := rowsBelow_of_elided hview hroot
  rw [MovesThread, FindsPlace, hothers]
  generalize rowsBelow rows pre.length = kids at *
  subst hsplit
  have hfirst := bound_others hview hpost
  have hothersrows : ∀ row ∈ pre ++ post, (db.getMsgHdrForKey row.key).isSome := fun row hrow =>
    hrows row (((sublist_append_right (root :: kids) post).append_left pre).mem hrow)
  have hmhdr : hdrOf db root.key = m.hdr := hdrOf_eq (Option.bind_eq_some_iff.mpr ⟨t, ht, hm⟩)
  have hnew : ∀ row ∈ pre ++ (kids ++ post), row.key ≠ root.key := by
    have hnodup := hview.nodup
    rw [columns, map_append] at hnodup
    have hnotMem := (nodup_middle.mp hnodup).notMem
    rw [← map_append] at hnotMem
    exact fun row hrow heq => hnotMem (mem_map.mpr ⟨row, hrow, heq⟩)
  have hnewhdr : ∀ row ∈ pre ++ post, hdrOf db row.key ≠ m.hdr := fun row hrow heq => by
    obtain ⟨other, hother⟩ := Option.isSome_iff_exists.mp (hothersrows row hrow)
    rw [hdrOf_eq hother] at heq
    refine hnew row (((sublist_append_right kids post).append_left pre).mem hrow) ?_
    have hkey : other.key = m.key := congrArg MsgDBHdr.messageKey heq
    rw [← key_of_getMsgHdrForKey hother, hkey]
    exact key_of_getMsgHdrForKey (Option.bind_eq_some_iff.mpr ⟨t, ht, hm⟩)
  obtain ⟨p, hplace, hp, hbound, hsorted⟩ :=
    @getInsertIndex_spec _ view db (pre ++ post) m hothersrows hfirst hnewhdr
  -- the rows that a thread which is not refused leads to
  have hadds : refuses view t m = false → (kids = [] ∨ root.flags.hasChildren = true) →
      view.moveThreadAt db (columns (pre ++ (root :: kids ++ post))) pre.length =
        some (columns ((pre ++ post).take p ++ (root :: kids ++ (pre ++ post).drop p))) :=
    fun hrefuses hchildren => moveThreadAt_adds ht hm hrefuses hlevel hheaded.others hpost helided
      hchildren hp hplace
  have hput := threads_put hp hheaded hothersrows fun row hrow =>
    hrows row (mem_append_right _ (mem_append_left _ hrow))
  rw [hmhdr] at hput ⊢
  constructor
  · rintro ⟨rows', hmove, hperm, -, hsort⟩
    have hrefuses : refuses view t m = false := by
      rw [← Bool.not_eq_true]
      intro hrefuses
      refine moveThreadAt_refused ht hm hrefuses hlevel hheaded.others hpost helided hnew hmove ?_
      exact mem_map_of_mem (hperm.mem_iff.mpr (mem_append_right _ mem_cons_self))
    have hchildren : kids = [] ∨ root.flags.hasChildren = true := by
      by_contra hnot
      obtain ⟨hne, hflag⟩ := not_or.mp hnot
      refine moveThreadAt_noChildren ht hm hlevel hheaded.others hpost helided
        (Bool.not_eq_true _ ▸ hflag) hne hmove ?_
      exact ((hperm.map key).nodup_iff).mpr hview.nodup
    refine ⟨hrefuses, hchildren, fun fieldType hfield hothersorted => ?_⟩
    have hsame := Option.some.inj (hmove.symm.trans (hadds hrefuses hchildren))
    refine (hsorted fieldType hfield hothersorted).mp ?_
    have hrows' := hsort fieldType hfield hothersorted
    rw [RowsSorted, hsame, hput] at hrows'
    exact hrows'
  · rintro ⟨hrefuses, hchildren, hfinds⟩
    refine ⟨_, hadds hrefuses hchildren, ?_, fun s hs => ?_, ?_⟩
    · refine (perm_append_comm_assoc _ _ _).trans ?_
      rw [take_append_drop]
      exact perm_append_comm_assoc _ _ _
    · exact (hs.move hheaded hpost hbound (take_append_drop p _)).isInfix
    · intro fieldType hfield hothersorted
      rw [RowsSorted, hput]
      exact (hsorted fieldType hfield hothersorted).mpr (hfinds fieldType hfield hothersorted)

end Move

/-! ## Threads of some sizes -/

/-- A view that is sorted by size, and does not show what is ignored. -/
def sizeThreads : ThreadedView ℕ where
  sort := sizeView
  unreadOnly := false
  showIgnored := false
  wantsThisThread _ := true
  columnsMissing := false
  sortRows _ rows := rows
  sortRows_perm _ _ := .refl _

def parentRow (key : ℕ) : Row :=
  ⟨key, { ViewArrays.noFlags with hasChildren := true, isThread := true }, 0⟩

/-- A thread of the messages 1 and 2 is larger than one of the message 3. -/
def twoThreads : MsgDatabase :=
  [⟨[⟨sizedMsg 1 30, none⟩, ⟨sizedMsg 2 5, some 1⟩], 1, false⟩, ⟨[⟨sizedMsg 3 20, none⟩], 3, false⟩]

/-- The rows of both, the larger one first. -/
def twoThreadsRows : List Row :=
  [parentRow 1, ⟨2, ViewArrays.noFlags, 1⟩, ⟨3, ViewArrays.noFlags, 0⟩]

theorem twoThreadsRows_consistent : RowsConsistent (columns twoThreadsRows) where
  flags_length := rfl
  levels_length := rfl
  first level hlevel := (Option.some.inj hlevel).symm
  nodup := by decide
  elided i flags hflags helided := by
    have hmem : flags ∈ (columns twoThreadsRows).m_flags := mem_of_getElem? hflags
    have hnone : ∀ flags ∈ (columns twoThreadsRows).m_flags, flags.elided = false := by decide
    rw [hnone flags hmem] at helided
    cases helided

/-- The larger thread is moved. -/
theorem moveThreadAt_twoThreads :
    MovesThread sizeThreads twoThreads twoThreadsRows 0 ↔
      refuses sizeThreads ⟨[⟨sizedMsg 1 30, none⟩, ⟨sizedMsg 2 5, some 1⟩], 1, false⟩
          ⟨sizedMsg 1 30, none⟩ = false ∧
        (rowsBelow twoThreadsRows 0 = [] ∨ (parentRow 1).flags.hasChildren = true) ∧
        FindsPlace sizeThreads twoThreads twoThreadsRows 0 1 :=
  moveThreadAt_iff twoThreadsRows_consistent (by decide) rfl rfl rfl rfl

/-- An ignored thread of the messages 5 and 6. -/
def ignoredThread : MsgDatabase :=
  [⟨[⟨sizedMsg 5 10, none⟩, ⟨sizedMsg 6 10, some 5⟩], 5, true⟩]

def equalThreads : MsgDatabase :=
  [2, 3, 5, 7, 1].map fun key => ⟨[⟨sizedMsg key 0, none⟩], key, false⟩

/-- The first row of an ignored thread is lost.  And a thread of the same size as four others is
put among them where the view is not sorted. -/
theorem not_movesThread :
    ¬ MovesThread sizeThreads ignoredThread [parentRow 5, ⟨6, ViewArrays.noFlags, 1⟩] 0 ∧
      ¬ MovesThread sizeThreads equalThreads
        ([2, 3, 5, 7, 1].map fun key => ⟨key, ViewArrays.noFlags, 0⟩) 4 := by
  constructor
  · rintro ⟨rows', hmove, hperm, -, -⟩
    have hresult : sizeThreads.moveThreadAt ignoredThread
        (columns [parentRow 5, ⟨6, noFlags, 1⟩]) 0 =
          some ⟨[6], [(parentRow 5).flags], [1]⟩ := by decide
    have hkeys := congrArg m_keys (Option.some.inj (hresult.symm.trans hmove))
    have hlength := congrArg List.length hkeys
    rw [columns, length_map, hperm.length_eq] at hlength
    cases hlength
  · rintro ⟨rows', hmove, hperm, -, hsort⟩
    have hresult : sizeThreads.moveThreadAt equalThreads
        (columns ([2, 3, 5, 7, 1].map fun key => ⟨key, noFlags, 0⟩)) 4 =
          some (columns ([2, 3, 1, 5, 7].map fun key => ⟨key, noFlags, 0⟩)) := by decide
    have hsame := Option.some.inj (hresult.symm.trans hmove)
    have hothers : RowsSorted sizeThreads equalThreads
        (otherRows ([2, 3, 5, 7, 1].map fun key => ⟨key, noFlags, 0⟩) 4) .kU32 := by
      rw [RowsSorted, Sorted]
      decide
    have hrows := hsort .kU32 rfl hothers
    rw [RowsSorted, ← hsame, Sorted] at hrows
    exact absurd hrows (by decide)

end CommCentral.MsgView
