import Mathlib.Data.List.Nodup
import CommCentral.Search.BoolExpression

/-!
# The terms of a saved search, a mail view and a quick filter

`SearchSpec`, from `SearchSpec.jsm`.  Each of the three setters brings its list
of terms into a form in which it can stand behind other terms
(`groupifyTerms`): when a scan meets an OR outside of groups, or a group within
a group, the whole list is made one group (`flattenGroupifyTerms`).  The terms of
a virtual folder are cloned; the others belong to the setter and are changed in
place.  `updateSession` appends the lists.

Terms are objects, which have numbers.  What a term tests is one component here,
which a clone shares: attribute, operator, value, header, property and id.  The
views that are told of a change and the scopes of the session are left out.
-/

namespace CommCentral.Search

open List Function Nat

variable {α : Type*}

/-! ## Objects -/

/-- The objects of search terms. -/
structure TermHeap (α : Type*) where
  term : ℕ → SearchTerm α
  next : ℕ

namespace TermHeap

/-- An object is changed. -/
def set (h : TermHeap α) (r : ℕ) (t : SearchTerm α) : TermHeap α :=
  { h with term := Function.update h.term r t }

/-- `createTerm`, and the assignments of the members. -/
def createTerm (h : TermHeap α) (t : SearchTerm α) : ℕ × TermHeap α :=
  (h.next, ⟨Function.update h.term h.next t, h.next + 1⟩)

def read (h : TermHeap α) (rs : List ℕ) : List (SearchTerm α) := rs.map h.term

end TermHeap

/-! ## Regrouping -/

/-- A term at a place of the one group of `_flattenGroupifyTerms`. -/
def flattenTerm (iTerm : ℕ) (t : SearchTerm α) : SearchTerm α :=
  if iTerm = 0 then { t with beginsGrouping := true, endsGrouping := false, booleanAnd := true }
  else { t with beginsGrouping := false, endsGrouping := false }

/-- The loop of `_flattenGroupifyTerms`: the objects, `outTerms` and `term`. -/
def flattenLoop (aCloneTerms : Bool) :
    TermHeap α → ℕ → List ℕ → Option ℕ → List ℕ → TermHeap α × List ℕ × Option ℕ
  | h, _, outTerms, term, [] => (h, outTerms, term)
  | h, iTerm, outTerms, _, r :: rs =>
    let (r, h, outTerms) :=
      if aCloneTerms then
        let (cloneTerm, h) :=
          h.createTerm { h.term r with beginsGrouping := false, endsGrouping := false }
        (cloneTerm, h, outTerms ++ [cloneTerm])
      else (r, h, outTerms)
    flattenLoop aCloneTerms (h.set r (flattenTerm iTerm (h.term r))) (iTerm + 1) outTerms
      (some r) rs

def flattenGroupifyTerms (h : TermHeap α) (aTerms : List ℕ) (aCloneTerms : Bool) :
    TermHeap α × List ℕ :=
  let (h, outTerms, term) :=
    flattenLoop aCloneTerms h 0 (if aCloneTerms then [] else aTerms) none aTerms
  match term with
  | some term => (h.set term { h.term term with endsGrouping := true }, outTerms)
  | none => (h, outTerms)

/-- The loop of `_groupifyTerms`. -/
def groupifyLoop (aTerms : List ℕ) (aCloneTerms : Bool) :
    TermHeap α → Bool → List ℕ → List ℕ → TermHeap α × List ℕ
  | h, _, outTerms, [] => (h, outTerms)
  | h, inGroup, outTerms, r :: rs =>
    let term := h.term r
    -- a group within a group, or an OR outside of one
    if (if inGroup then term.beginsGrouping else !term.booleanAnd) then
      flattenGroupifyTerms h aTerms aCloneTerms
    else
      let inGroup := if inGroup then !term.endsGrouping else term.beginsGrouping
      if aCloneTerms then
        let (cloneTerm, h) := h.createTerm term
        groupifyLoop aTerms aCloneTerms h inGroup (outTerms ++ [cloneTerm]) rs
      else groupifyLoop aTerms aCloneTerms h inGroup outTerms rs

def groupifyTerms (h : TermHeap α) (aTerms : List ℕ) (aCloneTerms : Bool) :
    TermHeap α × List ℕ :=
  groupifyLoop aTerms aCloneTerms h false (if aCloneTerms then [] else aTerms) aTerms

/-! ## Setters -/

structure SearchSpec where
  virtualFolderTerms : Option (List ℕ)
  viewTerms : Option (List ℕ)
  userTerms : Option (List ℕ)

/-- Where the terms of a list come from. -/
inductive TermsOf where
  | virtualFolder
  | view
  | user
deriving DecidableEq

namespace SearchSpec

/-- `SearchSpec()`. -/
def new : SearchSpec := ⟨none, none, none⟩

def terms (s : SearchSpec) : TermsOf → Option (List ℕ)
  | .virtualFolder => s.virtualFolderTerms
  | .view => s.viewTerms
  | .user => s.userTerms

def withTerms (s : SearchSpec) (terms : Option (List ℕ)) : TermsOf → SearchSpec
  | .virtualFolder => { s with virtualFolderTerms := terms }
  | .view => { s with viewTerms := terms }
  | .user => { s with userTerms := terms }

def setTerms (of : TermsOf) (aCloneTerms : Bool) (h : TermHeap α) (s : SearchSpec)
    (aTerms : Option (List ℕ)) : TermHeap α × SearchSpec :=
  match aTerms with
  | some aTerms =>
    let (h, terms) := groupifyTerms h aTerms aCloneTerms
    (h, s.withTerms (some terms) of)
  | none => (h, s.withTerms none of)

def setViewTerms (h : TermHeap α) (s : SearchSpec) (aViewTerms : Option (List ℕ)) :
    TermHeap α × SearchSpec := setTerms .view false h s aViewTerms

def setVirtualFolderTerms (h : TermHeap α) (s : SearchSpec)
    (aVirtualFolderTerms : Option (List ℕ)) : TermHeap α × SearchSpec :=
  setTerms .virtualFolder true h s aVirtualFolderTerms

def setUserTerms (h : TermHeap α) (s : SearchSpec) (aUserTerms : Option (List ℕ)) :
    TermHeap α × SearchSpec := setTerms .user false h s aUserTerms

def setter : TermsOf → TermHeap α → SearchSpec → Option (List ℕ) → TermHeap α × SearchSpec
  | .virtualFolder => setVirtualFolderTerms
  | .view => setViewTerms
  | .user => setUserTerms

def setAll (terms : TermsOf → Option (List ℕ)) :
    List TermsOf → TermHeap α → SearchSpec → TermHeap α × SearchSpec
  | [], h, s => (h, s)
  | of :: order, h, s =>
    let (h, s) := setter of h s (terms of)
    setAll terms order h s

/-- The terms of the session after `updateSession`. -/
def updateSession (s : SearchSpec) : List ℕ :=
  s.virtualFolderTerms.getD [] ++ s.viewTerms.getD [] ++ s.userTerms.getD []

end SearchSpec

/-! ## Lists of terms -/

/-- The scan of `_groupifyTerms` calls for a flattening. -/
def flattens : Bool → List (SearchTerm α) → Bool
  | _, [] => false
  | inGroup, t :: ts =>
    if (if inGroup then t.beginsGrouping else !t.booleanAnd) then true
    else flattens (if inGroup then !t.endsGrouping else t.beginsGrouping) ts

def endLast : List (SearchTerm α) → List (SearchTerm α)
  | [] => []
  | [t] => [{ t with endsGrouping := true }]
  | t :: u :: ts => t :: endLast (u :: ts)

def flattened (ts : List (SearchTerm α)) : List (SearchTerm α) :=
  endLast (ts.mapIdx flattenTerm)

/-- A list after `_groupifyTerms`. -/
def groupified (ts : List (SearchTerm α)) : List (SearchTerm α) :=
  if flattens false ts then flattened ts else ts

theorem endLast_concat (ts : List (SearchTerm α)) (t : SearchTerm α) :
    endLast (ts ++ [t]) = ts ++ [{ t with endsGrouping := true }] := by
  induction ts with
  | nil => rfl
  | cons u ts ih =>
    cases ts with
    | nil => rfl
    | cons w ts =>
      exact congrArg (u :: ·) ih

/-! ## Objects that are read and changed -/

namespace TermHeap

variable {h h' h'' : TermHeap α} {r : ℕ} {rs rs' rs'' : List ℕ} {t : SearchTerm α}

theorem set_self : (h.set r t).term r = t := by
  change update h.term r t r = t
  rw [update_self]

theorem set_of_ne {q : ℕ} (hne : q ≠ r) : (h.set r t).term q = h.term q := by
  change update h.term r t q = h.term q
  rw [update_of_ne hne]

theorem createTerm_self : (h.createTerm t).2.term h.next = t := by
  change update h.term h.next t h.next = t
  rw [update_self]

theorem createTerm_of_lt {q : ℕ} (hq : q < h.next) :
    (h.createTerm t).2.term q = h.term q := by
  change update h.term h.next t q = h.term q
  rw [update_of_ne (Nat.ne_of_lt hq)]

theorem read_congr (hsame : ∀ r ∈ rs, h'.term r = h.term r) : h'.read rs = h.read rs :=
  map_congr_left hsame

theorem read_set (hr : r ∉ rs) : (h.set r t).read rs = h.read rs :=
  read_congr fun _ hq => set_of_ne fun heq => hr (heq ▸ hq)

/-- What a list of objects is replaced by: new objects that nothing else has, or, when they are
not cloned, only these objects. -/
structure Replaced (aCloneTerms : Bool) (h : TermHeap α) (rs : List ℕ) (h' : TermHeap α)
    (rs' : List ℕ) : Prop where
  next : h.next ≤ h'.next
  frame : ∀ r < h.next, (aCloneTerms = false → r ∉ rs) → h'.term r = h.term r
  nodup : rs'.Nodup
  below : ∀ r ∈ rs', r < h'.next
  /-- They are new, or they have been in the list. -/
  place : ∀ r ∈ rs', if aCloneTerms then h.next ≤ r else r ∈ rs

end TermHeap

open TermHeap

variable {h : TermHeap α} {rs : List ℕ}

theorem flattenTerm_mapIdx_cons (i : ℕ) (t : SearchTerm α) (ts : List (SearchTerm α)) :
    (t :: ts).mapIdx (fun j => flattenTerm (i + j)) =
      flattenTerm i t :: ts.mapIdx fun j => flattenTerm (i + 1 + j) := by
  rw [mapIdx_cons]
  congr 2
  funext j
  rw [Nat.add_assoc, Nat.add_comm 1 j]

theorem flattenTerm_plain (i : ℕ) (t : SearchTerm α) :
    flattenTerm i t = flattenTerm i { t with beginsGrouping := false, endsGrouping := false } := by
  cases i with
  | zero => rfl
  | succ i => rfl

theorem flattenLoop_share (hnodup : rs.Nodup) (h : TermHeap α) (i : ℕ) (out : List ℕ)
    (last : Option ℕ) :
    ∃ h', flattenLoop false h i out last rs = (h', out, rs.getLast?.or last) ∧
      h'.next = h.next ∧ (∀ r, r ∉ rs → h'.term r = h.term r) ∧
      h'.read rs = (h.read rs).mapIdx fun j => flattenTerm (i + j) := by
  induction rs generalizing h i last with
  | nil => exact ⟨h, rfl, rfl, fun _ _ => rfl, rfl⟩
  | cons r rs ih =>
    obtain ⟨hr, hrest⟩ := nodup_cons.mp hnodup
    obtain ⟨h', hrun, hnext, hframe, hread⟩ :=
      ih hrest (h.set r (flattenTerm i (h.term r))) (i + 1) (some r)
    refine ⟨h', ?_, hnext, ?_, ?_⟩
    · rw [flattenLoop, if_neg Bool.false_ne_true]
      dsimp only
      rw [hrun, getLast?_cons]
      cases rs.getLast? with
      | none => rfl
      | some q => rfl
    · intro q hq
      rw [hframe q fun hmem => hq (mem_cons_of_mem r hmem)]
      exact set_of_ne fun heq => hq (heq ▸ mem_cons_self)
    · rw [read_set hr] at hread
      rw [TermHeap.read, TermHeap.read, map_cons, map_cons, flattenTerm_mapIdx_cons,
        hframe r hr, set_self]
      exact congrArg _ hread

theorem flattenLoop_clone (h : TermHeap α) (hrs : ∀ r ∈ rs, r < h.next) (i : ℕ) (out : List ℕ)
    (last : Option ℕ) :
    ∃ h', flattenLoop true h i out last rs =
        (h', out ++ range' h.next rs.length,
          (range' h.next rs.length).getLast?.or last) ∧
      h'.next = h.next + rs.length ∧ (∀ r < h.next, h'.term r = h.term r) ∧
      h'.read (range' h.next rs.length) =
        (h.read rs).mapIdx fun j => flattenTerm (i + j) := by
  induction rs generalizing h i out last with
  | nil => exact ⟨h, by rw [length_nil, range'_zero, append_nil]; rfl, rfl,
      fun _ _ => rfl, rfl⟩
  | cons r rs ih =>
    let t : SearchTerm α := { h.term r with beginsGrouping := false, endsGrouping := false }
    let h₁ : TermHeap α := ((h.createTerm t).2.set h.next (flattenTerm i t))
    have hframe₁ : ∀ q < h.next, h₁.term q = h.term q := by
      intro q hq
      rw [set_of_ne (Nat.ne_of_lt hq), createTerm_of_lt hq]
    have hrs₁ : ∀ q ∈ rs, q < h.next := fun q hq => hrs q (mem_cons_of_mem r hq)
    obtain ⟨h', hrun, hnext, hframe, hread⟩ :=
      ih h₁ (fun q hq => lt_succ_of_lt (hrs₁ q hq)) (i + 1) (out ++ [h.next]) (some h.next)
    refine ⟨h', ?_, ?_, ?_, ?_⟩
    · rw [flattenLoop]
      change flattenLoop true ((h.createTerm t).2.set h.next
        (flattenTerm i ((h.createTerm t).2.term h.next))) (i + 1) (out ++ [h.next])
        (some h.next) rs = _
      rw [createTerm_self, hrun, length_cons, range'_succ, append_assoc,
        getLast?_cons]
      change _ = (h', _, (some ((range' h₁.next rs.length).getLast?.getD h.next)).or last)
      cases (range' h₁.next rs.length).getLast? with
      | none => rfl
      | some q => rfl
    · rw [hnext]
      exact succ_add_eq_add_succ h.next rs.length
    · intro q hq
      rw [hframe q (lt_succ_of_lt hq), hframe₁ q hq]
    · have hself : h'.term h.next = flattenTerm i (h.term r) := by
        rw [hframe h.next (lt_succ_self h.next), set_self]
        exact (flattenTerm_plain i (h.term r)).symm
      rw [read_congr (h := h) fun q hq => hframe₁ q (hrs₁ q hq)] at hread
      rw [length_cons, range'_succ, TermHeap.read, TermHeap.read, map_cons,
        map_cons, flattenTerm_mapIdx_cons, hself]
      exact congrArg _ hread

theorem read_set_endLast {r : ℕ} (hnodup : rs.Nodup) (hlast : rs.getLast? = some r) :
    (h.set r { h.term r with endsGrouping := true }).read rs = endLast (h.read rs) := by
  obtain ⟨front, rfl⟩ := getLast?_eq_some_iff.mp hlast
  have hr : r ∉ front := fun hmem =>
    (nodup_append.mp hnodup).2.2 r hmem r (mem_singleton_self r) rfl
  have hfront := read_set (h := h) (t := { h.term r with endsGrouping := true }) hr
  rw [TermHeap.read] at hfront
  rw [TermHeap.read, TermHeap.read, map_append, map_append, map_singleton,
    map_singleton, endLast_concat, hfront, set_self]
  rfl

theorem mapIdx_flattenTerm (ts : List (SearchTerm α)) :
    (ts.mapIdx fun j => flattenTerm (0 + j)) = ts.mapIdx flattenTerm := by
  congr 1
  funext j
  rw [Nat.zero_add]

theorem flattenGroupifyTerms_spec (aCloneTerms : Bool) (hnodup : aCloneTerms = false → rs.Nodup)
    (hrs : ∀ r ∈ rs, r < h.next) :
    ∃ h' rs', flattenGroupifyTerms h rs aCloneTerms = (h', rs') ∧
      Replaced aCloneTerms h rs h' rs' ∧ h'.read rs' = flattened (h.read rs) := by
  cases aCloneTerms with
  | false =>
    have hnodup := hnodup rfl
    obtain ⟨h', hrun, hnext, hframe, hread⟩ := flattenLoop_share hnodup h 0 rs none
    rw [mapIdx_flattenTerm] at hread
    rw [flattenGroupifyTerms, if_neg Bool.false_ne_true, hrun]
    cases hlast : rs.getLast? with
    | none =>
      obtain rfl := getLast?_eq_none_iff.mp hlast
      exact ⟨h', [], rfl, ⟨Nat.le_of_eq hnext.symm, fun r _ hr => hframe r (hr rfl),
        nodup_nil, fun _ hmem => (not_mem_nil hmem).elim,
        fun _ hmem => (not_mem_nil hmem).elim⟩, rfl⟩
    | some r =>
      have hmem : r ∈ rs := mem_of_getLast? hlast
      refine ⟨_, rs, rfl, ⟨Nat.le_of_eq hnext.symm, ?_, hnodup, ?_, fun _ => id⟩, ?_⟩
      · intro q _ hq
        have hne : q ≠ r := fun heq => hq rfl (heq.symm ▸ hmem)
        rw [set_of_ne hne, hframe q (hq rfl)]
      · intro q hq
        exact hnext ▸ hrs q hq
      · rw [read_set_endLast hnodup hlast, hread, flattened]
  | true =>
    obtain ⟨h', hrun, hnext, hframe, hread⟩ := flattenLoop_clone h hrs 0 [] none
    rw [mapIdx_flattenTerm] at hread
    rw [flattenGroupifyTerms, if_pos rfl, hrun, nil_append]
    have hnew : (range' h.next rs.length).Nodup := nodup_range'
    have hbelow : ∀ q ∈ range' h.next rs.length, h.next ≤ q ∧ q < h'.next := fun q hq =>
      hnext ▸ mem_range'_1.mp hq
    cases hlast : (range' h.next rs.length).getLast? with
    | none =>
      refine ⟨h', _, rfl, ⟨hnext ▸ le_add_right _ _, fun r hr _ => hframe r hr, hnew,
        fun q hq => (hbelow q hq).2, fun q hq => (hbelow q hq).1⟩, ?_⟩
      have hnil := getLast?_eq_none_iff.mp hlast
      rw [hnil] at hread ⊢
      rw [flattened, ← hread]
      rfl
    | some r =>
      have hmem := hbelow r (mem_of_getLast? hlast)
      refine ⟨_, _, rfl, ⟨hnext ▸ le_add_right _ _, ?_, hnew,
        fun q hq => (hbelow q hq).2, fun q hq => (hbelow q hq).1⟩, ?_⟩
      · intro q hq _
        rw [set_of_ne (Nat.ne_of_lt (Nat.lt_of_lt_of_le hq hmem.1)), hframe q hq]
      · rw [read_set_endLast hnew hlast, hread, flattened]

theorem groupifyLoop_share (aTerms rs : List ℕ) (h : TermHeap α) (inGroup : Bool)
    (out : List ℕ) :
    groupifyLoop aTerms false h inGroup out rs =
      if flattens inGroup (h.read rs) then flattenGroupifyTerms h aTerms false else (h, out) := by
  induction rs generalizing inGroup with
  | nil => rfl
  | cons r rs ih =>
    rw [groupifyLoop, TermHeap.read, map_cons, flattens]
    cases (if inGroup then (h.term r).beginsGrouping else !(h.term r).booleanAnd) with
    | true => rfl
    | false =>
      exact ih _

/-- Objects have been cloned since. -/
structure Extends (h h' : TermHeap α) (new : List ℕ) : Prop where
  next : h.next ≤ h'.next
  frame : ∀ r < h.next, h'.term r = h.term r
  nodup : new.Nodup
  place : ∀ r ∈ new, h.next ≤ r ∧ r < h'.next

theorem Extends.createTerm {h h₁ : TermHeap α} {new : List ℕ} (hext : Extends h h₁ new)
    (t : SearchTerm α) :
    Extends h (h₁.createTerm t).2 (new ++ [h₁.next]) ∧
      (h₁.createTerm t).2.read (new ++ [h₁.next]) = h₁.read new ++ [t] := by
  have hold : ∀ r ∈ new, (h₁.createTerm t).2.term r = h₁.term r := fun r hr =>
    createTerm_of_lt (hext.place r hr).2
  constructor
  · refine ⟨le_succ_of_le hext.next, ?_, ?_, ?_⟩
    · intro r hr
      rw [createTerm_of_lt (Nat.lt_of_lt_of_le hr hext.next), hext.frame r hr]
    · rw [nodup_append]
      refine ⟨hext.nodup, nodup_singleton _, ?_⟩
      intro r hr q hq
      rw [mem_singleton.mp hq]
      exact Nat.ne_of_lt (hext.place r hr).2
    · intro r hr
      cases mem_append.mp hr with
      | inl hr => exact ⟨(hext.place r hr).1, lt_succ_of_lt (hext.place r hr).2⟩
      | inr hr =>
        rw [mem_singleton.mp hr]
        exact ⟨hext.next, lt_succ_self _⟩
  · rw [TermHeap.read, map_append, map_singleton, createTerm_self]
    exact congrArg (· ++ [t]) (read_congr hold)

theorem groupifyLoop_clone (aTerms : List ℕ) {h : TermHeap α} {rs : List ℕ}
    (hrs : ∀ r ∈ rs, r < h.next) {h₁ : TermHeap α} {out : List ℕ} (hext : Extends h h₁ out)
    (inGroup : Bool) :
    ∃ h' out', groupifyLoop aTerms true h₁ inGroup out rs =
        (if flattens inGroup (h.read rs) then flattenGroupifyTerms h' aTerms true
          else (h', out')) ∧
      Extends h h' out' ∧
      (flattens inGroup (h.read rs) = false → h'.read out' = h₁.read out ++ h.read rs) := by
  induction rs generalizing h₁ out inGroup with
  | nil =>
    refine ⟨h₁, out, rfl, hext, fun _ => ?_⟩
    rw [TermHeap.read, TermHeap.read, map_nil, append_nil]
  | cons r rs ih =>
    have hr : h₁.term r = h.term r := hext.frame r (hrs r mem_cons_self)
    rw [groupifyLoop, TermHeap.read, map_cons, flattens, hr]
    cases (if inGroup then (h.term r).beginsGrouping else !(h.term r).booleanAnd) with
    | true => exact ⟨h₁, out, rfl, hext, fun hflat => nomatch hflat⟩
    | false =>
      obtain ⟨hext', hread'⟩ := hext.createTerm (h.term r)
      obtain ⟨h', out', hrun, hext'', hread''⟩ :=
        ih (fun q hq => hrs q (mem_cons_of_mem r hq)) hext'
          (if inGroup then !(h.term r).endsGrouping else (h.term r).beginsGrouping)
      refine ⟨h', out', hrun, hext'', fun hflat => ?_⟩
      rw [hread'' hflat, hread', append_assoc]
      rfl

theorem groupifyTerms_spec (aCloneTerms : Bool) (hnodup : aCloneTerms = false → rs.Nodup)
    (hrs : ∀ r ∈ rs, r < h.next) :
    ∃ h' rs', groupifyTerms h rs aCloneTerms = (h', rs') ∧
      Replaced aCloneTerms h rs h' rs' ∧ h'.read rs' = groupified (h.read rs) := by
  cases aCloneTerms with
  | false =>
    rw [groupifyTerms, groupifyLoop_share, groupified]
    cases flattens false (h.read rs) with
    | true => exact flattenGroupifyTerms_spec false hnodup hrs
    | false =>
      exact ⟨h, rs, rfl, ⟨Nat.le_refl _, fun _ _ _ => rfl, hnodup rfl, hrs, fun _ => id⟩, rfl⟩
  | true =>
    have hstart : Extends h h [] := ⟨Nat.le_refl _, fun _ _ => rfl, nodup_nil,
      fun _ hmem => (not_mem_nil hmem).elim⟩
    obtain ⟨h₁, out, hrun, hext, hread⟩ := groupifyLoop_clone rs hrs hstart false
    rw [groupifyTerms, if_pos rfl, hrun, groupified]
    cases hflat : flattens false (h.read rs) with
    | false =>
      refine ⟨h₁, out, rfl, ⟨hext.next, fun r hr _ => hext.frame r hr, hext.nodup,
        fun r hr => (hext.place r hr).2, fun r hr => (hext.place r hr).1⟩, ?_⟩
      rw [hread hflat]
      rfl
    | true =>
      have hsame : h₁.read rs = h.read rs := read_congr fun r hr => hext.frame r (hrs r hr)
      obtain ⟨h', rs', hflatten, hreplaced, hread'⟩ := flattenGroupifyTerms_spec true hnodup
        fun r hr => Nat.lt_of_lt_of_le (hrs r hr) hext.next
      rw [hflatten, ← hsame]
      refine ⟨h', rs', rfl, ⟨Nat.le_trans hext.next hreplaced.next, ?_, hreplaced.nodup,
        hreplaced.below, fun r hr => Nat.le_trans hext.next (hreplaced.place r hr)⟩, hread'⟩
      intro r hr _
      have hfresh : true = false → r ∉ rs := fun heq => Bool.noConfusion heq
      rw [hreplaced.frame r (Nat.lt_of_lt_of_le hr hext.next) hfresh, hext.frame r hr]

/-! ## All setters -/

namespace SearchSpec

/-- The objects that a caller gives to the setters. -/
structure Owned (h : TermHeap α) (terms : TermsOf → Option (List ℕ)) : Prop where
  below : ∀ of rs, terms of = some rs → ∀ r ∈ rs, r < h.next
  nodup : ∀ of rs, terms of = some rs → rs.Nodup
  disjoint : ∀ of rs of' rs', of ≠ of' → terms of = some rs → terms of' = some rs' →
    ∀ r ∈ rs, r ∉ rs'

structure HaveSet (h : TermHeap α) (terms : TermsOf → Option (List ℕ)) (done : List TermsOf)
    (h' : TermHeap α) (s : SearchSpec) : Prop where
  next : h.next ≤ h'.next
  /-- The lists that have been set are regrouped. -/
  read : ∀ of ∈ done, (s.terms of).map h'.read = (terms of).map fun rs => groupified (h.read rs)
  /-- Their objects are new, or the ones that have been given. -/
  place : ∀ of ∈ done, ∀ rs', s.terms of = some rs' → ∀ r ∈ rs',
    r < h'.next ∧ (h.next ≤ r ∨ ∃ rs, terms of = some rs ∧ r ∈ rs)
  /-- The objects of the other lists are as before. -/
  rest : ∀ of, of ∉ done → ∀ rs, terms of = some rs → ∀ r ∈ rs, h'.term r = h.term r

theorem terms_withTerms_self (s : SearchSpec) (terms : Option (List ℕ)) (of : TermsOf) :
    (s.withTerms terms of).terms of = terms := by
  cases of with
  | virtualFolder => rfl
  | view => rfl
  | user => rfl

theorem terms_withTerms_of_ne (s : SearchSpec) (terms : Option (List ℕ)) {of of' : TermsOf}
    (hne : of' ≠ of) : (s.withTerms terms of).terms of' = s.terms of' := by
  cases of with
  | virtualFolder =>
    cases of' with
    | virtualFolder => exact absurd rfl hne
    | view => rfl
    | user => rfl
  | view =>
    cases of' with
    | virtualFolder => rfl
    | view => exact absurd rfl hne
    | user => rfl
  | user =>
    cases of' with
    | virtualFolder => rfl
    | view => rfl
    | user => exact absurd rfl hne

theorem setter_eq (of : TermsOf) :
    ∃ aCloneTerms, ∀ (h : TermHeap α) s aTerms,
      setter of h s aTerms = setTerms of aCloneTerms h s aTerms := by
  cases of with
  | virtualFolder => exact ⟨true, fun _ _ _ => rfl⟩
  | view => exact ⟨false, fun _ _ _ => rfl⟩
  | user => exact ⟨false, fun _ _ _ => rfl⟩

variable {terms : TermsOf → Option (List ℕ)}

theorem HaveSet.step {h h₁ : TermHeap α} {s : SearchSpec} {done : List TermsOf}
    (howned : Owned h terms) (hset : HaveSet h terms done h₁ s) {of : TermsOf}
    (hof : of ∉ done) :
    HaveSet h terms (of :: done) (setter of h₁ s (terms of)).1
      (setter of h₁ s (terms of)).2 := by
  obtain ⟨aCloneTerms, hsetter⟩ := setter_eq (α := α) of
  rw [hsetter]
  cases hterms : terms of with
  | none =>
    change HaveSet h terms (of :: done) h₁ (s.withTerms none of)
    refine ⟨hset.next, ?_, ?_, fun of' hof' =>
      hset.rest of' fun hmem => hof' (mem_cons_of_mem of hmem)⟩
    · intro of' hof'
      cases hof' with
      | head =>
        rw [terms_withTerms_self, hterms]
        rfl
      | tail _ hof' =>
        rw [terms_withTerms_of_ne _ _ (ne_of_mem_of_not_mem hof' hof)]
        exact hset.read of' hof'
    · intro of' hof' rs' hrs'
      cases hof' with
      | head =>
        rw [terms_withTerms_self] at hrs'
        cases hrs'
      | tail _ hof' =>
        rw [terms_withTerms_of_ne _ _ (ne_of_mem_of_not_mem hof' hof)] at hrs'
        exact hset.place of' hof' rs' hrs'
  | some rs =>
    have hbelow := howned.below of rs hterms
    have hsame : h₁.read rs = h.read rs := read_congr (hset.rest of hof rs hterms)
    obtain ⟨h₂, rs₂, hrun, hreplaced, hread⟩ := groupifyTerms_spec aCloneTerms
      (fun _ => howned.nodup of rs hterms)
      fun r hr => Nat.lt_of_lt_of_le (hbelow r hr) hset.next
    rw [setTerms, hrun]
    -- objects of another list
    have hframe : ∀ r, r < h₁.next → (h.next ≤ r ∨ ∃ of' rs', of' ≠ of ∧
        terms of' = some rs' ∧ r ∈ rs') → h₂.term r = h₁.term r := by
      intro r hr hplace
      refine hreplaced.frame r hr fun _ hmem => ?_
      cases hplace with
      | inl hnew => exact absurd (hbelow r hmem) (Nat.not_lt_of_le hnew)
      | inr hother =>
        obtain ⟨of', rs', hne, hterms', hmem'⟩ := hother
        exact howned.disjoint of' rs' of rs hne hterms' hterms r hmem' hmem
    have hdone : ∀ of' ∈ done, ∀ rs', s.terms of' = some rs' → ∀ r ∈ rs',
        h₂.term r = h₁.term r := by
      intro of' hof' rs' hrs' r hr
      obtain ⟨hlt, hplace⟩ := hset.place of' hof' rs' hrs' r hr
      refine hframe r hlt (hplace.imp id fun ⟨rs₀, hterms₀, hmem⟩ => ?_)
      exact ⟨of', rs₀, ne_of_mem_of_not_mem hof' hof, hterms₀, hmem⟩
    refine ⟨Nat.le_trans hset.next hreplaced.next, ?_, ?_, ?_⟩
    · intro of' hof'
      cases hof' with
      | head =>
        rw [terms_withTerms_self, hterms, Option.map_some, Option.map_some, hread, hsame]
      | tail _ hof' =>
        rw [terms_withTerms_of_ne _ _ (ne_of_mem_of_not_mem hof' hof), ← hset.read of' hof']
        cases hrs' : s.terms of' with
        | none => rfl
        | some rs' => exact congrArg some (read_congr (hdone of' hof' rs' hrs'))
    · intro of' hof' rs' hrs' r hr
      cases hof' with
      | head =>
        rw [terms_withTerms_self] at hrs'
        cases hrs'
        refine ⟨hreplaced.below r hr, ?_⟩
        have hplace := hreplaced.place r hr
        cases aCloneTerms with
        | true => exact Or.inl (Nat.le_trans hset.next hplace)
        | false => exact Or.inr ⟨rs, hterms, hplace⟩
      | tail _ hof' =>
        rw [terms_withTerms_of_ne _ _ (ne_of_mem_of_not_mem hof' hof)] at hrs'
        obtain ⟨hlt, hplace⟩ := hset.place of' hof' rs' hrs' r hr
        exact ⟨Nat.lt_of_lt_of_le hlt hreplaced.next, hplace⟩
    · intro of' hof' rs' hrs' r hr
      have hne : of' ≠ of := fun heq => hof' (heq ▸ mem_cons_self)
      have hlt := Nat.lt_of_lt_of_le (howned.below of' rs' hrs' r hr) hset.next
      rw [hframe r hlt (Or.inr ⟨of', rs', hne, hrs', hr⟩)]
      exact hset.rest of' (fun hmem => hof' (mem_cons_of_mem of hmem)) rs' hrs' r hr

theorem HaveSet.run {h : TermHeap α} (howned : Owned h terms) (order : List TermsOf)
    {done : List TermsOf} (hnodup : (order ++ done).Nodup) {h₁ : TermHeap α} {s : SearchSpec}
    (hset : HaveSet h terms done h₁ s) :
    ∃ done', (∀ of, of ∈ done' ↔ of ∈ order ∨ of ∈ done) ∧
      HaveSet h terms done' (setAll terms order h₁ s).1 (setAll terms order h₁ s).2 := by
  induction order generalizing done h₁ s with
  | nil => exact ⟨done, fun of => by simp, hset⟩
  | cons of order ih =>
    rw [cons_append, nodup_cons, mem_append, not_or] at hnodup
    obtain ⟨⟨hfresh, hof⟩, hrest⟩ := hnodup
    have hmove : (order ++ of :: done).Nodup := by
      rw [nodup_middle, nodup_cons, mem_append, not_or]
      exact ⟨⟨hfresh, hof⟩, hrest⟩
    obtain ⟨done', hdone', hset'⟩ := ih hmove (hset.step howned hof)
    refine ⟨done', fun of' => ?_, hset'⟩
    rw [hdone', mem_cons, mem_cons]
    exact ⟨fun hmem => by grind, fun hmem => by grind⟩

/-- After all setters the terms of the session are the regrouped lists, one after the other. -/
theorem read_updateSession {h : TermHeap α} (howned : Owned h terms) (s : SearchSpec)
    {order : List TermsOf} (horder : order.Perm [.virtualFolder, .view, .user]) :
    (setAll terms order h s).1.read (setAll terms order h s).2.updateSession =
      [TermsOf.virtualFolder, .view, .user].flatMap fun of =>
        ((terms of).map fun rs => groupified (h.read rs)).getD [] := by
  have hnodup : (order ++ []).Nodup := by
    rw [append_nil, horder.nodup_iff]
    decide
  have hstart : HaveSet h terms [] h s := ⟨Nat.le_refl _,
    fun _ hmem => (not_mem_nil hmem).elim, fun _ hmem => (not_mem_nil hmem).elim,
    fun _ _ _ _ _ _ => rfl⟩
  obtain ⟨done, hdone, hset⟩ := HaveSet.run howned order hnodup hstart
  have hread : ∀ of, ((setAll terms order h s).2.terms of).map (setAll terms order h s).1.read =
      (terms of).map fun rs => groupified (h.read rs) := by
    intro of
    refine hset.read of ((hdone of).mpr (Or.inl (horder.mem_iff.mpr ?_)))
    cases of with
    | virtualFolder => exact mem_cons_self
    | view => exact mem_cons_of_mem _ mem_cons_self
    | user => exact mem_cons_of_mem _ (mem_cons_of_mem _ mem_cons_self)
  have hgetD : ∀ (h' : TermHeap α) (rs : Option (List ℕ)),
      h'.read (rs.getD []) = (rs.map h'.read).getD [] := by
    intro h' rs
    cases rs with
    | none => rfl
    | some rs => rfl
  rw [updateSession, TermHeap.read, map_append, map_append, append_assoc]
  have hparts := fun of => (hgetD (setAll terms order h s).1
    ((setAll terms order h s).2.terms of)).trans (congrArg (·.getD []) (hread of))
  rw [flatMap_cons, flatMap_cons, flatMap_cons, flatMap_nil, append_nil,
    ← hparts, ← hparts, ← hparts]
  rfl

theorem setVirtualFolderTerms_frame {h : TermHeap α} {rs : List ℕ}
    (hrs : ∀ r ∈ rs, r < h.next) (s : SearchSpec) {r : ℕ} (hr : r < h.next) :
    (setVirtualFolderTerms h s (some rs)).1.term r = h.term r := by
  obtain ⟨h', rs', hrun, hreplaced, -⟩ := groupifyTerms_spec true (fun heq => Bool.noConfusion heq) hrs
  rw [setVirtualFolderTerms, setTerms, hrun]
  exact hreplaced.frame r hr fun heq => Bool.noConfusion heq

end SearchSpec

end CommCentral.Search
