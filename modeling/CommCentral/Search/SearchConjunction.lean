import CommCentral.Lib.DroppedGroups
import CommCentral.Search.Offline
import CommCentral.Search.SearchSpec
import Mathlib.Algebra.GroupWithZero.Nat

/-!
# Saved search, mail view and quick filter together

The terms of a session are to say that each of its lists of terms is true.  A
list that is kept as it is does so behind other lists when AND joins each of its
operands; the scan ensures that, but not behind a group of one term, which it
takes to be open.  A list that is flattened loses its groups, and keeps its
value when they could be dropped.
-/

namespace CommCentral.Search

open List Operand

variable {α β : Type*}

/-! ## Lists with properly nested groups -/

/-- Each beginning has its end.  A term may be a group by itself. -/
inductive Nested : List (SearchTerm α) → Prop
  | nil : Nested []
  | term {t : SearchTerm α} {ts : List (SearchTerm α)} (hbegins : t.beginsGrouping = false)
      (hends : t.endsGrouping = false) (hrest : Nested ts) : Nested (t :: ts)
  | single {t : SearchTerm α} {ts : List (SearchTerm α)} (hbegins : t.beginsGrouping = true)
      (hends : t.endsGrouping = true) (hrest : Nested ts) : Nested (t :: ts)
  | group {first last : SearchTerm α} {inner ts : List (SearchTerm α)}
      (hbegins : first.beginsGrouping = true) (hends : first.endsGrouping = false)
      (hinner : Nested inner) (hbegins' : last.beginsGrouping = false)
      (hends' : last.endsGrouping = true) (hrest : Nested ts) :
      Nested (first :: (inner ++ last :: ts))

/-- What a term says depends on this. -/
def content (t : SearchTerm α) : α × Bool := (t.test, t.matchAll)

def truth (matchesTest : α → Bool) (c : α × Bool) : Bool := c.2 || matchesTest c.1

def leafOf (t : SearchTerm α) : Operand (SearchTerm α) := leaf t.ungrouped t.booleanAnd

/-- A list is read as operands, whatever comes before and behind. -/
structure Reads (ts : List (SearchTerm α)) (xs : List (Operand (SearchTerm α))) : Prop where
  /-- The operands are added to the innermost group. -/
  read : ∀ rest top outer,
    readGroups (ts ++ rest) top outer = readGroups rest (top ++ xs) outer
  matched : ∀ depth rest, endsMatched depth (ts ++ rest) = endsMatched depth rest
  proper : allProper xs
  leaves : (allLeaves xs).map (Prod.map content id) = ts.map fun t => (content t, t.booleanAnd)

section Steps

variable {t : SearchTerm α} (ts : List (SearchTerm α)) (top : List (Operand (SearchTerm α)))
  (outer : List (List (Operand (SearchTerm α))))

theorem readGroups_term (hbegins : t.beginsGrouping = false) (hends : t.endsGrouping = false) :
    readGroups (t :: ts) top outer = readGroups ts (top ++ [leafOf t]) outer := by
  rw [readGroups, hbegins, hends]
  rfl

theorem readGroups_begins (hbegins : t.beginsGrouping = true) (hends : t.endsGrouping = false) :
    readGroups (t :: ts) top outer = readGroups ts [leafOf t] (top :: outer) := by
  rw [readGroups, hbegins, hends]
  rfl

theorem readGroups_ends (hbegins : t.beginsGrouping = false) (hends : t.endsGrouping = true)
    (next : List (Operand (SearchTerm α))) :
    readGroups (t :: ts) top (next :: outer) =
      readGroups ts (next ++ [group (top ++ [leafOf t])]) outer := by
  rw [readGroups, hbegins, hends]
  rfl

theorem readGroups_single (hbegins : t.beginsGrouping = true) (hends : t.endsGrouping = true) :
    readGroups (t :: ts) top outer =
      readGroups ts (top ++ [group [leafOf t]]) outer := by
  rw [readGroups, hbegins, hends]
  rfl

end Steps

theorem Reads.nil : Reads ([] : List (SearchTerm α)) [] :=
  ⟨fun _ top _ => by rw [nil_append, append_nil], fun _ _ => rfl, trivial, rfl⟩

variable {ts : List (SearchTerm α)} {xs : List (Operand (SearchTerm α))}

theorem Reads.append {us : List (SearchTerm α)} {ys : List (Operand (SearchTerm α))}
    (hts : Reads ts xs) (hus : Reads us ys) : Reads (ts ++ us) (xs ++ ys) := by
  refine ⟨?_, ?_, allProper_append.mpr ⟨hts.proper, hus.proper⟩, ?_⟩
  · intro rest top outer
    rw [append_assoc, hts.read, hus.read, append_assoc]
  · intro depth rest
    rw [append_assoc, hts.matched, hus.matched]
  · rw [allLeaves_append, map_append, map_append, hts.leaves, hus.leaves]

variable {t : SearchTerm α}

theorem Reads.term (hbegins : t.beginsGrouping = false)
    (hends : t.endsGrouping = false) : Reads [t] [leafOf t] := by
  refine ⟨fun rest top outer => readGroups_term rest top outer hbegins hends, ?_,
    ⟨trivial, trivial⟩, rfl⟩
  intro depth rest
  rw [singleton_append, endsMatched, hbegins, hends]
  rfl

theorem Reads.single (hbegins : t.beginsGrouping = true)
    (hends : t.endsGrouping = true) : Reads [t] [group [leafOf t]] := by
  refine ⟨fun rest top outer => readGroups_single rest top outer hbegins hends, ?_,
    ⟨⟨cons_ne_nil _ _, trivial, trivial⟩, trivial⟩, rfl⟩
  intro depth rest
  rw [singleton_append, endsMatched, hbegins, hends]
  rfl

theorem Reads.group {first last : SearchTerm α} {inner : List (SearchTerm α)}
    (hbegins : first.beginsGrouping = true) (hends : first.endsGrouping = false)
    (hinner : Reads inner xs) (hbegins' : last.beginsGrouping = false)
    (hends' : last.endsGrouping = true) :
    Reads (first :: (inner ++ [last]))
      [Operand.group (leafOf first :: (xs ++ [leafOf last]))] := by
  refine ⟨?_, ?_, ⟨⟨cons_ne_nil _ _, trivial, ?_⟩, trivial⟩, ?_⟩
  · intro rest top outer
    rw [cons_append, readGroups_begins _ _ _ hbegins hends, append_assoc, hinner.read,
      singleton_append, readGroups_ends _ _ _ hbegins' hends']
    rfl
  · intro depth rest
    rw [cons_append, endsMatched, hbegins, hends, if_pos rfl, if_neg Bool.false_ne_true,
      append_assoc, hinner.matched, singleton_append, endsMatched, hbegins', hends']
    rfl
  · exact allProper_append.mpr ⟨hinner.proper, trivial, trivial⟩
  · rw [allLeaves_singleton, Operand.leaves, allLeaves, allLeaves_append, allLeaves_singleton,
      map_append, map_append, hinner.leaves, map_cons, map_append]
    rfl

/-- A list with properly nested groups is read as operands. -/
theorem Nested.reads (h : Nested ts) : ∃ xs, Reads ts xs := by
  induction h with
  | nil => exact ⟨[], Reads.nil⟩
  | term hbegins hends _ ih =>
    obtain ⟨xs, hxs⟩ := ih
    exact ⟨_, (Reads.term hbegins hends).append hxs⟩
  | single hbegins hends _ ih =>
    obtain ⟨xs, hxs⟩ := ih
    exact ⟨_, (Reads.single hbegins hends).append hxs⟩
  | @group first last inner ts hbegins hends _ hbegins' hends' _ ihinner ih =>
    obtain ⟨ys, hys⟩ := ihinner
    obtain ⟨xs, hxs⟩ := ih
    have hgroup := (Reads.group hbegins hends hys hbegins' hends').append hxs
    rw [cons_append, append_assoc] at hgroup
    exact ⟨_, hgroup⟩

def operandsOf (ts : List (SearchTerm α)) : List (Operand (α × Bool)) :=
  mapAll content (readGroups ts [] [])

theorem Reads.operandsOf_eq (h : Reads ts xs) : operandsOf ts = mapAll content xs := by
  have hread := h.read [] [] []
  rw [append_nil] at hread
  rw [operandsOf, hread]
  rfl

/-- What the terms of a list say, with their operators. -/
def contents (ts : List (SearchTerm α)) : List ((α × Bool) × Bool) :=
  ts.map fun t => (content t, t.booleanAnd)

theorem Nested.leaves_operandsOf (h : Nested ts) : allLeaves (operandsOf ts) = contents ts := by
  obtain ⟨xs, hxs⟩ := h.reads
  rw [hxs.operandsOf_eq, allLeaves_mapAll, hxs.leaves, contents]

theorem Nested.proper_operandsOf (h : Nested ts) : allProper (operandsOf ts) := by
  obtain ⟨xs, hxs⟩ := h.reads
  rw [hxs.operandsOf_eq]
  exact allProper_mapAll content hxs.proper

theorem Nested.operandsOf_ne_nil (h : Nested ts) (hne : ts ≠ []) : operandsOf ts ≠ [] := by
  intro hnil
  have hleaves := h.leaves_operandsOf
  rw [hnil] at hleaves
  exact hne (map_eq_nil_iff.mp hleaves.symm)

theorem Reads.matchTerms_values (h : Reads ts xs) (matchesTest : α → Bool) :
    (matchTerms matchesTest ts).2 = values (truth matchesTest) (mapAll content xs) := by
  have hmatched := h.matched 0 []
  rw [append_nil] at hmatched
  have hread := h.read [] [] []
  rw [append_nil] at hread
  obtain ⟨expr, hrun, hexpr⟩ := constructExpressionTree_standsFor ts hmatched
  rw [hread] at hexpr
  rw [matchTerms, hrun, values_mapAll]
  exact hexpr.value (processSearchTerm matchesTest)

/-! ## Flattened lists -/

/-- A term of a flattened list behind the first one. -/
def plainTerm (t : SearchTerm α) : SearchTerm α :=
  { t with beginsGrouping := false, endsGrouping := false }

theorem reads_plain (ts : List (SearchTerm α)) :
    Reads (ts.map plainTerm) (ts.map fun t => leafOf (plainTerm t)) := by
  induction ts with
  | nil => exact Reads.nil
  | cons t ts ih => exact (Reads.term (t := plainTerm t) rfl rfl).append ih

theorem mapIdx_flattenTerm_cons (t : SearchTerm α) (ts : List (SearchTerm α)) :
    (t :: ts).mapIdx flattenTerm = flattenTerm 0 t :: ts.map plainTerm := by
  have hrest : ∀ i, (ts.mapIdx fun j => flattenTerm (i + 1 + j)) = ts.map plainTerm := by
    intro i
    induction ts generalizing i with
    | nil => rfl
    | cons u us ih =>
      rw [flattenTerm_mapIdx_cons, ih (i + 1)]
      rfl
  rw [← mapIdx_flattenTerm, flattenTerm_mapIdx_cons]
  exact congrArg _ (hrest 0)

theorem mapAll_map_leafOf (f : SearchTerm α → SearchTerm α)
    (hf : ∀ t, content (f t).ungrouped = content t ∧ (f t).booleanAnd = t.booleanAnd)
    (ts : List (SearchTerm α)) :
    mapAll content (ts.map fun t => leafOf (f t)) =
      (contents ts).map fun x => leaf x.1 x.2 := by
  induction ts with
  | nil => rfl
  | cons t ts ih =>
    rw [map_cons, mapAll, ih, leafOf, Operand.map, (hf t).1, (hf t).2]
    rfl

/-- A flattened list is one group, which AND joins. -/
theorem reads_flattened (t : SearchTerm α) (ts : List (SearchTerm α)) :
    ∃ ys, Reads (flattened (t :: ts)) ys ∧ mapAll content ys =
      [group (leaf (content t) true :: (contents ts).map fun x => leaf x.1 x.2)] := by
  rw [flattened, mapIdx_flattenTerm_cons]
  cases hts : ts.getLast? with
  | none =>
    obtain rfl := getLast?_eq_none_iff.mp hts
    exact ⟨_, Reads.single rfl rfl, rfl⟩
  | some last =>
    obtain ⟨mid, rfl⟩ := getLast?_eq_some_iff.mp hts
    rw [map_append, map_singleton, ← cons_append, endLast_concat]
    refine ⟨_, Reads.group rfl rfl (reads_plain mid) rfl rfl, ?_⟩
    have hmid := mapAll_map_leafOf plainTerm (fun _ => ⟨rfl, rfl⟩) mid
    refine congrArg (fun l => [group (leaf (content t) true :: l)]) ?_
    rw [mapAll_append, hmid, contents, contents, map_append, map_append]
    rfl

theorem valuesFrom_flattened (v : α × Bool → Bool) (acc : Bool) (t : SearchTerm α)
    (ts : List (SearchTerm α)) :
    valuesFrom v acc
        [group (leaf (content t) true :: (contents ts).map fun x => leaf x.1 x.2)] =
      (acc && chain v (contents (t :: ts))) := by
  rw [valuesFrom, value, values, valuesFrom_leaves]
  rfl

/-! ## Lists that fit together -/

def Fits (behind : Bool) (ts : List (SearchTerm α)) : Prop :=
  if flattens false ts then removable (operandsOf ts)
  else behind = true → ∀ x ∈ operandsOf ts, x.joinsAnd = true

def FitTogether : Bool → List (List (SearchTerm α)) → Prop
  | _, [] => True
  | behind, ts :: lists => Fits behind ts ∧ FitTogether true lists

def regrouped (ts : List (SearchTerm α)) : List (Operand (α × Bool)) := operandsOf (groupified ts)

theorem regrouped_of_flattens (hne : ts ≠ []) (hflat : flattens false ts = true) :
    (∃ ys, Reads (groupified ts) ys ∧ mapAll content ys = regrouped ts) ∧ ∀ v,
      values v (regrouped ts) = chain v (contents ts) ∧
      ∀ acc, valuesFrom v acc (regrouped ts) = (acc && chain v (contents ts)) := by
  cases ts with
  | nil => exact absurd rfl hne
  | cons t ts =>
    obtain ⟨ys, hreads, hys⟩ := reads_flattened t ts
    rw [regrouped, groupified, if_pos hflat, hreads.operandsOf_eq]
    refine ⟨⟨ys, hreads, rfl⟩, fun v => ?_⟩
    rw [hys]
    refine ⟨?_, fun acc => valuesFrom_flattened v acc t ts⟩
    have htrue := valuesFrom_flattened v true t ts
    rw [Bool.true_and] at htrue
    rw [← htrue]
    rfl

theorem regrouped_of_not_flattens (hflat : flattens false ts = false) :
    regrouped ts = operandsOf ts := by
  rw [regrouped, groupified, hflat, if_neg Bool.false_ne_true]

/-- A list that has been regrouped is read as its operands. -/
theorem reads_groupified (hne : ts ≠ []) (h : Nested ts) :
    ∃ ys, Reads (groupified ts) ys ∧ mapAll content ys = regrouped ts := by
  cases hflat : flattens false ts with
  | true => exact (regrouped_of_flattens hne hflat).1
  | false =>
    obtain ⟨ys, hreads⟩ := h.reads
    rw [regrouped_of_not_flattens hflat, groupified, hflat]
    exact ⟨ys, hreads, hreads.operandsOf_eq.symm⟩

variable {lists : List (List (SearchTerm α))}

theorem reads_flatMap_groupified (h : ∀ ts ∈ lists, ts ≠ [] ∧ Nested ts) :
    ∃ ys, Reads (lists.flatMap groupified) ys ∧ mapAll content ys = lists.flatMap regrouped := by
  induction lists with
  | nil => exact ⟨[], Reads.nil, rfl⟩
  | cons ts lists ih =>
    obtain ⟨hne, hnested⟩ := h ts mem_cons_self
    obtain ⟨xs, hxs, hmap⟩ := reads_groupified hne hnested
    obtain ⟨ys, hys, hmap'⟩ := ih fun us hus => h us (mem_cons_of_mem ts hus)
    refine ⟨xs ++ ys, hxs.append hys, ?_⟩
    rw [mapAll_append, hmap, hmap', flatMap_cons]

variable {v : α × Bool → Bool}

theorem values_regrouped (hne : ts ≠ []) (h : Nested ts) {behind : Bool}
    (hfits : Fits behind ts) : values v (regrouped ts) = values v (operandsOf ts) := by
  rw [Fits] at hfits
  cases hflat : flattens false ts with
  | true =>
    rw [hflat] at hfits
    rw [((regrouped_of_flattens hne hflat).2 v).1, values_eq_chain h.proper_operandsOf hfits,
      h.leaves_operandsOf]
  | false => rw [regrouped_of_not_flattens hflat]

/-- A list that fits behind others restricts what they say. -/
theorem valuesFrom_regrouped (hne : ts ≠ []) (h : Nested ts) (hfits : Fits true ts) (acc : Bool) :
    valuesFrom v acc (regrouped ts) = (acc && values v (operandsOf ts)) := by
  rw [Fits] at hfits
  cases hflat : flattens false ts with
  | true =>
    rw [hflat] at hfits
    rw [((regrouped_of_flattens hne hflat).2 v).2, values_eq_chain h.proper_operandsOf hfits,
      h.leaves_operandsOf]
  | false =>
    rw [hflat] at hfits
    rw [regrouped_of_not_flattens hflat]
    exact valuesFrom_eq_and (h.operandsOf_ne_nil hne) (hfits rfl) acc

theorem valuesFrom_flatMap_regrouped (h : ∀ ts ∈ lists, ts ≠ [] ∧ Nested ts)
    (hfit : FitTogether true lists) (acc : Bool) :
    valuesFrom v acc (lists.flatMap regrouped) =
      (acc && lists.all fun ts => values v (operandsOf ts)) := by
  induction lists generalizing acc with
  | nil => exact (Bool.and_true acc).symm
  | cons ts lists ih =>
    obtain ⟨hne, hnested⟩ := h ts mem_cons_self
    rw [flatMap_cons, valuesFrom_append, valuesFrom_regrouped hne hnested hfit.1,
      ih (fun us hus => h us (mem_cons_of_mem ts hus)) hfit.2, all_cons,
      Bool.and_assoc]

theorem regrouped_ne_nil (hne : ts ≠ []) (h : Nested ts) : regrouped ts ≠ [] := by
  cases hflat : flattens false ts with
  | true =>
    cases ts with
    | nil => exact absurd rfl hne
    | cons t ts =>
      obtain ⟨ys, hreads, hys⟩ := reads_flattened t ts
      rw [regrouped, groupified, if_pos hflat, hreads.operandsOf_eq, hys]
      exact cons_ne_nil _ _
  | false =>
    rw [regrouped_of_not_flattens hflat]
    exact h.operandsOf_ne_nil hne

/-- Lists that fit together say that each of them is true. -/
theorem values_flatMap_regrouped (h : ∀ ts ∈ lists, ts ≠ [] ∧ Nested ts)
    (hfit : FitTogether false lists) :
    values v (lists.flatMap regrouped) = lists.all fun ts => values v (operandsOf ts) := by
  cases lists with
  | nil => rfl
  | cons ts lists =>
    obtain ⟨hne, hnested⟩ := h ts mem_cons_self
    rw [flatMap_cons, values_append v (regrouped_ne_nil hne hnested),
      values_regrouped hne hnested hfit.1, all_cons]
    exact valuesFrom_flatMap_regrouped (fun us hus => h us (mem_cons_of_mem ts hus))
      hfit.2 _

/-! ## Only these lists do -/

theorem FitTogether.concat {behind : Bool} (hlists : FitTogether behind lists)
    (hts : Fits (behind || !lists.isEmpty) ts) : FitTogether behind (lists ++ [ts]) := by
  induction lists generalizing behind with
  | nil =>
    rw [isEmpty_nil, Bool.not_true, Bool.or_false] at hts
    exact ⟨hts, trivial⟩
  | cons us lists ih =>
    refine ⟨hlists.1, ih hlists.2 ?_⟩
    rw [isEmpty_cons, Bool.not_false, Bool.or_true] at hts
    exact hts

theorem leaves_regrouped (hne : ts ≠ []) (h : Nested ts) :
    ∀ l ∈ allLeaves (regrouped ts), l.1 ∈ (contents ts).map Prod.fst := by
  intro l hl
  cases hflat : flattens false ts with
  | false =>
    rw [regrouped_of_not_flattens hflat, h.leaves_operandsOf] at hl
    exact mem_map_of_mem hl
  | true =>
    cases ts with
    | nil => exact absurd rfl hne
    | cons t ts =>
      obtain ⟨ys, hreads, hys⟩ := reads_flattened t ts
      rw [regrouped, groupified, if_pos hflat, hreads.operandsOf_eq, hys, allLeaves_singleton,
        leaves, allLeaves, allLeaves_leaves] at hl
      cases hl with
      | head => exact mem_cons_self
      | tail _ hl => exact mem_cons_of_mem _ (mem_map_of_mem hl)

theorem leaves_flatMap_regrouped (h : ∀ ts ∈ lists, ts ≠ [] ∧ Nested ts) :
    ∀ l ∈ allLeaves (lists.flatMap regrouped), l.1 ∈ (lists.flatMap contents).map Prod.fst := by
  induction lists with
  | nil => exact fun _ hl => (not_mem_nil hl).elim
  | cons ts lists ih =>
    intro l hl
    rw [flatMap_cons, allLeaves_append] at hl
    rw [flatMap_cons, map_append]
    cases mem_append.mp hl with
    | inl hl =>
      obtain ⟨hne, hnested⟩ := h ts mem_cons_self
      exact mem_append_left _ (leaves_regrouped hne hnested l hl)
    | inr hl =>
      exact mem_append_right _ (ih (fun us hus => h us (mem_cons_of_mem ts hus)) l hl)

theorem values_flatMap_const (h : ∀ ts ∈ lists, ts ≠ [] ∧ Nested ts) (hlists : lists ≠ [])
    {c : Bool} (hv : ∀ l ∈ (lists.flatMap contents).map Prod.fst, v l = c) :
    values v (lists.flatMap regrouped) = c ∧
      (lists.all fun ts => values v (operandsOf ts)) = c := by
  constructor
  · obtain ⟨ys, hreads, hys⟩ := reads_flatMap_groupified h
    have hne : lists.flatMap regrouped ≠ [] := by
      cases lists with
      | nil => exact absurd rfl hlists
      | cons ts lists =>
        obtain ⟨hne, hnested⟩ := h ts mem_cons_self
        exact fun hnil => regrouped_ne_nil hne hnested (append_eq_nil_iff.mp hnil).1
    exact values_const hne (hys ▸ allProper_mapAll content hreads.proper)
      fun l hl => hv l.1 (leaves_flatMap_regrouped h l hl)
  · have hown : ∀ ts ∈ lists, values v (operandsOf ts) = c := by
      intro ts hts
      obtain ⟨hne, hnested⟩ := h ts hts
      refine values_const (hnested.operandsOf_ne_nil hne) hnested.proper_operandsOf fun l hl => ?_
      rw [hnested.leaves_operandsOf] at hl
      exact hv l.1 (mem_map_of_mem (mem_flatMap_of_mem hts hl))
    cases c with
    | true => exact all_eq_true.mpr hown
    | false =>
      cases lists with
      | nil => exact absurd rfl hlists
      | cons ts lists => rw [all_cons, hown ts mem_cons_self, Bool.false_and]

/-- What the terms of two disjoint groups of lists say is free. -/
theorem exists_valuation (front back : List (α × Bool)) (hdisjoint : ∀ c ∈ front, c ∉ back)
    (v v' : α × Bool → Bool) :
    ∃ w : α × Bool → Bool, (∀ c ∈ front, w c = v c) ∧ ∀ c ∈ back, w c = v' c := by
  classical
  exact ⟨fun c => if c ∈ back then v' c else v c, fun c hc => if_neg (hdisjoint c hc),
    fun c hc => if_pos hc⟩

/-- A list that has its own value whatever its terms say. -/
theorem removable_of_chain (h : Nested ts) (hnodup : ((contents ts).map Prod.fst).Nodup)
    (hvalue : ∀ v, values v (operandsOf ts) = chain v (contents ts)) :
    removable (operandsOf ts) := by
  rw [← h.leaves_operandsOf] at hnodup hvalue
  exact removable_of_forall h.proper_operandsOf hnodup hvalue

/-- The last list fits behind the others, when the session says that each list is true. -/
theorem fits_of_forall (h : ∀ us ∈ lists, us ≠ [] ∧ Nested us) (hlists : lists ≠ []) (hne : ts ≠ [])
    (hnested : Nested ts) (hnodup : ((contents ts).map Prod.fst).Nodup)
    (hdisjoint : ∀ c ∈ (lists.flatMap contents).map Prod.fst, c ∉ (contents ts).map Prod.fst)
    (hvalue : ∀ v, valuesFrom v (values v (lists.flatMap regrouped)) (regrouped ts) =
      ((lists.all fun us => values v (operandsOf us)) && values v (operandsOf ts))) :
    Fits true ts := by
  rw [Fits]
  cases hflat : flattens false ts with
  | true =>
    refine removable_of_chain hnested hnodup fun v => ?_
    obtain ⟨w, hfront, hback⟩ := exists_valuation _ _ hdisjoint (fun _ => true) v
    obtain ⟨hregrouped, hall⟩ := values_flatMap_const h hlists hfront
    have hw := hvalue w
    rw [hregrouped, hall, ((regrouped_of_flattens hne hflat).2 w).2, Bool.true_and,
      Bool.true_and] at hw
    have hown : values w (operandsOf ts) = values v (operandsOf ts) := by
      refine values_congr fun l hl => hback l.1 ?_
      rw [hnested.leaves_operandsOf] at hl
      exact mem_map_of_mem hl
    have hchain : chain w (contents ts) = chain v (contents ts) :=
      chain_congr fun l hl => hback l.1 (mem_map_of_mem hl)
    rw [← hown, ← hw, hchain]
  | false =>
    intro _
    refine Classical.byContradiction fun hnot => ?_
    have hor : ∃ x ∈ operandsOf ts, x.joinsAnd = false :=
      Classical.byContradiction fun hnone => hnot fun x hx =>
        eq_true_of_ne_false fun hfalse => hnone ⟨x, hx, hfalse⟩
    obtain ⟨w, hfront, hback⟩ :=
      exists_valuation _ _ hdisjoint (fun _ => false) (fun _ => true)
    obtain ⟨-, hall⟩ := values_flatMap_const h hlists hfront
    have htrue : ∀ l ∈ allLeaves (operandsOf ts), w l.1 = true := by
      intro l hl
      rw [hnested.leaves_operandsOf] at hl
      exact hback l.1 (mem_map_of_mem hl)
    have hw := hvalue w
    rw [regrouped_of_not_flattens hflat,
      valuesFrom_true_of_or hnested.proper_operandsOf htrue hor, hall, Bool.false_and] at hw
    exact Bool.noConfusion hw

/-- Lists whose terms say whatever they like fit together, when the session says that each of
them is true. -/
theorem fitTogether_of_forall (h : ∀ ts ∈ lists, ts ≠ [] ∧ Nested ts)
    (hnodup : ((lists.flatMap contents).map Prod.fst).Nodup)
    (hvalue : ∀ v, values v (lists.flatMap regrouped) =
      lists.all fun ts => values v (operandsOf ts)) : FitTogether false lists := by
  induction lists using reverseRecOn with
  | nil => trivial
  | append_singleton lists ts ih =>
    have hlists : ∀ us ∈ lists, us ≠ [] ∧ Nested us := fun us hus =>
      h us (mem_append_left _ hus)
    obtain ⟨hne, hnested⟩ := h ts (mem_append_right _ (mem_singleton_self ts))
    rw [flatMap_append, flatMap_singleton, map_append] at hnodup
    obtain ⟨hfront, hback, hdisjoint⟩ := nodup_append.mp hnodup
    have hapart : ∀ c ∈ (lists.flatMap contents).map Prod.fst,
        c ∉ (contents ts).map Prod.fst := fun c hc hmem => hdisjoint c hc c hmem rfl
    cases hcase : lists with
    | nil =>
      subst hcase
      refine ⟨?_, trivial⟩
      rw [Fits]
      cases hflat : flattens false ts with
      | false => exact fun heq => Bool.noConfusion heq
      | true =>
        refine removable_of_chain hnested hback fun v => ?_
        have hv := hvalue v
        rw [nil_append, flatMap_singleton, all_cons, all_nil,
          Bool.and_true, ((regrouped_of_flattens hne hflat).2 v).1] at hv
        exact hv.symm
    | cons us rest =>
      have hcons : lists ≠ [] := hcase ▸ cons_ne_nil us rest
      have hregrouped : lists.flatMap regrouped ≠ [] := by
        rw [hcase]
        obtain ⟨hus, hnested'⟩ := hlists us (hcase ▸ mem_cons_self)
        exact fun hnil => regrouped_ne_nil hus hnested' (append_eq_nil_iff.mp hnil).1
      have hsplit : ∀ v, valuesFrom v (values v (lists.flatMap regrouped)) (regrouped ts) =
          ((lists.all fun us => values v (operandsOf us)) && values v (operandsOf ts)) := by
        intro v
        have hv := hvalue v
        rw [flatMap_append, flatMap_singleton, values_append v hregrouped,
          all_append, all_cons, all_nil, Bool.and_true] at hv
        exact hv
      have hfits := fits_of_forall hlists hcons hne hnested hback hapart hsplit
      rw [← hcase]
      refine FitTogether.concat (ih hlists hfront fun v => ?_) ?_
      · obtain ⟨w, hw, htrue⟩ := exists_valuation _ _ hapart v (fun _ => true)
        have hown : values w (operandsOf ts) = true := by
          refine values_const (hnested.operandsOf_ne_nil hne) hnested.proper_operandsOf
            fun l hl => htrue l.1 ?_
          rw [hnested.leaves_operandsOf] at hl
          exact mem_map_of_mem hl
        have hsame : values w (lists.flatMap regrouped) = values v (lists.flatMap regrouped) :=
          values_congr fun l hl => hw l.1 (leaves_flatMap_regrouped hlists l hl)
        have hall : (lists.all fun us => values w (operandsOf us)) =
            lists.all fun us => values v (operandsOf us) := by
          have hus : ∀ us ∈ lists, values w (operandsOf us) = values v (operandsOf us) := by
            intro us hus
            refine values_congr fun l hl => hw l.1 ?_
            rw [(hlists us hus).2.leaves_operandsOf] at hl
            exact mem_map_of_mem (mem_flatMap_of_mem hus hl)
          rw [Bool.eq_iff_iff, all_eq_true, all_eq_true]
          exact forall₂_congr fun us hmem => by rw [hus us hmem]
        have hv := hsplit w
        rw [valuesFrom_regrouped hne hnested hfits, hown, Bool.and_true, Bool.and_true, hsame,
          hall] at hv
        exact hv
      · rw [hcase]
        exact hfits

/-! ## Marks -/

/-- The operator of a term, and the groups that it begins and ends. -/
def marks (t : SearchTerm α) : Bool × Bool × Bool :=
  (t.booleanAnd, t.beginsGrouping, t.endsGrouping)

theorem marks_eq {u : SearchTerm β} (h : marks t = marks u) :
    t.booleanAnd = u.booleanAnd ∧ t.beginsGrouping = u.beginsGrouping ∧
      t.endsGrouping = u.endsGrouping :=
  ⟨congrArg (·.1) h, congrArg (·.2.1) h, congrArg (·.2.2) h⟩

/-- Operands without what their leaves say. -/
def shape (xs : List (Operand α)) : List (Operand Unit) := mapAll (fun _ => ()) xs

theorem shape_append (xs ys : List (Operand α)) : shape (xs ++ ys) = shape xs ++ shape ys :=
  mapAll_append _ xs ys

theorem removable_shape (xs : List (Operand α)) : removable (shape xs) ↔ removable xs :=
  removable_mapAll

theorem forall_joinsAnd_shape (xs : List (Operand α)) :
    (∀ x ∈ shape xs, x.joinsAnd = true) ↔ ∀ x ∈ xs, x.joinsAnd = true :=
  forall_joinsAnd_mapAll

theorem shape_leafOf {u : SearchTerm β} (h : marks t = marks u) :
    shape [leafOf t] = shape [leafOf u] := by
  change [leaf () t.booleanAnd] = [leaf () u.booleanAnd]
  rw [(marks_eq h).1]

variable {us : List (SearchTerm β)}

open Nested

/-- Terms with the same marks are grouped in the same way. -/
theorem Nested.sameMarks (h : Nested ts) (hmarks : ts.map marks = us.map marks) :
    Nested us ∧ ∃ xs ys, Reads ts xs ∧ Reads us ys ∧ shape xs = shape ys := by
  induction h generalizing us with
  | nil =>
    obtain rfl := map_eq_nil_iff.mp hmarks.symm
    exact ⟨nil, [], [], Reads.nil, Reads.nil, rfl⟩
  | term hbegins hends _ ih =>
    obtain ⟨u, us', rfl, hu, hus⟩ := map_eq_cons_iff.mp hmarks.symm
    obtain ⟨-, hb, he⟩ := marks_eq hu
    obtain ⟨hnested, xs, ys, hxs, hys, hshape⟩ := ih hus.symm
    refine ⟨term (hb.trans hbegins) (he.trans hends) hnested, _, _,
      (Reads.term hbegins hends).append hxs,
      (Reads.term (hb.trans hbegins) (he.trans hends)).append hys, ?_⟩
    rw [shape_append, shape_append, hshape, shape_leafOf hu]
  | single hbegins hends _ ih =>
    obtain ⟨u, us', rfl, hu, hus⟩ := map_eq_cons_iff.mp hmarks.symm
    obtain ⟨-, hb, he⟩ := marks_eq hu
    obtain ⟨hnested, xs, ys, hxs, hys, hshape⟩ := ih hus.symm
    refine ⟨single (hb.trans hbegins) (he.trans hends) hnested, _, _,
      (Reads.single hbegins hends).append hxs,
      (Reads.single (hb.trans hbegins) (he.trans hends)).append hys, ?_⟩
    rw [shape_append, hshape]
    exact congrArg (fun l => [Operand.group l] ++ shape ys) (shape_leafOf hu).symm
  | @group first last inner ts hbegins hends _ hbegins' hends' _ ihinner ih =>
    obtain ⟨u, us', rfl, hu, hus⟩ := map_eq_cons_iff.mp hmarks.symm
    rw [map_append] at hus
    obtain ⟨inner', back, rfl, hinner', hback⟩ := map_eq_append_iff.mp hus
    obtain ⟨w, us'', rfl, hw, hus''⟩ := map_eq_cons_iff.mp hback
    obtain ⟨-, hb, he⟩ := marks_eq hu
    obtain ⟨-, hb', he'⟩ := marks_eq hw
    obtain ⟨hnested, xs, ys, hxs, hys, hshape⟩ := ihinner hinner'.symm
    obtain ⟨hnested', xs', ys', hxs', hys', hshape'⟩ := ih hus''.symm
    have hread := (Reads.group hbegins hends hxs hbegins' hends').append hxs'
    have hread' := (Reads.group (hb.trans hbegins) (he.trans hends) hys (hb'.trans hbegins')
      (he'.trans hends')).append hys'
    rw [cons_append, append_assoc] at hread hread'
    refine ⟨group (hb.trans hbegins) (he.trans hends) hnested (hb'.trans hbegins')
      (he'.trans hends') hnested', _, _, hread, hread', ?_⟩
    have hinside : shape (leafOf first :: (xs ++ [leafOf last])) =
        shape (leafOf u :: (ys ++ [leafOf w])) := by
      change shape ([leafOf first] ++ (xs ++ [leafOf last])) =
        shape ([leafOf u] ++ (ys ++ [leafOf w]))
      rw [shape_append, shape_append, shape_append, shape_append, hshape, shape_leafOf hu,
        shape_leafOf hw]
    rw [shape_append, hshape']
    exact congrArg (fun l => [Operand.group l] ++ shape ys') hinside

theorem flattens_sameMarks (hmarks : ts.map marks = us.map marks) (inGroup : Bool) :
    flattens inGroup ts = flattens inGroup us := by
  induction ts generalizing us inGroup with
  | nil =>
    obtain rfl := map_eq_nil_iff.mp hmarks.symm
    rfl
  | cons t ts ih =>
    obtain ⟨u, us', rfl, hu, hus⟩ := map_eq_cons_iff.mp hmarks.symm
    obtain ⟨ha, hb, he⟩ := marks_eq hu
    rw [flattens, flattens, ha, hb, he, ih hus.symm]

theorem Fits.sameMarks (h : Nested ts)
    (hmarks : ts.map marks = us.map marks) (behind : Bool) : Fits behind ts ↔ Fits behind us := by
  obtain ⟨-, xs, ys, hxs, hys, hshape⟩ := h.sameMarks hmarks
  have hremovable : removable (operandsOf ts) ↔ removable (operandsOf us) := by
    rw [hxs.operandsOf_eq, hys.operandsOf_eq, removable_mapAll, removable_mapAll,
      ← removable_shape xs, ← removable_shape ys, hshape]
  have hjoins : (∀ x ∈ operandsOf ts, x.joinsAnd = true) ↔
      ∀ y ∈ operandsOf us, y.joinsAnd = true := by
    rw [hxs.operandsOf_eq, hys.operandsOf_eq, forall_joinsAnd_mapAll, forall_joinsAnd_mapAll,
      ← forall_joinsAnd_shape xs, ← forall_joinsAnd_shape ys, hshape]
  rw [Fits, Fits, flattens_sameMarks hmarks]
  cases flattens false us with
  | true => exact hremovable
  | false => exact imp_congr_right fun _ => hjoins

theorem FitTogether.sameMarks (h : ∀ ts ∈ lists, Nested ts) {lists' : List (List (SearchTerm β))}
    (hmarks : lists.map (·.map marks) = lists'.map (·.map marks)) (behind : Bool) :
    FitTogether behind lists ↔ FitTogether behind lists' := by
  induction lists generalizing lists' behind with
  | nil =>
    obtain rfl := map_eq_nil_iff.mp hmarks.symm
    exact Iff.rfl
  | cons ts lists ih =>
    obtain ⟨us, lists'', rfl, hus, hrest⟩ := map_eq_cons_iff.mp hmarks.symm
    exact and_congr (Fits.sameMarks (h ts mem_cons_self) hus.symm behind)
      (ih (fun vs hvs => h vs (mem_cons_of_mem ts hvs)) hrest.symm true)

/-! ## The session -/

open SearchSpec

/-- The lists, in the order of `updateSession`. -/
def inOrder : List TermsOf := [.virtualFolder, .view, .user]

def present {γ : Type*} (lists : TermsOf → Option γ) : List γ := inOrder.filterMap lists

theorem flatMap_present {γ δ : Type*} (lists : TermsOf → Option γ) (f : γ → List δ) :
    (present lists).flatMap f = inOrder.flatMap fun of => ((lists of).map f).getD [] := by
  have hall : ∀ order : List TermsOf, (order.filterMap lists).flatMap f =
      order.flatMap fun of => ((lists of).map f).getD [] := by
    intro order
    induction order with
    | nil => rfl
    | cons of order ih =>
      rw [flatMap_cons, ← ih]
      cases hof : lists of with
      | none => rw [filterMap_cons_none hof]; rfl
      | some x => rw [filterMap_cons_some hof]; rfl
  exact hall inOrder

theorem present_map {γ δ : Type*} (lists : TermsOf → Option γ) (f : γ → δ) :
    present (fun of => (lists of).map f) = (present lists).map f := by
  rw [present, present, map_filterMap]

theorem mem_present {γ : Type*} {lists : TermsOf → Option γ} {x : γ} (h : x ∈ present lists) :
    ∃ of, lists of = some x := by
  obtain ⟨of, -, hof⟩ := mem_filterMap.mp h
  exact ⟨of, hof⟩

/-- After the setters and `updateSession`, the session says what each list said by itself, whatever
the terms with the marks of these lists test and say. -/
def Conjoined (lists : TermsOf → Option (List (SearchTerm β))) : Prop :=
  ∀ (α : Type) (matchesTest : α → Bool) (h : TermHeap α) (s : SearchSpec)
    (terms : TermsOf → Option (List ℕ)) (order : List TermsOf),
    Owned h terms → order.Perm inOrder →
    (∀ of, (terms of).map (fun rs => (h.read rs).map marks) = (lists of).map (·.map marks)) →
    (matchTerms matchesTest
        ((setAll terms order h s).1.read (setAll terms order h s).2.updateSession)).2 =
      (present terms).all fun rs => (matchTerms matchesTest (h.read rs)).2

section

variable {h : TermHeap α} {terms : TermsOf → Option (List ℕ)}

section

variable (howned : Owned h terms) (s : SearchSpec) {order : List TermsOf}
    (horder : order.Perm inOrder)

include howned horder

theorem read_session :
    (setAll terms order h s).1.read (setAll terms order h s).2.updateSession =
      ((present terms).map h.read).flatMap groupified := by
  rw [read_updateSession howned s horder, flatMap_map, flatMap_present]
  rfl

theorem matchTerms_session (hnested : ∀ ts ∈ (present terms).map h.read, ts ≠ [] ∧ Nested ts)
    (matchesTest : α → Bool) :
    (matchTerms matchesTest
        ((setAll terms order h s).1.read (setAll terms order h s).2.updateSession)).2 =
      values (truth matchesTest) (((present terms).map h.read).flatMap regrouped) := by
  obtain ⟨ys, hreads, hys⟩ := reads_flatMap_groupified hnested
  rw [read_session howned s horder, hreads.matchTerms_values, hys]

end

theorem all_matchTerms (hnested : ∀ ts ∈ (present terms).map h.read, ts ≠ [] ∧ Nested ts)
    (matchesTest : α → Bool) :
    ((present terms).all fun rs => (matchTerms matchesTest (h.read rs)).2) =
      ((present terms).map h.read).all fun ts => values (truth matchesTest) (operandsOf ts) := by
  rw [all_map, Bool.eq_iff_iff, all_eq_true, all_eq_true]
  refine forall₂_congr fun rs hrs => ?_
  obtain ⟨xs, hxs⟩ := (hnested _ (mem_map_of_mem hrs)).2.reads
  rw [hxs.matchTerms_values, ← hxs.operandsOf_eq]
  rfl

end

/-! ### Terms that say whatever they like -/

def firstObject : TermsOf → ℕ
  | .virtualFolder => 0
  | .view => 1
  | .user => 2

def listOfObject (r : ℕ) : TermsOf :=
  if r % 3 = 0 then .virtualFolder else if r % 3 = 1 then .view else .user

/-- The objects of each list are three apart, and each tests its own number. -/
def freeHeap (lists : TermsOf → Option (List (SearchTerm β))) : TermHeap ℕ where
  term r :=
    match ((lists (listOfObject r)).getD [])[r / 3]? with
    | some t => { t with test := r, matchAll := false }
    | none => ⟨r, false, false, false, false⟩
  next := 3 * (inOrder.map fun of => ((lists of).getD []).length).sum

def freeTerms (lists : TermsOf → Option (List (SearchTerm β))) (of : TermsOf) :
    Option (List ℕ) :=
  (lists of).map fun ts => (List.range ts.length).map fun i => 3 * i + firstObject of

theorem listOfObject_eq (of : TermsOf) (i : ℕ) : listOfObject (3 * i + firstObject of) = of := by
  have hmod : (3 * i + firstObject of) % 3 = firstObject of := by
    rw [Nat.mul_add_mod]
    cases of with
    | virtualFolder => rfl
    | view => rfl
    | user => rfl
  rw [listOfObject, hmod]
  cases of with
  | virtualFolder => rfl
  | view => rfl
  | user => rfl

theorem div_object (of : TermsOf) (i : ℕ) : (3 * i + firstObject of) / 3 = i := by
  cases of with
  | virtualFolder => exact Nat.mul_div_cancel_left i (by decide)
  | view => rw [firstObject]; omega
  | user => rw [firstObject]; omega

variable {lists : TermsOf → Option (List (SearchTerm β))}

theorem content_freeHeap (r : ℕ) : content ((freeHeap lists).term r) = (r, false) := by
  change content (match ((lists (listOfObject r)).getD [])[r / 3]? with
    | some t => { t with test := r, matchAll := false }
    | none => ⟨r, false, false, false, false⟩) = (r, false)
  cases ((lists (listOfObject r)).getD [])[r / 3]? with
  | some t => rfl
  | none => rfl

theorem marks_freeTerms (lists : TermsOf → Option (List (SearchTerm β))) (of : TermsOf) :
    (freeTerms lists of).map (fun rs => ((freeHeap lists).read rs).map marks) =
      (lists of).map (·.map marks) := by
  rw [freeTerms, Option.map_map]
  refine Option.map_congr fun ts hts => ?_
  have hmarks : ∀ i (hi : i < ts.length),
      marks ((freeHeap lists).term (3 * i + firstObject of)) = marks ts[i] := by
    intro i hi
    change marks (match ((lists (listOfObject _)).getD [])[(3 * i + firstObject of) / 3]? with
      | some t => { t with test := _, matchAll := false }
      | none => ⟨_, false, false, false, false⟩) = _
    rw [listOfObject_eq, div_object, hts, Option.getD_some, getElem?_eq_getElem hi]
    rfl
  rw [Function.comp_apply, TermHeap.read, map_map, map_map]
  refine ext_getElem ?_ fun i hi hi' => ?_
  · rw [length_map, length_map, length_range]
  · rw [getElem_map, getElem_map, getElem_range]
    exact hmarks i _

theorem mem_freeTerms {of : TermsOf} {rs : List ℕ} (hrs : freeTerms lists of = some rs) {r : ℕ}
    (hr : r ∈ rs) :
    listOfObject r = of ∧ ∃ i < ((lists of).getD []).length, r = 3 * i + firstObject of := by
  obtain ⟨ts, hts, rfl⟩ := Option.map_eq_some_iff.mp hrs
  obtain ⟨i, hi, rfl⟩ := mem_map.mp hr
  refine ⟨listOfObject_eq of i, i, ?_, rfl⟩
  rw [hts]
  exact mem_range.mp hi

theorem owned_freeTerms (lists : TermsOf → Option (List (SearchTerm β))) :
    Owned (freeHeap lists) (freeTerms lists) where
  below := by
    intro of rs hrs r hr
    obtain ⟨-, i, hi, rfl⟩ := mem_freeTerms hrs hr
    change _ < 3 * (((lists .virtualFolder).getD []).length + (((lists .view).getD []).length +
      (((lists .user).getD []).length + 0)))
    cases of with
    | virtualFolder => rw [firstObject]; omega
    | view => rw [firstObject]; omega
    | user => rw [firstObject]; omega
  nodup := by
    intro of rs hrs
    obtain ⟨ts, -, rfl⟩ := Option.map_eq_some_iff.mp hrs
    refine Nodup.map (fun i j hij => ?_) nodup_range
    rw [← div_object of i, ← div_object of j]
    exact congrArg (· / 3) hij
  disjoint := by
    intro of rs of' rs' hne hrs hrs' r hr hr'
    exact hne ((mem_freeTerms hrs hr).1.symm.trans (mem_freeTerms hrs' hr').1)

variable {terms : TermsOf → Option (List ℕ)}

theorem nodup_present {h : TermHeap α}
    (howned : Owned h terms) : ((present terms).flatMap id).Nodup := by
  rw [flatMap_present, nodup_flatMap]
  constructor
  · intro of _
    cases hof : terms of with
    | none => exact nodup_nil
    | some rs => exact howned.nodup of rs hof
  · have hapart : ∀ of of', of ≠ of' → (((terms of).map id).getD []).Disjoint
        (((terms of').map id).getD []) := by
      intro of of' hne r hr hr'
      cases hof : terms of with
      | none =>
        rw [hof] at hr
        exact (not_mem_nil hr).elim
      | some rs =>
        cases hof' : terms of' with
        | none =>
          rw [hof'] at hr'
          exact (not_mem_nil hr').elim
        | some rs' =>
          rw [hof] at hr
          rw [hof'] at hr'
          exact howned.disjoint of rs of' rs' hne hof hof' r hr hr'
    have hnodup : inOrder.Nodup := by decide
    exact hnodup.imp fun hne => hapart _ _ hne

theorem contents_freeHeap (rs : List ℕ) :
    (contents ((freeHeap lists).read rs)).map Prod.fst = rs.map fun r => (r, false) := by
  rw [contents, TermHeap.read, map_map, map_map]
  exact map_congr_left fun r _ => content_freeHeap r

theorem contents_present :
    (((present (freeTerms lists)).map (freeHeap lists).read).flatMap contents).map Prod.fst =
      ((present (freeTerms lists)).flatMap id).map fun r => (r, false) := by
  rw [flatMap_map, map_flatMap, map_flatMap]
  exact flatMap_congr fun rs _ => contents_freeHeap rs

/-! ### The result -/

section

variable {h : TermHeap α}
    (hmarks : ∀ of, (terms of).map (fun rs => (h.read rs).map marks) = (lists of).map (·.map marks))

include hmarks

/-- The lists of terms that are regrouped have the marks of the given ones. -/
theorem sameMarks_present :
    ((present terms).map h.read).map (·.map marks) = (present lists).map (·.map marks) := by
  rw [← present_map lists, ← funext hmarks, present_map, map_map]
  rfl

theorem nested_present (hnested : ∀ of ts, lists of = some ts → ts ≠ [] ∧ Nested ts) :
    ∀ ts ∈ (present terms).map h.read, ts ≠ [] ∧ Nested ts := by
  intro ts hts
  obtain ⟨rs, hrs, rfl⟩ := mem_map.mp hts
  obtain ⟨of, hof⟩ := mem_present hrs
  have heq := hmarks of
  rw [hof, Option.map_some] at heq
  obtain ⟨us, hus, hmap⟩ := Option.map_eq_some_iff.mp heq.symm
  obtain ⟨hne, hus'⟩ := hnested of us hus
  refine ⟨fun hnil => hne ?_, (hus'.sameMarks hmap).1⟩
  rw [hnil] at hmap
  exact map_eq_nil_iff.mp hmap

end

/-- Setting the terms of a virtual folder leaves the terms of the caller unchanged, and the session
says that each list of terms is true exactly when the lists fit together. -/
theorem conjoined_iff_fitTogether (lists : TermsOf → Option (List (SearchTerm β)))
    (hnested : ∀ of ts, lists of = some ts → ts ≠ [] ∧ Nested ts) :
    (∀ (α : Type) (h : TermHeap α) (s : SearchSpec) (rs : List ℕ), (∀ r ∈ rs, r < h.next) →
      ∀ r < h.next, (setVirtualFolderTerms h s (some rs)).1.term r = h.term r) ∧
    (Conjoined lists ↔ FitTogether false (present lists)) := by
  refine ⟨fun α h s rs hrs r hr => setVirtualFolderTerms_frame hrs s hr, ?_, ?_⟩
  · intro hconj
    have hmarks := marks_freeTerms lists
    have hpresent := nested_present hmarks hnested
    have hfree : ∀ c ∈ (((present (freeTerms lists)).map (freeHeap lists).read).flatMap
        contents).map Prod.fst, c.2 = false := by
      intro c hc
      rw [contents_present] at hc
      obtain ⟨r, -, rfl⟩ := mem_map.mp hc
      rfl
    have hnodup : (((present (freeTerms lists)).map (freeHeap lists).read).flatMap
        contents |>.map Prod.fst).Nodup := by
      rw [contents_present]
      exact (nodup_present (owned_freeTerms lists)).map fun r q heq => congrArg Prod.fst heq
    refine (FitTogether.sameMarks (fun ts hts => (hpresent ts hts).2) (sameMarks_present hmarks)
      false).mp (fitTogether_of_forall hpresent hnodup fun v => ?_)
    have hsession := hconj ℕ (fun n => v (n, false)) (freeHeap lists) SearchSpec.new
      (freeTerms lists) inOrder (owned_freeTerms lists) (Perm.refl _) hmarks
    rw [matchTerms_session (owned_freeTerms lists) _ (Perm.refl _) hpresent,
      all_matchTerms hpresent] at hsession
    have htruth : ∀ c ∈ (((present (freeTerms lists)).map (freeHeap lists).read).flatMap
        contents).map Prod.fst, truth (fun n => v (n, false)) c = v c := by
      intro c hc
      obtain ⟨n, b⟩ := c
      obtain rfl : b = false := hfree _ hc
      exact Bool.false_or _
    rw [values_congr (fun l hl => htruth l.1 (leaves_flatMap_regrouped hpresent l hl))] at hsession
    rw [hsession, Bool.eq_iff_iff, all_eq_true, all_eq_true]
    refine forall₂_congr fun ts hts => ?_
    rw [values_congr fun l hl => htruth l.1 ?_]
    rw [(hpresent ts hts).2.leaves_operandsOf] at hl
    exact mem_map_of_mem (mem_flatMap_of_mem hts hl)
  · intro hfit α matchesTest h s terms order howned horder hmarks
    have hpresent := nested_present hmarks hnested
    have hfit' : FitTogether false ((present terms).map h.read) :=
      (FitTogether.sameMarks (fun ts hts => (hpresent ts hts).2) (sameMarks_present hmarks)
        false).mpr hfit
    rw [matchTerms_session howned s horder hpresent, all_matchTerms hpresent]
    exact values_flatMap_regrouped hpresent hfit'

/-- A saved search with an OR, and a quick filter of one group. -/
def savedAndQuick : TermsOf → Option (List (SearchTerm Unit))
  | .virtualFolder =>
    some [⟨(), false, true, false, false⟩, ⟨(), false, false, false, false⟩]
  | .view => none
  | .user => some [⟨(), false, true, true, false⟩, ⟨(), false, false, false, true⟩]

theorem conjoined_savedAndQuick : Conjoined savedAndQuick := by
  have hnested : ∀ of ts, savedAndQuick of = some ts → ts ≠ [] ∧ Nested ts := by
    intro of ts hts
    cases of with
    | virtualFolder =>
      cases hts
      exact ⟨cons_ne_nil _ _, term rfl rfl (term rfl rfl nil)⟩
    | view => cases hts
    | user =>
      cases hts
      exact ⟨cons_ne_nil _ _, group rfl rfl nil rfl rfl nil⟩
  refine (conjoined_iff_fitTogether savedAndQuick hnested).2.mpr ⟨?_, ?_, trivial⟩
  · change removable [leaf ((), false) true, leaf ((), false) false]
    refine ⟨trivial, fun y hy => ?_⟩
    obtain rfl := mem_singleton.mp hy
    exact fun l hl => congrArg Prod.snd (mem_singleton.mp hl)
  · intro _ x hx
    obtain rfl : x = group [leaf ((), false) true, leaf ((), false) false] :=
      mem_singleton.mp hx
    rfl

/-- A term of a saved search, and the two of a quick filter: a group of one term, and an OR. -/
def oneTermGroup : TermHeap ℕ where
  term r :=
    if r = 0 then ⟨0, false, true, false, false⟩
    else if r = 1 then ⟨1, false, true, true, true⟩
    else ⟨r, false, false, false, false⟩
  next := 3

def oneTermGroupLists : TermsOf → Option (List ℕ)
  | .virtualFolder => some [0]
  | .view => none
  | .user => some [1, 2]

/-- The scan takes the group of one term to be open and lets the OR pass.  The session is true of a
message for which only that term is, and the saved search is not. -/
theorem not_conjoined_oneTermGroup :
    (∀ of ts, (oneTermGroupLists of).map oneTermGroup.read = some ts → ts ≠ [] ∧ Nested ts) ∧
    Owned oneTermGroup oneTermGroupLists ∧
    (matchTerms (fun n => n = 2)
      ((setAll oneTermGroupLists inOrder oneTermGroup SearchSpec.new).1.read
        (setAll oneTermGroupLists inOrder oneTermGroup SearchSpec.new).2.updateSession)).2 ≠
      (present oneTermGroupLists).all fun rs =>
        (matchTerms (fun n => n = 2) (oneTermGroup.read rs)).2 := by
  refine ⟨fun of ts hts => ?_, ⟨?_, ?_, ?_⟩, by decide⟩
  · cases of with
    | virtualFolder =>
      cases hts
      exact ⟨cons_ne_nil _ _, term rfl rfl nil⟩
    | view => cases hts
    | user =>
      cases hts
      exact ⟨cons_ne_nil _ _, single rfl rfl (term rfl rfl nil)⟩
  · intro of rs hrs
    cases of with
    | virtualFolder => cases hrs; decide
    | view => cases hrs
    | user => cases hrs; decide
  · intro of rs hrs
    cases of with
    | virtualFolder => cases hrs; decide
    | view => cases hrs
    | user => cases hrs; decide
  · intro of rs of' rs' hne hrs hrs'
    cases of with
    | virtualFolder =>
      cases of' with
      | virtualFolder => exact absurd rfl hne
      | view => cases hrs'
      | user => cases hrs; cases hrs'; decide
    | view => cases hrs
    | user =>
      cases of' with
      | virtualFolder => cases hrs; cases hrs'; decide
      | view => cases hrs'
      | user => exact absurd rfl hne

end CommCentral.Search
