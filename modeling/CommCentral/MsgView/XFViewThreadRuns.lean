import Mathlib.Data.List.Perm.Basic
import CommCentral.Lib.Machine
import CommCentral.MsgView.XFViewThreadTree

/-!
# Cross-folder threads stay trees

From an empty thread on, messages are added and removed in any order.  As long
as each call fits, the thread holds the messages that are left, as a tree: a new
row is right below the newest of its references that is in the view, and no level
changes but those of the rows below the new row, or below the removed one.

Not every call fits.

* The search for a place goes on into the siblings of the parent, and without a
  newer sibling it ends at the end of the thread.
* Behind a newer sibling that has children, the place is before the last row
  below it.
* Above the old root, all rows but the second one get level 2.
* The level of a removed row is read from the keys.
-/

namespace CommCentral.MsgView

open List DepthRows Machine Nat Option

namespace XFViewThread

variable {Folder Id : Type*} {db : Folder → ℕ → Option (XFHdr Folder Id)}
  {s s' : XFViewThread Folder} {hdrs : List (XFHdr Folder Id)} {newHdr child : XFHdr Folder Id}

/-! ## A message more, and a message less -/

/-- A message has been put into the three arrays and counted. -/
structure Put (s s' : XFViewThread Folder) (newHdr : XFHdr Folder Id) (w : ℕ) : Prop where
  le : w ≤ s.keys.length
  keys : s'.keys = s.keys.insertIdx w newHdr.key
  folders : s'.folders = s.folders.insertIdx w newHdr.folder
  count : s'.numChildren = s.numChildren + 1
  unread : s'.numUnreadChildren = s.numUnreadChildren + if newHdr.read then 0 else 1

/-- A message has been taken out of the three arrays and is not counted any more. -/
structure Taken (s s' : XFViewThread Folder) (child : XFHdr Folder Id) (w : ℕ) : Prop where
  keys : s'.keys = s.keys.eraseIdx w
  folders : s'.folders = s.folders.eraseIdx w
  count : s'.numChildren = s.numChildren - 1
  unread : s'.numUnreadChildren = s.numUnreadChildren - if child.read then 0 else 1

theorem Holds.length_levels (h : Holds db s hdrs) : s.keys.length = s.levels.length := by
  rw [h.length_keys, h.length]

theorem Holds.countHdr_ne_one {hdr : XFHdr Folder Id} (h : Holds db s (hdr :: hdrs))
    (newHdr : XFHdr Folder Id) : (countHdr s newHdr).numChildren ≠ 1 := by
  change s.numChildren + 1 ≠ 1
  rw [h.count, length_cons]
  omega

theorem Holds.put (h : Holds db s hdrs) {w : ℕ} (hput : Put s s' newHdr w)
    (hdb : db newHdr.folder newHdr.key = some newHdr)
    (hfresh : (newHdr.key, newHdr.folder) ∉ s.keys.zip s.folders)
    (hkept : Kept s.levels s'.levels w) (htree : Valid s'.levels) :
    Holds db s' (hdrs.insertIdx w newHdr) := by
  have hperm : (hdrs.insertIdx w newHdr).Perm (newHdr :: hdrs) :=
    perm_insertIdx newHdr hdrs (h.length_keys ▸ hput.le)
  constructor
  · rw [hput.keys, h.keys, map_insertIdx]
  · rw [hput.folders, h.folders, map_insertIdx]
  · rw [hkept.1, h.length, hperm.length_eq, length_cons]
  · intro hdr hmem
    cases mem_cons.mp (hperm.mem_iff.mp hmem) with
    | inl heq => exact heq ▸ hdb
    | inr hold => exact h.known hdr hold
  · rw [(hperm.map _).nodup_iff, map_cons, nodup_cons]
    exact ⟨h.zip ▸ hfresh, h.distinct⟩
  · exact htree
  · rw [hput.count, h.count, hperm.length_eq, length_cons, Int.natCast_succ]
  · rw [hput.unread, h.unread, hperm.countP_eq, countP_cons]
    cases newHdr.read with
    | true => rfl
    | false => rfl

theorem Holds.take (h : Holds db s hdrs) {w : ℕ} (htaken : Taken s s' child w)
    (hchild : hdrs[w]? = some child) (hlowered : Lowered s.levels s'.levels w)
    (htree : Valid s'.levels) : Holds db s' (hdrs.eraseIdx w) := by
  obtain ⟨hlt, rfl⟩ := List.getElem?_eq_some_iff.mp hchild
  have hperm : (hdrs[w] :: hdrs.eraseIdx w).Perm hdrs := getElem_cons_eraseIdx_perm hlt
  have hlen : hdrs.length = (hdrs.eraseIdx w).length + 1 := by
    rw [← hperm.length_eq, length_cons]
  constructor
  · rw [htaken.keys, h.keys, eraseIdx_map]
  · rw [htaken.folders, h.folders, eraseIdx_map]
  · exact succ_injective (hlowered.1.trans (h.length.trans hlen))
  · intro hdr hmem
    exact h.known hdr (mem_of_mem_eraseIdx hmem)
  · have hnodup := (hperm.map _).nodup_iff.mpr h.distinct
    rw [map_cons, nodup_cons] at hnodup
    exact hnodup.2
  · exact htree
  · rw [htaken.count, h.count, hlen, Int.natCast_succ, Int.add_sub_cancel]
  · rw [htaken.unread, h.unread, ← hperm.countP_eq, countP_cons]
    cases hdrs[w].read with
    | true => exact Int.sub_zero _
    | false => exact Int.add_sub_cancel (hdrs.eraseIdx w |>.countP fun hdr => !hdr.read : ℕ) 1

/-! ## The level of a row below a parent -/

/-- A row is put in: the others keep their depths but for those below it, and it is below the
parent. -/
structure PutBelow (levels levels' : List ℕ) (p w : ℕ) : Prop where
  kept : Kept levels levels' w
  tree : Valid levels'
  lt : p < w
  le : w ≤ levels.length
  parent : IsParent levels' p w

variable {levels : List ℕ}

/-- A place that is reached by rows below the parent only. -/
theorem putBelow_place (htree : Valid levels) (hlow : ∀ l ∈ levels, l < 255) {p w : ℕ}
    (hpw : p < w) (hw : w ≤ levels.length)
    (hbelow : ∀ k, p < k → k < w → levels.getD p 0 < levels.getD k 0)
    (hnext : w < levels.length → levels.getD w 0 ≤ levels.getD p 0 + 2) :
    PutBelow levels (levels.insertIdx w ((levels.getD p 0 + 1) % 256)) p w := by
  have hp : p < levels.length := lt_of_lt_of_le hpw hw
  have hmod : (levels.getD p 0 + 1) % 256 = levels.getD p 0 + 1 := by
    refine mod_eq_of_lt (succ_lt_succ ?_)
    rw [getD_eq_getElem _ _ hp]
    exact hlow _ (getElem_mem hp)
  obtain ⟨front, back, rfl, rfl⟩ : ∃ front back, levels = front ++ back ∧ front.length = w :=
    ⟨levels.take w, levels.drop w, (take_append_drop w levels).symm,
      length_take_of_le hw⟩
  have hback : ∀ x ∈ back.head?, x ≤ (front ++ back).getD p 0 + 2 := by
    intro x hx
    cases back with
    | nil => exact (not_mem_none x hx).elim
    | cons y back =>
      have hat : (front ++ y :: back).getD front.length 0 = x :=
        (getD_at front back y).trans (some.inj hx)
      rw [← hat]
      refine hnext ?_
      rw [length_append, length_cons]
      omega
  rw [hmod, insertIdx_front]
  exact ⟨kept_insert front back _, insert_below htree hpw hbelow hback, hpw, hw,
    isParent_insert (fun k hk => getD_front hk back) hpw hbelow⟩

/-- The place of a row below the parent, which gets deeper. -/
theorem putBelow_adopt (htree : Valid levels) (hlow : ∀ l ∈ levels, l < 255) {p c : ℕ}
    (hbelow : Below levels p c) (hlevel : levels.getD c 0 = levels.getD p 0 + 1) :
    PutBelow levels ((bumpAt c levels).insertIdx c ((levels.getD p 0 + 1) % 256)) p c := by
  obtain ⟨hpc, hc, hdeeper⟩ := hbelow
  have hl : levels.getD c 0 < 255 := by
    rw [getD_eq_getElem _ _ hc]
    exact hlow _ (getElem_mem hc)
  obtain ⟨front, run, back, hlevels, rfl, hrun, hback⟩ := exists_run hc
  have hmod : (levels.getD p 0 + 1) % 256 = levels.getD p 0 + 1 :=
    mod_eq_of_lt (lt_succ_of_lt (hlevel ▸ hl))
  rw [hlevel] at hlevels hrun hback hl
  have hlow' : ∀ x ∈ run, x < 255 := by
    intro x hx
    refine hlow x ?_
    rw [hlevels]
    exact mem_append_right _ (mem_cons_of_mem _ (mem_append_left _ hx))
  have hbump : bumpAt front.length levels =
      front ++ ((levels.getD p 0 + 1 + 1) :: run.map (· + 1) ++ back) := by
    conv_lhs => rw [hlevels]
    exact bumpAt_run hl hrun hlow' hback
  have hkept : Kept (front ++ (levels.getD p 0 + 1) :: (run ++ back))
      (front ++ (levels.getD p 0 + 1) :: ((levels.getD p 0 + 1 + 1) :: run.map (· + 1) ++ back))
      front.length := kept_adopt hrun
  have htree' := Valid.adopt (hlevels ▸ htree)
  rw [hmod, hbump, insertIdx_front]
  refine ⟨?_, htree', hpc, le_of_lt hc, isParent_insert (fun k hk => ?_) hpc fun k hk hlt => ?_⟩
  · rwa [← hlevels] at hkept
  · conv_lhs => rw [hlevels]
    exact getD_front hk _
  · exact hdeeper k hk (le_of_lt hlt)

/-! ## Below a parent -/

theorem countBehind_deeper (l : ℕ) (levels : List ℕ) :
    ∀ j < countBehind l levels, j < levels.length ∧ l < levels.getD j 0 := by
  induction levels with
  | nil =>
    intro j hj
    cases hj
  | cons x levels ih =>
    intro j hj
    rw [countBehind] at hj
    cases lt_or_ge l x with
    | inr hge =>
      rw [if_neg (Nat.not_lt_of_le hge)] at hj
      cases hj
    | inl hlt =>
      rw [if_pos hlt] at hj
      cases j with
      | zero => exact ⟨succ_pos _, hlt⟩
      | succ j =>
        obtain ⟨hlen, hdeep⟩ := ih j (lt_of_succ_lt_succ hj)
        exact ⟨succ_lt_succ hlen, hdeep⟩

variable {hash : Id → Option (XFHdr Folder Id)}

section Place

variable [DecidableEq Id]

/-- The place below a parent is right. -/
structure ParentFits (db : Folder → ℕ → Option (XFHdr Folder Id))
    (hash : Id → Option (XFHdr Folder Id)) (s : XFViewThread Folder) (newHdr : XFHdr Folder Id)
    (p : ℕ) : Prop where
  /-- The first row that is adopted is a child of the parent. -/
  adopted : ∀ c, Adopts db hash s newHdr p c → (∀ c', c' < c → ¬Adopts db hash s newHdr p c') →
    IsParent s.levels p c
  /-- The last newer row is a child of the parent, and the row at the place is at most two levels
  below the parent. -/
  newer : (∀ c, ¬Adopts db hash s newHdr p c) → ∀ q, Newer db s newHdr p q →
    (∀ q', q < q' → ¬Newer db s newHdr p q') →
      IsParent s.levels p q ∧ s.levels.getD (placeAt s p q) 0 ≤ s.levels.getD p 0 + 2
  /-- Without one, what is behind the parent is below it. -/
  last : (∀ c, ¬Adopts db hash s newHdr p c) → (∀ q, ¬Newer db s newHdr p q) →
    ∀ i, p < i → i < s.levels.length → s.levels.getD p 0 < s.levels.getD i 0

theorem Found.putBelow {p : ℕ} {r : ℕ × ℕ × List ℕ} (h : Holds db s hdrs)
    (hlow : ∀ l ∈ s.levels, l < 255) (hp : p < s.keys.length)
    (hfits : ParentFits db hash s newHdr p) (hfound : Found db hash s newHdr p r) :
    PutBelow s.levels (r.2.2.insertIdx r.1 (r.2.1 % 256)) p r.1 := by
  cases hfound with
  | inl hadopt =>
    obtain ⟨c, hadopts, hfirst, rfl⟩ := hadopt
    obtain ⟨hbelow, hlevel⟩ := hfits.adopted c hadopts hfirst
    exact putBelow_adopt h.tree hlow hbelow hlevel
  | inr hplace =>
    obtain ⟨hnone, place, hchosen, rfl⟩ := hplace
    cases hchosen s.keys.length (le_refl _) with
    | inl hlast =>
      obtain ⟨hnewer, rfl⟩ := hlast
      have hnewer' : ∀ q, ¬Newer db s newHdr p q := fun q hq => hnewer q hq.1.2.1 hq
      refine putBelow_place h.tree hlow hp (le_of_eq h.length_levels) (fun k hk hlt => ?_)
        fun hlt => ?_
      · exact hfits.last hnone hnewer' k hk (h.length_levels ▸ hlt)
      · exact absurd hlt (Nat.not_lt_of_le (Nat.le_of_eq h.length_levels.symm))
    | inr hsibling =>
      obtain ⟨q, hq, hnewer, hlast, rfl⟩ := hsibling
      have hlast' : ∀ q', q < q' → ¬Newer db s newHdr p q' :=
        fun q' hlt hq' => hlast q' hlt hq'.1.2.1 hq'
      obtain ⟨⟨hbelow, hlevel⟩, hnext⟩ := hfits.newer hnone q hnewer hlast'
      have hcount := countBehind_deeper (s.levels.getD p 0 + 1) (s.levels.drop (q + 1))
      have hle : placeAt s p q < s.levels.length := by
        rw [placeAt]
        cases hn : countBehind (s.levels.getD p 0 + 1) (s.levels.drop (q + 1)) with
        | zero => exact hbelow.2.1
        | succ n =>
          have hlen := (hcount n (hn ▸ lt_succ_self n)).1
          rw [length_drop] at hlen
          omega
      refine putBelow_place h.tree hlow (lt_of_lt_of_le hbelow.1 (le_add_right _ _))
        (le_of_lt hle) (fun k hk hlt => ?_) fun _ => hnext
      cases lt_or_ge q k with
      | inr hge => exact hbelow.2.2 k hk hge
      | inl hqk =>
        -- the row is one of those below the sibling
        obtain ⟨j, rfl⟩ := Nat.exists_eq_add_of_lt hqk
        have hj := (hcount j (by rw [placeAt] at hlt; omega)).2
        have hdrop : (s.levels.drop (q + 1)).getD j 0 = s.levels.getD (q + j + 1) 0 := by
          rw [getD_eq_getElem?_getD, getElem?_drop, Nat.add_right_comm,
            getD_eq_getElem?_getD]
        rw [hdrop] at hj
        exact lt_of_succ_lt hj

end Place

/-! ## What a message refers to -/

/-- The newest reference of a message that is in the view, and what it refers to. -/
def NearestKnown (hash : Id → Option (XFHdr Folder Id)) (newHdr parent : XFHdr Folder Id) : Prop :=
  ∃ older reference newer, newHdr.references = older ++ reference :: newer ∧
    (∀ r ∈ newer, hash r = none) ∧ hash reference = some parent

/-- A message may be added: the levels are low, the database has it, it is not in the thread,
and the view finds the messages of the thread and no others. -/
structure AddAllowed (db : Folder → ℕ → Option (XFHdr Folder Id)) (s : XFViewThread Folder)
    (newHdr : XFHdr Folder Id) (hash : Id → Option (XFHdr Folder Id)) : Prop where
  low : ∀ l ∈ s.levels, l < 255
  known : db newHdr.folder newHdr.key = some newHdr
  fresh : (newHdr.key, newHdr.folder) ∉ s.keys.zip s.folders
  found : ∀ id hdr, hash id = some hdr → hdr.messageId = id ∧
    (hdr.key, hdr.folder) ∈ s.keys.zip s.folders ∧ db hdr.folder hdr.key = some hdr
  complete : ∀ i hdr, getChildHdrAt db s i = some hdr → (hash hdr.messageId).isSome

/-- A message may be removed: it is in the thread. -/
structure RemoveAllowed (db : Folder → ℕ → Option (XFHdr Folder Id)) (s : XFViewThread Folder)
    (child : XFHdr Folder Id) : Prop where
  known : db child.folder child.key = some child
  member : (child.key, child.folder) ∈ s.keys.zip s.folders

theorem referencesFromNewest_eq (h : newHdr.references.length < 2 ^ 16) :
    referencesFromNewest newHdr = newHdr.references.reverse := by
  rw [referencesFromNewest, mod_eq_of_lt h, take_length]

section Steps

variable [DecidableEq Folder]

variable {hdr : XFHdr Folder Id}

theorem exists_hdrIndex (h : Holds db s hdrs) (hmem : (hdr.key, hdr.folder) ∈ s.keys.zip s.folders)
    (hdb : db hdr.folder hdr.key = some hdr) :
    ∃ i, hdrs[i]? = some hdr ∧ hdrIndex s hdr = some i := by
  rw [h.zip] at hmem
  obtain ⟨other, hother, hrow⟩ := mem_map.mp hmem
  have hknown := h.known other hother
  rw [(Prod.mk.inj hrow).1, (Prod.mk.inj hrow).2, hdb] at hknown
  obtain ⟨i, hi⟩ := getElem?_of_mem hother
  rw [← some.inj hknown] at hi
  exact ⟨i, hi, h.hdrIndex hi⟩

theorem findParent_of_unknown {newer : List Id} (hnewer : ∀ r ∈ newer, hash r = none)
    (more : List Id) : findParent hash s (newer ++ more) = findParent hash s more := by
  induction newer with
  | nil => rfl
  | cons r newer ih =>
    rw [cons_append, findParent, hnewer r mem_cons_self]
    exact ih fun r' hr' => hnewer r' (mem_cons_of_mem r hr')

variable {parent : XFHdr Folder Id}

theorem NearestKnown.findParent (h : NearestKnown hash newHdr parent) :
    findParent hash s newHdr.references.reverse =
      (hdrIndex s parent).map fun i => (parent, i) := by
  obtain ⟨older, reference, newer, hreferences, hnewer, hparent⟩ := h
  have hnewer' : ∀ r ∈ newer.reverse, hash r = none :=
    fun r hr => hnewer r (mem_reverse.mp hr)
  rw [hreferences, reverse_append, reverse_cons, append_assoc,
    findParent_of_unknown hnewer', singleton_append, XFViewThread.findParent, hparent]

theorem AddAllowed.not_nearestKnown (ha : AddAllowed db s newHdr hash) (h : Holds db s hdrs)
    (hnone : findParent hash s newHdr.references.reverse = none) (parent : XFHdr Folder Id) :
    ¬NearestKnown hash newHdr parent := by
  intro hnearest
  obtain ⟨older, reference, newer, -, -, hparent⟩ := id hnearest
  obtain ⟨-, hmem, hdb⟩ := ha.found reference parent hparent
  obtain ⟨i, -, hi⟩ := exists_hdrIndex h hmem hdb
  rw [hnearest.findParent, hi] at hnone
  cases hnone

theorem findParent_some {references : List Id} {p : ℕ}
    (h : findParent hash s references = some (parent, p)) :
    hdrIndex s parent = some p ∧ ∃ newer reference older,
      references = newer ++ reference :: older ∧ (∀ r ∈ newer, hash r = none) ∧
        hash reference = some parent := by
  induction references with
  | nil => cases h
  | cons reference more ih =>
    rw [findParent] at h
    cases hreference : hash reference with
    | none =>
      rw [hreference] at h
      obtain ⟨hindex, newer, reference', older, rfl, hnewer, hparent⟩ := ih h
      refine ⟨hindex, reference :: newer, reference', older, rfl, fun r hr => ?_, hparent⟩
      cases mem_cons.mp hr with
      | inl heq => exact heq ▸ hreference
      | inr hmem => exact hnewer r hmem
    | some found =>
      rw [hreference] at h
      obtain ⟨i, hi, heq⟩ := map_eq_some_iff.mp h
      cases heq
      exact ⟨hi, [], reference, more, rfl, fun r hr => (not_mem_nil hr).elim, hreference⟩

theorem nearestKnown_of_findParent {p : ℕ}
    (h : findParent hash s newHdr.references.reverse = some (parent, p)) :
    NearestKnown hash newHdr parent := by
  obtain ⟨-, newer, reference, older, hreferences, hnewer, hparent⟩ := findParent_some h
  refine ⟨older.reverse, reference, newer.reverse, ?_, fun r hr => ?_, hparent⟩
  · rw [← reverse_reverse newHdr.references, hreferences, reverse_append,
      reverse_cons, append_assoc, singleton_append]
  · exact hnewer r (mem_reverse.mp hr)

theorem findParent_countHdr (references : List Id) :
    findParent hash (countHdr s newHdr) references = findParent hash s references := by
  induction references with
  | nil => rfl
  | cons reference more ih =>
    rw [findParent, ih]
    rfl

/-! ## A step -/

/-- A message has been added to a thread: the others keep their order, their levels change only
below it and by one, and it is below its nearest known reference. -/
structure Added (hash : Id → Option (XFHdr Folder Id)) (s s' : XFViewThread Folder)
    (newHdr : XFHdr Folder Id) (w : ℕ) : Prop where
  put : Put s s' newHdr w
  kept : Kept s.levels s'.levels w
  tree : Valid s'.levels
  parent : ∀ parent, NearestKnown hash newHdr parent →
    ∃ p, hdrIndex s parent = some p ∧ IsParent s'.levels (shift w p) w

/-- A message has been removed from a thread: the others keep their order, and their levels
change only below it and by one. -/
structure Removed (s s' : XFViewThread Folder) (child : XFHdr Folder Id) (w : ℕ) : Prop where
  index : hdrIndex s child = some w
  taken : Taken s s' child w
  lowered : Lowered s.levels s'.levels w
  tree : Valid s'.levels

theorem removeChildHdr_eq {w : ℕ} (hindex : hdrIndex s child = some w) {front run back : List ℕ}
    {l : ℕ} (hlevels : s.levels = front ++ l :: (run ++ back)) (hw : front.length = w)
    (hrun : ∀ x ∈ run, s.keys.getD w 0 % 256 < x)
    (hback : ∀ x ∈ back.head?, x ≤ s.keys.getD w 0 % 256) :
    (s.removeChildHdr child).1.levels = front ++ (run.map (· - 1) ++ back) ∧
      Taken s (s.removeChildHdr child).1 child w := by
  have htake : (front ++ l :: (run ++ back)).take (front.length + 1) = front ++ [l] := by
    rw [take_length_add_append, take_succ_cons, take_zero]
  have hdrop : (front ++ l :: (run ++ back)).drop (front.length + 1) = run ++ back := by
    rw [drop_length_add_append, drop_succ_cons, drop_zero]
  have hlowered : (s.levels.take (w + 1) ++
      lowerBehind (s.keys.getD w 0 % 256) (s.levels.drop (w + 1))).eraseIdx w =
        front ++ (run.map (· - 1) ++ back) := by
    rw [hlevels, ← hw, htake, hdrop, hw, lowerBehind_run hrun hback, append_assoc, ← hw,
      eraseIdx_append_of_length_le (Nat.le_refl _), Nat.sub_self]
    rfl
  rw [removeChildHdr]
  cases Classical.em (child.date = s.newestMsgDate) with
  | inl hdate =>
    rw [if_pos hdate]
    have hindex' : hdrIndex { s with newestMsgDate := 0 } child = some w := hindex
    rw [hindex']
    exact ⟨hlowered, rfl, rfl, rfl, rfl⟩
  | inr hdate =>
    rw [if_neg hdate]
    rw [hindex]
    exact ⟨hlowered, rfl, rfl, rfl, rfl⟩

/-- `RemoveChildHdr` finds the rows below a message with the key for the level. -/
def RemoveFits (s : XFViewThread Folder) (child : XFHdr Folder Id) : Prop :=
  ∀ w, hdrIndex s child = some w → ∀ i, w < i → i < s.levels.length →
    (∀ j, w < j → j < i → Below s.levels w j) →
      (Below s.levels w i ↔ child.key % 256 < s.levels.getD i 0)

/-- The key parts what is below the message from what is behind. -/
theorem RemoveFits.run (hf : RemoveFits s child) {w : ℕ} (hindex : hdrIndex s child = some w)
    {front run back : List ℕ} {l : ℕ} (hlevels : s.levels = front ++ l :: (run ++ back))
    (hlen : front.length = w) (hrun : ∀ x ∈ run, l < x) (hback : ∀ x ∈ back.head?, x ≤ l) :
    (∀ x ∈ run, child.key % 256 < x) ∧ ∀ x ∈ back.head?, x ≤ child.key % 256 := by
  have hbelow : ∀ i, Below s.levels w i ↔ w < i ∧ i ≤ w + run.length := by
    intro i
    rw [hlevels, ← hlen]
    exact below_iff_of_run hrun hback i
  have hat : ∀ j, s.levels.getD (w + 1 + j) 0 = (run ++ back).getD j 0 := by
    intro j
    rw [hlevels, ← hlen, getD_behind]
  have hlength : s.levels.length = w + 1 + (run ++ back).length := by
    rw [hlevels, length_append, length_cons, hlen, add_comm _ 1, add_assoc]
  -- the rows behind the message, up to the first one that is not below it
  have hfit : ∀ j ≤ run.length, j < (run ++ back).length →
      (j < run.length ↔ child.key % 256 < (run ++ back).getD j 0) := by
    intro j hle hlt
    have hiff := hf w hindex (w + 1 + j) (by omega) (by omega) fun i hwi hij =>
      (hbelow i).mpr ⟨hwi, by omega⟩
    rw [hbelow, hat] at hiff
    omega
  constructor
  · intro x hx
    obtain ⟨j, hj, rfl⟩ := getElem_of_mem hx
    have hlt := (hfit j (le_of_lt hj) (by rw [length_append]; omega)).mp hj
    rwa [getD_front hj, getD_eq_getElem _ _ hj] at hlt
  · intro x hx
    cases back with
    | nil => exact (not_mem_none x hx).elim
    | cons y back =>
      have hnot := (hfit run.length (le_refl _)
        (by rw [length_append, length_cons]; omega)).not.mp (lt_irrefl _)
      rw [getD_at] at hnot
      exact some.inj hx ▸ Nat.le_of_not_lt hnot

/-- `RemoveChildHdr`. -/
theorem removeChildHdr_removed (h : Holds db s hdrs) (ha : RemoveAllowed db s child)
    (hf : RemoveFits s child) :
    ∃ w, hdrs[w]? = some child ∧ Removed s (s.removeChildHdr child).1 child w := by
  obtain ⟨w, hw, hindex⟩ := exists_hdrIndex h ha.member ha.known
  have hkey : s.keys.getD w 0 = child.key := by
    rw [getD_eq_getElem?_getD, h.keys, getElem?_map, hw]
    rfl
  obtain ⟨front, l, run, back, hlevels, hlen, hrun, hback⟩ : ∃ front l run back,
      s.levels = front ++ l :: (run ++ back) ∧ front.length = w ∧ (∀ x ∈ run, l < x) ∧
        ∀ x ∈ back.head?, x ≤ l := by
    have hlt : w < s.levels.length := h.length ▸ (List.getElem?_eq_some_iff.mp hw).1
    obtain ⟨front, run, back, hparts⟩ := exists_run hlt
    exact ⟨front, _, run, back, hparts⟩
  obtain ⟨hrun', hback'⟩ := hf.run hindex hlevels hlen hrun hback
  rw [← hkey] at hrun' hback'
  obtain ⟨hlevels', htaken⟩ := removeChildHdr_eq hindex hlevels hlen hrun' hback'
  refine ⟨w, hw, hindex, htaken, ?_, ?_⟩
  · rw [hlevels', hlevels, ← hlen]
    exact lowered_remove hrun hback
  · rw [hlevels']
    exact (hlevels ▸ h.tree).remove hrun hback

variable [DecidableEq Id]

/-- `AddHdr` finds a right place for a message. -/
structure AddFits (db : Folder → ℕ → Option (XFHdr Folder Id))
    (hash : Id → Option (XFHdr Folder Id)) (s : XFViewThread Folder) (newHdr : XFHdr Folder Id) :
    Prop where
  references : newHdr.references.length < 2 ^ 16
  parent : ∀ parent p, NearestKnown hash newHdr parent → hdrIndex s parent = some p →
    ParentFits db hash s newHdr p
  /-- A row above the root has the other rows as grandchildren. -/
  root : (∀ parent, ¬NearestKnown hash newHdr parent) → ∀ rootHdr,
    getChildHdrAt db s 0 = some rootHdr → isHdrParentOf hash newHdr rootHdr →
      ∀ l ∈ s.levels.tail, l = 1

theorem addHdr_first (h : Holds db s []) (ha : AddAllowed db s newHdr hash) :
    Added hash s (addHdr db hash s newHdr true).1 newHdr 0 := by
  have hcount : (countHdr s newHdr).numChildren = 1 := by
    change s.numChildren + 1 = 1
    rw [h.count]
    rfl
  have hlevels : s.levels = [] := eq_nil_of_length_eq_zero h.length
  rw [addHdr]
  rw [if_pos hcount]
  refine ⟨⟨zero_le _, rfl, rfl, rfl, rfl⟩, ?_, ?_, fun parent hparent => ?_⟩
  · change Kept s.levels (s.levels.insertIdx 0 0) 0
    exact hlevels ▸ kept_insert [] [] 0
  · change Valid (s.levels.insertIdx 0 0)
    exact hlevels ▸ valid_singleton
  · obtain ⟨older, reference, newer, -, -, hhash⟩ := hparent
    have hmem := (ha.found reference parent hhash).2.1
    rw [h.zip] at hmem
    exact (not_mem_nil hmem).elim

/-- The place below a parent, as `placeLoop` finds it. -/
def placeBelow (db : Folder → ℕ → Option (XFHdr Folder Id))
    (hash : Id → Option (XFHdr Folder Id)) (s : XFViewThread Folder) (newHdr : XFHdr Folder Id)
    (p : ℕ) : ℕ × ℕ × List ℕ :=
  placeLoop db hash (countHdr s newHdr) newHdr true p (s.levels.getD p 0) s.keys.length p
    s.keys.length (s.levels.getD p 0 + 1)

theorem addHdr_eq_below {p : ℕ} (hcount : (countHdr s newHdr).numChildren ≠ 1)
    (hreferences : newHdr.references.length < 2 ^ 16)
    (hfind : findParent hash s newHdr.references.reverse = some (parent, p)) :
    (addHdr db hash s newHdr true).1 =
      ({ countHdr s newHdr with levels := (placeBelow db hash s newHdr p).2.2 }).insertAt
        (placeBelow db hash s newHdr p).1 newHdr (placeBelow db hash s newHdr p).2.1 := by
  rw [addHdr]
  rw [if_neg hcount, findParent_countHdr, referencesFromNewest_eq hreferences, hfind]
  rfl

theorem addHdr_below {p : ℕ} (h : Holds db s (hdr :: hdrs)) (ha : AddAllowed db s newHdr hash)
    (hf : AddFits db hash s newHdr)
    (hfind : findParent hash s newHdr.references.reverse = some (parent, p)) :
    ∃ w, Added hash s (addHdr db hash s newHdr true).1 newHdr w := by
  have hnearest := nearestKnown_of_findParent hfind
  have hindex := (findParent_some hfind).1
  have hp : p < s.keys.length := by
    obtain ⟨-, hmem, hdb⟩ := ha.found _ parent hnearest.choose_spec.choose_spec.choose_spec.2.2
    obtain ⟨i, hi, hindex'⟩ := exists_hdrIndex h hmem hdb
    rw [hindex] at hindex'
    rw [some.inj hindex', h.length_keys]
    exact (List.getElem?_eq_some_iff.mp hi).1
  have hfound : Found db hash s newHdr p (placeBelow db hash s newHdr p) := by
    refine placeLoop_found (s := countHdr s newHdr) s.keys.length (le_add_right _ _)
      (Nat.le_refl p) (fun k hk hkp => absurd hk (Nat.not_lt_of_lt hkp)) (fun c hc hadopts => ?_)
      (Or.inl ⟨fun q hq hnewer => ?_, rfl⟩)
    · exact absurd hadopts.1.1 (Nat.not_le_of_lt hc)
    · exact absurd hnewer.1.1 (Nat.not_le_of_lt hq)
  have hput := hfound.putBelow h ha.low hp (hf.parent parent p hnearest hindex)
  rw [addHdr_eq_below (h.countHdr_ne_one newHdr) hf.references hfind]
  refine ⟨(placeBelow db hash s newHdr p).1, ⟨h.length_levels ▸ hput.le, rfl, rfl, rfl, rfl⟩,
    hput.kept, hput.tree, fun parent' hnearest' => ?_⟩
  rw [hnearest'.findParent] at hfind
  obtain ⟨i, hi, heq⟩ := map_eq_some_iff.mp hfind
  cases heq
  refine ⟨p, hi, ?_⟩
  rw [shift_of_lt hput.lt]
  exact hput.parent

section

variable {rootHdr : XFHdr Folder Id} (hcount : (countHdr s newHdr).numChildren ≠ 1)
    (hreferences : newHdr.references.length < 2 ^ 16)
    (hfind : findParent hash s newHdr.references.reverse = none)
    (hroot : getChildHdrAt db s 0 = some rootHdr)

include hcount hreferences hfind hroot

theorem addHdr_eq_root (hparent : isHdrParentOf hash newHdr rootHdr = true) :
    (addHdr db hash s newHdr true).1 =
      { (countHdr s newHdr).insertAt 0 newHdr 0 with
        levels := adjustRoot (s.keys.length + 1) 1 (0 :: s.levels) } := by
  have hroot' : getChildHdrAt db (countHdr s newHdr) 0 = some rootHdr := hroot
  rw [addHdr]
  rw [if_neg hcount, findParent_countHdr, referencesFromNewest_eq hreferences, hfind]
  rw [hroot']
  dsimp only
  rw [if_pos hparent]
  rfl

theorem addHdr_eq_behind (hparent : isHdrParentOf hash newHdr rootHdr = false) :
    (addHdr db hash s newHdr true).1 = (countHdr s newHdr).insertAt s.keys.length newHdr 1 := by
  have hroot' : getChildHdrAt db (countHdr s newHdr) 0 = some rootHdr := hroot
  rw [addHdr]
  rw [if_neg hcount, findParent_countHdr, referencesFromNewest_eq hreferences, hfind]
  rw [hroot']
  dsimp only
  rw [if_neg (by rw [hparent]; exact Bool.false_ne_true)]
  rfl

end

section

variable (h : Holds db s (hdr :: hdrs)) (ha : AddAllowed db s newHdr hash)
    (hf : AddFits db hash s newHdr) (hfind : findParent hash s newHdr.references.reverse = none)

include h ha hf hfind

theorem addHdr_root (hparent : isHdrParentOf hash newHdr hdr = true) :
    Added hash s (addHdr db hash s newHdr true).1 newHdr 0 := by
  have hroot : getChildHdrAt db s 0 = some hdr := h.getChildHdrAt 0
  have hunknown := ha.not_nearestKnown h hfind
  have hrest := hf.root hunknown hdr hroot hparent
  obtain ⟨rest, hlevels⟩ : ∃ rest, s.levels = 0 :: rest := by
    cases hlevels : s.levels with
    | nil =>
      have hlen := h.length
      rw [hlevels] at hlen
      cases hlen
    | cons l rest =>
      have hl : l = 0 := h.tree.head l (by rw [hlevels]; rfl)
      exact ⟨rest, by rw [hl]⟩
  rw [hlevels] at hrest
  have hlen : s.keys.length = rest.length + 1 := by
    rw [h.length_levels, hlevels, length_cons]
  have hrun : ∀ x ∈ rest, 0 < x := fun x hx => hrest x hx ▸ Nat.one_pos
  have hadjust : adjustRoot (s.keys.length + 1) 1 (0 :: s.levels) = 0 :: 1 :: rest.map (· + 1) := by
    rw [hlen, hlevels]
    exact adjustRoot_eq hrest
  have hlevels' : s.levels = [] ++ 0 :: (rest ++ []) := by
    rw [hlevels, append_nil, nil_append]
  have hadopted : 0 :: 1 :: rest.map (· + 1) = [] ++ 0 :: (1 :: rest.map (· + 1) ++ []) := by
    rw [append_nil, nil_append]
  have hkept : Kept s.levels (0 :: 1 :: rest.map (· + 1)) 0 := by
    rw [hlevels', hadopted]
    exact kept_adopt hrun
  have htree : Valid (0 :: 1 :: rest.map (· + 1)) := by
    rw [hadopted]
    exact Valid.adopt (hlevels' ▸ h.tree)
  rw [addHdr_eq_root (h.countHdr_ne_one newHdr) hf.references hfind hroot hparent, hadjust]
  exact ⟨⟨zero_le _, rfl, rfl, rfl, rfl⟩, hkept, htree,
    fun parent hnearest => (hunknown parent hnearest).elim⟩

theorem addHdr_behind (hparent : isHdrParentOf hash newHdr hdr = false) :
    Added hash s (addHdr db hash s newHdr true).1 newHdr s.keys.length := by
  have hroot : getChildHdrAt db s 0 = some hdr := h.getChildHdrAt 0
  have hunknown := ha.not_nearestKnown h hfind
  have hne : s.levels ≠ [] := by
    intro hnil
    have hlen := h.length
    rw [hnil] at hlen
    cases hlen
  have hinsert : s.levels.insertIdx s.keys.length 1 = s.levels ++ [1] := by
    rw [h.length_levels, insertIdx_length_self]
  have hkept : Kept s.levels (s.levels ++ [1]) s.levels.length := by
    have hkept := kept_insert s.levels [] 1
    rwa [append_nil] at hkept
  have htree : Valid (s.levels ++ [1]) := by
    refine Valid.insert ?_ hne (fun x _ => succ_le_succ (zero_le x))
      fun x hx => (not_mem_none x hx).elim
    rw [append_nil]
    exact h.tree
  rw [addHdr_eq_behind (h.countHdr_ne_one newHdr) hf.references hfind hroot hparent]
  refine ⟨⟨le_refl _, rfl, rfl, rfl, rfl⟩, ?_, ?_,
    fun parent hnearest => (hunknown parent hnearest).elim⟩
  · change Kept s.levels (s.levels.insertIdx s.keys.length 1) s.keys.length
    rw [hinsert, h.length_levels]
    exact hkept
  · change Valid (s.levels.insertIdx s.keys.length 1)
    rw [hinsert]
    exact htree

end

/-- `AddHdr`. -/
theorem addHdr_added (h : Holds db s hdrs) (ha : AddAllowed db s newHdr hash)
    (hf : AddFits db hash s newHdr) :
    ∃ w, Added hash s (addHdr db hash s newHdr true).1 newHdr w := by
  cases hdrs with
  | nil => exact ⟨0, addHdr_first h ha⟩
  | cons hdr hdrs =>
    cases hfind : findParent hash s newHdr.references.reverse with
    | some found => exact addHdr_below h ha hf hfind
    | none =>
      cases hparent : isHdrParentOf hash newHdr hdr with
      | true => exact ⟨0, addHdr_root h ha hf hfind hparent⟩
      | false => exact ⟨s.keys.length, addHdr_behind h ha hf hfind hparent⟩

/-! ## Runs -/

/-- A message is added, with what the view finds at that time, or removed. -/
inductive Op (Folder Id : Type*)
  | addHdr (newHdr : XFHdr Folder Id) (hash : Id → Option (XFHdr Folder Id))
  | removeChildHdr (child : XFHdr Folder Id)

def step (db : Folder → ℕ → Option (XFHdr Folder Id)) :
    Machine.Step (XFViewThread Folder) (Op Folder Id) Unit
  | s, .addHdr newHdr hash => ((addHdr db hash s newHdr true).1, ())
  | s, .removeChildHdr child => ((s.removeChildHdr child).1, ())

/-- The call may be made. -/
def Allowed (db : Folder → ℕ → Option (XFHdr Folder Id)) (s : XFViewThread Folder) :
    Op Folder Id → Prop
  | .addHdr newHdr hash => AddAllowed db s newHdr hash
  | .removeChildHdr child => RemoveAllowed db s child

/-- The call finds the right rows. -/
def Fits (db : Folder → ℕ → Option (XFHdr Folder Id)) (s : XFViewThread Folder) :
    Op Folder Id → Prop
  | .addHdr newHdr hash => AddFits db hash s newHdr
  | .removeChildHdr child => RemoveFits s child

/-- The call changes what it is meant to change, and nothing else. -/
def Right (db : Folder → ℕ → Option (XFHdr Folder Id)) (s : XFViewThread Folder) :
    Op Folder Id → Prop
  | .addHdr newHdr hash => ∃ w, Added hash s (addHdr db hash s newHdr true).1 newHdr w
  | .removeChildHdr child => ∃ w, Removed s (s.removeChildHdr child).1 child w

/-- The messages that are there after a call. -/
def membersAfter (members : List (XFHdr Folder Id)) : Op Folder Id → List (XFHdr Folder Id)
  | .addHdr newHdr _ => newHdr :: members
  | .removeChildHdr child =>
    members.filter fun hdr => (hdr.key, hdr.folder) ≠ (child.key, child.folder)

theorem holds_step (h : Holds db s hdrs) {op : Op Folder Id} (ha : Allowed db s op)
    (hf : Fits db s op) {members : List (XFHdr Folder Id)} (hmembers : hdrs.Perm members) :
    Right db s op ∧ ∃ hdrs', hdrs'.Perm (membersAfter members op) ∧
      Holds db (step db s op).1 hdrs' := by
  cases op with
  | addHdr newHdr hash =>
    obtain ⟨w, hadded⟩ := addHdr_added h ha hf
    refine ⟨⟨w, hadded⟩, hdrs.insertIdx w newHdr, ?_,
      h.put hadded.put ha.known ha.fresh hadded.kept hadded.tree⟩
    exact (perm_insertIdx newHdr hdrs (h.length_keys ▸ hadded.put.le)).trans
      (hmembers.cons newHdr)
  | removeChildHdr child =>
    obtain ⟨w, hw, hremoved⟩ := removeChildHdr_removed h ha hf
    refine ⟨⟨w, hremoved⟩, hdrs.eraseIdx w, ?_,
      h.take hremoved.taken hw hremoved.lowered hremoved.tree⟩
    obtain ⟨hlt, rfl⟩ := List.getElem?_eq_some_iff.mp hw
    have hperm : (hdrs[w] :: hdrs.eraseIdx w).Perm hdrs := getElem_cons_eraseIdx_perm hlt
    have hdistinct := (hperm.map _).nodup_iff.mpr h.distinct
    rw [map_cons, nodup_cons] at hdistinct
    have hfilter : (hdrs[w] :: hdrs.eraseIdx w).filter
        (fun hdr => (hdr.key, hdr.folder) ≠ (hdrs[w].key, hdrs[w].folder)) =
          hdrs.eraseIdx w := by
      refine (filter_cons_of_neg (by simp)).trans (filter_eq_self.mpr ?_)
      intro hdr hmem
      refine decide_eq_true fun heq => hdistinct.1 ?_
      rw [← heq]
      exact mem_map_of_mem hmem
    rw [← hfilter]
    exact (hperm.trans hmembers).filter _

theorem holds_run {members : List (XFHdr Folder Id)} (h : Holds db s hdrs)
    (hmembers : hdrs.Perm members) {ops : List (Op Folder Id)}
    (ha : Along (step db) (Allowed db) s ops)
    (hf : Along (step db) (Fits db) s ops) :
    (∃ hdrs', hdrs'.Perm (ops.foldl membersAfter members) ∧
      Holds db (exec (step db) s ops) hdrs') ∧
        Along (step db) (Right db) s ops := by
  induction ops generalizing s hdrs members with
  | nil => exact ⟨⟨hdrs, hmembers, h⟩, trivial⟩
  | cons op ops ih =>
    obtain ⟨hright, hdrs', hmembers', h'⟩ := holds_step h ha.1 hf.1 hmembers
    obtain ⟨hend, hrights⟩ := ih h' hmembers' ha.2 hf.2
    exact ⟨hend, hright, hrights⟩

/-- From an empty thread on, as long as each call fits, the thread holds the messages that are
left, as a tree, and each call changes only what it is meant to change. -/
theorem tree_of_fits (db : Folder → ℕ → Option (XFHdr Folder Id)) (ops : List (Op Folder Id))
    (ha : Machine.Along (step db) (Allowed db) new ops)
    (hf : Machine.Along (step db) (Fits db) new ops) :
    (∀ before, before <+: ops → ∃ hdrs, hdrs.Perm (before.foldl membersAfter []) ∧
      Holds db (Machine.exec (step db) new before) hdrs) ∧
        Machine.Along (step db) (Right db) new ops := by
  refine ⟨fun before hbefore => ?_, (holds_run (holds_new db) (Perm.refl []) ha hf).2⟩
  exact (holds_run (holds_new db) (Perm.refl []) (ha.restrict hbefore) (hf.restrict hbefore)).1

end Steps

/-! ## A root, its reply, and no root -/

def rootAndReply (key : ℕ) : XFHdr Unit ℕ × XFHdr Unit ℕ :=
  (⟨(), key, 10, true, false, 1, []⟩, ⟨(), key + 1, 20, false, false, 2, [1]⟩)

/-- The database has both. -/
def rootAndReplyDb (key : ℕ) : Unit → ℕ → Option (XFHdr Unit ℕ) := fun _ k =>
  if k = key then some (rootAndReply key).1
  else if k = key + 1 then some (rootAndReply key).2
  else none

/-- What the view finds when the reply is added. -/
def rootHash (key : ℕ) : ℕ → Option (XFHdr Unit ℕ) := fun id =>
  if id = 1 then some (rootAndReply key).1 else none

def rootAndReplyOps (key : ℕ) : List (Op Unit ℕ) :=
  [.addHdr (rootAndReply key).1 fun _ => none,
    .addHdr (rootAndReply key).2 (rootHash key),
    .removeChildHdr (rootAndReply key).1]

def rootThread (key : ℕ) : XFViewThread Unit := ⟨[key], [()], [0], 1, 0, 10, false⟩

def replyThread (key : ℕ) : XFViewThread Unit := ⟨[key, key + 1], [(), ()], [0, 1], 2, 1, 20, false⟩

section Root

variable (key : ℕ)

theorem rootAndReplyDb_root : rootAndReplyDb key () key = some (rootAndReply key).1 := if_pos rfl

theorem rootAndReplyDb_reply : rootAndReplyDb key () (key + 1) = some (rootAndReply key).2 :=
  (if_neg (succ_ne_self key)).trans (if_pos rfl)

theorem addHdr_reply_eq : (addHdr (rootAndReplyDb key) (rootHash key) (rootThread key)
    (rootAndReply key).2 true).1 = replyThread key := by
  have hcount : (countHdr (rootThread key) (rootAndReply key).2).numChildren ≠ 1 := by
    change (2 : ℤ) ≠ 1
    decide
  have hchild : getChildHdrAt (rootAndReplyDb key) (countHdr (rootThread key) (rootAndReply key).2)
      0 = some (rootAndReply key).1 := rootAndReplyDb_root key
  have hindex : hdrIndex (rootThread key) (rootAndReply key).1 = some 0 := by
    simp [hdrIndex, rootThread, rootAndReply]
  have hfind : findParent (rootHash key) (rootThread key) (rootAndReply key).2.references.reverse =
      some ((rootAndReply key).1, 0) := by
    change (hdrIndex _ (rootAndReply key).1).map _ = _
    rw [hindex]
    rfl
  have hplace : placeBelow (rootAndReplyDb key) (rootHash key) (rootThread key)
      (rootAndReply key).2 0 = (1, 1, [0]) := by
    change placeLoop _ _ _ _ true 0 0 1 0 1 1 = _
    rw [placeLoop, hchild]
    rfl
  rw [addHdr_eq_below hcount (Nat.lt_of_sub_eq_succ rfl) hfind, hplace]
  rfl

theorem hdrIndex_root : hdrIndex (replyThread key) (rootAndReply key).1 = some 0 := by
  change findIdx? (fun row => decide (row = (key, ()))) ((key, ()) :: _) = _
  rw [findIdx?_cons, if_pos (decide_eq_true rfl)]

theorem rootAndReply_allowed :
    Along (step (rootAndReplyDb key)) (Allowed (rootAndReplyDb key)) new
      (rootAndReplyOps key) := by
  refine ⟨?_, ?_, ?_, trivial⟩
  · constructor
    · exact fun l hl => (not_mem_nil hl).elim
    · exact rootAndReplyDb_root key
    · exact not_mem_nil
    · intro id hdr h
      cases h
    · intro i hdr h
      cases h
  · change AddAllowed _ (rootThread key) _ (rootHash key)
    constructor
    · intro l hl
      rw [mem_singleton.mp hl]
      decide
    · exact rootAndReplyDb_reply key
    · intro hmem
      exact absurd (Prod.mk.inj (mem_singleton.mp hmem)).1 (succ_ne_self key)
    · intro id hdr h
      rw [rootHash] at h
      split at h
      case isTrue hid =>
        cases h
        exact ⟨hid.symm, mem_singleton.mpr rfl, rootAndReplyDb_root key⟩
      case isFalse => cases h
    · intro i hdr h
      cases i with
      | zero =>
        rw [← some.inj ((rootAndReplyDb_root key).symm.trans h)]
        rfl
      | succ i => cases h
  · change RemoveAllowed _ (addHdr _ _ (rootThread key) _ _).1 _
    rw [addHdr_reply_eq]
    exact ⟨rootAndReplyDb_root key, mem_cons_self⟩

/-- Adding them fits, and the removal does when the key makes the level 0. -/
theorem rootAndReply_fits (hkey : key % 256 = 0) :
    Along (step (rootAndReplyDb key)) (Fits (rootAndReplyDb key)) new
      (rootAndReplyOps key) := by
  have hscanned : ∀ i, Scanned (rootThread key) 0 i → i = 0 :=
    fun i hi => lt_one_iff.mp hi.2.1
  refine ⟨⟨Nat.two_pow_pos 16, ?_, ?_⟩, ?_, ?_, trivial⟩
  · rintro parent p ⟨older, reference, newer, h, -, -⟩
    cases older with
    | nil => cases h
    | cons => cases h
  · intro _ rootHdr h
    cases h
  · change AddFits _ (rootHash key) (rootThread key) _
    refine ⟨Nat.lt_of_sub_eq_succ rfl, fun parent p _ hp => ?_, fun hunknown => ?_⟩
    · have hzero : p = 0 := by
        obtain ⟨hlt, -⟩ := findIdx?_eq_some_iff_getElem.mp hp
        exact lt_one_iff.mp hlt
      subst hzero
      constructor
      · rintro c ⟨hc, child, hchild, hparent⟩ -
        rw [hscanned c hc] at hchild
        rw [← some.inj ((rootAndReplyDb_root key).symm.trans hchild)] at hparent
        cases hparent
      · rintro - q ⟨hq, hlevel, -⟩ -
        rw [hscanned q hq] at hlevel
        cases hlevel
      · intro _ _ i hpos hlt
        exact absurd hpos (Nat.not_lt_of_le (Nat.le_of_lt_succ hlt))
    · exact (hunknown (rootAndReply key).1 ⟨[], 1, [], rfl,
        fun r hr => (not_mem_nil hr).elim, rfl⟩).elim
  · change RemoveFits (addHdr _ _ (rootThread key) _ _).1 _
    rw [addHdr_reply_eq]
    intro w hw i hwi hi _
    rw [hdrIndex_root] at hw
    rw [← some.inj hw] at hwi ⊢
    have hone : i = 1 := le_antisymm (le_of_lt_succ hi) hwi
    subst hone
    change Below [0, 1] 0 1 ↔ key % 256 < 1
    rw [hkey]
    refine ⟨fun _ => Nat.one_pos, fun _ => ⟨Nat.one_pos, Nat.one_lt_two, fun k hk hle => ?_⟩⟩
    rw [le_antisymm hle hk]
    exact Nat.one_pos

end Root

/-- The message and the reply are there, then the reply alone. -/
theorem tree_of_rootAndReply :
    (∀ before, before <+: rootAndReplyOps 256 → ∃ hdrs,
      hdrs.Perm (before.foldl membersAfter []) ∧
        Holds (rootAndReplyDb 256) (Machine.exec (step (rootAndReplyDb 256)) new before) hdrs) ∧
      Machine.Along (step (rootAndReplyDb 256)) (Right (rootAndReplyDb 256)) new
        (rootAndReplyOps 256) :=
  tree_of_fits (rootAndReplyDb 256) (rootAndReplyOps 256) (rootAndReply_allowed 256)
    (rootAndReply_fits 256 rfl)

/-- Message 5 is removed, and its reply stays at level 1. -/
theorem not_tree_of_rootAndReply :
    Machine.Along (step (rootAndReplyDb 5)) (Allowed (rootAndReplyDb 5)) new
        (rootAndReplyOps 5) ∧
      ¬∃ hdrs, Holds (rootAndReplyDb 5)
        (Machine.exec (step (rootAndReplyDb 5)) new (rootAndReplyOps 5)) hdrs := by
  refine ⟨rootAndReply_allowed 5, ?_⟩
  rintro ⟨hdrs, h⟩
  have hlevels : (exec (step (rootAndReplyDb 5)) new (rootAndReplyOps 5)).levels = [1] := by
    rfl
  have hhead := h.tree.head 1
  exact absurd (hhead rfl) Nat.one_ne_zero

end XFViewThread

end CommCentral.MsgView
