import CommCentral.Lib.DepthRows
import CommCentral.MsgView.XFViewThread

/-!
# Cross-folder threads as trees

The levels of a thread are the depths of a tree in its order.  The loops of
`AddHdr` and `RemoveChildHdr` make a row and what is below it deeper, or less
deep, when they stop where that run of rows ends.
-/

namespace CommCentral.MsgView

open List DepthRows Nat

namespace XFViewThread

/-! ## The loops -/

variable {front run back : List ℕ} {l : ℕ}

theorem bumpBehind_run (hrun : ∀ x ∈ run, l < x) (hlow : ∀ x ∈ run, x < 255)
    (hback : ∀ x ∈ back.head?, x ≤ l) :
    bumpBehind l (run ++ back) = run.map (· + 1) ++ back := by
  induction run with
  | nil =>
    cases back with
    | nil => rfl
    | cons x back => exact if_neg (Nat.not_lt_of_le (hback x rfl))
  | cons x run ih =>
    have hx : x + 1 < 256 := succ_lt_succ (hlow x mem_cons_self)
    rw [cons_append, bumpBehind, if_pos (hrun x mem_cons_self), mod_eq_of_lt hx,
      ih (fun y hy => hrun y (mem_cons_of_mem x hy))
        fun y hy => hlow y (mem_cons_of_mem x hy)]
    rfl

theorem bumpAt_run (hl : l < 255) (hrun : ∀ x ∈ run, l < x) (hlow : ∀ x ∈ run, x < 255)
    (hback : ∀ x ∈ back.head?, x ≤ l) :
    bumpAt front.length (front ++ l :: (run ++ back)) =
      front ++ ((l + 1) :: run.map (· + 1) ++ back) := by
  rw [bumpAt, drop_left, take_left]
  dsimp only
  rw [bumpBehind_run hrun hlow hback, mod_eq_of_lt (succ_lt_succ hl)]
  rfl

theorem lowerBehind_run (hrun : ∀ x ∈ run, l < x) (hback : ∀ x ∈ back.head?, x ≤ l) :
    lowerBehind l (run ++ back) = run.map (· - 1) ++ back := by
  induction run with
  | nil =>
    cases back with
    | nil => rfl
    | cons x back => exact if_neg (Nat.not_lt_of_le (hback x rfl))
  | cons x run ih =>
    rw [cons_append, lowerBehind, if_pos (hrun x mem_cons_self),
      ih fun y hy => hrun y (mem_cons_of_mem x hy)]
    rfl

theorem adjustRoot_behind (rest : List ℕ) {fuel : ℕ} (hfuel : rest.length ≤ fuel) :
    ∀ front : List ℕ, 2 ≤ front.length → front.getD 1 0 = 1 →
      adjustRoot fuel front.length (front ++ rest) = front ++ rest.map fun _ => 2 := by
  induction rest generalizing fuel with
  | nil =>
    intro front _ _
    rw [map_nil, List.append_nil]
    cases fuel with
    | zero => rfl
    | succ fuel => rw [adjustRoot, if_neg (lt_irrefl _)]
  | cons x rest ih =>
    intro front hlen hone
    cases fuel with
    | zero => cases hfuel
    | succ fuel =>
      have hlt : front.length < (front ++ x :: rest).length := by
        rw [length_append, length_cons]
        omega
      have hset : (front ++ x :: rest).set front.length 2 = (front ++ [2]) ++ rest := by
        rw [set_append_right _ _ (Nat.le_refl _), Nat.sub_self, append_assoc]
        rfl
      have hlen' : (front ++ [2]).length = front.length + 1 := by
        rw [length_append, length_singleton]
      have hone' : (front ++ [2]).getD 1 0 = 1 := by
        rw [getD_front (by omega), hone]
      have ih' := ih (le_of_succ_le_succ hfuel) (front ++ [2]) (by omega) hone'
      rw [adjustRoot, if_pos hlt, getD_front (by omega), hone]
      rw [hset, ← hlen', ih', append_assoc]
      rfl

/-- Above a root all of whose other rows are at level 1. -/
theorem adjustRoot_eq {rest : List ℕ} (hrest : ∀ x ∈ rest, x = 1) :
    adjustRoot (rest.length + 2) 1 (0 :: 0 :: rest) = 0 :: 1 :: rest.map (· + 1) := by
  have hrun := adjustRoot_behind rest (le_succ rest.length) [0, 1] (le_refl 2) rfl
  have hmap : rest.map (· + 1) = rest.map fun _ => 2 :=
    map_congr_left fun x hx => by rw [hrest x hx]
  rw [hmap]
  exact hrun

theorem insertIdx_front {α : Type*} (front back : List α) (x : α) :
    (front ++ back).insertIdx front.length x = front ++ x :: back := by
  induction front with
  | nil => rfl
  | cons a front ih => exact congrArg (a :: ·) ih

/-! ## A place below a parent -/

/-- A row is put in below a parent, behind rows that are below the parent. -/
theorem insert_below (h : Valid (front ++ back)) {p : ℕ} (hp : p < front.length)
    (hbelow : ∀ k, p < k → k < front.length →
      (front ++ back).getD p 0 < (front ++ back).getD k 0)
    (hback : ∀ x ∈ back.head?, x ≤ (front ++ back).getD p 0 + 2) :
    Valid (front ++ ((front ++ back).getD p 0 + 1) :: back) := by
  have hne : front ≠ [] := by
    rintro rfl
    cases hp
  refine h.insert hne (fun x hx => ?_) hback
  rw [getLast?_eq_getElem?] at hx
  have hlast : front.length - 1 < front.length := by omega
  have hx' : (front ++ back).getD (front.length - 1) 0 = x := by
    rw [getD_front hlast, getD_eq_getElem?_getD, Option.mem_def.mp hx]
    rfl
  refine succ_le_succ (hx' ▸ ?_)
  cases eq_or_lt_of_le (le_sub_one_of_lt hp) with
  | inl heq => rw [← heq]
  | inr hlt => exact le_of_lt (hbelow _ hlt hlast)

theorem isParent_insert {levels : List ℕ} (hlevels : ∀ k, k < front.length →
    levels.getD k 0 = front.getD k 0) {p : ℕ} (hp : p < front.length)
    (hbelow : ∀ k, p < k → k < front.length → levels.getD p 0 < levels.getD k 0) :
    IsParent (front ++ (levels.getD p 0 + 1) :: back) p front.length := by
  have hparent : (front ++ (levels.getD p 0 + 1) :: back).getD p 0 = levels.getD p 0 := by
    rw [getD_front hp, hlevels p hp]
  refine ⟨⟨hp, ?_, ?_⟩, ?_⟩
  · rw [length_append, length_cons]
    omega
  · intro k hk hle
    rw [hparent]
    cases eq_or_lt_of_le hle with
    | inl heq =>
      rw [heq, getD_at]
      exact lt_succ_self _
    | inr hlt =>
      rw [getD_front hlt, ← hlevels k hlt]
      exact hbelow k hk hlt
  · rw [getD_at, hparent]

/-! ## What a thread holds -/

variable {Folder Id : Type*}

/-- The thread holds these messages, as a tree. -/
structure Holds (db : Folder → ℕ → Option (XFHdr Folder Id)) (s : XFViewThread Folder)
    (hdrs : List (XFHdr Folder Id)) : Prop where
  keys : s.keys = hdrs.map (·.key)
  folders : s.folders = hdrs.map (·.folder)
  length : s.levels.length = hdrs.length
  known : ∀ hdr ∈ hdrs, db hdr.folder hdr.key = some hdr
  distinct : (hdrs.map fun hdr => (hdr.key, hdr.folder)).Nodup
  tree : Valid s.levels
  count : s.numChildren = hdrs.length
  unread : s.numUnreadChildren = (hdrs.countP fun hdr => !hdr.read : ℕ)

variable {db : Folder → ℕ → Option (XFHdr Folder Id)} {s : XFViewThread Folder}
  {hdrs : List (XFHdr Folder Id)}

theorem holds_new (db : Folder → ℕ → Option (XFHdr Folder Id)) : Holds db new [] :=
  ⟨rfl, rfl, rfl, fun _ h => (not_mem_nil h).elim, nodup_nil, valid_nil, rfl, rfl⟩

theorem Holds.zip (h : Holds db s hdrs) :
    s.keys.zip s.folders = hdrs.map fun hdr => (hdr.key, hdr.folder) := by
  rw [h.keys, h.folders, zip_map']

theorem Holds.length_keys (h : Holds db s hdrs) : s.keys.length = hdrs.length := by
  rw [h.keys, length_map]

theorem Holds.getChildHdrAt (h : Holds db s hdrs) (i : ℕ) :
    getChildHdrAt db s i = hdrs[i]? := by
  rw [XFViewThread.getChildHdrAt, h.keys, h.folders, getElem?_map, getElem?_map]
  cases hi : hdrs[i]? with
  | none => rfl
  | some hdr => exact h.known hdr (mem_of_getElem? hi)

section Find

variable [DecidableEq Folder]

theorem Holds.hdrIndex (h : Holds db s hdrs) {i : ℕ} {hdr : XFHdr Folder Id}
    (hi : hdrs[i]? = some hdr) : hdrIndex s hdr = some i := by
  obtain ⟨hlt, rfl⟩ := List.getElem?_eq_some_iff.mp hi
  rw [XFViewThread.hdrIndex, h.zip, findIdx?_map, findIdx?_eq_some_iff_getElem]
  refine ⟨hlt, decide_eq_true rfl, fun j hj => ?_⟩
  rw [Bool.not_eq_true]
  refine decide_eq_false fun heq => ?_
  have hrows : (hdrs.map fun hdr => (hdr.key, hdr.folder))[j]? =
      (hdrs.map fun hdr => (hdr.key, hdr.folder))[i]? := by
    rw [getElem?_map, getElem?_map, getElem?_eq_getElem (lt_trans hj hlt),
      getElem?_eq_getElem hlt, Option.map_some, Option.map_some]
    exact congrArg some heq
  have hlen : j < (hdrs.map fun hdr => (hdr.key, hdr.folder)).length := by
    rw [length_map]
    exact lt_trans hj hlt
  exact Nat.ne_of_lt hj ((getElem?_inj hlen h.distinct).mp hrows)

end Find

/-! ## The rows that are searched for a place -/

/-- `placeLoop` comes to a row, if it goes on for so long. -/
def Scanned (s : XFViewThread Folder) (p i : ℕ) : Prop :=
  p ≤ i ∧ i < s.keys.length ∧ ∀ k, p < k → k ≤ i → s.levels.getD p 0 ≤ s.levels.getD k 0

/-- The row is one level below the parent, and newer than the new message. -/
def Newer (db : Folder → ℕ → Option (XFHdr Folder Id)) (s : XFViewThread Folder)
    (newHdr : XFHdr Folder Id) (p i : ℕ) : Prop :=
  Scanned s p i ∧ s.levels.getD i 0 = s.levels.getD p 0 + 1 ∧
    ∃ child, getChildHdrAt db s i = some child ∧ newHdr.date < child.date

/-- The place before a row and its children, or rather before the last of these. -/
def placeAt (s : XFViewThread Folder) (p q : ℕ) : ℕ :=
  q + countBehind (s.levels.getD p 0 + 1) (s.levels.drop (q + 1))

/-- The place that has been found before a row: at the last newer row, or at the end. -/
def Chosen (db : Folder → ℕ → Option (XFHdr Folder Id)) (s : XFViewThread Folder)
    (newHdr : XFHdr Folder Id) (p i place : ℕ) : Prop :=
  ((∀ q, q < i → ¬Newer db s newHdr p q) ∧ place = s.keys.length) ∨
    ∃ q, q < i ∧ Newer db s newHdr p q ∧ (∀ q', q < q' → q' < i → ¬Newer db s newHdr p q') ∧
      place = placeAt s p q

variable {newHdr : XFHdr Folder Id} {p : ℕ}

theorem Chosen.skip {i place : ℕ} (h : Chosen db s newHdr p i place)
    (hnot : ¬Newer db s newHdr p i) : Chosen db s newHdr p (i + 1) place := by
  cases h with
  | inl h =>
    obtain ⟨hnone, hplace⟩ := h
    refine Or.inl ⟨fun q hq => ?_, hplace⟩
    cases Nat.lt_succ_iff_lt_or_eq.mp hq with
    | inl hlt => exact hnone q hlt
    | inr heq => exact heq ▸ hnot
  | inr h =>
    obtain ⟨q, hq, hnewer, hlast, hplace⟩ := h
    refine Or.inr ⟨q, lt_succ_of_lt hq, hnewer, fun q' hlt hq' => ?_, hplace⟩
    cases Nat.lt_succ_iff_lt_or_eq.mp hq' with
    | inl hlt' => exact hlast q' hlt hlt'
    | inr heq => exact heq ▸ hnot

variable [DecidableEq Id]

/-- The new message is the parent of the one in this row. -/
def Adopts (db : Folder → ℕ → Option (XFHdr Folder Id)) (hash : Id → Option (XFHdr Folder Id))
    (s : XFViewThread Folder) (newHdr : XFHdr Folder Id) (p i : ℕ) : Prop :=
  Scanned s p i ∧ ∃ child, getChildHdrAt db s i = some child ∧ isHdrParentOf hash newHdr child

/-- What the loop finds: the first row to adopt, or else the last newer one, or none. -/
def Found (db : Folder → ℕ → Option (XFHdr Folder Id)) (hash : Id → Option (XFHdr Folder Id))
    (s : XFViewThread Folder) (newHdr : XFHdr Folder Id) (p : ℕ) (r : ℕ × ℕ × List ℕ) : Prop :=
  (∃ c, Adopts db hash s newHdr p c ∧ (∀ c', c' < c → ¬Adopts db hash s newHdr p c') ∧
      r = (c, s.levels.getD p 0 + 1, bumpAt c s.levels)) ∨
    (∀ c, ¬Adopts db hash s newHdr p c) ∧
      ∃ place, (∀ n, s.keys.length ≤ n → Chosen db s newHdr p n place) ∧
        r = (place, s.levels.getD p 0 + 1, s.levels)

variable {hash : Id → Option (XFHdr Folder Id)}

/-- When no row from here on is scanned, the place is the one that has been chosen. -/
theorem found_of_end {i place : ℕ} (hend : ∀ j, i ≤ j → ¬Scanned s p j)
    (hnone : ∀ c, c < i → ¬Adopts db hash s newHdr p c) (hplace : Chosen db s newHdr p i place) :
    Found db hash s newHdr p (place, s.levels.getD p 0 + 1, s.levels) := by
  refine Or.inr ⟨fun c hc => ?_, place, fun n hn => ?_, rfl⟩
  · cases lt_or_ge c i with
    | inl hlt => exact hnone c hlt hc
    | inr hge => exact hend c hge hc.1
  · cases hplace with
    | inl h =>
      refine Or.inl ⟨fun q _ hq => ?_, h.2⟩
      cases lt_or_ge q i with
      | inl hlt => exact h.1 q hlt hq
      | inr hge => exact hend q hge hq.1
    | inr h =>
      obtain ⟨q, hq, hnewer, hlast, heq⟩ := h
      refine Or.inr ⟨q, lt_of_lt_of_le hnewer.1.2.1 hn, hnewer, fun q' hlt _ hq' => ?_, heq⟩
      cases lt_or_ge q' i with
      | inl hlt' => exact hlast q' hlt hlt' hq'
      | inr hge => exact hend q' hge hq'.1

theorem placeLoop_found (fuel : ℕ) {i place : ℕ} (hfuel : s.keys.length ≤ fuel + i) (hpi : p ≤ i)
    (hscanned : ∀ k, p < k → k < i → s.levels.getD p 0 ≤ s.levels.getD k 0)
    (hnone : ∀ c, c < i → ¬Adopts db hash s newHdr p c) (hplace : Chosen db s newHdr p i place) :
    Found db hash s newHdr p (placeLoop db hash s newHdr true p (s.levels.getD p 0) fuel i place
      (s.levels.getD p 0 + 1)) := by
  induction fuel generalizing i place with
  | zero =>
    refine found_of_end (fun j hj hscan => ?_) hnone hplace
    have hlt := hscan.2.1
    omega
  | succ fuel ih =>
    rw [placeLoop]
    cases Classical.em (i < s.keys.length ∧
        (i = p ∨ s.levels.getD p 0 ≤ s.levels.getD i 0)) with
    | inr hend =>
      rw [if_neg hend]
      refine found_of_end (fun j hj hscan => hend ⟨lt_of_le_of_lt hj hscan.2.1, ?_⟩) hnone
        hplace
      cases eq_or_lt_of_le hpi with
      | inl heq => exact Or.inl heq.symm
      | inr hlt => exact Or.inr (hscan.2.2 i hlt hj)
    | inl hgo =>
      rw [if_pos hgo]
      have hscanned' : ∀ k, p < k → k < i + 1 → s.levels.getD p 0 ≤ s.levels.getD k 0 := by
        intro k hk hki
        cases Nat.lt_succ_iff_lt_or_eq.mp hki with
        | inl hlt => exact hscanned k hk hlt
        | inr heq =>
          subst heq
          cases hgo.2 with
          | inl heq => exact absurd heq (ne_of_gt hk)
          | inr hle => exact hle
      have hrow : Scanned s p i :=
        ⟨hpi, hgo.1, fun k hk hki => hscanned' k hk (lt_succ_of_le hki)⟩
      have hnext : ∀ place', ¬Adopts db hash s newHdr p i →
          Chosen db s newHdr p (i + 1) place' →
          Found db hash s newHdr p (placeLoop db hash s newHdr true p (s.levels.getD p 0) fuel
            (i + 1) place' (s.levels.getD p 0 + 1)) := by
        intro place' hadopts hchosen
        refine ih (by omega) (le_succ_of_le hpi) hscanned' (fun c hc => ?_) hchosen
        cases Nat.lt_succ_iff_lt_or_eq.mp hc with
        | inl hlt => exact hnone c hlt
        | inr heq => exact heq ▸ hadopts
      cases hchild : XFViewThread.getChildHdrAt db s i with
      | none =>
        refine hnext place ?_ (hplace.skip ?_)
        · rintro ⟨-, child, hsome, -⟩
          rw [hchild] at hsome
          cases hsome
        · rintro ⟨-, -, child, hsome, -⟩
          rw [hchild] at hsome
          cases hsome
      | some child =>
        dsimp only
        cases hparent : isHdrParentOf hash newHdr child with
        | true =>
          exact Or.inl ⟨i, ⟨hrow, child, hchild, hparent⟩, hnone, rfl⟩
        | false =>
          have hadopts : ¬Adopts db hash s newHdr p i := by
            rintro ⟨-, child', hsome, hparent'⟩
            rw [hchild] at hsome
            rw [← Option.some.inj hsome, hparent] at hparent'
            exact Bool.noConfusion hparent'
          cases Classical.em
              (s.levels.getD i 0 = s.levels.getD p 0 + 1 ∧ newHdr.date < child.date) with
          | inl hnewer =>
            rw [if_pos hnewer, hnewer.1]
            refine hnext _ hadopts (Or.inr ⟨i, lt_succ_self i,
              ⟨hrow, hnewer.1, child, hchild, hnewer.2⟩, fun q hlt hq => ?_, rfl⟩)
            exact absurd hlt (Nat.not_lt_of_le (Nat.le_of_lt_succ hq))
          | inr hnewer =>
            rw [if_neg hnewer]
            refine hnext place hadopts (hplace.skip ?_)
            rintro ⟨-, hlevel, child', hsome, hdate⟩
            rw [hchild] at hsome
            exact hnewer ⟨hlevel, Option.some.inj hsome ▸ hdate⟩

end XFViewThread

end CommCentral.MsgView
