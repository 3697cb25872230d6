import CommCentral.Lib.Outline
import CommCentral.Lib.RowOrder
import CommCentral.Subscribe.Paths

/-!
# The rows of the subscribe tree

The rows are the outline of the tree (`rows`): siblings come in ascending order
of their names, which is the order of `prevSibling` from `lastChild` on, and a
row is followed by the rows below it when it is open.

`ToggleOpenState` keeps this for a row that is a container
(`toggleOpenState_spec`).  A row is opened with all that is open below it.
-/

namespace CommCentral.Subscribe

open Option List ParentTree SubscribableServer Nat

/-! ## The outline -/

def siblingsFrom (h : Heap) : ℕ → Option ℕ → List ℕ
  | 0, _ => []
  | _, none => []
  | fuel + 1, some c => c :: siblingsFrom h fuel (h.node c).prevSibling

/-- The children of a node in ascending order of their names. -/
def rowChildren (h : Heap) (p : ℕ) : List ℕ := siblingsFrom h h.size (h.node p).lastChild

/-- A node whose rows are not shown. -/
def isClosed (h : Heap) (n : ℕ) : Bool := !(h.node n).isOpen

/-- A bound on the depth below a node. -/
def rowRank (h : Heap) (n : ℕ) : ℕ := h.size - n

/-- The nodes below the root all of whose proper ancestors are open, in preorder. -/
def rows (h : Heap) (root : ℕ) : List ℕ :=
  outline (rowChildren h) (isClosed h) (rowRank h) root

def rowNext (h : Heap) (n : ℕ) : Option ℕ :=
  if (h.node n).parent = none then none else (h.node n).prevSibling

/-- The loop over `prevSibling` goes through the children from the last one on. -/
theorem siblingsFrom_eq {h : Heap} {p : ℕ} {u w : List ℕ} (hl : Children h p (u ++ w)) {fuel : ℕ}
    (hfuel : u.length ≤ fuel) : siblingsFrom h fuel u.getLast? = u.reverse := by
  induction fuel generalizing u w with
  | zero =>
    rw [length_eq_zero_iff.mp (le_zero.mp hfuel)]
    rfl
  | succ fuel ih =>
    rcases eq_nil_or_concat u with rfl | ⟨u, c, rfl⟩
    · rfl
    · rw [concat_eq_append] at hl hfuel ⊢
      rw [append_assoc] at hl
      rw [length_append] at hfuel
      rw [getLast?_concat, siblingsFrom, hl.links.2, ih hl (le_of_succ_le_succ hfuel),
        reverse_concat]

theorem Children.rowChildren_eq {h : Heap} {p : ℕ} {l : List ℕ} (hl : Children h p l) :
    rowChildren h p = l.reverse := by
  rw [rowChildren, hl.last]
  rw [← List.append_nil l] at hl
  refine siblingsFrom_eq hl ?_
  have hlen := hl.length_le
  rw [List.append_nil] at hlen
  exact hlen

section Tree

variable {h : Heap} {root : ℕ} (ht : SubscribeTree h root)
include ht

theorem mem_rowChildren (p c : ℕ) :
    c ∈ rowChildren h p ↔ c < h.size ∧ (h.node c).parent = some p := by
  obtain ⟨l, hl⟩ := ht.children p
  rw [hl.rowChildren_eq, mem_reverse]
  exact hl.mem_iff c

theorem nodup_rowChildren (p : ℕ) : (rowChildren h p).Nodup := by
  obtain ⟨l, hl⟩ := ht.children p
  rw [hl.rowChildren_eq]
  exact nodup_reverse.mpr hl.nodup

theorem length_rowChildren_le (p : ℕ) : (rowChildren h p).length ≤ h.size := by
  obtain ⟨l, hl⟩ := ht.children p
  rw [hl.rowChildren_eq, length_reverse]
  exact hl.length_le

theorem head?_rowChildren (p : ℕ) : (rowChildren h p).head? = (h.node p).lastChild := by
  obtain ⟨l, hl⟩ := ht.children p
  rw [hl.rowChildren_eq, head?_reverse, hl.last]

theorem rowChildren_ne_nil {p : ℕ} (hp : (h.node p).firstChild ≠ none) : rowChildren h p ≠ [] := by
  obtain ⟨l, hl⟩ := ht.children p
  rw [hl.rowChildren_eq]
  intro hnil
  rw [reverse_eq_nil_iff] at hnil
  rw [hl.first, hnil] at hp
  exact hp rfl

theorem rowRank_lt (p : ℕ) : ∀ c ∈ rowChildren h p, rowRank h c < rowRank h p := by
  intro c hc
  obtain ⟨hlt, hparent⟩ := (mem_rowChildren ht p c).mp hc
  have hpc := ht.parent_lt_of hlt hparent
  rw [rowRank, rowRank]
  omega

theorem rowNext_eq (p : ℕ) (x : List ℕ) (c : ℕ) (y : List ℕ) (hc : rowChildren h p = x ++ c :: y) :
    rowNext h c = y.head? := by
  obtain ⟨l, hl⟩ := ht.children p
  have hparent := ((mem_rowChildren ht p c).mp (by simp [hc])).2
  have hl' : l = y.reverse ++ c :: x.reverse := by
    rw [hl.rowChildren_eq, reverse_eq_iff] at hc
    rw [hc]
    simp
  rw [hl'] at hl
  rw [rowNext, hparent, if_neg (some_ne_none p), hl.links.2, getLast?_reverse]

theorem isTree : IsTree (· < h.size) (fun n => (h.node n).parent) root where
  root_mem := ht.root_lt
  root_parent := ht.root_parent
  parent_mem c p hc hp := lt_trans (ht.parent_lt_of hc hp) hc
  climbs n hn := by
    induction n using Nat.strongRecOn with
    | ind n ih =>
      rcases eq_or_ne n root with rfl | hroot
      · exact Climbs.refl _
      · obtain ⟨p, hp, hparent⟩ := ht.parent_lt n hn hroot
        exact Climbs.step hparent (ih p hp (lt_trans hp hn))

theorem mem_rows {n : ℕ} (hn : n ∈ rows h root) : n < h.size ∧ (h.node n).parent ≠ none := by
  obtain ⟨hlt, c, -, hc, hnc⟩ :=
    climbs_of_mem_preorder (fun p c hc => (mem_rowChildren ht p c).mp hc) hn
  refine ⟨hlt, fun hnone => ?_⟩
  rw [hnc.eq_of_none hnone, hnone] at hc
  cases hc

theorem nodup_rows : (rows h root).Nodup :=
  (isTree ht).nodup_preorder (fun p c hc => (mem_rowChildren ht p c).mp hc) (nodup_rowChildren ht)

end Tree

/-! ## Rows that are added -/

def siblingRows (h : Heap) (l : List ℕ) : List ℕ :=
  rowsOf (rowChildren h) (isClosed h) (rowRank h) l

def rowsBelow (h : Heap) (n : ℕ) : List ℕ :=
  if isClosed h n then [] else outline (rowChildren h) (isClosed h) (rowRank h) n

theorem siblingRows_cons (h : Heap) (n : ℕ) (l : List ℕ) :
    siblingRows h (n :: l) = n :: (rowsBelow h n ++ siblingRows h l) := rfl

variable {h : Heap} {root : ℕ}

/-- The loop over the siblings inserts their rows. -/
theorem addSiblings_spec (ht : SubscribeTree h root) {fuel : ℕ} :
    ∀ {p : ℕ} {x l u w : List ℕ} {index total depth : ℕ}, rowChildren h p = x ++ l →
      (∀ c ∈ l, rowRank h c ≤ depth) → l.length + depth * (h.size + 2) ≤ fuel →
      u.length = index + total →
      addSiblings h fuel l.head? index total (u ++ w) =
        (u ++ (siblingRows h l ++ w), total + (siblingRows h l).length) := by
  induction fuel using Nat.strongRecOn with
  | ind fuel ih =>
    intro p x l u w index total depth hl hdepth hfuel hu
    cases l with
    | nil =>
      cases fuel with
      | zero => rfl
      | succ fuel => rfl
    | cons c l =>
      have hc := (mem_rowChildren ht p c).mp (by simp [hl])
      have hrank := hdepth c mem_cons_self
      have hdepth' : depth * (h.size + 2) = (depth - 1) * (h.size + 2) + (h.size + 2) := by
        rw [← succ_mul]
        congr 1
        rw [rowRank] at hrank
        omega
      rw [length_cons] at hfuel
      obtain ⟨fuel, rfl⟩ : ∃ k, fuel = k + 2 := ⟨fuel - 2, by omega⟩
      -- the subtree of the first one ...
      have hsubtree : addSubtree h (fuel + 1) c (index + total) (u ++ w) =
          (u ++ c :: (rowsBelow h c ++ w), 1 + (rowsBelow h c).length) := by
        rw [addSubtree, ← hu, RowOrder.insertIdx_append, rowsBelow]
        cases hopen : (h.node c).isOpen with
        | false => simp [isClosed, hopen]
        | true =>
          have hkids : ∀ d ∈ rowChildren h c, rowRank h d ≤ depth - 1 := by
            intro d hd
            have hlt := rowRank_lt ht c d hd
            omega
          have hlen := length_rowChildren_le ht c
          have hbelow : addSiblings h fuel (rowChildren h c).head? u.length 1
              (u ++ [c] ++ w) = (u ++ [c] ++ (siblingRows h (rowChildren h c) ++ w),
                1 + (siblingRows h (rowChildren h c)).length) :=
            ih fuel (by omega) (List.nil_append _).symm hkids (by omega) (by simp)
          rw [siblingRows, ← outline_eq (rowRank_lt ht), head?_rowChildren ht,
            append_assoc, append_assoc] at hbelow
          have hclosed : isClosed h c = false := by rw [isClosed, hopen, Bool.not_true]
          rw [hclosed]
          exact hbelow
      -- ... and its siblings
      have hprev : (h.node c).prevSibling = l.head? := by
        have hnext := rowNext_eq ht p x c l hl
        rw [rowNext, hc.2, if_neg (some_ne_none p)] at hnext
        exact hnext
      have hrest : addSiblings h (fuel + 1) l.head? index (total + (1 + (rowsBelow h c).length))
          (u ++ c :: rowsBelow h c ++ w) = (u ++ c :: rowsBelow h c ++ (siblingRows h l ++ w),
            total + (1 + (rowsBelow h c).length) + (siblingRows h l).length) := by
        refine ih (fuel + 1) (by omega) (x := x ++ [c]) (p := p) ?_
          (fun d hd => hdepth d (mem_cons_of_mem c hd)) (by omega) ?_
        · rw [hl, append_assoc, singleton_append]
        · rw [length_append, length_cons]
          omega
      rw [append_assoc, append_assoc, cons_append, cons_append] at hrest
      rw [head?_cons, addSiblings, hsubtree]
      dsimp only
      rw [hprev, hrest, siblingRows_cons, length_cons, length_append,
        cons_append, append_assoc]
      congr 1
      omega

/-! ## Rows that are removed -/

theorem indexOf_eq {u v w : List ℕ} {c : ℕ} (hc : c ∉ v) :
    indexOf (u ++ (v ++ c :: w)) c u.length = v.length + u.length := by
  have hfind : (v ++ c :: w).findIdx? (fun n => decide (n = c)) = some v.length := by
    induction v with
    | nil => rw [List.nil_append, findIdx?_cons, decide_eq_true rfl]; rfl
    | cons d v ih =>
      rw [mem_cons, not_or] at hc
      rw [cons_append, findIdx?_cons, decide_eq_false (Ne.symm hc.1), ih hc.2]
      rfl
  rw [indexOf, drop_left, hfind]

variable {aIndex n : ℕ}

/-- The loop looks for the node that comes behind. -/
theorem closeCount_spec {mRowMap : List ℕ} {fuel : ℕ} {m : Option ℕ}
    (hlt : ∀ c < h.size, ∀ p, (h.node c).parent = some p → p < c) (hn : n < h.size)
    (hbehind : Behind (rowNext h) (fun n => (h.node n).parent) n m)
    (hparent : (h.node n).parent ≠ none) (hfuel : n < fuel) {count : ℤ} (hcount : count ≠ 0)
    (hsome : ∀ c ∈ m, indexOf mRowMap c aIndex - aIndex - 1 = count)
    (hnone : m = none → (mRowMap.length : ℤ) - aIndex - 1 = count) :
    closeCount h mRowMap aIndex fuel n = some count := by
  induction hbehind generalizing fuel with
  | @sibling n c hc =>
    cases fuel with
    | zero => exact absurd hfuel (not_lt_zero _)
    | succ fuel =>
      rw [rowNext, if_neg hparent] at hc
      rw [closeCount, hc]
      dsimp only
      rw [hsome c rfl, if_neg fun hzero => hcount hzero.1]
  | @up n p m hlast hp hm ih =>
    cases fuel with
    | zero => exact absurd hfuel (not_lt_zero _)
    | succ fuel =>
      rw [rowNext, if_neg hparent] at hlast
      rw [closeCount, hlast]
      rw [hp]
      dsimp only
      have hpn := hlt n hn p hp
      split
      · next hroot =>
          -- nothing comes behind the root
          have hm' : m = none := by
            cases hm with
            | sibling hc =>
              rw [rowNext, if_pos hroot] at hc
              cases hc
            | up _ hp' _ => cases hroot.symm.trans hp'
            | root _ _ => rfl
          rw [hnone hm']
      · next hnot => exact ih (lt_trans hpn hn) hnot (by omega) hsome hnone
  | root _ hp => exact absurd hp hparent

theorem removeElementsAt_eq (u v w : List ℕ) :
    removeElementsAt (u ++ (v ++ w)) u.length v.length = some (u ++ w) := by
  rw [removeElementsAt, if_pos]
  · rw [take_left, Int.toNat_natCast, ← drop_drop, drop_left, drop_left]
  · rw [length_append, length_append]
    omega

/-! ## Toggling -/

theorem siblingsFrom_congr {h' : Heap} (hs : SameLinks h h') (fuel : ℕ) (c : Option ℕ) :
    siblingsFrom h' fuel c = siblingsFrom h fuel c := by
  induction fuel generalizing c with
  | zero => rfl
  | succ fuel ih =>
    cases c with
    | none => rfl
    | some c => rw [siblingsFrom, siblingsFrom, hs.prevSibling, ih]

theorem SameLinks.rowChildren_eq {h' : Heap} (hs : SameLinks h h') :
    rowChildren h' = rowChildren h ∧ rowRank h' = rowRank h ∧ rowNext h' = rowNext h := by
  refine ⟨funext fun p => ?_, funext fun n => ?_, funext fun n => ?_⟩
  · rw [rowChildren, rowChildren, hs.size, hs.lastChild, siblingsFrom_congr hs]
  · rw [rowRank, rowRank, hs.size]
  · rw [rowNext, rowNext, hs.parent, hs.prevSibling]

/-- A heap in which a node is open, or closed. -/
def setOpen (h : Heap) (n : ℕ) (isOpen : Bool) : Heap :=
  h.modify n fun n => { n with isOpen := isOpen }

theorem sameLinks_setOpen (h : Heap) (n : ℕ) (isOpen : Bool) : SameLinks h (setOpen h n isOpen) :=
  sameLinks_modify h n fun _ => ⟨rfl, rfl, rfl, rfl, rfl, rfl⟩

theorem SubscribeTree.setOpen (ht : SubscribeTree h root) (n : ℕ)
    (isOpen : Bool) : SubscribeTree (setOpen h n isOpen) root :=
  (ht.flags n (f := fun n => { n with isOpen := isOpen })
    (fun _ => ⟨rfl, rfl, rfl, rfl, rfl, rfl⟩) fun _ => rfl).1

theorem setOpen_eq {isOpen : Bool} (hn : (h.node n).isOpen = isOpen) : setOpen h n isOpen = h := by
  rw [setOpen, Heap.modify, ← hn, Function.update_eq_self]

theorem isClosed_setOpen (h : Heap) (n : ℕ) (isOpen : Bool) (c : ℕ) :
    isClosed (setOpen h n isOpen) c = if c = n then !isOpen else isClosed h c := by
  rw [isClosed, setOpen, modify_node]
  split
  · rfl
  · rfl

/-- The rows while a node is closed, and while it is open. -/
theorem rows_setOpen (ht : SubscribeTree h root)
    (hmem : n ∈ rows (setOpen h n false) root ∨ n ∈ rows (setOpen h n true) root) :
    ∃ u w, rows (setOpen h n false) root = u ++ n :: w ∧
      rows (setOpen h n true) root = u ++ n :: (siblingRows (setOpen h n true)
        (rowChildren (setOpen h n true) n) ++ w) ∧
      Behind (rowNext h) (fun n => (h.node n).parent) n w.head? := by
  have hclosed : isClosed (setOpen h n false) n = true := by
    rw [isClosed_setOpen, if_pos rfl, Bool.not_false]
  have hopened : isClosed (setOpen h n true) n = false := by
    rw [isClosed_setOpen, if_pos rfl, Bool.not_true]
  have hother : ∀ c, c ≠ n →
      isClosed (setOpen h n true) c = isClosed (setOpen h n false) c := by
    intro c hc
    rw [isClosed_setOpen, isClosed_setOpen, if_neg hc, if_neg hc]
  obtain ⟨hkidsc, hrankc, -⟩ := (sameLinks_setOpen h n false).rowChildren_eq
  obtain ⟨hkidso, hranko, -⟩ := (sameLinks_setOpen h n true).rowChildren_eq
  rw [rows, rows, hkidsc, hkidso] at hmem ⊢
  obtain ⟨u, w, hc, ho, hbehind⟩ := outline_open (isTree ht)
    (fun p c hc => (mem_rowChildren ht p c).mp hc) (nodup_rowChildren ht) (rowRank_lt ht)
    (rowNext_eq ht) hclosed hopened hother hmem
  have hroot : Behind (rowNext h) (fun n => (h.node n).parent) root none :=
    .root (by rw [rowNext, if_pos ht.root_parent]) ht.root_parent
  have hn := hbehind none hroot
  rw [or_none] at hn
  refine ⟨u, w, hc, ?_, hn⟩
  rw [siblingRows, hkidso, hranko, ← outline_eq (rowRank_lt ht)]
  exact ho

theorem length_of_getElem? {l u w : List ℕ} {i : ℕ} (hnodup : l.Nodup) (hi : l[i]? = some n)
    (hl : l = u ++ n :: w) : i = u.length := by
  have hlt : i < l.length := (List.getElem?_eq_some_iff.mp hi).1
  refine (getElem?_inj hlt hnodup).mp ?_
  rw [hi, hl, getElem?_append_right (Nat.le_refl _), Nat.sub_self, getElem?_cons_zero]

/-- The rows of the server are those of its tree. -/
structure Shows (s : SubscribableServer) (root : ℕ) : Prop extends HasTree s root where
  rows_eq : s.mRowMap = rows s.heap root

variable {s : SubscribableServer}

theorem isContainer_iff :
    s.isContainer aIndex = true ↔
      ∃ n, s.mRowMap[aIndex]? = some n ∧ (s.heap.node n).firstChild ≠ none := by
  rw [isContainer]
  cases s.mRowMap[aIndex]? with
  | none => simp
  | some n => simp

/-- A server in which a node was opened or closed. -/
def toggled (s : SubscribableServer) (n : ℕ) (isOpen : Bool) (mRowMap : List ℕ) :
    SubscribableServer :=
  { s with heap := setOpen s.heap n isOpen, mRowMap := mRowMap }

theorem toggleOpenState_close (hs : Shows s root) (hn : s.mRowMap[aIndex]? = some n)
    (hfirst : (s.heap.node n).firstChild ≠ none) (hopen : (s.heap.node n).isOpen = true) :
    ∃ mRowMap, s.toggleOpenState aIndex = some (toggled s n false mRowMap) ∧
      mRowMap = rows (setOpen s.heap n false) root ∧ aIndex < mRowMap.length := by
  have ht := hs.tree
  have hrows : s.mRowMap = rows (setOpen s.heap n true) root := by
    rw [setOpen_eq hopen]
    exact hs.rows_eq
  have hmem : n ∈ rows (setOpen s.heap n true) root := hrows ▸ mem_of_getElem? hn
  obtain ⟨u, w, hc, ho, hbehind⟩ := rows_setOpen ht (Or.inr hmem)
  rw [setOpen_eq hopen] at ho hrows
  have hnodup := nodup_rows ht
  have hi : aIndex = u.length := by
    rw [hrows] at hn
    exact length_of_getElem? hnodup hn ho
  -- there are rows below
  have hne : siblingRows s.heap (rowChildren s.heap n) ≠ [] := by
    have hkids := rowChildren_ne_nil ht hfirst
    cases hl : rowChildren s.heap n with
    | nil => exact absurd hl hkids
    | cons c l => exact cons_ne_nil _ _
  have hlen := length_pos_iff.mpr hne
  have hs' := sameLinks_setOpen s.heap n false
  have hcount : closeCount (setOpen s.heap n false) s.mRowMap aIndex (s.heap.size + 1) n =
      some ((siblingRows s.heap (rowChildren s.heap n)).length : ℤ) := by
    have hrow : s.mRowMap = u ++ n :: (siblingRows s.heap (rowChildren s.heap n) ++ w) :=
      hrows.trans ho
    have hnext : rowNext s.heap = rowNext (setOpen s.heap n false) := hs'.rowChildren_eq.2.2.symm
    have hparents : (fun n => (s.heap.node n).parent) =
        fun c => ((setOpen s.heap n false).node c).parent := funext fun c => (hs'.parent c).symm
    have hnode : n < s.heap.size ∧ (s.heap.node n).parent ≠ none :=
      mem_rows ht (hs.rows_eq ▸ mem_of_getElem? hn)
    rw [hnext, hparents] at hbehind
    have hlt : ∀ c < (setOpen s.heap n false).size, ∀ p,
        ((setOpen s.heap n false).node c).parent = some p → p < c :=
      fun c hc p hp => (ht.setOpen n false).parent_lt_of hc hp
    refine closeCount_spec hlt hnode.1 hbehind ?_ (lt_succ_of_lt hnode.1) (by omega) ?_ ?_
    · rw [hs'.parent]
      exact hnode.2
    · intro c hc
      obtain ⟨w', rfl⟩ := head?_eq_some_iff.mp hc
      have hnot : c ∉ n :: siblingRows s.heap (rowChildren s.heap n) := by
        rw [ho, nodup_append] at hnodup
        have hdisjoint := hnodup.2.1
        rw [← cons_append, nodup_append] at hdisjoint
        exact fun hmem => hdisjoint.2.2 c hmem c mem_cons_self rfl
      rw [hi, hrow, ← cons_append, indexOf_eq hnot, length_cons]
      omega
    · intro hnil
      rw [head?_eq_none_iff.mp hnil] at hrow
      rw [hrow, List.append_nil, length_append, length_cons]
      omega
  refine ⟨u ++ n :: w, ?_, hc.symm, ?_⟩
  · have hremove : removeElementsAt s.mRowMap (aIndex + 1)
        (siblingRows s.heap (rowChildren s.heap n)).length = some (u ++ n :: w) := by
      have hrow : s.mRowMap = u ++ [n] ++ (siblingRows s.heap (rowChildren s.heap n) ++ w) := by
        rw [hrows, ho]
        simp
      have hlen' : aIndex + 1 = (u ++ [n]).length := by rw [hi, length_append]; rfl
      rw [hrow, hlen', removeElementsAt_eq]
      simp
    rw [toggleOpenState, hn]
    simp only [bind_eq_bind, bind_some, hopen, if_true]
    rw [setOpen] at hcount
    have hsize : (s.heap.modify n fun n => { n with isOpen := false }).size = s.heap.size := rfl
    rw [hsize, hcount, bind_some, hremove]
    rfl
  · rw [length_append, length_cons]
    omega

theorem toggleOpenState_open (hs : Shows s root) (hn : s.mRowMap[aIndex]? = some n)
    (hopen : (s.heap.node n).isOpen = false) :
    ∃ mRowMap, s.toggleOpenState aIndex = some (toggled s n true mRowMap) ∧
      mRowMap = rows (setOpen s.heap n true) root ∧ aIndex < mRowMap.length := by
  have ht := hs.tree
  have hrows : s.mRowMap = rows (setOpen s.heap n false) root := by
    rw [setOpen_eq hopen]
    exact hs.rows_eq
  have hmem : n ∈ rows (setOpen s.heap n false) root := hrows ▸ mem_of_getElem? hn
  obtain ⟨u, w, hc, ho, -⟩ := rows_setOpen ht (Or.inl hmem)
  rw [setOpen_eq hopen] at hc hrows
  have hi : aIndex = u.length := by
    rw [hrows] at hn
    exact length_of_getElem? (nodup_rows ht) hn hc
  have ht' := ht.setOpen n true
  have hrank : ∀ c ∈ rowChildren (setOpen s.heap n true) n,
      rowRank (setOpen s.heap n true) c ≤ s.heap.size := fun c _ => sub_le _ _
  have hlen := length_rowChildren_le ht' n
  have hfuel : (rowChildren (setOpen s.heap n true) n).length +
      s.heap.size * ((setOpen s.heap n true).size + 2) ≤ s.rowFuel := by
    have hsize : (setOpen s.heap n true).size = s.heap.size := rfl
    rw [rowFuel, hsize, Nat.add_mul]
    omega
  have hadd := addSiblings_spec ht' (u := u ++ [n]) (w := w) (List.nil_append _).symm hrank hfuel
    (show (u ++ [n]).length = aIndex + 1 + 0 by rw [hi, length_append]; rfl)
  rw [head?_rowChildren ht'] at hadd
  refine ⟨u ++ n :: (siblingRows (setOpen s.heap n true) (rowChildren (setOpen s.heap n true) n) ++
    w), ?_, ho.symm, ?_⟩
  · have hrow : s.mRowMap = u ++ [n] ++ w := by
      rw [hrows, hc]
      simp
    rw [toggleOpenState, hn]
    simp only [bind_eq_bind, bind_some, hopen, Bool.false_eq_true, if_false]
    rw [setOpen] at hadd
    rw [hrow, hadd]
    simp [toggled, setOpen]
  · rw [length_append, length_cons]
    omega

theorem toggleOpenState_spec (hs : Shows s root) (hcontainer : s.isContainer aIndex = true) :
    ∃ n isOpen mRowMap, s.toggleOpenState aIndex = some (toggled s n isOpen mRowMap) ∧
      Shows (toggled s n isOpen mRowMap) root ∧ aIndex < mRowMap.length := by
  obtain ⟨n, hn, hfirst⟩ := isContainer_iff.mp hcontainer
  cases hopen : (s.heap.node n).isOpen with
  | true =>
    obtain ⟨mRowMap, htoggle, hrows, hlt⟩ := toggleOpenState_close hs hn hfirst hopen
    exact ⟨n, false, mRowMap, htoggle, ⟨⟨hs.root_eq, hs.tree.setOpen n false⟩, hrows⟩, hlt⟩
  | false =>
    obtain ⟨mRowMap, htoggle, hrows, hlt⟩ := toggleOpenState_open hs hn hopen
    exact ⟨n, true, mRowMap, htoggle, ⟨⟨hs.root_eq, hs.tree.setOpen n true⟩, hrows⟩, hlt⟩

end CommCentral.Subscribe
