import CommCentral.Lib.DoublyLinked
import CommCentral.Subscribe.Model
import Mathlib.Data.List.Perm.Subperm

/-!
# The children of a node

`SubscribeTree` says that the nodes are a tree in which the children of every
node are doubly linked in strictly descending order of their names, and that
`cachedChild` is one of the children.  A node is created behind its parent, so
that the address of a parent is less than those of its children.

`AddChildNode` keeps this, and its answer is the one child with the name
(`addChildNode_spec`).
-/

namespace CommCentral.Subscribe

open List DoublyLinked SubscribeTreeNode

/-! ## The tree -/

/-- The children of a node, in the order of their links. -/
structure Children (h : Heap) (p : ℕ) (l : List ℕ) : Prop where
  mem_iff : ∀ c, c ∈ l ↔ c < h.size ∧ (h.node c).parent = some p
  first : (h.node p).firstChild = l.head?
  last : (h.node p).lastChild = l.getLast?
  /-- `nextSibling` and `prevSibling` run through them. -/
  linked : Seg (fun n => ref (h.node n).nextSibling) (fun n => ref (h.node n).prevSibling)
    .null l .null
  sorted : l.Pairwise fun a b => (h.node b).name < (h.node a).name
  cached : ∀ c ∈ (h.node p).cachedChild, c ∈ l

structure SubscribeTree (h : Heap) (root : ℕ) : Prop where
  root_lt : root < h.size
  root_parent : (h.node root).parent = none
  /-- The other nodes have a parent that was created before. -/
  parent_lt : ∀ n < h.size, n ≠ root → ∃ p < n, (h.node n).parent = some p
  children : ∀ p, ∃ l, Children h p l

/-- What makes the tree is the same. -/
structure SameLinks (h h' : Heap) : Prop where
  size : h'.size = h.size
  name : ∀ n, (h'.node n).name = (h.node n).name
  parent : ∀ n, (h'.node n).parent = (h.node n).parent
  firstChild : ∀ n, (h'.node n).firstChild = (h.node n).firstChild
  lastChild : ∀ n, (h'.node n).lastChild = (h.node n).lastChild
  nextSibling : ∀ n, (h'.node n).nextSibling = (h.node n).nextSibling
  prevSibling : ∀ n, (h'.node n).prevSibling = (h.node n).prevSibling

theorem SameLinks.refl (h : Heap) : SameLinks h h :=
  ⟨rfl, fun _ => rfl, fun _ => rfl, fun _ => rfl, fun _ => rfl, fun _ => rfl, fun _ => rfl⟩

variable {h h' : Heap}

theorem SameLinks.trans {h'' : Heap} (hs : SameLinks h h') (hs' : SameLinks h' h'') :
    SameLinks h h'' :=
  ⟨hs'.size.trans hs.size, fun n => (hs'.name n).trans (hs.name n),
    fun n => (hs'.parent n).trans (hs.parent n), fun n => (hs'.firstChild n).trans (hs.firstChild n),
    fun n => (hs'.lastChild n).trans (hs.lastChild n),
    fun n => (hs'.nextSibling n).trans (hs.nextSibling n),
    fun n => (hs'.prevSibling n).trans (hs.prevSibling n)⟩

variable {l : List ℕ} {p : ℕ}

/-- The children are the same when their links are. -/
theorem Children.congr (hl : Children h p l)
    (hmem : ∀ c, c < h'.size ∧ (h'.node c).parent = some p ↔
      c < h.size ∧ (h.node c).parent = some p)
    (hfirst : (h'.node p).firstChild = (h.node p).firstChild)
    (hlast : (h'.node p).lastChild = (h.node p).lastChild)
    (hlinks : ∀ c ∈ l, (h'.node c).nextSibling = (h.node c).nextSibling ∧
      (h'.node c).prevSibling = (h.node c).prevSibling ∧ (h'.node c).name = (h.node c).name)
    (hcached : ∀ c ∈ (h'.node p).cachedChild, c ∈ l) : Children h' p l where
  mem_iff c := (hl.mem_iff c).trans (hmem c).symm
  first := hfirst.trans hl.first
  last := hlast.trans hl.last
  linked := hl.linked.congr (fun c hc => congrArg ref (hlinks c hc).1)
    fun c hc => congrArg ref (hlinks c hc).2.1
  sorted := hl.sorted.imp_of_mem fun ha hb hab => by
    rw [(hlinks _ ha).2.2, (hlinks _ hb).2.2]
    exact hab
  cached := hcached

variable {root : ℕ}

/-- A tree with the same links is a tree, if only children are cached. -/
theorem SubscribeTree.same (ht : SubscribeTree h root) (hs : SameLinks h h')
    (hcached : ∀ p, ∀ c ∈ (h'.node p).cachedChild,
      c ∈ (h.node p).cachedChild ∨ c < h.size ∧ (h.node c).parent = some p) :
    SubscribeTree h' root where
  root_lt := by
    rw [hs.size]
    exact ht.root_lt
  root_parent := (hs.parent root).trans ht.root_parent
  parent_lt n hn hroot := by
    rw [hs.size] at hn
    rw [hs.parent]
    exact ht.parent_lt n hn hroot
  children p := by
    obtain ⟨l, hl⟩ := ht.children p
    refine ⟨l, hl.congr (fun c => ?_) (hs.firstChild p) (hs.lastChild p) (fun c _ => ?_) ?_⟩
    · rw [hs.size, hs.parent]
    · exact ⟨hs.nextSibling c, hs.prevSibling c, hs.name c⟩
    · intro c hc
      rcases hcached p c hc with hold | hchild
      · exact hl.cached c hold
      · exact (hl.mem_iff c).mpr hchild

variable {c : ℕ}

theorem Children.eq_of_name (hl : Children h p l) {d : ℕ} (hc : c ∈ l) (hd : d ∈ l)
    (hname : (h.node c).name = (h.node d).name) : c = d := by
  have hnodup : (l.map fun n => (h.node n).name).Nodup :=
    pairwise_map.mpr (hl.sorted.imp fun hab => Ne.symm (ne_of_lt hab))
  exact inj_on_of_nodup_map hnodup hc hd hname

theorem Children.nodup (hl : Children h p l) : l.Nodup := by
  refine hl.sorted.imp ?_
  rintro a b hab rfl
  exact lt_irrefl _ hab

/-! ## Nodes that change -/

theorem modify_node (h : Heap) (i : ℕ) (f : SubscribeTreeNode → SubscribeTreeNode) (n : ℕ) :
    (h.modify i f).node n = if n = i then f (h.node n) else h.node n := by
  dsimp only [Heap.modify]
  rw [Function.update_apply]
  split
  · next heq => rw [heq]
  · rfl

theorem modify_field {β : Type*} (g : SubscribeTreeNode → β) (h : Heap) (i : ℕ)
    {f : SubscribeTreeNode → SubscribeTreeNode} (hf : ∀ x, g (f x) = g x) (n : ℕ) :
    g ((h.modify i f).node n) = g (h.node n) := by
  rw [modify_node]
  split
  · exact hf _
  · rfl

theorem sameLinks_modify (h : Heap) (i : ℕ) {f : SubscribeTreeNode → SubscribeTreeNode}
    (hf : ∀ x, (f x).name = x.name ∧ (f x).parent = x.parent ∧ (f x).firstChild = x.firstChild ∧
      (f x).lastChild = x.lastChild ∧ (f x).nextSibling = x.nextSibling ∧
      (f x).prevSibling = x.prevSibling) : SameLinks h (h.modify i f) where
  size := rfl
  name n := modify_field (·.name) h i (fun x => (hf x).1) n
  parent n := modify_field (·.parent) h i (fun x => (hf x).2.1) n
  firstChild n := modify_field (·.firstChild) h i (fun x => (hf x).2.2.1) n
  lastChild n := modify_field (·.lastChild) h i (fun x => (hf x).2.2.2.1) n
  nextSibling n := modify_field (·.nextSibling) h i (fun x => (hf x).2.2.2.2.1) n
  prevSibling n := modify_field (·.prevSibling) h i (fun x => (hf x).2.2.2.2.2) n

theorem createNode_node (hp : p < h.size) (name aPath : List Char) (n : ℕ) :
    ((createNode h (some p) name aPath).1.node n) =
      if n = h.size then
        { new with name := name, path := aPath, parent := some p, isOpen := true }
      else if n = p then { h.node p with cachedChild := some h.size }
      else h.node n := by
  have hne : p ≠ h.size := Nat.ne_of_lt hp
  dsimp only [createNode, Heap.modify]
  rw [Function.update_apply, Function.update_apply, Function.update_apply]
  rcases eq_or_ne n p with rfl | hnp
  · rw [if_neg hne, if_neg hne]
  · rw [if_neg hnp, if_neg hnp]

/-! ## A child is linked -/

/-- A child, with the next free address, was put between some children and others. -/
structure LinkedChild (h h' : Heap) (p : ℕ) (name : List Char) (u w : List ℕ) : Prop where
  size : h'.size = h.size + 1
  child : (h'.node h.size).name = name ∧ (h'.node h.size).parent = some p ∧
    (h'.node h.size).firstChild = none ∧ (h'.node h.size).lastChild = none ∧
    (h'.node h.size).cachedChild = none ∧ (h'.node h.size).nextSibling = w.head? ∧
    (h'.node h.size).prevSibling = u.getLast?
  name_eq : ∀ n < h.size, (h'.node n).name = (h.node n).name
  parent : ∀ n < h.size, (h'.node n).parent = (h.node n).parent
  cached : ∀ n < h.size, (h'.node n).cachedChild =
    if n = p then some h.size else (h.node n).cachedChild
  /-- The parent, when the child is the first or the last one. -/
  first : ∀ n < h.size, (h'.node n).firstChild =
    if n = p ∧ u = [] then some h.size else (h.node n).firstChild
  last : ∀ n < h.size, (h'.node n).lastChild =
    if n = p ∧ w = [] then some h.size else (h.node n).lastChild
  next : ∀ n < h.size, (h'.node n).nextSibling =
    if n ∈ u.getLast? then some h.size else (h.node n).nextSibling
  prev : ∀ n < h.size, (h'.node n).prevSibling =
    if n ∈ w.head? then some h.size else (h.node n).prevSibling
  free : ∀ n, h.size < n → h'.node n = h.node n

open Nat

theorem linkedChild_first (hp : p < h.size) (name aPath : List Char) :
    LinkedChild h (((createNode h (some p) name aPath).1.modify p
      fun n => { n with firstChild := some h.size }).modify p
        fun n => { n with lastChild := some h.size }) p name [] [] := by
  have hnode := createNode_node hp name aPath
  have hne : h.size ≠ p := ne_of_gt hp
  constructor
  case size => rfl
  case child => simp [modify_node, hnode, hne, new]
  case free =>
    intro n hn
    have hnp : n ≠ p := by omega
    simp [modify_node, hnode, hnp, ne_of_gt hn]
  all_goals
    intro n hn
    have hn' : n ≠ h.size := Nat.ne_of_lt hn
    simp only [modify_node, hnode, if_neg hn']
    split
    · next heq => simp [heq]
    · next heq => simp [heq]

variable {u w : List ℕ}

theorem linkedChild_before {current : ℕ} (hp : p < h.size) (hcurrent : current < h.size)
    (hpc : current ≠ p) (hu : ∀ n ∈ u, n < h.size ∧ n ≠ p ∧ n ≠ current)
    (hprev : (h.node current).prevSibling = u.getLast?) (name aPath : List Char) :
    LinkedChild h (linkBefore (createNode h (some p) name aPath).1 p h.size current) p name u
      (current :: w) := by
  have hnode := createNode_node hp name aPath
  have hne : h.size ≠ p := ne_of_gt hp
  have hne' : h.size ≠ current := ne_of_gt hcurrent
  have hold : ((createNode h (some p) name aPath).1.node current).prevSibling = u.getLast? := by
    rw [hnode, if_neg hne'.symm, if_neg hpc, hprev]
  rcases eq_nil_or_concat u with rfl | ⟨u', q, rfl⟩
  · have hlink : linkBefore (createNode h (some p) name aPath).1 p h.size current =
        ((((createNode h (some p) name aPath).1.modify h.size
          fun n => { n with nextSibling := some current }).modify h.size
            fun n => { n with prevSibling := none }).modify current
              fun n => { n with prevSibling := some h.size }).modify p
                fun n => { n with firstChild := some h.size } := by
      simp [linkBefore, modify_node, hne', hne'.symm, hold]
    rw [hlink]
    constructor
    case size => rfl
    case child => simp [modify_node, hnode, hne, hne', new]
    case free =>
      intro n hn
      have hnp : n ≠ p := by omega
      have hnc : n ≠ current := by omega
      simp [modify_node, hnode, hnp, hnc, ne_of_gt hn]
    all_goals
      intro n hn
      have hn' : n ≠ h.size := Nat.ne_of_lt hn
      simp only [modify_node, hnode, if_neg hn']
      grind
  · rw [concat_eq_append] at *
    obtain ⟨hq, hqp, hqc⟩ := hu q (by simp)
    have hqs : h.size ≠ q := ne_of_gt hq
    have hlink : linkBefore (createNode h (some p) name aPath).1 p h.size current =
        ((((createNode h (some p) name aPath).1.modify h.size
          fun n => { n with nextSibling := some current }).modify h.size
            fun n => { n with prevSibling := some q }).modify current
              fun n => { n with prevSibling := some h.size }).modify q
                fun n => { n with nextSibling := some h.size } := by
      simp [linkBefore, modify_node, hne', hne'.symm, hold]
    rw [hlink]
    constructor
    case size => rfl
    case child => simp [modify_node, hnode, hne', hqs, new]
    case free =>
      intro n hn
      have hnp : n ≠ p := by omega
      have hnc : n ≠ current := by omega
      have hnq : n ≠ q := by omega
      simp [modify_node, hnode, hnp, hnc, hnq, ne_of_gt hn]
    all_goals
      intro n hn
      have hn' : n ≠ h.size := Nat.ne_of_lt hn
      simp only [modify_node, hnode, if_neg hn', getLast?_concat]
      grind

theorem linkedChild_last {last : ℕ} (hp : p < h.size)
    (hlast : last < h.size) (hpl : last ≠ p) (hold : (h.node p).lastChild = some last)
    (hu : u.getLast? = some last) (name aPath : List Char) :
    ∃ h', linkLast (createNode h (some p) name aPath).1 p h.size = some h' ∧
      LinkedChild h h' p name u [] := by
  have hnode := createNode_node hp name aPath
  have hne : h.size ≠ p := ne_of_gt hp
  have hne' : h.size ≠ last := ne_of_gt hlast
  have hold' : ((createNode h (some p) name aPath).1.node p).lastChild = some last := by
    rw [hnode, if_neg hne.symm, if_pos rfl]
    exact hold
  have hlink : linkLast (createNode h (some p) name aPath).1 p h.size =
      some (((((createNode h (some p) name aPath).1.modify h.size
        fun n => { n with prevSibling := some last }).modify h.size
          fun n => { n with nextSibling := none }).modify last
            fun n => { n with nextSibling := some h.size }).modify p
              fun n => { n with lastChild := some h.size }) := by
    simp [linkLast, modify_node, hne.symm, hold']
  refine ⟨_, hlink, ?_⟩
  constructor
  case size => rfl
  case child => simp [modify_node, hnode, hne, hne', hu, new]
  case free =>
    intro n hn
    have hnp : n ≠ p := by omega
    have hnl : n ≠ last := by omega
    simp [modify_node, hnode, hnp, hnl, ne_of_gt hn]
  all_goals
    intro n hn
    have hn' : n ≠ h.size := Nat.ne_of_lt hn
    simp only [modify_node, hnode, if_neg hn', hu]
    grind

theorem SubscribeTree.parent_lt_of (ht : SubscribeTree h root) (hc : c < h.size)
    (hp : (h.node c).parent = some p) : p < c := by
  rcases eq_or_ne c root with rfl | hroot
  · rw [ht.root_parent] at hp
    cases hp
  · obtain ⟨q, hq, hparent⟩ := ht.parent_lt c hc hroot
    cases hparent.symm.trans hp
    exact hq

variable {name : List Char}

/-- The children of the parent, with the new one among them. -/
theorem LinkedChild.children (hlink : LinkedChild h h' p name u w) (hp : p < h.size)
    (hl : Children h p (u ++ w)) (hu : ∀ n ∈ u, name < (h.node n).name)
    (hw : ∀ n ∈ w, (h.node n).name < name) : Children h' p (u ++ h.size :: w) := by
  have hlt : ∀ c ∈ u ++ w, c < h.size := fun c hc => ((hl.mem_iff c).mp hc).1
  have hnew : ∀ c ∈ u ++ h.size :: w, c = h.size ∨ c ∈ u ++ w := by
    intro c hc
    simp only [mem_append, mem_cons] at hc ⊢
    rcases hc with hc | hc | hc
    · exact Or.inr (Or.inl hc)
    · exact Or.inl hc
    · exact Or.inr (Or.inr hc)
  constructor
  case mem_iff =>
    intro c
    constructor
    · intro hc
      rcases hnew c hc with rfl | hold
      · exact ⟨by rw [hlink.size]; omega, hlink.child.2.1⟩
      · have hc := (hl.mem_iff c).mp hold
        exact ⟨by rw [hlink.size]; omega, (hlink.parent c hc.1).trans hc.2⟩
    · intro ⟨hc, hparent⟩
      rw [hlink.size] at hc
      rcases Nat.lt_succ_iff_lt_or_eq.mp hc with hold | rfl
      · rw [hlink.parent c hold] at hparent
        have hmem := (hl.mem_iff c).mpr ⟨hold, hparent⟩
        simp only [mem_append, mem_cons] at hmem ⊢
        exact hmem.imp_right Or.inr
      · simp
  case first =>
    rw [hlink.first p hp, hl.first]
    cases u with
    | nil => simp
    | cons n u => simp
  case last =>
    rw [hlink.last p hp, hl.last]
    cases w with
    | nil => simp
    | cons n w => simp
  case linked =>
    refine hl.linked.insert hl.nodup ⟨?_, ?_⟩ ?_ ?_ ?_ ?_
    · rw [first_null, hlink.child.2.2.2.2.2.1]
    · rw [last_null, hlink.child.2.2.2.2.2.2]
    · intro n hn
      rw [hlink.next n (hlt n (mem_append_left w (mem_of_getLast? hn))), if_pos hn]
      rfl
    · intro n hn
      rw [hlink.prev n (hlt n (mem_append_right u (mem_of_mem_head? hn))), if_pos hn]
      rfl
    · intro n hn hnot
      rw [hlink.next n (hlt n hn), if_neg hnot]
    · intro n hn hnot
      rw [hlink.prev n (hlt n hn), if_neg hnot]
  case sorted =>
    have hname : ∀ c ∈ u ++ w, (h'.node c).name = (h.node c).name :=
      fun c hc => hlink.name_eq c (hlt c hc)
    have hsorted : (u ++ w).Pairwise fun a b => (h'.node b).name < (h'.node a).name :=
      hl.sorted.imp_of_mem fun ha hb hab => by
        rw [hname _ ha, hname _ hb]
        exact hab
    obtain ⟨hsu, hsw, huw⟩ := pairwise_append.mp hsorted
    refine pairwise_append.mpr ⟨hsu, pairwise_cons.mpr ⟨fun b hb => ?_, hsw⟩, ?_⟩
    · rw [hlink.child.1, hname b (mem_append_right u hb)]
      exact hw b hb
    · intro a ha b hb
      cases hb with
      | head =>
        rw [hlink.child.1, hname a (mem_append_left w ha)]
        exact hu a ha
      | tail _ hb => exact huw a ha b hb
  case cached =>
    intro c hc
    rw [hlink.cached p hp, if_pos rfl] at hc
    cases hc
    simp

/-- A child between greater and lesser names is put in its place. -/
theorem SubscribeTree.linked
    (ht : SubscribeTree h root) (hp : p < h.size) (hl : Children h p (u ++ w))
    (hu : ∀ n ∈ u, name < (h.node n).name) (hw : ∀ n ∈ w, (h.node n).name < name)
    (hlink : LinkedChild h h' p name u w) : SubscribeTree h' root := by
  have hparentp : ∀ n ∈ u ++ w, (h.node n).parent = some p := fun n hn => ((hl.mem_iff n).mp hn).2
  constructor
  case root_lt =>
    have hroot := ht.root_lt
    rw [hlink.size]
    omega
  case root_parent => rw [hlink.parent root ht.root_lt, ht.root_parent]
  case parent_lt =>
    intro n hn hroot
    rw [hlink.size] at hn
    rcases Nat.lt_succ_iff_lt_or_eq.mp hn with hold | rfl
    · rw [hlink.parent n hold]
      exact ht.parent_lt n hold hroot
    · exact ⟨p, hp, hlink.child.2.1⟩
  case children =>
    intro q
    -- the parent, the new child, and the other nodes
    rcases eq_or_ne q p with rfl | hqp
    · exact ⟨u ++ h.size :: w, hlink.children hp hl hu hw⟩
    rcases eq_or_ne q h.size with rfl | hqs
    · have hnone : ∀ c, ¬ (c < h'.size ∧ (h'.node c).parent = some h.size) := by
        intro c ⟨hc, hparent⟩
        rw [hlink.size] at hc
        rcases Nat.lt_succ_iff_lt_or_eq.mp hc with hold | rfl
        · rw [hlink.parent c hold] at hparent
          have hlt := ht.parent_lt_of hold hparent
          omega
        · rw [hlink.child.2.1] at hparent
          cases hparent
          exact absurd hp (lt_irrefl _)
      refine ⟨[], ?_, hlink.child.2.2.1, hlink.child.2.2.2.1, trivial, List.Pairwise.nil, ?_⟩
      · intro c
        exact ⟨fun hc => absurd hc not_mem_nil, fun hc => absurd hc (hnone c)⟩
      · intro c hc
        rw [hlink.child.2.2.2.2.1] at hc
        cases hc
    · obtain ⟨l, hlq⟩ := ht.children q
      have hfield : (h'.node q).firstChild = (h.node q).firstChild ∧
          (h'.node q).lastChild = (h.node q).lastChild ∧
          (h'.node q).cachedChild = (h.node q).cachedChild := by
        rcases lt_or_gt_of_ne hqs with hold | hfree
        · rw [hlink.first q hold, hlink.last q hold, hlink.cached q hold]
          simp [hqp]
        · rw [hlink.free q hfree]
          exact ⟨rfl, rfl, rfl⟩
      refine ⟨l, hlq.congr (fun c => ?_) hfield.1 hfield.2.1 (fun c hc => ?_) ?_⟩
      · rw [hlink.size]
        constructor
        · intro ⟨hc, hparent⟩
          rcases Nat.lt_succ_iff_lt_or_eq.mp hc with hold | rfl
          · exact ⟨hold, (hlink.parent c hold).symm.trans hparent⟩
          · rw [hlink.child.2.1] at hparent
            exact absurd (Option.some.inj hparent).symm hqp
        · intro ⟨hc, hparent⟩
          exact ⟨lt_succ_of_lt hc, (hlink.parent c hc).trans hparent⟩
      · obtain ⟨hold, hparent⟩ := (hlq.mem_iff c).mp hc
        have hnot : c ∉ u ++ w := by
          intro hmem
          rw [hparentp c hmem] at hparent
          exact hqp (Option.some.inj hparent).symm
        rw [mem_append, not_or] at hnot
        refine ⟨?_, ?_, hlink.name_eq c hold⟩
        · have hlast : c ∉ u.getLast? := fun hmem => hnot.1 (mem_of_getLast? hmem)
          rw [hlink.next c hold, if_neg hlast]
        · have hhead : c ∉ w.head? := fun hmem => hnot.2 (mem_of_mem_head? hmem)
          rw [hlink.prev c hold, if_neg hhead]
      · rw [hfield.2.2]
        exact hlq.cached

/-! ## Adding a child -/

theorem strcmp_cases (s t : List Char) :
    strcmp s t = .lt ∧ s < t ∨ strcmp s t = .eq ∧ s = t ∨ strcmp s t = .gt ∧ t < s := by
  rw [strcmp, cmp, cmpUsing]
  rcases lt_trichotomy s t with hlt | rfl | hgt
  · exact Or.inl ⟨if_pos hlt, hlt⟩
  · exact Or.inr (Or.inl ⟨by rw [if_neg (lt_irrefl s), if_neg (lt_irrefl s)], rfl⟩)
  · exact Or.inr (Or.inr ⟨by rw [if_neg (lt_asymm hgt), if_pos hgt], hgt⟩)

theorem eq_of_strcmp {s t : List Char} (h : strcmp s t = .eq) : s = t := by
  rcases strcmp_cases s t with ⟨hs, -⟩ | ⟨-, heq⟩ | ⟨hs, -⟩
  · cases hs.symm.trans h
  · exact heq
  · cases hs.symm.trans h

def IsChild (h : Heap) (p : ℕ) (name : List Char) (c : ℕ) : Prop :=
  c < h.size ∧ (h.node c).parent = some p ∧ (h.node c).name = name

/-- Nodes stay where they are, and keep their names. -/
structure Extends (h h' : Heap) : Prop where
  size : h.size ≤ h'.size
  name : ∀ n < h.size, (h'.node n).name = (h.node n).name
  parent : ∀ n < h.size, (h'.node n).parent = (h.node n).parent

theorem Extends.trans {h'' : Heap} (he : Extends h h') (he' : Extends h' h'') :
    Extends h h'' where
  size := le_trans he.size he'.size
  name n hn := (he'.name n (lt_of_lt_of_le hn he.size)).trans (he.name n hn)
  parent n hn := (he'.parent n (lt_of_lt_of_le hn he.size)).trans (he.parent n hn)

theorem SameLinks.extends (hs : SameLinks h h') : Extends h h' :=
  ⟨le_of_eq hs.size.symm, fun n _ => hs.name n, fun n _ => hs.parent n⟩

theorem LinkedChild.extends (hlink : LinkedChild h h' p name u w) : Extends h h' :=
  ⟨by rw [hlink.size]; exact le_succ _, hlink.name_eq, hlink.parent⟩

theorem LinkedChild.isChild (hlink : LinkedChild h h' p name u w) : IsChild h' p name h.size :=
  ⟨by rw [hlink.size]; exact lt_succ_self _, hlink.child.2.1, hlink.child.1⟩

theorem IsChild.extends (he : Extends h h') (hc : IsChild h p name c) : IsChild h' p name c :=
  ⟨lt_of_lt_of_le hc.1 he.size, (he.parent c hc.1).trans hc.2.1,
    (he.name c hc.1).trans hc.2.2⟩

theorem SubscribeTree.child_unique (ht : SubscribeTree h root) {d : ℕ} (hc : IsChild h p name c)
    (hd : IsChild h p name d) : c = d := by
  obtain ⟨l, hl⟩ := ht.children p
  exact hl.eq_of_name ((hl.mem_iff c).mpr ⟨hc.1, hc.2.1⟩) ((hl.mem_iff d).mpr ⟨hd.1, hd.2.1⟩)
    (hc.2.2.trans hd.2.2.symm)

theorem Children.links (hl : Children h p (u ++ c :: w)) :
    (h.node c).nextSibling = w.head? ∧ (h.node c).prevSibling = u.getLast? := by
  obtain ⟨-, hprev, hnext, -⟩ := seg_append.mp hl.linked
  rw [last_null] at hprev
  rw [first_null] at hnext
  exact ⟨ref_inj hnext, ref_inj hprev⟩

theorem Children.length_le (hl : Children h p l) : l.length ≤ h.size := by
  have hsub : l ⊆ List.range h.size :=
    fun c hc => mem_range.mpr ((hl.mem_iff c).mp hc).1
  have hlen := (subperm_of_subset hl.nodup hsub).length_le
  rw [length_range] at hlen
  exact hlen

/-- The place of a name among some children. -/
def Place.Right (h : Heap) (name : List Char) (l : List ℕ) : Place → Prop
  | .before current => ∃ u w, l = u ++ current :: w ∧ (∀ n ∈ u, name < (h.node n).name) ∧
      (h.node current).name < name
  | .found current => current ∈ l ∧ (h.node current).name = name
  | .atEnd => ∀ n ∈ l, name < (h.node n).name

theorem findPlace_right (hl : Children h p (u ++ w)) (hu : ∀ n ∈ u, name < (h.node n).name)
    {fuel : ℕ} (hfuel : w.length < fuel) :
    (findPlace h name fuel w.head?).Right h name (u ++ w) := by
  induction w generalizing u fuel with
  | nil =>
    cases fuel with
    | zero => exact absurd hfuel (not_lt_zero _)
    | succ fuel =>
      rw [List.append_nil]
      exact hu
  | cons c w ih =>
    cases fuel with
    | zero => exact absurd hfuel (not_lt_zero _)
    | succ fuel =>
      rw [head?_cons, findPlace]
      rcases strcmp_cases (h.node c).name name with ⟨hcmp, hlt⟩ | ⟨hcmp, heq⟩ | ⟨hcmp, hgt⟩
      · rw [hcmp]
        exact ⟨u, w, rfl, hu, hlt⟩
      · rw [hcmp]
        exact ⟨by simp, heq⟩
      · have hl' : Children h p (u ++ [c] ++ w) := by
          rw [append_assoc]
          exact hl
        have hu' : ∀ n ∈ u ++ [c], name < (h.node n).name := by
          intro n hn
          rcases mem_append.mp hn with hn | hn
          · exact hu n hn
          · rw [mem_singleton.mp hn]
            exact hgt
        have hright := ih hl' hu' (lt_of_succ_lt_succ hfuel)
        rw [append_assoc] at hright
        rw [hcmp]
        rw [hl.links.1]
        exact hright

theorem sameLinks_cached (h : Heap) (p c : ℕ) :
    SameLinks h (h.modify p fun n => { n with cachedChild := some c }) :=
  sameLinks_modify h p fun _ => ⟨rfl, rfl, rfl, rfl, rfl, rfl⟩

theorem SubscribeTree.cache (ht : SubscribeTree h root)
    (hc : c < h.size ∧ (h.node c).parent = some p) :
    SubscribeTree (h.modify p fun n => { n with cachedChild := some c }) root := by
  refine ht.same (sameLinks_cached h p c) fun q d hd => ?_
  rw [modify_node] at hd
  split at hd
  · next heq =>
      cases hd
      rw [heq]
      exact Or.inr hc
  · exact Or.inl hd

/-- `AddChildNode` answers with the one child that has the name, and a child that exists stays
where it is. -/
theorem addChildNode_spec (ht : SubscribeTree h root) (hp : p < h.size) (name : List Char)
    {aPath : List Char} (hpath : aPath ≠ []) :
    ∃ h' c, addChildNode h p name aPath = some (h', c) ∧ SubscribeTree h' root ∧ Extends h h' ∧
      IsChild h' p name c := by
  obtain ⟨l, hl⟩ := ht.children p
  rw [addChildNode, if_neg hpath]
  cases hfirst : (h.node p).firstChild with
  | none =>
    have hnil : l = [] := head?_eq_none_iff.mp (hl.first.symm.trans hfirst)
    rw [hnil] at hl
    have hlink := linkedChild_first hp name aPath
    exact ⟨_, h.size, rfl, ht.linked hp hl (fun n hn => by cases hn) (fun n hn => by cases hn)
      hlink, hlink.extends, hlink.isChild⟩
  | some first =>
    rw [if_neg (Option.some_ne_none _)]
    split
    · next child hcached =>
        -- the cached child has the name
        obtain ⟨hc, hname⟩ := Option.filter_eq_some_iff.mp hcached
        have hmem := (hl.mem_iff child).mp (hl.cached child hc)
        exact ⟨h, child, rfl, ht, (SameLinks.refl h).extends, hmem.1, hmem.2,
          eq_of_strcmp (of_decide_eq_true hname)⟩
    · have hnil : ∀ n ∈ ([] : List ℕ), name < (h.node n).name := fun n hn => by cases hn
      have hright := findPlace_right (w := l) hl hnil (lt_succ_of_le hl.length_le)
      rw [← hl.first, hfirst] at hright
      cases hplace : findPlace h name (h.size + 1) (some first) with
      | before current =>
        rw [hplace] at hright
        obtain ⟨u, w, rfl, hu, hlt⟩ := hright
        have hcurrent := (hl.mem_iff current).mp (by simp)
        have hpc := ht.parent_lt_of hcurrent.1 hcurrent.2
        have hu' : ∀ n ∈ u, n < h.size ∧ n ≠ p ∧ n ≠ current := by
          intro n hn
          have hmem := (hl.mem_iff n).mp (mem_append_left _ hn)
          have hpn := ht.parent_lt_of hmem.1 hmem.2
          refine ⟨hmem.1, ne_of_gt hpn, ?_⟩
          rintro rfl
          exact lt_irrefl _ (lt_trans hlt (hu n hn))
        have hw : ∀ n ∈ current :: w, (h.node n).name < name := by
          have hsorted := (pairwise_append.mp hl.sorted).2.1
          intro n hn
          cases hn with
          | head => exact hlt
          | tail _ hn => exact lt_trans ((pairwise_cons.mp hsorted).1 n hn) hlt
        have hlink := linkedChild_before (w := w) hp hcurrent.1 (ne_of_gt hpc) hu'
          hl.links.2 name aPath
        exact ⟨_, h.size, rfl, ht.linked hp hl hu hw hlink, hlink.extends, hlink.isChild⟩
      | found current =>
        rw [hplace] at hright
        have hmem := (hl.mem_iff current).mp hright.1
        have hs := sameLinks_cached h p current
        exact ⟨_, current, rfl, ht.cache hmem, hs.extends,
          IsChild.extends hs.extends ⟨hmem.1, hmem.2, hright.2⟩⟩
      | atEnd =>
        rw [hplace] at hright
        have hlast : ∃ last, l.getLast? = some last := by
          cases hlast : l.getLast? with
          | none =>
            have hhead := hl.first
            rw [getLast?_eq_none_iff.mp hlast, hfirst] at hhead
            cases hhead
          | some last => exact ⟨last, rfl⟩
        obtain ⟨last, hlast⟩ := hlast
        have hmem := (hl.mem_iff last).mp (mem_of_getLast? hlast)
        have hpl := ht.parent_lt_of hmem.1 hmem.2
        obtain ⟨h', hh', hlink⟩ := linkedChild_last hp hmem.1 (ne_of_gt hpl)
          (hl.last.trans hlast) hlast name aPath
        rw [← List.append_nil l] at hl
        exact ⟨h', h.size, congrArg (Option.map fun h => (h, _)) hh',
          ht.linked hp hl hright (fun n hn => by cases hn) hlink, hlink.extends,
          hlink.isChild⟩

end CommCentral.Subscribe
