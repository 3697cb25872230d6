import CommCentral.Subscribe.Tree

/-!
# Paths in the subscribe tree

A path is cut into names at the delimiter, except that a delimiter at its
beginning belongs to the first name.  `FindAndCreateNode` goes along the children
with these names and creates the ones that are missing.

`Leads` says which node the names lead to.  There is at most one, and it stays
the same when nodes are added, so that a path is looked up with the same answer
ever after (`findAndCreateNode_spec`, `Leads.unique`).
-/

namespace CommCentral.Subscribe

open List SubscribableServer Option

/-- The names lead from one node down to another one. -/
def Leads (h : Heap) : ℕ → List (List Char) → ℕ → Prop
  | p, [], n => n = p
  | p, name :: names, n => ∃ c, IsChild h p name c ∧ Leads h c names n

theorem Leads.extends {h h' : Heap} (he : Extends h h') {p n : ℕ} {names : List (List Char)}
    (hn : Leads h p names n) : Leads h' p names n := by
  induction names generalizing p with
  | nil => exact hn
  | cons name names ih =>
    obtain ⟨c, hc, hn⟩ := hn
    exact ⟨c, hc.extends he, ih hn⟩

theorem Leads.unique {h : Heap} {root : ℕ} (ht : SubscribeTree h root) {p n m : ℕ}
    {names : List (List Char)} (hn : Leads h p names n) (hm : Leads h p names m) : n = m := by
  induction names generalizing p with
  | nil => exact hn.trans hm.symm
  | cons name names ih =>
    obtain ⟨c, hc, hn⟩ := hn
    obtain ⟨d, hd, hm⟩ := hm
    rw [ht.child_unique hc hd] at hn
    exact ih hn hm

/-! ## Tokens -/

def tokenNames (mDelimiter : Char) (aPath : List Char) : ℕ → ℕ → Option ℕ → List (List Char)
  | 0, _, _ => []
  | fuel + 1, tokenStart, tokenEnd =>
    if tokenEnd = none ∧ aPath.length ≤ tokenStart then []
    else
      ((aPath.take (tokenEnd.getD aPath.length)).drop tokenStart).takeWhile (· ≠ Char.ofNat 0) ::
        tokenNames mDelimiter aPath fuel (tokenEnd.getD aPath.length + 1)
          (findChar mDelimiter aPath (tokenEnd.getD aPath.length + 1))

def pathNames (mDelimiter : Char) (aPath : List Char) : List (List Char) :=
  tokenNames mDelimiter aPath (aPath.length + 2) 0 (findChar mDelimiter aPath 1)

theorem findChar_bounds {mDelimiter : Char} {aPath : List Char} {offset i : ℕ}
    (h : i ∈ findChar mDelimiter aPath offset) : offset ≤ i ∧ i < aPath.length := by
  obtain ⟨j, hj, rfl⟩ := map_eq_some_iff.mp h
  have hlt := (findIdx?_eq_some_iff_findIdx_eq.mp hj).1
  rw [length_drop] at hlt
  omega

theorem findAndCreateLoop_spec {mDelimiter : Char} {aPath : List Char} {fuel : ℕ} {h : Heap}
    {root parent : ℕ} (ht : SubscribeTree h root) (hp : parent < h.size) (child : Option ℕ)
    {tokenStart : ℕ} {tokenEnd : Option ℕ}
    (hend : ∀ i ∈ tokenEnd, tokenStart ≤ i ∧ 0 < i ∧ i < aPath.length)
    (hstart : tokenStart ≤ aPath.length + 1) (hfuel : aPath.length + 2 ≤ tokenStart + fuel) :
    let names := tokenNames mDelimiter aPath fuel tokenStart tokenEnd
    ∃ h' n, findAndCreateLoop mDelimiter aPath fuel h parent child tokenStart tokenEnd =
        some (h', if names = [] then child else some n) ∧
      SubscribeTree h' root ∧ Extends h h' ∧ Leads h' parent names n := by
  induction fuel generalizing h parent child tokenStart tokenEnd with
  | zero => omega
  | succ fuel ih =>
    rw [findAndCreateLoop, tokenNames]
    split
    · exact ⟨h, parent, rfl, ht, (SameLinks.refl h).extends, rfl⟩
    · next hmore =>
        have hbounds : tokenStart ≤ tokenEnd.getD aPath.length ∧
            0 < tokenEnd.getD aPath.length ∧ tokenEnd.getD aPath.length ≤ aPath.length := by
          cases htoken : tokenEnd with
          | none =>
            have hlt : ¬ aPath.length ≤ tokenStart := fun hle => hmore ⟨htoken, hle⟩
            rw [getD_none]
            omega
          | some i =>
            have hi := hend i htoken
            rw [getD_some]
            omega
        have hprefix' : aPath.take (tokenEnd.getD aPath.length) ≠ [] := by
          intro hnil
          have hlen := congrArg List.length hnil
          rw [length_take, length_nil] at hlen
          omega
        dsimp only
        obtain ⟨h₁, c, hadd, ht₁, he₁, hc⟩ := addChildNode_spec ht hp
          (((aPath.take (tokenEnd.getD aPath.length)).drop tokenStart).takeWhile
            (· ≠ Char.ofNat 0)) hprefix'
        have hnext : ∀ i ∈ findChar mDelimiter aPath (tokenEnd.getD aPath.length + 1),
            tokenEnd.getD aPath.length + 1 ≤ i ∧ 0 < i ∧ i < aPath.length := by
          intro i hi
          have hi := findChar_bounds hi
          omega
        obtain ⟨h', n, hloop, ht', he', hn⟩ := ih ht₁ hc.1 (some c) hnext (by omega) (by omega)
        rw [hadd]
        dsimp only
        rw [hloop]
        refine ⟨h', n, ?_, ht', he₁.trans he', c, hc.extends he', hn⟩
        rw [if_neg (cons_ne_nil _ _)]
        split
        · next hnil =>
            rw [hnil] at hn
            rw [show n = c from hn]
        · rfl

theorem pathNames_ne_nil (mDelimiter : Char) {aPath : List Char} (hpath : aPath ≠ []) :
    pathNames mDelimiter aPath ≠ [] := by
  have hlen : 0 < aPath.length := length_pos_iff.mpr hpath
  rw [pathNames, tokenNames, if_neg (by omega)]
  exact cons_ne_nil _ _

/-! ## Calls -/

structure HasTree (s : SubscribableServer) (root : ℕ) : Prop where
  root_eq : s.mTreeRoot = some root
  tree : SubscribeTree s.heap root

/-- A server without nodes, or with a tree. -/
def IsServer (s : SubscribableServer) : Prop :=
  s.mTreeRoot = none ∧ s.heap = { node := fun _ => .new, size := 0 } ∨ ∃ root, HasTree s root

theorem subscribeTree_root (name : List Char) :
    SubscribeTree (createNode { node := fun _ => .new, size := 0 } none name []).1 0 := by
  constructor
  case root_lt => exact Nat.zero_lt_one
  case root_parent => rfl
  case parent_lt =>
    intro n hn hroot
    have hn : n < 1 := hn
    omega
  case children =>
    intro p
    have hnode : ∀ n, ((createNode { node := fun _ => .new, size := 0 } none name []).1.node n) =
        if n = 0 then { SubscribeTreeNode.new with name := name, path := [], isOpen := true }
        else SubscribeTreeNode.new := by
      intro n
      dsimp only [createNode]
      rw [Function.update_apply]
      rfl
    refine ⟨[], fun c => ⟨fun hc => absurd hc not_mem_nil, fun ⟨_, hparent⟩ => ?_⟩, ?_, ?_,
      trivial, List.Pairwise.nil, fun c hc => ?_⟩
    · rw [hnode] at hparent
      split at hparent
      · cases hparent
      · cases hparent
    · rw [hnode]
      split
      · rfl
      · rfl
    · rw [hnode]
      split
      · rfl
      · rfl
    · rw [hnode] at hc
      split at hc
      · cases hc
      · cases hc

theorem ensureRoot_spec {s : SubscribableServer} (hs : IsServer s) :
    ∃ h root, s.ensureRoot = ({ s with heap := h, mTreeRoot := some root }, root) ∧
      SubscribeTree h root ∧ Extends s.heap h ∧ ∀ r, s.mTreeRoot = some r → root = r := by
  rcases hs with ⟨hroot, hheap⟩ | ⟨root, hroot, ht⟩
  · refine ⟨_, 0, ?_, subscribeTree_root s.mIncomingServerUri, ?_, ?_⟩
    · rw [ensureRoot, hroot, hheap]
      rfl
    · rw [hheap]
      exact ⟨Nat.zero_le _, fun n hn => absurd hn (Nat.not_lt_zero n),
        fun n hn => absurd hn (Nat.not_lt_zero n)⟩
    · intro r hr
      rw [hroot] at hr
      cases hr
  · refine ⟨s.heap, root, ?_, ht, (SameLinks.refl _).extends, ?_⟩
    · rw [ensureRoot, hroot]
      dsimp only
      rw [← hroot]
    · intro r hr
      rw [hroot] at hr
      exact some.inj hr

theorem findAndCreateNode_spec {s : SubscribableServer} (hs : IsServer s) {aPath : List Char}
    (hpath : aPath ≠ []) :
    ∃ h root n, s.findAndCreateNode aPath =
        some ({ s with heap := h, mTreeRoot := some root }, some n) ∧
      SubscribeTree h root ∧ Extends s.heap h ∧ (∀ r, s.mTreeRoot = some r → root = r) ∧
      Leads h root (pathNames s.mDelimiter aPath) n := by
  obtain ⟨h, root, hroot, ht, he, hsame⟩ := ensureRoot_spec hs
  have hend : ∀ i ∈ findChar s.mDelimiter aPath 1, 0 ≤ i ∧ 0 < i ∧ i < aPath.length := by
    intro i hi
    have hi := findChar_bounds hi
    omega
  have hfuel : aPath.length + 2 ≤ 0 + (aPath.length + 2) := Nat.le_of_eq (Nat.zero_add _).symm
  obtain ⟨h', n, hloop, ht', he', hn⟩ := findAndCreateLoop_spec ht ht.root_lt none hend
    (Nat.zero_le _) hfuel
  refine ⟨h', root, n, ?_, ht', he.trans he', hsame, hn⟩
  rw [findAndCreateNode, hroot]
  dsimp only
  have hnames := pathNames_ne_nil s.mDelimiter hpath
  rw [pathNames] at hnames
  rw [if_neg hpath, hloop, map_some, if_neg hnames]

/-! ## Populating -/

inductive Call where
  | addTo (aName : List Char) (aAddAsSubscribed aSubscribable aChangeIfExists : Bool)
  | setAsSubscribed (path : List Char)

def Call.path : Call → List Char
  | .addTo aName _ _ _ => aName
  | .setAsSubscribed path => path

namespace SubscribableServer

def call (s : SubscribableServer) : Call → Option SubscribableServer
  | .addTo aName aAddAsSubscribed aSubscribable aChangeIfExists =>
    s.addTo aName aAddAsSubscribed aSubscribable aChangeIfExists
  | .setAsSubscribed path => s.setAsSubscribed path

def calls : SubscribableServer → List Call → Option SubscribableServer
  | s, [] => some s
  | s, c :: cs => (s.call c).bind fun s => s.calls cs

end SubscribableServer

theorem SubscribeTree.flags {h : Heap} {root : ℕ} (ht : SubscribeTree h root) (n : ℕ)
    {f : SubscribeTreeNode → SubscribeTreeNode}
    (hf : ∀ x, (f x).name = x.name ∧ (f x).parent = x.parent ∧ (f x).firstChild = x.firstChild ∧
      (f x).lastChild = x.lastChild ∧ (f x).nextSibling = x.nextSibling ∧
      (f x).prevSibling = x.prevSibling)
    (hcached : ∀ x, (f x).cachedChild = x.cachedChild) :
    SubscribeTree (h.modify n f) root ∧ Extends h (h.modify n f) := by
  have hs := sameLinks_modify h n hf
  refine ⟨ht.same hs fun p c hc => ?_, hs.extends⟩
  rw [modify_field (·.cachedChild) h n hcached] at hc
  exact Or.inl hc

section

variable {s : SubscribableServer} (hs : IsServer s) (hstopped : s.mStopped = false)

include hs hstopped

/-- A call succeeds while the tree is populated, and the path leads to a node. -/
theorem call_spec {c : Call} (hpath : c.path ≠ []) :
    ∃ h root n, s.call c = some { s with heap := h, mTreeRoot := some root } ∧
      SubscribeTree h root ∧ Extends s.heap h ∧ (∀ r, s.mTreeRoot = some r → root = r) ∧
      Leads h root (pathNames s.mDelimiter c.path) n := by
  obtain ⟨h, root, n, hfind, ht, he, hsame, hn⟩ := findAndCreateNode_spec hs hpath
  cases c with
  | addTo aName aAddAsSubscribed aSubscribable aChangeIfExists =>
    have hchange : ∃ h', (if aChangeIfExists then
          h.modify n fun n => { n with isSubscribed := aAddAsSubscribed } else h) = h' ∧
        SubscribeTree h' root ∧ Extends h h' := by
      cases aChangeIfExists with
      | true =>
        exact ⟨_, rfl, ht.flags n (f := fun n => { n with isSubscribed := aAddAsSubscribed })
          (fun _ => ⟨rfl, rfl, rfl, rfl, rfl, rfl⟩) fun _ => rfl⟩
      | false => exact ⟨h, rfl, ht, (SameLinks.refl h).extends⟩
    obtain ⟨h₁, hh₁, ht₁, he₁⟩ := hchange
    obtain ⟨ht₂, he₂⟩ := ht₁.flags n
      (f := fun n => { n with isSubscribable := aSubscribable })
      (fun _ => ⟨rfl, rfl, rfl, rfl, rfl, rfl⟩) fun _ => rfl
    refine ⟨_, root, n, ?_, ht₂, he.trans (he₁.trans he₂), hsame, hn.extends (he₁.trans he₂)⟩
    have hrunning : ¬ s.mStopped = true := by
      rw [hstopped]
      exact Bool.false_ne_true
    rw [call, addTo, if_neg hrunning, show s.findAndCreateNode aName = _ from hfind]
    dsimp only
    rw [hh₁]
  | setAsSubscribed path =>
    obtain ⟨ht₁, he₁⟩ := ht.flags n
      (f := fun n => { n with isSubscribable := true, isSubscribed := true })
      (fun _ => ⟨rfl, rfl, rfl, rfl, rfl, rfl⟩) fun _ => rfl
    refine ⟨_, root, n, ?_, ht₁, he.trans he₁, hsame, hn.extends he₁⟩
    rw [call, setAsSubscribed,
      show s.findAndCreateNode path = _ from hfind]

/-- The path of each call leads to a node of the tree. -/
theorem calls_spec {cs : List Call} (hpath : ∀ c ∈ cs, c.path ≠ []) :
    ∃ h mTreeRoot, s.calls cs = some { s with heap := h, mTreeRoot := mTreeRoot } ∧
      IsServer { s with heap := h, mTreeRoot := mTreeRoot } ∧ Extends s.heap h ∧
      (∀ r, s.mTreeRoot = some r → mTreeRoot = some r) := by
  induction cs generalizing s with
  | nil =>
    exact ⟨s.heap, s.mTreeRoot, rfl, hs, (SameLinks.refl _).extends, fun _ hr => hr⟩
  | cons c cs ih =>
    obtain ⟨h₁, root, n, hcall, ht, he₁, hsame, -⟩ :=
      call_spec hs hstopped (hpath c mem_cons_self)
    obtain ⟨h, mTreeRoot, hcalls, hs', he, hroot⟩ := ih
      (s := { s with heap := h₁, mTreeRoot := some root }) (Or.inr ⟨root, rfl, ht⟩) hstopped
      fun c' hc' => hpath c' (mem_cons_of_mem c hc')
    refine ⟨h, mTreeRoot, ?_, hs', he₁.trans he, fun r hr => ?_⟩
    · rw [calls, hcall, bind_some, hcalls]
    · rw [hroot root rfl, hsame r hr]

end

end CommCentral.Subscribe
