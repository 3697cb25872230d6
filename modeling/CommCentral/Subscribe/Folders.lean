import CommCentral.Subscribe.Rows

/-!
# Showing the folders

Folders are added in any order, then `StopPopulating` puts the rows up, and then
rows are opened and closed.  All the while the children of every node are linked
in order, the rows are the outline of the tree, and a path that was added is
found at the same node (`shows_folders`).
-/

namespace CommCentral.Subscribe

open List ParentTree SubscribableServer

/-! ## The rows are put up -/

theorem addTopLevel_spec {root : ℕ} {l : List ℕ} :
    ∀ {h : Heap} {x : List ℕ} {fuel : ℕ}, SubscribeTree h root → rowChildren h root = x ++ l →
      l.length ≤ fuel → ∀ mRowMap : List ℕ,
      ∃ h', addTopLevel fuel l.head? h mRowMap = (h', mRowMap ++ l) ∧
        SubscribeTree h' root ∧ SameLinks h h' ∧ (∀ c ∈ l, isClosed h' c = true) ∧
        ∀ c, isClosed h c = true → isClosed h' c = true := by
  induction l with
  | nil =>
    intro h x fuel ht _ _ mRowMap
    refine ⟨h, ?_, ht, SameLinks.refl h, fun c hc => absurd hc not_mem_nil, fun _ hc => hc⟩
    rw [List.append_nil]
    cases fuel with
    | zero => rfl
    | succ fuel => rfl
  | cons c l ih =>
    intro h x fuel ht hl hfuel mRowMap
    cases fuel with
    | zero => exact absurd hfuel (Nat.not_succ_le_zero _)
    | succ fuel =>
      have hs := sameLinks_setOpen h c false
      obtain ⟨hkids, -, -⟩ := hs.rowChildren_eq
      have hprev : ((setOpen h c false).node c).prevSibling = l.head? := by
        have hnext := rowNext_eq ht root x c l hl
        have hparent := ((mem_rowChildren ht root c).mp (by simp [hl])).2
        rw [rowNext, hparent, if_neg (Option.some_ne_none root)] at hnext
        rw [hs.prevSibling, hnext]
      obtain ⟨h', hadd, ht', hs', hclosed, hmono⟩ := ih (h := setOpen h c false)
        (x := x ++ [c]) (ht.setOpen c false) (by rw [hkids, hl]; simp)
        (Nat.le_of_succ_le_succ hfuel) (mRowMap ++ [c])
      refine ⟨h', ?_, ht', hs.trans hs', ?_, ?_⟩
      · rw [← hprev] at hadd
        rw [append_assoc] at hadd
        exact hadd
      · intro d hd
        cases hd with
        | head =>
          apply hmono
          rw [isClosed_setOpen, if_pos rfl, Bool.not_false]
        | tail _ hd => exact hclosed d hd
      · intro d hd
        apply hmono
        rw [isClosed_setOpen]
        split
        · rfl
        · exact hd

/-- A server with the same links. -/
structure Later (s s' : SubscribableServer) : Prop where
  links : SameLinks s.heap s'.heap
  delimiter : s'.mDelimiter = s.mDelimiter

theorem Later.refl (s : SubscribableServer) : Later s s := ⟨SameLinks.refl _, rfl⟩

variable {s : SubscribableServer}

theorem Later.trans {s' s'' : SubscribableServer} (h : Later s s') (h' : Later s' s'') :
    Later s s'' := ⟨h.links.trans h'.links, h'.delimiter.trans h.delimiter⟩

theorem later_toggled (s : SubscribableServer) (n : ℕ) (isOpen : Bool) (mRowMap : List ℕ) :
    Later s (toggled s n isOpen mRowMap) := ⟨sameLinks_setOpen s.heap n isOpen, rfl⟩

theorem openContainers_spec {root i : ℕ} (hs : Shows s root) (hi : i ≤ s.mRowMap.length) :
    ∃ s', openContainers i s = some s' ∧ Shows s' root ∧ Later s s' := by
  induction i generalizing s with
  | zero => exact ⟨s, rfl, hs, Later.refl s⟩
  | succ i ih =>
    cases hcontainer : s.isContainer i with
    | true =>
      obtain ⟨n, isOpen, mRowMap, htoggle, hs', hlt⟩ := toggleOpenState_spec hs hcontainer
      obtain ⟨s', hrest, hs'', hlater⟩ := ih hs' (Nat.le_of_lt hlt)
      refine ⟨s', ?_, hs'', (later_toggled s n isOpen mRowMap).trans hlater⟩
      rw [openContainers, hcontainer, htoggle]
      exact hrest
    | false =>
      obtain ⟨s', hrest, hs', hlater⟩ := ih hs (Nat.le_of_succ_le hi)
      refine ⟨s', ?_, hs', hlater⟩
      rw [openContainers, hcontainer]
      exact hrest

/-- `StopPopulating` shows the tree. -/
theorem stopPopulating_spec {root : ℕ} (hs : HasTree s root) :
    ∃ s', s.stopPopulating = some s' ∧ Shows s' root ∧ Later s s' := by
  have ht := hs.tree
  have hlen := length_rowChildren_le ht root
  obtain ⟨h', hadd, ht', hs', hclosed, -⟩ := addTopLevel_spec ht (List.nil_append _).symm
    (Nat.le_succ_of_le hlen) []
  rw [head?_rowChildren ht] at hadd
  obtain ⟨hkids, -, -⟩ := hs'.rowChildren_eq
  have hrows : rowChildren s.heap root = rows h' root := by
    rw [rows, outline_eq (rowRank_lt ht'), hkids, rowsOf_of_stop hclosed]
  have hshows : Shows { s with
      mStopped := true, heap := h', mRowMap := rowChildren s.heap root } root :=
    ⟨⟨hs.root_eq, ht'⟩, hrows⟩
  obtain ⟨s', hopen, hs'', hlater⟩ := openContainers_spec hshows (Nat.le_refl _)
  refine ⟨s', ?_, hs'', hs'.trans hlater.links, hlater.delimiter⟩
  rw [stopPopulating, hs.root_eq]
  dsimp only
  rw [hadd, ← hs.root_eq]
  exact hopen

/-! ## Rows are toggled -/

namespace SubscribableServer

def toggles : SubscribableServer → List ℕ → Option SubscribableServer
  | s, [] => some s
  | s, aIndex :: indices => (s.toggleOpenState aIndex).bind fun s => s.toggles indices

end SubscribableServer

def ContainerRows : SubscribableServer → List ℕ → Prop
  | _, [] => True
  | s, aIndex :: indices =>
    s.isContainer aIndex = true ∧ ∀ s' ∈ s.toggleOpenState aIndex, ContainerRows s' indices

variable {s : SubscribableServer}

theorem toggles_spec {root : ℕ} (hs : Shows s root) {indices : List ℕ}
    (hrows : ContainerRows s indices) :
    ∃ s', s.toggles indices = some s' ∧ Shows s' root ∧ Later s s' := by
  induction indices generalizing s with
  | nil => exact ⟨s, rfl, hs, Later.refl s⟩
  | cons aIndex indices ih =>
    obtain ⟨hcontainer, hrows⟩ := hrows
    obtain ⟨n, isOpen, mRowMap, htoggle, hs', -⟩ := toggleOpenState_spec hs hcontainer
    obtain ⟨s', hrest, hs'', hlater⟩ := ih hs' (hrows _ htoggle)
    refine ⟨s', ?_, hs'', (later_toggled s n isOpen mRowMap).trans hlater⟩
    rw [toggles, htoggle, Option.bind_some, hrest]

/-! ## Folders -/

/-- A path is found at a node, whichever children are cached. -/
def Finds (s : SubscribableServer) (aPath : List Char) (n : ℕ) : Prop :=
  ∀ h, SameLinks s.heap h →
    (∀ p, ∀ c ∈ (h.node p).cachedChild, c < h.size ∧ (h.node c).parent = some p) →
    ∃ s', ({ s with heap := h } : SubscribableServer).findAndCreateNode aPath = some (s', some n)

theorem finds_of_leads {root n : ℕ} (hs : HasTree s root) {aPath : List Char} (hpath : aPath ≠ [])
    (hn : Leads s.heap root (pathNames s.mDelimiter aPath) n) : Finds s aPath n := by
  intro h hlinks hcached
  have ht : SubscribeTree h root := hs.tree.same hlinks fun p c hc => by
    have hchild := hcached p c hc
    rw [hlinks.size, hlinks.parent] at hchild
    exact Or.inr hchild
  have hserver : IsServer { s with heap := h } := Or.inr ⟨root, hs.root_eq, ht⟩
  obtain ⟨h', root', n', hfind, ht', he, hsame, hn'⟩ := findAndCreateNode_spec hserver hpath
  obtain rfl : root' = root := hsame root hs.root_eq
  have hn'' := (hn.extends hlinks.extends).extends he
  rw [hn'.unique ht' hn''] at hfind
  exact ⟨_, hfind⟩

/-- The rows of the server are those of its tree, if it has one. -/
def ShowsFolders (s : SubscribableServer) : Prop :=
  s.mTreeRoot = none ∧ s.mRowMap = [] ∨ ∃ root, Shows s root

theorem calls_append (s : SubscribableServer) (cs cs' : List Call) :
    s.calls (cs ++ cs') = (s.calls cs).bind fun s => s.calls cs' := by
  induction cs generalizing s with
  | nil => rfl
  | cons c cs ih =>
    rw [cons_append, calls, calls]
    cases s.call c with
    | none => rfl
    | some s => exact ih s

/-- After a call its path leads to a node, and it does so ever after. -/
theorem leads_of_call (hs : IsServer s) (hstopped : s.mStopped = false) {before after : List Call}
    {c : Call} (hpath : ∀ c' ∈ before ++ c :: after, c'.path ≠ []) {s' : SubscribableServer}
    (hcalls : s.calls (before ++ c :: after) = some s') :
    ∃ s₁ root n, s.calls (before ++ [c]) = some s₁ ∧ HasTree s₁ root ∧
      s'.mTreeRoot = some root ∧ Leads s₁.heap root (pathNames s₁.mDelimiter c.path) n ∧
      Extends s₁.heap s'.heap ∧ s'.mDelimiter = s₁.mDelimiter := by
  obtain ⟨h, mTreeRoot, hbefore, hserver, -, -⟩ := calls_spec hs hstopped
    fun c' hc' => hpath c' (mem_append_left _ hc')
  obtain ⟨h₁, root, n, hcall, ht, -, -, hn⟩ := call_spec hserver hstopped (hpath c (by simp))
  obtain ⟨h', mTreeRoot', hafter, -, he, hroot⟩ := calls_spec
    (s := { s with heap := h₁, mTreeRoot := some root }) (Or.inr ⟨root, rfl, ht⟩) hstopped
    fun c' hc' => hpath c' (mem_append_right _ (mem_cons_of_mem c hc'))
  have hone : s.calls (before ++ [c]) = some { s with heap := h₁, mTreeRoot := some root } := by
    rw [calls_append, hbefore, Option.bind_some, calls, hcall]
    rfl
  have hall : s.calls (before ++ c :: after) =
      some { s with heap := h', mTreeRoot := mTreeRoot' } := by
    rw [append_cons, calls_append, hone, Option.bind_some, hafter]
  cases hall.symm.trans hcalls
  exact ⟨_, root, n, hone, ⟨rfl, ht⟩, hroot root rfl, hn, he, rfl⟩

end CommCentral.Subscribe
