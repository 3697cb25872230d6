import CommCentral.Threading.Takeover

/-!
# The tree after `AddChild`

`ValidTree t root` is the invariant of a thread with members: keys are unique,
and the thread parents make the members one tree whose root is the recorded one.
`AdoptionKeepsTree` is the condition under which `AddChild` keeps it.
-/

namespace CommCentral.Threading

open Option List RowOrder ParentTree

namespace MsgThread

/-- A thread whose members form one tree with the recorded root. -/
structure ValidTree (t : MsgThread) (root : MsgHdr) : Prop where
  nodup : t.keys.Nodup
  root_mem : root ∈ t.rows
  rootKey : t.threadRootKey = some root.messageKey
  isTree : IsTree (· ∈ t.keys) t.threadParent root.messageKey

/-- The first member that a new header is a parent of. -/
def firstChildOf (db : List MsgHdr) (t : MsgThread) (hdr : MsgHdr) : Option MsgHdr :=
  t.rows.find? (hdr.isParentOf db ·)

/-- When the adoption of `c` and of the later members keeps the tree.

* `c` is the root.
* The header takes over the root as an ancestor of it: then it is a parent of
  the root as well, the root is not the last row (not counting the message
  replied to), and `c` is not the message replied to.
* Otherwise, the header goes below the message that it replies to, or below the
  root: then it does not adopt that message or one above it.  It adopts `c` and
  all others it is a parent of, except the last row. -/
def AdoptionKeepsTree (db : List MsgHdr) (t : MsgThread) (hdr : MsgHdr)
    (inReplyTo : Option MsgHdr) (root c : MsgHdr) : Prop :=
  c = root ∨
  (t.threadParent c.messageKey = some root.messageKey ∧ hdr.isAncestorOf root = true ∧
    hdr.isParentOf db root = true ∧ inReplyTo ≠ some c ∧
      ∃ s, inReplyTo ≠ some s ∧ Before t.rows root s) ∨
  (¬ (t.threadParent c.messageKey = some root.messageKey ∧ hdr.isAncestorOf root = true) ∧
    ∀ r ∈ t.rows, hdr.isParentOf db r = true → (r = c ∨ ∃ s, Before t.rows r s) →
      ¬ Climbs t.threadParent (inReplyTo.getD root).messageKey r.messageKey)

/-! ## Keys and rows -/

section Rows

variable {t : MsgThread} {root r s : MsgHdr}

theorem mem_keys {k : MsgKey} : k ∈ t.keys ↔ ∃ r ∈ t.rows, r.messageKey = k := mem_map

theorem key_mem (h : r ∈ t.rows) : r.messageKey ∈ t.keys := mem_map_of_mem h

section

variable (hnd : t.keys.Nodup) (hr : r ∈ t.rows)

include hnd hr

theorem eq_of_key_eq (hs : s ∈ t.rows) (h : r.messageKey = s.messageKey) : r = s :=
  inj_on_of_nodup_map hnd hr hs h

theorem getMsgHdrForKey_of_mem (others : List MsgHdr) :
    getMsgHdrForKey (t.rows ++ others) (some r.messageKey) = some r := by
  have hfind : t.rows.find? (·.messageKey = r.messageKey) = some r := by
    cases hf : t.rows.find? (·.messageKey = r.messageKey) with
    | none =>
      exact absurd (find?_eq_none.mp hf r hr) (by simp)
    | some s =>
      have hkey : s.messageKey = r.messageKey := by simpa using find?_some hf
      rw [eq_of_key_eq hnd (mem_of_find?_eq_some hf) hr hkey]
  rw [getMsgHdrForKey, bind_some, find?_append, hfind, some_or]

theorem getRootHdr_of_root (hroot : t.threadRootKey = some r.messageKey)
    (hnone : t.threadParent r.messageKey = none) : getRootHdr t = (t, some r) := by
  have hfind : t.getChildHdrForKey r.messageKey = some r := by
    have h := getMsgHdrForKey_of_mem hnd hr []
    rwa [getMsgHdrForKey, bind_some, List.append_nil] at h
  rw [getRootHdr]
  simp [hroot, hfind, Option.filter, hnone]

end

theorem keys_perm {t' : MsgThread} {hdr : MsgHdr} (h : t'.rows.Perm (hdr :: t.rows)) :
    t'.keys.Perm (hdr.messageKey :: t.keys) := by
  simpa [keys] using h.map (·.messageKey)

/-- A thread with one more row is valid when the links are a tree. -/
theorem ValidTree.of_perm {t' : MsgThread} {hdr top : MsgHdr} (hnd : t.keys.Nodup)
    (hfresh : hdr.messageKey ∉ t.keys) (h : t'.rows.Perm (hdr :: t.rows))
    (htop : top = hdr ∨ top ∈ t.rows) (hroot : t'.threadRootKey = some top.messageKey)
    (htree : IsTree (fun k => k = hdr.messageKey ∨ k ∈ t.keys) t'.threadParent top.messageKey) :
    ValidTree t' top := by
  have hkeys := keys_perm h
  refine ⟨hkeys.nodup_iff.mpr (nodup_cons.mpr ⟨hfresh, hnd⟩), h.mem_iff.mpr (by simpa using htop),
    hroot, htree.congr fun k => ?_⟩
  rw [hkeys.mem_iff, mem_cons]

end Rows

/-! ## The situation of one `AddChild` -/

/-- A new header is added to a valid thread. -/
structure Adding (t : MsgThread) (hdr : MsgHdr) (inReplyTo : Option MsgHdr) (root : MsgHdr) :
    Prop where
  tree : ValidTree t root
  fresh : hdr.messageKey ∉ t.keys
  cleared : t.threadParent hdr.messageKey = none
  reply : ∀ m, inReplyTo = some m → m ∈ t.rows
  few : t.rows.length < 1000

namespace Adding

variable {t : MsgThread} {hdr root : MsgHdr} {inReplyTo : Option MsgHdr}

section

variable (h : Adding t hdr inReplyTo root)

include h

theorem not_mem : hdr ∉ t.rows := fun hm => h.fresh (key_mem hm)

theorem ne_of_mem {r : MsgHdr} (hr : r ∈ t.rows) :
    r.messageKey ≠ hdr.messageKey := fun he => h.fresh (he ▸ key_mem hr)

/-- `enterChild` appends the row, keeps the root and sets one parent. -/
theorem enter : let t₀ := enterChild t hdr inReplyTo
    t₀.rows = t.rows ++ [hdr] ∧ t₀.threadRootKey = some root.messageKey ∧
      t₀.threadParent hdr.messageKey = inReplyTo.map (·.messageKey) ∧
      ∀ k, k ≠ hdr.messageKey → t₀.threadParent k = t.threadParent k := by
  have hlen : t.rows.length ≠ 0 := Nat.ne_of_gt (length_pos_of_mem h.tree.root_mem)
  have hadd : t.addRow hdr = { t with rows := t.rows ++ [hdr] } := by
    rw [addRow, if_neg h.not_mem]
  have hroot := h.tree.rootKey
  simp only [enterChild, if_neg hlen, hadd]
  cases inReplyTo with
  | none => exact ⟨rfl, hroot, h.cleared, fun _ _ => rfl⟩
  | some m => exact ⟨rfl, hroot, threadParent_setThreadParent_self .., fun k hk =>
    threadParent_setThreadParent_of_ne _ _ _ hk⟩

theorem nodup_enter : (enterChild t hdr inReplyTo).keys.Nodup := by
  have hperm : (enterChild t hdr inReplyTo).rows.Perm (hdr :: t.rows) := by
    rw [h.enter.1]
    exact perm_append_singleton ..
  exact (keys_perm hperm).nodup_iff.mpr (nodup_cons.mpr ⟨h.fresh, h.tree.nodup⟩)

end

end Adding

/-! ## What the loop leaves -/

/-- The root is still the old one, and nothing above the place where the header
goes has been adopted. -/
structure LoopKept (t : MsgThread) (hdr : MsgHdr) (inReplyTo : Option MsgHdr) (root : MsgHdr)
    (st : AddLoop) : Prop where
  rows : st.thread.rows.Perm (hdr :: t.rows)
  rootKey : st.thread.threadRootKey = some root.messageKey
  /-- A header that is no reply still has to be put below the root. -/
  needs : st.parentKeyNeedsSetting = inReplyTo.isNone
  parent_hdr : st.thread.threadParent hdr.messageKey = inReplyTo.map (·.messageKey)
  parent : ∀ k ∈ t.keys, st.thread.threadParent k = t.threadParent k ∨
    st.thread.threadParent k = some hdr.messageKey ∧
      ¬ Climbs t.threadParent (inReplyTo.getD root).messageKey k

/-- The members and the header form a tree with a new root. -/
structure LoopTookOver (t : MsgThread) (hdr : MsgHdr) (inReplyTo : Option MsgHdr)
    (st : AddLoop) (top : MsgHdr) : Prop where
  tree : ValidTree st.thread top
  hdrMoved : st.hdrMoved = true
  needs : st.parentKeyNeedsSetting = false
  /-- A header that is no reply is itself the root. -/
  top_eq : inReplyTo = none → top = hdr

section Loop

variable {db others : List MsgHdr} {t : MsgThread} {hdr root c : MsgHdr}
  {inReplyTo : Option MsgHdr}

def loopStart (t : MsgThread) (hdr : MsgHdr) (inReplyTo : Option MsgHdr) : AddLoop :=
  ⟨enterChild t hdr inReplyTo, false, 0, inReplyTo.isNone⟩

theorem loop_of_none (h : Adding t hdr inReplyTo root) (hnone : firstChildOf db t hdr = none) :
    LoopKept t hdr inReplyTo root
      (adoptChildren db hdr t.rows.length (loopStart t hdr inReplyTo)) := by
  obtain ⟨hrows, hroot, hhdr, hpar⟩ := h.enter
  obtain ⟨m, hm⟩ := foldl_adoptAt_of_unmatched db hdr
    (List.range t.rows.length) (loopStart t hdr inReplyTo) (by
      intro i hi r hr
      simp only [loopStart] at hr
      rw [hrows, getElem?_append_left (mem_range.mp hi)] at hr
      simpa using find?_eq_none.mp hnone r (mem_of_getElem? hr))
  rw [adoptChildren, if_pos h.few, hm]
  refine ⟨?_, hroot, rfl, hhdr, fun k hk => Or.inl (hpar k fun he => h.fresh (he ▸ hk))⟩
  simp only [loopStart, hrows]
  exact perm_append_singleton ..

/-- Members are adopted, and the root is not taken over. -/
theorem loop_of_keeps (h : Adding t hdr inReplyTo root) (hfirst : firstChildOf db t hdr = some c)
    (hkeep : KeepsRoot db (enterChild t hdr inReplyTo) hdr c)
    (hadopt : ∀ r ∈ t.rows, hdr.isParentOf db r = true → (r = c ∨ ∃ s, Before t.rows r s) →
      ¬ Climbs t.threadParent (inReplyTo.getD root).messageKey r.messageKey) :
    LoopKept t hdr inReplyTo root
      (adoptChildren db hdr t.rows.length (loopStart t hdr inReplyTo)) := by
  obtain ⟨hrows, hroot, hhdr, hpar⟩ := h.enter
  obtain ⟨hc, a, b, hsplit, ha⟩ := find?_eq_some_iff_append.mp hfirst
  have hcm : c ∈ t.rows := by rw [hsplit]; simp
  have hnd : (loopStart t hdr inReplyTo).thread.rows.Nodup := h.nodup_enter.of_map _
  have hstart : (loopStart t hdr inReplyTo).thread.rows = a ++ c :: b ++ [hdr] := by
    rw [← hsplit]
    exact hrows
  have hfew := h.few
  rw [hsplit] at hfew
  obtain ⟨hr, hrt, -, hn, hp⟩ := adoptChildren_of_keeps hstart hnd (h.ne_of_mem hcm)
    (fun r hra => by simpa using ha r hra) hc rfl hfew hkeep
  rw [← hsplit] at hr hrt hn hp
  have hkept : ∀ k, (adoptChildren db hdr t.rows.length
      (loopStart t hdr inReplyTo)).thread.threadParent k =
        (enterChild t hdr inReplyTo).threadParent k ∨ _ := hp
  refine ⟨?_, hrt.trans hroot, hn, ?_, fun k hk => ?_⟩
  · rw [hr, hsplit]
    exact perm_middle
  · rcases hkept hdr.messageKey with he | ⟨-, r, hrm, hrk, -⟩
    · exact he.trans hhdr
    · exact absurd hrk (h.ne_of_mem hrm)
  · rcases hkept k with he | ⟨he, r, hrm, hrk, hpr, hbef⟩
    · exact Or.inl (he.trans (hpar k fun hkh => h.fresh (hkh ▸ hk)))
    · exact Or.inr ⟨he, hrk ▸ hadopt r hrm hpr hbef⟩

/-- The header that takes over: the message that the new header replies to, or
the new header itself if that message is the old root. -/
def newRootHdr (hdr root : MsgHdr) : Option MsgHdr → MsgHdr
  | none => hdr
  | some m => if m = root then hdr else m

theorem newRootHdr_cases (hdr root : MsgHdr) (inReplyTo : Option MsgHdr) :
    newRootHdr hdr root inReplyTo = hdr ∧
        (inReplyTo = none ∨ inReplyTo = some root) ∨
      ∃ m, newRootHdr hdr root inReplyTo = m ∧ inReplyTo = some m ∧ m ≠ root := by
  cases inReplyTo with
  | none => exact Or.inl ⟨rfl, Or.inl rfl⟩
  | some m =>
    by_cases hm : m = root
    · exact Or.inl ⟨if_pos hm, Or.inr (by rw [hm])⟩
    · exact Or.inr ⟨m, if_neg hm, rfl, hm⟩

section

variable (h : Adding t hdr inReplyTo root) (hdb : db = (enterChild t hdr inReplyTo).rows ++ others)

include h hdb

/-- `RerootThread` makes that header the root. -/
theorem takesOver_newRootHdr {t₂ : MsgThread} (hroot : t₂.threadRootKey = some root.messageKey)
    (hpar : t₂.threadParent = (enterChild t hdr inReplyTo).threadParent) :
    TakesOver db t₂ hdr (newRootHdr hdr root inReplyTo) := by
  have hhdr : t₂.threadParent hdr.messageKey = inReplyTo.map (·.messageKey) := by
    rw [hpar]
    exact h.enter.2.2.1
  rcases newRootHdr_cases hdr root inReplyTo with ⟨htop, rfl | rfl⟩ | ⟨m, htop, rfl, hmr⟩
  · exact Or.inl ⟨htop, Or.inl hhdr⟩
  · exact Or.inl ⟨htop, Or.inr (by rw [hhdr, hroot]; rfl)⟩
  · have hm : m ∈ t.rows := h.reply m rfl
    have hm₀ : m ∈ (enterChild t hdr (some m)).rows := by
      rw [h.enter.1]
      simp [hm]
    rw [htop]
    refine Or.inr ⟨hhdr, fun he => ?_, h.ne_of_mem hm, ?_⟩
    · rw [hroot] at he
      exact hmr (eq_of_key_eq h.tree.nodup hm h.tree.root_mem (Option.some.inj he).symm)
    · rw [hdb]
      exact getMsgHdrForKey_of_mem h.nodup_enter hm₀ others

theorem loop_of_takeover {a b : List MsgHdr} (hsplit : t.rows = a ++ c :: b)
    (ha : ∀ r ∈ a, hdr.isParentOf db r = false) (hc : hdr.isParentOf db c = true) (t₂ : MsgThread)
    (hrows : t₂.rows.Perm (hdr :: t.rows)) (hroot : t₂.threadRootKey = some root.messageKey)
    (hpar : t₂.threadParent = (enterChild t hdr inReplyTo).threadParent)
    (hfirst : ∀ m, adoptFirst db hdr c a.length { loopStart t hdr inReplyTo with moveIndex := m } = ⟨rerootThread db t₂ hdr root, true, m, false⟩)
    (hct : c ≠ newRootHdr hdr root inReplyTo)
    (hreach : root = c ∨ hdr.isParentOf db root = true ∧ ∃ i ∈ List.range' (a.length + 1) b.length, (moveTo t₂.rows (newRootHdr hdr root inReplyTo) 0)[i]? = some root) :
    LoopTookOver t hdr inReplyTo
      (adoptChildren db hdr t.rows.length (loopStart t hdr inReplyTo))
      (newRootHdr hdr root inReplyTo) := by
  have hcm : c ∈ t.rows := by rw [hsplit]; simp
  have hcases := newRootHdr_cases hdr root inReplyTo
  have htopmem : newRootHdr hdr root inReplyTo = hdr ∨ newRootHdr hdr root inReplyTo ∈ t.rows := by
    rcases hcases with ⟨htop, -⟩ | ⟨m, htop, hm, -⟩
    · exact Or.inl htop
    · exact Or.inr (htop ▸ h.reply m hm)
  have htakes := takesOver_newRootHdr h hdb hroot hpar
  generalize newRootHdr hdr root inReplyTo = top at hct hreach hcases htopmem htakes ⊢
  obtain ⟨h₁rows, h₁root, h₁none, h₁par⟩ := rerootThread_spec root htakes
  have hperm : (rerootThread db t₂ hdr root).rows.Perm (hdr :: t.rows) := by
    rw [h₁rows]
    exact (moveTo_perm ..).trans hrows
  have hkeys := keys_perm hperm
  have hnd : (rerootThread db t₂ hdr root).keys.Nodup :=
    hkeys.nodup_iff.mpr (nodup_cons.mpr ⟨h.fresh, h.tree.nodup⟩)
  have hct' : c.messageKey ≠ top.messageKey := by
    intro he
    rcases htopmem with rfl | hm
    · exact h.ne_of_mem hcm he
    · exact hct (eq_of_key_eq h.tree.nodup hcm hm he)
  have hstart : (loopStart t hdr inReplyTo).thread.rows = a ++ c :: b ++ [hdr] := by
    rw [← hsplit]
    exact h.enter.1
  have hfew := h.few
  have hhead : (rerootThread db t₂ hdr root).rows = top :: t₂.rows.erase top := by
    rw [h₁rows]
    exact moveTo_zero (hrows.mem_iff.mpr (by simpa using htopmem))
  rw [hsplit] at hfew
  obtain ⟨hr, hrt, hm, hn, hnone, hp, hset⟩ := adoptChildren_of_takeover hstart (h.ne_of_mem hcm)
    ha hc rfl hfew hfirst hhead (hperm.mem_iff.mpr (by simp)) hnd h₁none hct'
  rw [← hsplit] at hr hrt hm hn hnone hp hset
  refine ⟨ValidTree.of_perm h.tree.nodup h.fresh (by rw [hr]; exact hperm) htopmem
    (hrt.trans h₁root) ?_, hm, hn, ?_⟩
  · refine h.tree.isTree.insert_above ?_ hnone ?_ ?_ fun k hk => ?_
    · exact htopmem.imp (congrArg _) key_mem
    · rcases hcases with ⟨rfl, -⟩ | ⟨m, rfl, rfl, -⟩
      · exact Or.inl rfl
      · have hkey : hdr.messageKey ≠ top.messageKey := (h.ne_of_mem (h.reply top rfl)).symm
        refine Or.inr ?_
        rcases hp hdr.messageKey with he | ⟨hne, -⟩
        · rcases h₁par _ hkey with he₁ | ⟨he₁, -⟩
          · rw [he, he₁, hpar]
            exact h.enter.2.2.1
          · exact he.trans he₁
        · exact absurd rfl hne
    · refine hset root ?_
      rw [h₁rows]
      exact hreach
    · by_cases hkt : k = top.messageKey
      · exact Or.inl hkt
      · rcases hp k with he | ⟨-, he⟩
        · rcases h₁par k hkt with he₁ | ⟨he₁, -⟩
          · refine Or.inr (Or.inl ?_)
            rw [he, he₁, hpar]
            exact h.enter.2.2.2 k fun hkh => h.fresh (hkh ▸ hk)
          · exact Or.inr (Or.inr (Or.inr (he.trans he₁)))
        · exact Or.inr (Or.inr (Or.inl he))
  · intro hnone
    rcases hcases with ⟨htop, -⟩ | ⟨m, -, hm, -⟩
    · exact htop
    · rw [hnone] at hm
      cases hm

theorem loop_spec
    (hkeep : ∀ c, firstChildOf db t hdr = some c → AdoptionKeepsTree db t hdr inReplyTo root c) :
    LoopKept t hdr inReplyTo root
        (adoptChildren db hdr t.rows.length (loopStart t hdr inReplyTo)) ∨
      ∃ top, LoopTookOver t hdr inReplyTo
        (adoptChildren db hdr t.rows.length (loopStart t hdr inReplyTo)) top := by
  cases hfirst : firstChildOf db t hdr with
  | none => exact Or.inl (loop_of_none h hfirst)
  | some c =>
    obtain ⟨hc, a, b, hsplit, ha⟩ := find?_eq_some_iff_append.mp hfirst
    have ha' : ∀ r ∈ a, hdr.isParentOf db r = false := fun r hr => by simpa using ha r hr
    have hcm : c ∈ t.rows := by rw [hsplit]; simp
    obtain ⟨hrows, hroot, -, hpar⟩ := h.enter
    have hperm : (enterChild t hdr inReplyTo).rows.Perm (hdr :: t.rows) := by
      rw [hrows]
      exact perm_append_singleton ..
    have hpc : (enterChild t hdr inReplyTo).threadParent c.messageKey =
        t.threadParent c.messageKey := hpar _ (h.ne_of_mem hcm)
    have hgetRoot : getMsgHdrForKey db (some root.messageKey) = some root := by
      rw [hdb]
      refine getMsgHdrForKey_of_mem h.nodup_enter ?_ others
      rw [hrows]
      simp [h.tree.root_mem]
    by_cases hcr : c = root
    · -- the header is a parent of the root
      subst hcr
      refine Or.inr ⟨_, loop_of_takeover h hdb hsplit ha' hc
        ((enterChild t hdr inReplyTo).moveRow hdr a.length)
        ((moveTo_perm ..).trans hperm) hroot rfl (fun m => ?_) ?_ (Or.inl rfl)⟩
      · exact adoptFirst_of_root { loopStart t hdr inReplyTo with moveIndex := m }
          hroot (hpc.trans h.tree.isTree.root_parent) a.length
      · intro he
        rcases newRootHdr_cases hdr c inReplyTo with ⟨htop, -⟩ | ⟨m, htop, -, hm⟩
        · exact h.not_mem ((he.trans htop) ▸ hcm)
        · exact hm (he.trans htop).symm
    · rcases hkeep c hfirst with he | ⟨hchild, hanc, hpr, hreply, s, hs, hbefore⟩ | ⟨hnot, hadopt⟩
      · exact absurd he hcr
      · -- the header is an ancestor of the root
        have hout : hdr ∉ a ∧ hdr ∉ c :: b := by
          have hnm := h.not_mem
          rw [hsplit, mem_append] at hnm
          exact ⟨fun hx => hnm (Or.inl hx), fun hx => hnm (Or.inr hx)⟩
        have hmoved : (((enterChild t hdr inReplyTo).moveRow hdr a.length).moveRow hdr 0).rows =
            hdr :: (a ++ c :: b) := by
          rw [rows_moveRow, rows_moveRow, hrows, hsplit, moveTo_append_last hout.1 hout.2,
            moveTo_zero (by simp), erase_append_right _ hout.1, erase_cons_head]
        refine Or.inr ⟨_, loop_of_takeover h hdb hsplit ha' hc
          (((enterChild t hdr inReplyTo).moveRow hdr a.length).moveRow hdr 0)
          ((moveTo_perm ..).trans ((moveTo_perm ..).trans hperm)) hroot rfl (fun m => ?_) ?_
          (Or.inr ⟨hpr, ?_⟩)⟩
        · exact adoptFirst_of_child { loopStart t hdr inReplyTo with moveIndex := m }
            hroot ((congrArg (getMsgHdrForKey db) (hpc.trans hchild)).trans hgetRoot) hanc a.length
        · intro he
          rcases newRootHdr_cases hdr root inReplyTo with ⟨htop, -⟩ | ⟨m, htop, hm, -⟩
          · exact h.not_mem ((he.trans htop) ▸ hcm)
          · exact hreply (hm.trans (congrArg some (he.trans htop).symm))
        · have hsm : s ∈ t.rows := by
            obtain ⟨u, w, huw, hsw⟩ := hbefore
            rw [huw]
            simp [hsw]
          rw [hmoved]
          refine reached_of_before (s := s) ?_ (Ne.symm hcr) (hsplit ▸ hbefore) ?_ ?_
            (hsplit ▸ h.not_mem)
          · intro hra
            rw [ha' root hra] at hpr
            cases hpr
          · intro he
            rcases newRootHdr_cases hdr root inReplyTo with ⟨htop, -⟩ | ⟨m, htop, hm, -⟩
            · exact h.not_mem ((he.trans htop) ▸ hsm)
            · exact hs (hm.trans (congrArg some (he.trans htop).symm))
          · rcases newRootHdr_cases hdr root inReplyTo with ⟨htop, -⟩ | ⟨m, htop, hm, hmr⟩
            · exact Or.inl htop
            · rw [htop]
              have hmm : m ∈ t.rows := h.reply m hm
              exact Or.inr ⟨hsplit ▸ hmm, fun he => h.not_mem (he ▸ hmm), hmr⟩
      · -- no root is taken over
        refine Or.inl (loop_of_keeps h hfirst ⟨fun he => ?_, fun p hp hanc he => ?_⟩ hadopt)
        · rw [hroot] at he
          exact hcr (eq_of_key_eq h.tree.nodup hcm h.tree.root_mem (Option.some.inj he))
        · rw [hroot] at he
          rw [hpc] at hp
          obtain ⟨q, hq, hfind⟩ := bind_eq_some_iff.mp hp
          have hpq : p.messageKey = q := by simpa using find?_some hfind
          rw [← hpq, Option.some.inj he] at hq
          rw [hq, hgetRoot] at hp
          exact hnot ⟨hq, Option.some.inj hp ▸ hanc⟩

end

end Loop

/-! ## After the loop -/

section Finish

variable {db : List MsgHdr} {t : MsgThread} {hdr root : MsgHdr} {inReplyTo : Option MsgHdr}
  {st : AddLoop}

/-- The end of `AddChild` only sets the parent of a header that still needs one. -/
theorem finishChild_spec (hdr : MsgHdr) (n : ℕ) (st : AddLoop) :
    let t' := finishChild hdr n st
    t'.rows.Perm st.thread.rows ∧ t'.threadRootKey = st.thread.threadRootKey ∧
      t'.threadParent = if n > 0 ∧ st.parentKeyNeedsSetting = true then
        (st.thread.setThreadParent hdr.messageKey st.thread.threadRootKey).threadParent
        else st.thread.threadParent := by
  intro t'
  simp only [t', finishChild]
  split <;> split <;> simp [moveTo_perm]

theorem makeTopLevel_spec (h : Adding t hdr inReplyTo root) (hk : LoopKept t hdr none root st) :
    ValidTree (makeTopLevel db st.thread hdr root) hdr := by
  have htakes : TakesOver db st.thread hdr hdr := Or.inl ⟨rfl, Or.inl hk.parent_hdr⟩
  obtain ⟨h₁rows, -, -, h₁par⟩ := rerootThread_spec root htakes
  have hne : root.messageKey ≠ hdr.messageKey := h.ne_of_mem h.tree.root_mem
  have hex : ∃ t₂, makeTopLevel db st.thread hdr root =
      reparentNonReferenceChildrenOf db t₂ root hdr.messageKey ∧
      t₂.rows = moveTo (rerootThread db st.thread hdr root).rows hdr 0 ∧
      t₂.threadRootKey = some hdr.messageKey ∧ t₂.threadParent hdr.messageKey = none ∧
      t₂.threadParent root.messageKey = some hdr.messageKey ∧
      ∀ k, k ≠ hdr.messageKey → k ≠ root.messageKey →
        t₂.threadParent k = (rerootThread db st.thread hdr root).threadParent k := by
    refine ⟨_, rfl, rfl, rfl, threadParent_setThreadParent_self .., ?_, fun k hkh hkr => ?_⟩
    · rw [threadParent_setThreadParent_of_ne _ _ _ hne, threadParent_setThreadRootKey,
        threadParent_setThreadParent_self]
    · rw [threadParent_setThreadParent_of_ne _ _ _ hkh, threadParent_setThreadRootKey,
        threadParent_setThreadParent_of_ne _ _ _ hkr, threadParent_moveRow]
  obtain ⟨t₂, heq, h₂rows, h₂root, h₂hdr, h₂old, h₂par⟩ := hex
  obtain ⟨hrows, hroot, hpar⟩ := reparentNonReferenceChildrenOf_spec db t₂ root hdr.messageKey
  rw [heq]
  refine ValidTree.of_perm h.tree.nodup h.fresh ?_ (Or.inl rfl) (hroot.trans h₂root) ?_
  · rw [hrows, h₂rows]
    refine (moveTo_perm ..).trans ?_
    rw [h₁rows]
    exact (moveTo_perm ..).trans hk.rows
  · refine h.tree.isTree.insert_above (Or.inl rfl) ?_ (Or.inl rfl) ?_ fun k hkm => ?_
    · rcases hpar hdr.messageKey with he | ⟨hn, -⟩
      · exact he.trans h₂hdr
      · exact absurd rfl hn
    · rcases hpar root.messageKey with he | ⟨-, he, -⟩
      · exact he.trans h₂old
      · exact he
    · have hkh : k ≠ hdr.messageKey := fun he => h.fresh (he ▸ hkm)
      rcases hpar k with he | ⟨-, he, -⟩
      · by_cases hkr : k = root.messageKey
        · rw [hkr] at he ⊢
          exact Or.inr (Or.inr (Or.inl (he.trans h₂old)))
        · rw [he, h₂par k hkh hkr]
          rcases h₁par k hkh with he₁ | ⟨he₁, -⟩
          · rw [he₁]
            rcases hk.parent k hkm with he₂ | ⟨he₂, -⟩
            · exact Or.inr (Or.inl he₂)
            · exact Or.inr (Or.inr (Or.inl he₂))
          · exact Or.inr (Or.inr (Or.inl he₁))
      · exact Or.inr (Or.inr (Or.inl he))

section

variable (h : Adding t hdr inReplyTo root) (hk : LoopKept t hdr inReplyTo root st)

include h hk

theorem validTree_of_below {t' : MsgThread} (hrows : t'.rows.Perm st.thread.rows)
    (hroot : t'.threadRootKey = st.thread.threadRootKey)
    (hhdr : t'.threadParent hdr.messageKey = some (inReplyTo.getD root).messageKey)
    (hpar : ∀ k, k ≠ hdr.messageKey → t'.threadParent k = st.thread.threadParent k) :
    ValidTree t' root := by
  refine ValidTree.of_perm h.tree.nodup h.fresh (hrows.trans hk.rows) (Or.inr h.tree.root_mem)
    (hroot.trans hk.rootKey) (h.tree.isTree.insert_below ?_ hhdr fun k hkm => ?_)
  · cases inReplyTo with
    | none => exact key_mem h.tree.root_mem
    | some m => exact key_mem (h.reply m rfl)
  · rw [hpar k fun he => h.fresh (he ▸ hkm)]
    exact hk.parent k hkm

/-- After the loop the old root is still found as the root header. -/
theorem LoopKept.getRootHdr_eq : getRootHdr st.thread = (st.thread, some root) := by
  have hkeys := keys_perm hk.rows
  refine getRootHdr_of_root
    (hkeys.nodup_iff.mpr (nodup_cons.mpr ⟨h.fresh, h.tree.nodup⟩))
    (hk.rows.mem_iff.mpr (by simp [h.tree.root_mem])) hk.rootKey ?_
  rcases hk.parent root.messageKey (key_mem h.tree.root_mem) with he | ⟨-, hnot⟩
  · exact he.trans h.tree.isTree.root_parent
  · refine absurd (h.tree.isTree.climbs _ ?_) hnot
    cases inReplyTo with
    | none => exact key_mem h.tree.root_mem
    | some m => exact key_mem (h.reply m rfl)

/-- The end of `AddChild` when the root was not taken over. -/
theorem finish_of_kept :
    ∃ top, ValidTree (finishChild hdr t.rows.length
      (if t.rows.length > 0 ∧ hdr.hasRe = false ∧ inReplyTo.isNone then
        checkTopLevel db hdr st else st)) top := by
  have hpos : t.rows.length > 0 := length_pos_of_mem h.tree.root_mem
  by_cases hnew : t.rows.length > 0 ∧ hdr.hasRe = false ∧ inReplyTo.isNone ∧ hdr.date < root.date
  · -- an older header that is no reply becomes the root
    have hnone : inReplyTo = none := isNone_iff_eq_none.mp hnew.2.2.1
    subst hnone
    have hcheck : checkTopLevel db hdr st =
        ⟨makeTopLevel db st.thread hdr root, true, st.moveIndex, false⟩ := by
      rw [checkTopLevel, hk.getRootHdr_eq h]
      simp [Option.filter, hnew.2.2.2]
    rw [if_pos ⟨hnew.1, hnew.2.1, hnew.2.2.1⟩, hcheck]
    refine ⟨hdr, ?_⟩
    simpa [finishChild] using makeTopLevel_spec h hk
  · have hstay : (if t.rows.length > 0 ∧ hdr.hasRe = false ∧ inReplyTo.isNone then
        checkTopLevel db hdr st else st) = st := by
      split
      · rename_i hc
        have hdate : ¬ hdr.date < root.date := fun hd => hnew ⟨hc.1, hc.2.1, hc.2.2, hd⟩
        rw [checkTopLevel, hk.getRootHdr_eq h]
        simp [Option.filter, hdate]
      · rfl
    rw [hstay]
    obtain ⟨hrows, hroot, hpar⟩ := finishChild_spec hdr t.rows.length st
    refine ⟨root, validTree_of_below h hk hrows hroot ?_ fun k hkh => ?_⟩
    · rw [hpar, hk.needs]
      cases inReplyTo with
      | none =>
        rw [if_pos ⟨hpos, rfl⟩, threadParent_setThreadParent_self]
        exact hk.rootKey
      | some m =>
        rw [if_neg (by simp)]
        exact hk.parent_hdr
    · rw [hpar]
      split
      · exact threadParent_setThreadParent_of_ne _ _ _ hkh
      · rfl

end

/-- The end of `AddChild` when the root was taken over. -/
theorem finish_of_tookOver {top : MsgHdr} (hk : LoopTookOver t hdr inReplyTo st top) :
    ValidTree (finishChild hdr t.rows.length
      (if t.rows.length > 0 ∧ hdr.hasRe = false ∧ inReplyTo.isNone then
        checkTopLevel db hdr st else st)) top := by
  have hstay : (if t.rows.length > 0 ∧ hdr.hasRe = false ∧ inReplyTo.isNone then
      checkTopLevel db hdr st else st) = st := by
    split
    · rename_i hc
      -- the header is compared with itself
      have htop : top = hdr := hk.top_eq (isNone_iff_eq_none.mp hc.2.2)
      rw [checkTopLevel, getRootHdr_of_root hk.tree.nodup hk.tree.root_mem hk.tree.rootKey
        hk.tree.isTree.root_parent, htop]
      simp [Option.filter]
    · rfl
  rw [hstay]
  simpa [finishChild, hk.needs, hk.hdrMoved] using hk.tree

/-- `AddChild` to a thread with members. -/
theorem addChild_validTree {others : List MsgHdr} (h : Adding t hdr inReplyTo root)
    (hkeep : ∀ c, firstChildOf (t.rows ++ [hdr] ++ others) t hdr = some c →
      AdoptionKeepsTree (t.rows ++ [hdr] ++ others) t hdr inReplyTo root c) :
    ∃ top, ValidTree (addChild others t hdr inReplyTo) top := by
  have hdb : t.rows ++ [hdr] ++ others = (enterChild t hdr inReplyTo).rows ++ others := by
    rw [h.enter.1]
  rw [hdb] at hkeep
  rcases loop_spec h rfl hkeep with hk | ⟨top, hk⟩
  · exact finish_of_kept h hk
  · exact ⟨top, finish_of_tookOver hk⟩

end Finish

end MsgThread

end CommCentral.Threading
