import CommCentral.Threading.AddChild

/-!
# The tree invariant of a thread

`RemoveChildHdr` always keeps the tree.  `AddChild` keeps it under the condition
`ThreadOp.KeepsTree`, so every run whose calls meet the condition stays valid
(`treeInvariant_of_keepsTree`).  Without it the tree can be lost: a header can
adopt the message that it replies to (`addChild_cycle`).
-/

namespace CommCentral.Threading

open List RowOrder ParentTree

namespace MsgThread

/-! ## `RemoveChildHdr` -/

section Remove

variable {t : MsgThread} {root child : MsgHdr}

/-- Children of a node that is not the root go to one new parent. -/
theorem foldl_reparentChildOf_some {oldParent p : MsgKey} (hp : p ≠ oldParent)
    (rows : List MsgHdr) (u : MsgThread) :
    let u' := rows.foldl (reparentChildOf oldParent) (u, some p)
    u'.1.rows = u.rows ∧ u'.1.threadRootKey = u.threadRootKey ∧
      (∀ r ∈ rows, u.threadParent r.messageKey = some oldParent →
        u'.1.threadParent r.messageKey = some p) ∧
      ∀ k, u.threadParent k ≠ some oldParent → u'.1.threadParent k = u.threadParent k := by
  induction rows generalizing u with
  | nil => exact ⟨rfl, rfl, by simp, fun _ _ => rfl⟩
  | cons cur rows ih =>
    rw [foldl_cons]
    by_cases hc : u.threadParent cur.messageKey = some oldParent
    · have hstep : reparentChildOf oldParent (u, some p) cur =
          (u.setThreadParent cur.messageKey (some p), some p) := by
        simp [reparentChildOf, hc]
      rw [hstep]
      obtain ⟨hrows, hroot, hset, hkeep⟩ := ih (u.setThreadParent cur.messageKey (some p))
      have hcur : ((rows.foldl (reparentChildOf oldParent)
          (u.setThreadParent cur.messageKey (some p), some p)).1.threadParent
            cur.messageKey) = some p := by
        rw [hkeep _ (by simpa using hp), threadParent_setThreadParent_self]
      refine ⟨hrows, hroot, fun r hr hro => ?_, fun k hk => ?_⟩
      · by_cases hrc : r.messageKey = cur.messageKey
        · rw [hrc]
          exact hcur
        · cases mem_cons.mp hr with
          | inl he => exact absurd (congrArg _ he) hrc
          | inr hr' =>
            refine hset r hr' ?_
            rwa [threadParent_setThreadParent_of_ne _ _ _ hrc]
      · have hkc : k ≠ cur.messageKey := fun he => hk (he ▸ hc)
        have hk' := threadParent_setThreadParent_of_ne u cur.messageKey (some p) hkc
        rw [hkeep k (by rwa [hk']), hk']
    · have hstep : reparentChildOf oldParent (u, some p) cur = (u, some p) := by
        simp [reparentChildOf, hc]
      rw [hstep]
      obtain ⟨hrows, hroot, hset, hkeep⟩ := ih u
      refine ⟨hrows, hroot, fun r hr hro => ?_, hkeep⟩
      cases mem_cons.mp hr with
      | inl he => exact absurd (he ▸ hro) hc
      | inr hr' => exact hset r hr' hro

theorem foldl_reparentChildOf_of_no_child (oldParent : MsgKey) (newParent : Option MsgKey)
    (rows : List MsgHdr) (u : MsgThread)
    (h : ∀ r ∈ rows, u.threadParent r.messageKey ≠ some oldParent) :
    rows.foldl (reparentChildOf oldParent) (u, newParent) = (u, newParent) := by
  induction rows with
  | nil => rfl
  | cons r rows ih =>
    have hstep : reparentChildOf oldParent (u, newParent) r = (u, newParent) :=
      if_neg (h r (by simp))
    rw [foldl_cons, hstep]
    exact ih fun s hs => h s (by simp [hs])

theorem keys_removeChild (t : MsgThread) (msgKey : MsgKey) :
    (t.removeChild msgKey).keys = t.keys.erase msgKey := by
  have hgen : ∀ rows : List MsgHdr, (rows.eraseP (·.messageKey = msgKey)).map (·.messageKey) =
      (rows.map (·.messageKey)).erase msgKey := by
    intro rows
    induction rows with
    | nil => rfl
    | cons r rows ih =>
      by_cases hr : r.messageKey = msgKey
      · simp [hr]
      · simp [hr, ih]
  exact hgen t.rows

theorem ValidTree.of_removeChild (h : ValidTree t root) {t' : MsgThread}
    {top : MsgKey} (hrows : t'.rows = t.rows) (hroot : t'.threadRootKey = some top)
    (htree : IsTree (fun k => k ∈ t.keys ∧ k ≠ child.messageKey) t'.threadParent top) :
    ∃ r, ValidTree (t'.removeChild child.messageKey) r := by
  have hkeys : (t'.removeChild child.messageKey).keys = t.keys.erase child.messageKey := by
    rw [keys_removeChild, keys, hrows, keys]
  have htree' : IsTree (· ∈ (t'.removeChild child.messageKey).keys) t'.threadParent top := by
    refine htree.congr fun k => ?_
    rw [hkeys, h.nodup.mem_erase_iff, and_comm]
  obtain ⟨r, hr, hkey⟩ := mem_keys.mp htree'.root_mem
  subst hkey
  exact ⟨r, by rw [hkeys]; exact h.nodup.erase _, hr, hroot, htree'⟩

/-- `RemoveChildHdr` leaves a valid thread, or none of its members. -/
theorem removeChildHdr_validTree (h : ValidTree t root) (hc : child ∈ t.rows) :
    (removeChildHdr t child).rows = [] ∨ ∃ r, ValidTree (removeChildHdr t child) r := by
  rw [removeChildHdr, reparentChildrenOf]
  have hck : child.messageKey ∈ t.keys := key_mem hc
  by_cases hcr : child.messageKey = root.messageKey
  · -- the root is removed
    have hnone : t.threadParent child.messageKey = none := by
      rw [hcr]
      exact h.isTree.root_parent
    rw [hnone]
    by_cases hone : ∀ r ∈ t.rows, r = child
    · left
      have hrows : t.rows = [child] := by
        have hnd : t.rows.Nodup := h.nodup.of_map _
        cases hl : t.rows with
        | nil => rw [hl] at hc; cases hc
        | cons r rows =>
          rw [hl] at hone hnd
          have hr : r = child := hone r (by simp)
          cases rows with
          | nil => rw [hr]
          | cons s rows =>
            have hs : s = child := hone s (by simp)
            exact absurd hnd (by simp [hr, hs])
      have hfold := foldl_reparentChildOf_of_no_child child.messageKey
        none t.rows t (by
          intro r hr
          rw [hone r hr, hnone]
          simp)
      rw [hfold]
      simp [removeChild, hrows]
    · right
      push Not at hone
      obtain ⟨other, hother, hne⟩ := hone
      have hkne : other.messageKey ≠ root.messageKey := fun he =>
        hne (eq_of_key_eq h.nodup hother hc (he.trans hcr.symm))
      obtain ⟨k, hk, hkp⟩ := h.isTree.exists_child (key_mem hother) hkne
      obtain ⟨r, hr, hrk⟩ := mem_keys.mp hk
      -- the first child in row order is promoted
      have hsome : (t.rows.find? (t.threadParent ·.messageKey = some child.messageKey)).isSome := by
        rw [find?_isSome]
        exact ⟨r, hr, by simp [hrk, hkp, hcr]⟩
      obtain ⟨q, hq⟩ := Option.isSome_iff_exists.mp hsome
      obtain ⟨hqp, a, b, hsplit, ha⟩ := find?_eq_some_iff_append.mp hq
      have hqp' : t.threadParent q.messageKey = some child.messageKey := by simpa using hqp
      have hqm : q ∈ t.rows := by rw [hsplit]; simp
      have hqne : q.messageKey ≠ child.messageKey := fun he =>
        h.isTree.parent_ne_self (key_mem hqm) (hqp'.trans (congrArg some he.symm))
      have hfold : t.rows.foldl (reparentChildOf child.messageKey) (t, none) =
          b.foldl (reparentChildOf child.messageKey)
            ((t.setThreadParent q.messageKey none).setThreadRootKey (some q.messageKey),
              some q.messageKey) := by
        have hbefore := foldl_reparentChildOf_of_no_child child.messageKey
          none a t fun r hr => by simpa using ha r hr
        rw [hsplit, foldl_append, hbefore]
        simp [reparentChildOf, hqp']
      obtain ⟨hrows, hroot, hset, hkeep⟩ := foldl_reparentChildOf_some hqne b
        ((t.setThreadParent q.messageKey none).setThreadRootKey (some q.messageKey))
      rw [hfold]
      have hqnone : (b.foldl (reparentChildOf child.messageKey)
          ((t.setThreadParent q.messageKey none).setThreadRootKey (some q.messageKey),
            some q.messageKey)).1.threadParent q.messageKey = none := by
        rw [hkeep _ (by simp), threadParent_setThreadRootKey, threadParent_setThreadParent_self]
      refine h.of_removeChild hrows hroot (h.isTree.remove hck (key_mem hqm)
        (Or.inl ⟨hcr, rfl, hqp', hqnone⟩) (fun k hk hkq hkp => ?_) fun k hk hkp => ?_)
      · obtain ⟨s, hs, rfl⟩ := mem_keys.mp hk
        have hsb : s ∈ b := by
          rw [hsplit, mem_append, mem_cons] at hs
          rcases hs with hsa | rfl | hsb
          · exact absurd hkp (by simpa using ha s hsa)
          · exact absurd rfl hkq
          · exact hsb
        refine hset s hsb ?_
        rw [threadParent_setThreadRootKey, threadParent_setThreadParent_of_ne _ _ _ hkq]
        exact hkp
      · have hkq : k ≠ q.messageKey := fun he => hkp (he ▸ hqp')
        have hsame : ((t.setThreadParent q.messageKey none).setThreadRootKey
            (some q.messageKey)).threadParent k = t.threadParent k := by
          rw [threadParent_setThreadRootKey, threadParent_setThreadParent_of_ne _ _ _ hkq]
        rw [hkeep k (by rwa [hsame]), hsame]
  · -- another member is removed
    right
    obtain ⟨p, hp, hpm⟩ := h.isTree.exists_parent hck hcr
    have hpc : p ≠ child.messageKey := fun he =>
      h.isTree.parent_ne_self hck (hp.trans (congrArg some he))
    rw [hp]
    obtain ⟨hrows, hroot, hset, hkeep⟩ := foldl_reparentChildOf_some hpc t.rows t
    refine h.of_removeChild hrows (hroot.trans h.rootKey) (h.isTree.remove hck hpm
      (Or.inr ⟨hcr, rfl, hp⟩) (fun k hk _ hkp => ?_) fun k _ hkp => hkeep k hkp)
    obtain ⟨s, hs, rfl⟩ := mem_keys.mp hk
    exact hset s hs hkp

end Remove

theorem addChild_of_empty {t : MsgThread} (h : t.rows = []) (others : List MsgHdr) (hdr : MsgHdr)
    (hcleared : t.threadParent hdr.messageKey = none) :
    ValidTree (addChild others t hdr none) hdr := by
  have hadd : addChild others t hdr none =
      ⟨[hdr], some hdr.messageKey, t.threadParent⟩ := by
    simp [addChild, enterChild, addRow, setThreadRootKey, adoptChildren, finishChild, h]
  rw [hadd]
  refine ⟨by simp [keys], by simp, rfl, by simp [keys], hcleared, ?_, ?_⟩
  · intro a b ha hab
    have hak : a = hdr.messageKey := by simpa [keys] using ha
    rw [hak, hcleared] at hab
    cases hab
  · intro a ha
    have hak : a = hdr.messageKey := by simpa [keys] using ha
    rw [hak]
    exact Climbs.refl _

end MsgThread

/-! ## Runs -/

open MsgThread

/-- A thread without members, or with members that form a tree. -/
def Valid (t : MsgThread) : Prop := t.rows = [] ∨ ∃ root, ValidTree t root

/-- The condition under which a call keeps the tree. -/
def ThreadOp.KeepsTree (t : MsgThread) : ThreadOp → Prop
  | .addChild hdr inReplyTo others =>
    let db := t.rows ++ [hdr] ++ others
    let t := t.setThreadParent hdr.messageKey none
    ∀ root ∈ t.rows, t.threadRootKey = some root.messageKey →
      ∀ c, firstChildOf db t hdr = some c → AdoptionKeepsTree db t hdr inReplyTo root c
  | .removeChildHdr _ => True

theorem Valid.treeInvariant {t : MsgThread} (h : Valid t) : TreeInvariant t := by
  intro hne
  rcases h with he | ⟨root, h⟩
  · exact absurd he hne
  · refine ⟨root.messageKey, key_mem h.root_mem, h.rootKey,
      fun k hk => h.isTree.parent_eq_none_iff hk, fun k hk hkr => ?_, h.isTree.climbs⟩
    obtain ⟨p, hp, hpm⟩ := h.isTree.exists_parent hk hkr
    exact ⟨p, hpm, hp⟩

/-- Clearing the thread parent of a header outside the thread changes nothing in
the thread. -/
theorem adding_of_clear {t : MsgThread} {hdr root : MsgHdr} {inReplyTo : Option MsgHdr}
    (h : ValidTree t root) (hfresh : hdr.messageKey ∉ t.keys)
    (hreply : ∀ m, inReplyTo = some m → m ∈ t.rows) (hfew : t.rows.length < 1000) :
    Adding (t.setThreadParent hdr.messageKey none) hdr inReplyTo root := by
  have hsame : ∀ k ∈ t.keys, (t.setThreadParent hdr.messageKey none).threadParent k =
      t.threadParent k :=
    fun k hk => threadParent_setThreadParent_of_ne _ _ _ fun he => hfresh (he ▸ hk)
  refine ⟨⟨h.nodup, h.root_mem, h.rootKey, h.isTree.of_agree hsame⟩, hfresh,
    threadParent_setThreadParent_self .., hreply, hfew⟩

theorem step_valid (t : MsgThread) (op : ThreadOp) (h : Valid t)
    (hop : op.Admissible t ∧ op.KeepsTree t) : Valid (step t op).1 := by
  obtain ⟨hadm, hkeep⟩ := hop
  cases op with
  | addChild hdr inReplyTo others =>
    obtain ⟨hfresh, hreply, hfew⟩ := hadm
    rcases h with he | ⟨root, h⟩
    · have hnone : inReplyTo = none := by
        cases inReplyTo with
        | none => rfl
        | some m =>
          have hm := hreply m rfl
          rw [he] at hm
          cases hm
      subst hnone
      exact Or.inr ⟨hdr, addChild_of_empty (t := t.setThreadParent hdr.messageKey none) he others
        hdr (threadParent_setThreadParent_self ..)⟩
    · exact Or.inr (addChild_validTree (adding_of_clear h hfresh hreply hfew)
        (hkeep root h.root_mem h.rootKey))
  | removeChildHdr child =>
    rcases h with he | ⟨root, h⟩
    · rw [ThreadOp.Admissible, he] at hadm
      cases hadm
    · exact removeChildHdr_validTree h hadm

/-- From an empty thread, every state of a run whose calls keep to the condition
is a tree. -/
theorem treeInvariant_of_keepsTree (t : MsgThread) (hempty : t.rows = []) (ops : List ThreadOp)
    (hadm : Machine.Along step (fun t op => op.Admissible t) t ops)
    (hkeep : Machine.Along step (fun t op => op.KeepsTree t) t ops) :
    ∀ run, run <+: ops → TreeInvariant (Machine.exec step t run) := by
  intro run hrun
  have hrest := (hadm.and hkeep).restrict hrun
  exact (Machine.exec_inv step_valid (Or.inl hempty) hrest).treeInvariant

/-- A header whose first member is the root takes over as the root. -/
theorem treeInvariant_of_parent_of_root :
    TreeInvariant (Machine.exec step ⟨[], none, fun _ => none⟩
      [.addChild ⟨1, ['c'], some ['<', 'p', '>'], 0, true⟩ none [],
        .addChild ⟨2, ['p'], none, 0, false⟩ none []]) := by
  refine treeInvariant_of_keepsTree _ rfl
    [.addChild ⟨1, ['c'], some ['<', 'p', '>'], 0, true⟩ none [],
      .addChild ⟨2, ['p'], none, 0, false⟩ none []]
    ⟨⟨by decide, by simp, by decide⟩, ⟨by decide, by simp, by decide⟩, trivial⟩
    ⟨?_, ?_, trivial⟩ _ prefix_rfl
  · intro root hroot
    cases hroot
  · intro root hroot _ c hc
    have hrows : ∀ r ∈ [MsgHdr.mk 1 ['c'] (some ['<', 'p', '>']) 0 true],
        r = ⟨1, ['c'], some ['<', 'p', '>'], 0, true⟩ := by simp
    exact Or.inl ((hrows c (mem_of_find?_eq_some hc)).trans (hrows root hroot).symm)

/-- A header that replies to a member and is the last reference of that member
becomes its child and its parent. -/
theorem addChild_cycle :
    ¬ ∀ (t : MsgThread) (ops : List ThreadOp), t.rows = [] →
      Machine.Along step (fun t op => op.Admissible t) t ops →
      ∀ run, run <+: ops → TreeInvariant (Machine.exec step t run) := by
  intro h
  let root : MsgHdr := ⟨1, ['r'], none, 0, false⟩
  let reply : MsgHdr := ⟨2, ['m'], some ['<', 'r', '>', '<', 'x', '>'], 1, true⟩
  let late : MsgHdr := ⟨3, ['x'], some ['<', 'm', '>'], 2, true⟩
  let ops : List ThreadOp :=
    [.addChild root none [], .addChild reply (some root) [], .addChild late (some reply) []]
  let t : MsgThread := ⟨[], none, fun _ => none⟩
  have hadm : Machine.Along step (fun t op => op.Admissible t) t ops :=
    ⟨⟨by decide, by simp, by decide⟩, ⟨by decide, by rintro m ⟨⟩; decide, by decide⟩,
      ⟨by decide, by rintro m ⟨⟩; decide, by decide⟩, trivial⟩
  obtain ⟨top, -, htop, -, -, hclimb⟩ := h t ops rfl hadm ops prefix_rfl (by decide)
  have hkeys : (Machine.exec step t ops).threadRootKey = some 1 := by decide
  have hreply : (Machine.exec step t ops).threadParent 2 = some 3 := by decide
  have hlate : (Machine.exec step t ops).threadParent 3 = some 2 := by decide
  -- the two headers point at each other, so neither leads to the root
  have hmem := (hclimb 2 (by decide)).mem_of_closed (P := fun k => k = 2 ∨ k = 3)
    (by
      rintro a b (rfl | rfl) hab
      · exact Or.inr (Option.some.inj (hab.symm.trans hreply))
      · exact Or.inl (Option.some.inj (hab.symm.trans hlate))) (Or.inl rfl)
  rw [hkeys] at htop
  cases htop
  simp at hmem

end CommCentral.Threading
