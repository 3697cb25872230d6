import CommCentral.Threading.Model

/-!
# The loops of `AddChild`

What each helper of `AddChild` does to the table, the root key and the thread
parents.
-/

namespace CommCentral.Threading

open List RowOrder

/-! ## References -/

/-- `ParseReferences` drops self-references. -/
theorem ne_of_mem_parseReferences {messageId : List Char} {fuel : ℕ} {atStart : Bool}
    {text r : List Char} (h : r ∈ parseReferences messageId fuel atStart text) :
    r ≠ messageId := by
  induction fuel generalizing atStart text with
  | zero => cases h
  | succ fuel ih =>
    cases text with
    | nil => cases h
    | cons c text =>
      rw [parseReferences] at h
      split at h
      · rename_i hne
        cases mem_cons.mp h with
        | inl he => rw [he]; exact hne.2
        | inr ht => exact ih ht
      · exact ih h

/-- A list of references without the message id does not lead to it. -/
theorem isParentOfLoop_eq_false {db : List MsgHdr} {messageId : List Char} {refs : List (List Char)}
    (h : ∀ r ∈ refs, r ≠ messageId) : isParentOfLoop db messageId refs = false := by
  induction refs with
  | nil => rfl
  | cons r refs ih =>
    rw [isParentOfLoop, if_neg (h r (by simp))]
    split
    · rfl
    · exact ih fun s hs => h s (by simp [hs])

theorem MsgHdr.isParentOf_self (db : List MsgHdr) (hdr : MsgHdr) : hdr.isParentOf db hdr = false := by
  refine isParentOfLoop_eq_false fun r hr => ?_
  have hmem : r ∈ hdr.stringReferences := mem_of_mem_take (mem_reverse.mp hr)
  exact ne_of_mem_parseReferences hmem

namespace MsgThread

/-! ## The fields after an update -/

section Fields

variable (t : MsgThread) (hdr : MsgHdr) (key : MsgKey) (parent : Option MsgKey) (pos : ℕ)

@[simp] theorem rows_setThreadRootKey : (t.setThreadRootKey parent).rows = t.rows := rfl

@[simp] theorem threadRootKey_setThreadRootKey :
    (t.setThreadRootKey parent).threadRootKey = parent := rfl

@[simp] theorem threadParent_setThreadRootKey :
    (t.setThreadRootKey parent).threadParent = t.threadParent := rfl

@[simp] theorem rows_setThreadParent : (t.setThreadParent key parent).rows = t.rows := rfl

@[simp] theorem threadRootKey_setThreadParent :
    (t.setThreadParent key parent).threadRootKey = t.threadRootKey := rfl

@[simp] theorem threadParent_setThreadParent_self :
    (t.setThreadParent key parent).threadParent key = parent := Function.update_self ..

theorem threadParent_setThreadParent_of_ne {k : MsgKey} (h : k ≠ key) :
    (t.setThreadParent key parent).threadParent k = t.threadParent k :=
  Function.update_of_ne h ..

@[simp] theorem rows_moveRow : (t.moveRow hdr pos).rows = moveTo t.rows hdr pos := rfl

@[simp] theorem threadRootKey_moveRow : (t.moveRow hdr pos).threadRootKey = t.threadRootKey := rfl

@[simp] theorem threadParent_moveRow : (t.moveRow hdr pos).threadParent = t.threadParent := rfl

end Fields

theorem threadParent_setThreadParent (t : MsgThread) (key k : MsgKey) (parent : Option MsgKey) :
    (t.setThreadParent key parent).threadParent k =
      if k = key then parent else t.threadParent k := by
  by_cases h : k = key
  · rw [if_pos h, h, threadParent_setThreadParent_self]
  · rw [if_neg h, threadParent_setThreadParent_of_ne _ _ _ h]

/-! ## `RerootThread` -/

section Reroot

variable {db : List MsgHdr} {t : MsgThread} {hdr oldRoot : MsgHdr}

/-- What `ReparentNonReferenceChildrenOf` does: some children of the old top
level header go to the new one. -/
theorem reparentNonReferenceChildrenOf_spec (db : List MsgHdr) (t : MsgThread) (oldTop : MsgHdr)
    (newParentKey : MsgKey) :
    let t' := reparentNonReferenceChildrenOf db t oldTop newParentKey
    t'.rows = t.rows ∧ t'.threadRootKey = t.threadRootKey ∧
      ∀ k, t'.threadParent k = t.threadParent k ∨
        k ≠ newParentKey ∧ t'.threadParent k = some newParentKey ∧
          t.threadParent k = some oldTop.messageKey := by
  have hgen : ∀ (rows : List MsgHdr) (u : MsgThread),
      let u' := rows.foldl (reparentNonReferenceChild db oldTop newParentKey) u
      u'.rows = u.rows ∧ u'.threadRootKey = u.threadRootKey ∧
        ∀ k, u'.threadParent k = u.threadParent k ∨
          k ≠ newParentKey ∧ u'.threadParent k = some newParentKey ∧
            u.threadParent k = some oldTop.messageKey := by
    intro rows
    induction rows with
    | nil => exact fun u => ⟨rfl, rfl, fun k => Or.inl rfl⟩
    | cons r rows ih =>
      intro u
      rw [foldl_cons]
      obtain ⟨hrows, hroot, hpar⟩ := ih (reparentNonReferenceChild db oldTop newParentKey u r)
      simp only
      rw [hrows, hroot]
      by_cases hc : u.threadParent r.messageKey = some oldTop.messageKey ∧
          r.messageKey ≠ newParentKey ∧ ¬ oldTop.isParentOf db r
      · rw [reparentNonReferenceChild, if_pos hc] at hpar ⊢
        refine ⟨rfl, rfl, fun k => ?_⟩
        have hk := hpar k
        rw [threadParent_setThreadParent] at hk
        by_cases hkr : k = r.messageKey
        · subst hkr
          rw [if_pos rfl] at hk
          refine Or.inr ⟨hc.2.1, ?_, hc.1⟩
          rcases hk with he | ⟨-, he, -⟩ <;> exact he
        · rwa [if_neg hkr] at hk
      · rw [reparentNonReferenceChild, if_neg hc] at hpar ⊢
        exact ⟨rfl, rfl, hpar⟩
  exact hgen t.rows t

/-- The loop of `RerootThread` ends after its first pass: the exit test looks at
the variable that the pass has just assigned. -/
theorem climb_eq (db : List MsgHdr) (t : MsgThread) (fuel : ℕ) (hdr : MsgHdr) (newRoot : MsgKey) :
    climb db t (fuel + 1) hdr newRoot = some (climbOnce db t hdr newRoot) := by
  have hstop : climbsOn t (climbOnce db t hdr newRoot) = false := by
    rw [climbOnce]
    by_cases hc : t.threadParent hdr.messageKey ≠ none ∧
        t.threadParent hdr.messageKey ≠ t.threadRootKey ∧
        t.threadParent hdr.messageKey ≠ some newRoot
    · simp only [if_pos hc, climbsOn]
      cases hp : t.threadParent hdr.messageKey with
      | none => simp
      | some p => simp
    · simp only [if_neg hc, climbsOn]
      simpa using hc
  rw [climb]
  simp [hstop]

/-- The header that `RerootThread` makes the root: the one given, or the one
that it replies to when that is not the root. -/
def TakesOver (db : List MsgHdr) (t : MsgThread) (hdr newRoot : MsgHdr) : Prop :=
  newRoot = hdr ∧ (t.threadParent hdr.messageKey = none ∨
      t.threadParent hdr.messageKey = t.threadRootKey) ∨
    t.threadParent hdr.messageKey = some newRoot.messageKey ∧
      t.threadRootKey ≠ some newRoot.messageKey ∧ newRoot.messageKey ≠ hdr.messageKey ∧
      getMsgHdrForKey db (some newRoot.messageKey) = some newRoot

/-- What `RerootThread` does. -/
theorem rerootThread_spec (oldRoot : MsgHdr) {newRoot : MsgHdr} (h : TakesOver db t hdr newRoot) :
    let t' := rerootThread db t hdr oldRoot
    t'.rows = moveTo t.rows newRoot 0 ∧ t'.threadRootKey = some newRoot.messageKey ∧
      t'.threadParent newRoot.messageKey = none ∧
      ∀ k, k ≠ newRoot.messageKey → t'.threadParent k = t.threadParent k ∨
        t'.threadParent k = some newRoot.messageKey ∧
          t.threadParent k = some oldRoot.messageKey := by
  have hclimb : climbOnce db t hdr hdr.messageKey =
      ⟨some newRoot, newRoot.messageKey, t.threadParent hdr.messageKey⟩ := by
    rw [climbOnce]
    rcases h with ⟨rfl, hp | hp⟩ | ⟨hp, hroot, hne, hget⟩
    · simp [hp]
    · simp [hp]
    · rw [if_pos ⟨by simp [hp], by rw [hp]; exact hroot.symm, by simp [hp, hne]⟩]
      simp only [hp, Option.getD_some, hget]
  intro t'
  obtain ⟨hrows, hroot, hpar⟩ := reparentNonReferenceChildrenOf_spec db
    (t.setThreadRootKey (some newRoot.messageKey)) oldRoot newRoot.messageKey
  have ht' : t' = ((reparentNonReferenceChildrenOf db
      (t.setThreadRootKey (some newRoot.messageKey)) oldRoot newRoot.messageKey).moveRow newRoot
        0).setThreadParent newRoot.messageKey none := by
    simp only [t', rerootThread, climb_eq, hclimb, rerootAt, Option.elim_some]
  rw [ht']
  refine ⟨?_, hroot, threadParent_setThreadParent_self _ _ _, fun k hk => ?_⟩
  · rw [rows_setThreadParent, rows_moveRow, hrows, rows_setThreadRootKey]
  · rw [threadParent_setThreadParent_of_ne _ _ _ hk]
    rcases hpar k with he | ⟨-, he, ho⟩
    · exact Or.inl he
    · exact Or.inr ⟨he, ho⟩

end Reroot

/-! ## The loop of `AddChild` -/

section Loop

variable {db : List MsgHdr} {hdr : MsgHdr}

/-- At indices whose rows the header is not a parent of, the loop only looks for
a position by date. -/
theorem foldl_adoptAt_of_unmatched (db : List MsgHdr) (hdr : MsgHdr) (is : List ℕ) (st : AddLoop)
    (h : ∀ i ∈ is, ∀ r, st.thread.rows[i]? = some r → hdr.isParentOf db r = false) :
    ∃ moveIndex, is.foldl (adoptAt db hdr) st = { st with moveIndex := moveIndex } := by
  induction is generalizing st with
  | nil => exact ⟨st.moveIndex, rfl⟩
  | cons i is ih =>
    have hhead : ∃ moveIndex, adoptAt db hdr st i = { st with moveIndex := moveIndex } := by
      rw [adoptAt]
      cases hi : st.thread.rows[i]? with
      | none => exact ⟨st.moveIndex, rfl⟩
      | some r =>
        simp only [h i (by simp) r hi]
        by_cases hd : st.hdrMoved = false ∧ i > 0 ∧ st.moveIndex = 0 ∧ hdr.date < r.date
        · exact ⟨i, by simp [hd]⟩
        · exact ⟨st.moveIndex, by simp [hd]⟩
    obtain ⟨m, hm⟩ := hhead
    rw [foldl_cons, hm]
    obtain ⟨m', hm'⟩ := ih { st with moveIndex := m }
      fun j hj r hr => h j (by simp [hj]) r hr
    exact ⟨m', hm'⟩

/-- One pass after the header has been moved: the row at the index becomes a
child if the header is a parent of it. -/
theorem adoptAt_of_moved (db : List MsgHdr) (hdr : MsgHdr) {st : AddLoop} (hmoved : st.hdrMoved = true) (i : ℕ) :
    (adoptAt db hdr st i = st ∧
      ∀ r, st.thread.rows[i]? = some r → hdr.isParentOf db r = false) ∨
    ∃ cur, st.thread.rows[i]? = some cur ∧ hdr.isParentOf db cur = true ∧
      adoptAt db hdr st i = { st with
        thread := st.thread.setThreadParent cur.messageKey (some hdr.messageKey) } := by
  cases hi : st.thread.rows[i]? with
  | none => exact Or.inl ⟨by rw [adoptAt, hi], by simp⟩
  | some cur =>
    cases hp : hdr.isParentOf db cur with
    | false => exact Or.inl ⟨by rw [adoptAt, hi]; simp [hp, hmoved], by simpa using hp⟩
    | true => exact Or.inr ⟨cur, rfl, hp, by rw [adoptAt, hi]; simp [hp, adopt, hmoved]⟩

/-- Once the header has been moved, the rows at the indices that it is a parent
of become its children, and nothing else changes. -/
theorem foldl_adoptAt_of_moved (db : List MsgHdr) (hdr : MsgHdr) (is : List ℕ) (st : AddLoop)
    (hmoved : st.hdrMoved = true) :
    let st' := is.foldl (adoptAt db hdr) st
    st'.thread.rows = st.thread.rows ∧ st'.thread.threadRootKey = st.thread.threadRootKey ∧
      st'.hdrMoved = true ∧ st'.parentKeyNeedsSetting = st.parentKeyNeedsSetting ∧
      ∀ k, (st'.thread.threadParent k = some hdr.messageKey ∧ ∃ i ∈ is, ∃ r,
          st.thread.rows[i]? = some r ∧ hdr.isParentOf db r = true ∧ r.messageKey = k) ∨
        (st'.thread.threadParent k = st.thread.threadParent k ∧ ∀ i ∈ is, ∀ r,
          st.thread.rows[i]? = some r → hdr.isParentOf db r = true → r.messageKey ≠ k) := by
  induction is generalizing st with
  | nil => exact ⟨rfl, rfl, hmoved, rfl, fun k => Or.inr ⟨rfl, by simp⟩⟩
  | cons i is ih =>
    rw [foldl_cons]
    rcases adoptAt_of_moved db hdr hmoved i with ⟨hstep, hun⟩ | ⟨cur, hi, hp, hstep⟩
    · rw [hstep]
      obtain ⟨hrows, hroot, hm, hn, hpar⟩ := ih st hmoved
      refine ⟨hrows, hroot, hm, hn, fun k => ?_⟩
      rcases hpar k with ⟨he, j, hj, r, hr⟩ | ⟨he, hnot⟩
      · exact Or.inl ⟨he, j, by simp [hj], r, hr⟩
      · refine Or.inr ⟨he, fun j hj r hr hpr => ?_⟩
        cases mem_cons.mp hj with
        | inl hji => rw [hji] at hr; exact absurd hpr (by simp [hun r hr])
        | inr hj' => exact hnot j hj' r hr hpr
    · rw [hstep]
      obtain ⟨hrows, hroot, hm, hn, hpar⟩ := ih { st with
        thread := st.thread.setThreadParent cur.messageKey (some hdr.messageKey) } hmoved
      refine ⟨hrows, hroot, hm, hn, fun k => ?_⟩
      rcases hpar k with ⟨he, j, hj, r, hr⟩ | ⟨he, hnot⟩
      · exact Or.inl ⟨he, j, by simp [hj], r, hr⟩
      · rw [threadParent_setThreadParent] at he
        by_cases hk : k = cur.messageKey
        · rw [if_pos hk] at he
          exact Or.inl ⟨he, i, by simp, cur, hi, hp, hk.symm⟩
        · rw [if_neg hk] at he
          refine Or.inr ⟨he, fun j hj r hr hpr => ?_⟩
          cases mem_cons.mp hj with
          | inl hji =>
            rw [hji, hi] at hr
            cases hr
            exact fun hc => hk hc.symm
          | inr hj' => exact hnot j hj' r hr hpr

end Loop

end MsgThread

end CommCentral.Threading
