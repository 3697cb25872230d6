import CommCentral.Threading.Adoption

/-!
# The first member that a new header is a parent of

The rows of the thread are `a ++ c :: b`, where `c` is the first one that the
new header is a parent of, and the header stands behind them.

* `adoptChildren_split`: the loop looks at `a`, adopts `c`, and goes on with the
  indices after it.
* `adoptChildren_of_keeps`: when no root is taken over, the header is moved in
  front of `c`, so the row at the last index is not looked at any more.
* `adoptChildren_of_takeover`: when the root is taken over, the new root stands
  at the front and is not looked at any more.
-/

namespace CommCentral.Threading

open List RowOrder

namespace MsgThread

variable {db : List MsgHdr} {hdr c : MsgHdr} {a b : List MsgHdr} {st : AddLoop}

/-- The loop up to the first member that the header is a parent of. -/
theorem adoptChildren_split (hrows : st.thread.rows = a ++ c :: b ++ [hdr])
    (ha : ∀ r ∈ a, hdr.isParentOf db r = false) (hc : hdr.isParentOf db c = true)
    (hlt : (a ++ c :: b).length < 1000) :
    ∃ moveIndex, adoptChildren db hdr (a ++ c :: b).length st =
      (range' (a.length + 1) b.length).foldl (adoptAt db hdr)
        (adopt db hdr c a.length { st with moveIndex := moveIndex }) := by
  obtain ⟨m, hm⟩ := foldl_adoptAt_of_unmatched db hdr
    (range a.length) st (by
      intro i hi r hr
      have hia : i < a.length := mem_range.mp hi
      rw [hrows, append_assoc, getElem?_append_left hia] at hr
      exact ha r (mem_of_getElem? hr))
  have hrange : range (a ++ c :: b).length =
      range a.length ++ a.length :: range' (a.length + 1) b.length := by
    rw [length_append, length_cons, range_eq_range', range_eq_range',
      ← range'_append_1, Nat.zero_add, range'_succ]
  have hcur : adoptAt db hdr { st with moveIndex := m } a.length =
      adopt db hdr c a.length { st with moveIndex := m } := by
    have hget : st.thread.rows[a.length]? = some c := by
      rw [hrows]
      simp
    rw [adoptAt]
    simp only [hget, hc, if_true]
  refine ⟨m, ?_⟩
  rw [adoptChildren, if_pos hlt, hrange, foldl_append, hm, foldl_cons, hcur]

/-! ## What `adoptFirst` does -/

/-- No root is taken over. -/
def KeepsRoot (db : List MsgHdr) (t : MsgThread) (hdr c : MsgHdr) : Prop :=
  some c.messageKey ≠ t.threadRootKey ∧
    ∀ p, getMsgHdrForKey db (t.threadParent c.messageKey) = some p →
      hdr.isAncestorOf p = true → some p.messageKey ≠ t.threadRootKey

theorem adoptFirst_of_keeps (st : AddLoop) (h : KeepsRoot db st.thread hdr c) (i : ℕ) :
    adoptFirst db hdr c i st = { st with thread := st.thread.moveRow hdr i, hdrMoved := true } := by
  rw [adoptFirst]
  cases hf : (getMsgHdrForKey db (st.thread.threadParent c.messageKey)).filter
      (hdr.isAncestorOf ·) with
  | none => simp [hf, h.1]
  | some p =>
    rw [Option.filter_eq_some_iff] at hf
    have hne : some p.messageKey ≠ st.thread.threadRootKey := h.2 p hf.1 hf.2
    simp [hf, Option.filter, hne]

theorem adoptFirst_of_root (st : AddLoop) (hroot : st.thread.threadRootKey = some c.messageKey)
    (hnone : st.thread.threadParent c.messageKey = none) (i : ℕ) :
    adoptFirst db hdr c i st = { st with
      thread := rerootThread db (st.thread.moveRow hdr i) hdr c
      hdrMoved := true
      parentKeyNeedsSetting := false } := by
  rw [adoptFirst]
  simp [hnone, getMsgHdrForKey, hroot]

/-- The first member is a child of the root, and the header is an ancestor of
the root. -/
theorem adoptFirst_of_child (st : AddLoop) {root : MsgHdr}
    (hroot : st.thread.threadRootKey = some root.messageKey)
    (hp : getMsgHdrForKey db (st.thread.threadParent c.messageKey) = some root)
    (hanc : hdr.isAncestorOf root = true) (i : ℕ) :
    adoptFirst db hdr c i st = { st with
      thread := rerootThread db ((st.thread.moveRow hdr i).moveRow hdr 0) hdr root
      hdrMoved := true
      parentKeyNeedsSetting := false } := by
  rw [adoptFirst]
  simp [hp, Option.filter, hanc, hroot]

/-! ## No root is taken over -/

/-- A row at an index that the loop still reaches stands right behind the moved
header or has a row after it. -/
theorem before_of_reached {i : ℕ} {r : MsgHdr} (hi : i ∈ List.range' (a.length + 1) b.length)
    (hr : (a ++ hdr :: c :: b)[i]? = some r) :
    r ∈ a ++ c :: b ∧ (r = c ∨ ∃ s, Before (a ++ c :: b) r s) := by
  obtain ⟨hlo, hhi⟩ := mem_range'_1.mp hi
  obtain ⟨j, rfl⟩ := Nat.exists_eq_add_of_le hlo
  have hj : j < b.length := by omega
  have hr' : (c :: b)[j]? = some r := by
    have hshift : (a ++ [hdr] ++ (c :: b))[(a ++ [hdr]).length + j]? = some r := by
      simpa using hr
    rwa [getElem?_append_right (Nat.le_add_right _ _), Nat.add_sub_cancel_left] at hshift
  refine ⟨mem_append_right _ (mem_of_getElem? hr'), ?_⟩
  cases j with
  | zero => exact Or.inl (by simpa using hr'.symm)
  | succ j =>
    have hbj : b[j]? = some r := by simpa using hr'
    obtain ⟨hjb, hbr⟩ := List.getElem?_eq_some_iff.mp hbj
    refine Or.inr ⟨b[j + 1], a ++ c :: b.take j, b.drop (j + 1), ?_, ?_⟩
    · have hb : b = b.take j ++ b[j] :: b.drop (j + 1) := by simp
      rw [hbr] at hb
      rw [append_assoc, cons_append, ← hb]
    · exact mem_of_getElem? (i := 0) (by simp [hj])

theorem adoptChildren_of_keeps (hrows : st.thread.rows = a ++ c :: b ++ [hdr])
    (hnd : st.thread.rows.Nodup) (hne : c.messageKey ≠ hdr.messageKey)
    (ha : ∀ r ∈ a, hdr.isParentOf db r = false) (hc : hdr.isParentOf db c = true)
    (hmoved : st.hdrMoved = false) (hlt : (a ++ c :: b).length < 1000)
    (hkeep : KeepsRoot db st.thread hdr c) :
    let st' := adoptChildren db hdr (a ++ c :: b).length st
    st'.thread.rows = a ++ hdr :: c :: b ∧
      st'.thread.threadRootKey = st.thread.threadRootKey ∧ st'.hdrMoved = true ∧
      st'.parentKeyNeedsSetting = st.parentKeyNeedsSetting ∧
      ∀ k, st'.thread.threadParent k = st.thread.threadParent k ∨
        st'.thread.threadParent k = some hdr.messageKey ∧ ∃ r ∈ a ++ c :: b,
          r.messageKey = k ∧ hdr.isParentOf db r = true ∧
            (r = c ∨ ∃ s, Before (a ++ c :: b) r s) := by
  obtain ⟨m, hsplit⟩ := adoptChildren_split hrows ha hc hlt
  have hout : hdr ∉ a ∧ hdr ∉ c :: b := by
    rw [hrows] at hnd
    have hdis := (nodup_append.mp hnd).2.2
    exact ⟨fun h => hdis hdr (by simp [h]) hdr (by simp) rfl,
      fun h => hdis hdr (mem_append_right _ h) hdr (by simp) rfl⟩
  have hmove : moveTo st.thread.rows hdr a.length = a ++ hdr :: c :: b := by
    rw [hrows, moveTo_append_last hout.1 hout.2]
  have hadopt : adopt db hdr c a.length { st with moveIndex := m } =
      ⟨(st.thread.moveRow hdr a.length).setThreadParent c.messageKey (some hdr.messageKey),
        true, m, st.parentKeyNeedsSetting⟩ := by
    have hfirst := adoptFirst_of_keeps { st with moveIndex := m } hkeep a.length
    rw [adopt]
    simp only [hmoved] at hfirst ⊢
    simp [hfirst, hne]
  intro st'
  have hst' : st' = (range' (a.length + 1) b.length).foldl (adoptAt db hdr) _ :=
    hsplit.trans (by rw [hadopt])
  obtain ⟨hr', hroot, hm', hn', hpar⟩ := foldl_adoptAt_of_moved db hdr
    (range' (a.length + 1) b.length) (⟨(st.thread.moveRow hdr
      a.length).setThreadParent c.messageKey (some hdr.messageKey), true, m,
      st.parentKeyNeedsSetting⟩) rfl
  rw [hst']
  refine ⟨hr'.trans hmove, hroot, hm', hn', fun k => ?_⟩
  rcases hpar k with ⟨he, i, hi, r, hr, hpr, hrk⟩ | ⟨he, -⟩
  · rw [rows_setThreadParent, rows_moveRow, hmove] at hr
    obtain ⟨hmem, hbef⟩ := before_of_reached hi hr
    exact Or.inr ⟨he, r, hmem, hrk, hpr, hbef⟩
  · rw [threadParent_setThreadParent] at he
    by_cases hk : k = c.messageKey
    · rw [if_pos hk] at he
      exact Or.inr ⟨he, c, by simp, hk.symm, hc, Or.inl rfl⟩
    · rw [if_neg hk] at he
      exact Or.inl he

/-! ## The root is taken over -/

/-- A row that the header is a parent of, with a row other than the new root
after it, is still reached when the new root and the header stand in front. -/
theorem reached_of_before {root top s : MsgHdr} (hra : root ∉ a) (hrc : root ≠ c)
    (hbefore : Before (a ++ c :: b) root s) (hs : s ≠ top)
    (htop : top = hdr ∨ top ∈ a ++ c :: b ∧ top ≠ hdr ∧ top ≠ root) (hhdr : hdr ∉ a ++ c :: b) :
    ∃ i ∈ range' (a.length + 1) b.length,
      (moveTo (hdr :: (a ++ c :: b)) top 0)[i]? = some root := by
  obtain ⟨u, w, hold, hsw⟩ := hbefore
  have hlen : a.length + 1 + b.length = u.length + 1 + w.length := by
    have hlens := congrArg length hold
    simp only [length_append, length_cons] at hlens
    omega
  have hu : a.length + 1 ≤ u.length := by
    by_contra hlt
    have hroot : (a ++ c :: b)[u.length]? = some root := by
      rw [hold]
      simp
    have hmem : root ∈ a ++ [c] := by
      rw [append_cons, getElem?_append_left (by simpa using Nat.lt_of_not_le hlt)]
        at hroot
      exact mem_of_getElem? hroot
    simp [hra, hrc] at hmem
  have hw : 0 < w.length := length_pos_of_mem hsw
  rcases htop with rfl | ⟨hmem, hth, htr⟩
  · refine ⟨u.length + 1, mem_range'_1.mpr ⟨by omega, by omega⟩, ?_⟩
    rw [moveTo_zero (by simp), hold]
    simp
  · obtain ⟨u', w', herase, hu', hw'⟩ := erase_around (u := u) (w := w) htr
    have hlen' : u'.length + 1 + w'.length + 1 = u.length + 1 + w.length := by
      have hcount := length_erase_of_mem hmem
      rw [hold, herase] at hcount
      simp only [length_append, length_cons] at hcount
      omega
    have hpos : 0 < w'.length := length_pos_of_mem (hw' s hsw hs)
    refine ⟨u'.length + 2, mem_range'_1.mpr ⟨by omega, by omega⟩, ?_⟩
    rw [moveTo_zero (by simp [hmem]), erase_cons_tail (by simpa using hth.symm),
      getElem?_cons_succ, getElem?_cons_succ, hold, herase]
    simp

/-- The loop when the root is taken over, in terms of the thread that
`RerootThread` leaves. -/
theorem adoptChildren_of_takeover {t₁ : MsgThread} {top : MsgHdr} {ws : List MsgHdr}
    (hrows : st.thread.rows = a ++ c :: b ++ [hdr]) (hne : c.messageKey ≠ hdr.messageKey)
    (ha : ∀ r ∈ a, hdr.isParentOf db r = false) (hc : hdr.isParentOf db c = true)
    (hmoved : st.hdrMoved = false) (hlt : (a ++ c :: b).length < 1000)
    (hfirst : ∀ m, adoptFirst db hdr c a.length { st with moveIndex := m } = ⟨t₁, true, m, false⟩)
    (hhead : t₁.rows = top :: ws) (hmem : hdr ∈ t₁.rows) (hnd : t₁.keys.Nodup)
    (hnone : t₁.threadParent top.messageKey = none) (hct : c.messageKey ≠ top.messageKey) :
    let st' := adoptChildren db hdr (a ++ c :: b).length st
    st'.thread.rows = t₁.rows ∧ st'.thread.threadRootKey = t₁.threadRootKey ∧
      st'.hdrMoved = true ∧ st'.parentKeyNeedsSetting = false ∧
      st'.thread.threadParent top.messageKey = none ∧
      (∀ k, st'.thread.threadParent k = t₁.threadParent k ∨
        k ≠ hdr.messageKey ∧ st'.thread.threadParent k = some hdr.messageKey) ∧
      ∀ r, r = c ∨ hdr.isParentOf db r = true ∧
          (∃ i ∈ range' (a.length + 1) b.length, t₁.rows[i]? = some r) →
        st'.thread.threadParent r.messageKey = some hdr.messageKey := by
  obtain ⟨m, hsplit⟩ := adoptChildren_split hrows ha hc hlt
  have hadopt : adopt db hdr c a.length { st with moveIndex := m } =
      ⟨t₁.setThreadParent c.messageKey (some hdr.messageKey), true, m, false⟩ := by
    have hf := hfirst m
    rw [adopt]
    simp only [hmoved] at hf ⊢
    simp [hf]
  intro st'
  have hst' : st' = (range' (a.length + 1) b.length).foldl (adoptAt db hdr) _ :=
    hsplit.trans (by rw [hadopt])
  obtain ⟨hr', hroot, hm', hn', hpar⟩ := foldl_adoptAt_of_moved db hdr
    (range' (a.length + 1) b.length)
    (⟨t₁.setThreadParent c.messageKey (some hdr.messageKey), true, m, false⟩) rfl
  rw [hst']
  refine ⟨hr', hroot, hm', hn', ?_, fun k => ?_, fun r hr => ?_⟩
  · -- the new root stands at index 0, which is not looked at again
    rcases hpar top.messageKey with ⟨-, i, hi, r, hr, -, hrk⟩ | ⟨he, -⟩
    · rw [rows_setThreadParent, hhead] at hr
      have hi1 : 1 ≤ i := by
        have hlo := (mem_range'_1.mp hi).1
        omega
      obtain ⟨j, rfl⟩ := Nat.exists_eq_add_of_le' hi1
      have hmem : top.messageKey ∈ ws.map (·.messageKey) := by
        rw [← hrk]
        exact mem_map_of_mem (mem_of_getElem? hr)
      rw [keys, hhead, map_cons, nodup_cons] at hnd
      exact absurd hmem hnd.1
    · rw [he, threadParent_setThreadParent_of_ne _ _ _ hct.symm, hnone]
  · rcases hpar k with ⟨he, i, -, r, hr, hpr, rfl⟩ | ⟨he, -⟩
    · -- the header is not a parent of itself
      refine Or.inr ⟨fun hk => ?_, he⟩
      have hrh : r = hdr := inj_on_of_nodup_map hnd (mem_of_getElem? hr) hmem hk
      rw [hrh, MsgHdr.isParentOf_self] at hpr
      cases hpr
    · rw [threadParent_setThreadParent] at he
      by_cases hk : k = c.messageKey
      · rw [if_pos hk] at he
        exact Or.inr ⟨hk ▸ hne, he⟩
      · rw [if_neg hk] at he
        exact Or.inl he
  · rcases hpar r.messageKey with ⟨he, -⟩ | ⟨he, hnot⟩
    · exact he
    · rcases hr with rfl | ⟨hpr, i, hi, hri⟩
      · rw [he, threadParent_setThreadParent_self]
      · exact absurd rfl (hnot i hi r hri hpr)

end MsgThread

end CommCentral.Threading
