import CommCentral.KeySet.Output

/-!
# Read marks over restarts

The set of read articles is written to the newsrc file and created from it again when the program
starts.  The key 0 can come and go on the way, the replies about keys from 1 on do not show where
the restarts were (`outputs_sessionStep`).
-/

namespace CommCentral.MsgKeySet

open List Ranges Machine KeySet

/-- A call on the set, or a restart. -/
inductive Session where
  | call (op : Op)
  | restart

def sessionStep : Machine.Step KeySet Session (Option Reply)
  | s, .call op => ((step s op).1, some (step s op).2)
  | s, .restart => (ofText s.output, none)

/-- The abstract set, which restarts do not change. -/
noncomputable def specSession : Machine.Step (Set ℤ) Session (Option Reply)
  | K, .call op => ((specStep K op).1, some (specStep K op).2)
  | K, .restart => (K, none)

def Op.FromOne : Op → Prop
  | .add n | .remove n => 1 ≤ n.1
  | .addRange a _ => 1 ≤ a.1
  | .isMember n => 1 ≤ n

/-- The calls are about keys from 1 on, and `AddRange` replies whether it changed the set. -/
def Session.Noticed (s : KeySet) : Session → Prop
  | .call op => op.FromOne ∧ RangeNoticed s op
  | .restart => True

def SameFromOne (K K' : Set ℤ) : Prop := ∀ k, 1 ≤ k → (k ∈ K ↔ k ∈ K')

/-- A set represents keys, and those from 1 on are the given ones. -/
def RepresentsFromOne (s : KeySet) (K : Set ℤ) : Prop :=
  ∃ K', Represents s K' ∧ K' ⊆ Set.Icc 0 (2 ^ 31 - 2) ∧ SameFromOne K' K

variable {K K' : Set ℤ} {s : KeySet}

/-! ## Calls -/

theorem mem_mutate_of_lt {op : Op} (hop : op.FromOne) {k : ℤ} (hk : k < 1) :
    k ∈ mutate K op ↔ k ∈ K := by
  cases op with
  | add n => exact or_iff_left (hk.trans_le hop).ne
  | remove n => exact and_iff_left (hk.trans_le hop).ne
  | addRange a b => exact or_iff_left fun hin => not_lt_of_ge (hop.trans hin.1) hk
  | isMember n => rfl

theorem SameFromOne.mutate (h : SameFromOne K K') (op : Op) :
    SameFromOne (mutate K op) (mutate K' op) := by
  intro k hk
  cases op with
  | add n => exact or_congr_left (h k hk)
  | remove n => exact and_congr_left fun _ => h k hk
  | addRange a b => exact or_congr_left (h k hk)
  | isMember n => exact h k hk

theorem mutate_eq_iff {op : Op} (hop : op.FromOne) :
    mutate K op = K ↔ SameFromOne (mutate K op) K := by
  refine ⟨fun h k _ => by rw [h], fun h => Set.ext fun k => ?_⟩
  rcases lt_or_ge k 1 with hlt | hge
  · exact mem_mutate_of_lt hop hlt
  · exact h k hge

theorem SameFromOne.specStep (h : SameFromOne K K') {op : Op} (hop : op.FromOne) :
    (specStep K op).2 = (specStep K' op).2 ∧
      SameFromOne (specStep K op).1 (specStep K' op).1 := by
  have hsame := h.mutate op
  have hcode : changeCode K (MsgKeySet.mutate K op) = changeCode K' (MsgKeySet.mutate K' op) := by
    refine if_congr ?_ rfl rfl
    rw [mutate_eq_iff hop, mutate_eq_iff hop]
    exact forall₂_congr fun k hk => iff_congr (hsame k hk) (h k hk)
  cases op with
  | add n | remove n | addRange a b => exact ⟨congrArg Reply.code hcode, hsame⟩
  | isMember n => exact ⟨congrArg Reply.member (decide_eq_decide.mpr (h n hop)), h⟩

theorem specStep_subset (h : K ⊆ Set.Icc 0 (2 ^ 31 - 2)) (op : Op) :
    (specStep K op).1 ⊆ Set.Icc 0 (2 ^ 31 - 2) := by
  cases op with
  | add n => exact Set.union_subset h (Set.singleton_subset_iff.mpr n.2)
  | remove n => exact Set.sdiff_subset.trans h
  | addRange a b => exact Set.union_subset h fun k hk => ⟨a.2.1.trans hk.1, hk.2.trans b.2.2⟩
  | isMember n => exact h

/-! ## Restarts -/

theorem exists_mem_of_mem_outItems {last : ℤ} {rs : List (ℤ × ℤ)} :
    ∀ r ∈ outItems last rs, ∃ t ∈ rs, t.2 = r.2 := by
  induction rs generalizing last with
  | nil => exact fun r hr => absurd hr not_mem_nil
  | cons t rs ih =>
    intro r hr
    have hlater : ∀ {last}, r ∈ outItems last rs → ∃ u ∈ t :: rs, u.2 = r.2 := fun hr =>
      (ih r hr).imp fun u hu => ⟨mem_cons_of_mem t hu.1, hu.2⟩
    rw [outItems] at hr
    split at hr
    · rcases mem_cons.mp hr with rfl | hr
      · exact ⟨t, mem_cons_self, rfl⟩
      · exact hlater hr
    · exact hlater hr

theorem Start.keySet_subset (st : Start) : st.keySet ⊆ Set.Icc 0 (2 ^ 31 - 2) := by
  cases st with
  | empty => exact Set.empty_subset _
  | newsrc t =>
    rintro x (⟨r, hr, hle, hge⟩ | ⟨rfl, -⟩)
    · have hr := t.keys r hr
      exact ⟨hr.1.trans hle, hge.trans hr.2⟩
    · exact ⟨le_rfl, by decide⟩

/-- The set that is created from the text has the same keys from 1 on. -/
theorem RepresentsFromOne.restart (h : RepresentsFromOne s K) :
    RepresentsFromOne (ofText s.output) K := by
  obtain ⟨-, ⟨rs, hs, rfl⟩, hbounds, hsame⟩ := h
  have hends : ∀ r ∈ rs, 0 ≤ r.1 ∧ r.1 ≤ r.2 ∧ r.2 ≤ 2 ^ 31 - 2 := fun r hr => by
    have hle := hs.storable.asc.le r hr
    exact ⟨hs.storable.nonneg r hr, hle, (hbounds ⟨r, hr, hle, le_rfl⟩).2⟩
  have hshaped : Shaped rs := fun r hr => by
    have hr := hends r hr
    omega
  obtain ⟨hasc, hitems⟩ := outItems_ascending (-1) hshaped
  have hkeys : ∀ r ∈ outItems (-1) rs, 0 ≤ r.1 ∧ r.2 ≤ 2 ^ 31 - 2 := fun r hr => by
    obtain ⟨t, ht, heq⟩ := exists_mem_of_mem_outItems r hr
    exact ⟨by linarith [(hitems r hr).2.1], heq ▸ (hends t ht).2.2⟩
  let t : Newsrc := ⟨listText (outItems (-1) rs), [], forall_mem_nil _, outItems (-1) rs,
    listsKeys_listText fun r hr => ⟨(hitems r hr).2.1, (hitems r hr).2.2.1⟩, hasc, hkeys⟩
  have htext : s.output = t.text := by
    obtain ⟨data, cachedValue, index⟩ := s
    obtain rfl : data = encode rs := hs.words
    exact output_encode hshaped _ _
  have hsound : (Start.newsrc t).Sound := by
    rintro ⟨⟨r, hr, hzero⟩, -⟩
    have hone := (hitems r hr).2.1
    omega
  refine ⟨t.keySet, htext ▸ Start.represents hsound, (Start.newsrc t).keySet_subset, fun k hk => ?_⟩
  have hmem : k ∈ t.keySet ↔ k ∈ cover (outItems (-1) rs) :=
    or_iff_left fun hzero => by
      have heq := hzero.1
      omega
  have hsearch := (stores_isMember (Stores.of_encode hs.storable 0) k).2
  rw [isMember_of_words, isMemberFrom_iff_outItems hshaped hk (by omega : (-1 : ℤ) < k)] at hsearch
  exact hmem.trans (hsearch.trans (hsame k hk))

theorem RepresentsFromOne.step (h : RepresentsFromOne s K) {session : Session}
    (hsession : session.Noticed s) :
    (sessionStep s session).2 = (specSession K session).2 ∧
      RepresentsFromOne (sessionStep s session).1 (specSession K session).1 := by
  cases session with
  | call op =>
    obtain ⟨K', hs, hbounds, hsame⟩ := h
    obtain ⟨hreply, hs'⟩ := represents_step hs hsession.2
    obtain ⟨hspec, hsame'⟩ := hsame.specStep hsession.1
    exact ⟨congrArg some (hreply.trans hspec), _, hs', specStep_subset hbounds op, hsame'⟩
  | restart => exact ⟨rfl, h.restart⟩

/-- From a set that is created, all replies about keys from 1 on are those of a set of keys,
wherever the program is started again between the calls, when each `AddRange` is noticed. -/
theorem outputs_sessionStep {st : Start} (hst : st.Sound) (sessions : List Session)
    (h : Along sessionStep Session.Noticed st.set sessions) :
    outputs sessionStep st.set sessions = outputs specSession st.keySet sessions :=
  (simulation (n := specSession) (R := RepresentsFromOne) (fun _ _ _ hs hsession =>
    hs.step hsession) ⟨_, Start.represents hst, st.keySet_subset, fun _ _ => Iff.rfl⟩ h).1

/-- An article that is marked, and asked for after a restart. -/
theorem outputs_sessionStep_marked :
    let sessions : List Session := [.call (.add ⟨1, by decide⟩), .restart, .call (.isMember 1)]
    outputs sessionStep KeySet.empty sessions = outputs specSession ∅ sessions :=
  @outputs_sessionStep .empty trivial _ ⟨⟨le_rfl, trivial⟩, trivial, ⟨le_rfl, trivial⟩, trivial⟩

end CommCentral.MsgKeySet
