import CommCentral.Mork.Map

/-!
# The lists of a map

The links of a map form the free list and one chain for every bucket.  `Layout`
says which assocs each list has, and that every assoc is in exactly one of them,
or taken out for a moment.  The calls of the map move one assoc at a time:

* `Layout.pop` takes the first free assoc;
* `Layout.push` and `Layout.pushFree` put a taken assoc into a bucket or back;
* `Layout.unlink` takes an assoc out of its bucket.
-/

namespace CommCentral.Mork

open Function List

open Links (Chain behind)

/-! ## The layout of the links -/

/-- The assocs in the buckets. -/
def used (slots : ℕ) (chain : ℕ → List ℕ) : List ℕ := (List.range slots).flatMap chain

variable {chain : ℕ → List ℕ} {slots : ℕ}

@[simp] theorem mem_used {i : ℕ} : i ∈ used slots chain ↔ ∃ b < slots, i ∈ chain b := by
  simp [used]

@[simp] theorem used_nil (slots : ℕ) : used slots (fun _ => []) = [] := by
  simp [used]

/-- If no assoc is in use, every bucket is empty. -/
theorem eq_nil_of_used {b : ℕ} (h : used slots chain = []) (hb : b < slots) : chain b = [] := by
  rw [eq_nil_iff_forall_not_mem]
  intro i hi
  have hused : i ∈ used slots chain := mem_used.mpr ⟨b, hb, hi⟩
  rw [h] at hused
  cases hused

/-- One bucket's assocs, and those of the others. -/
theorem used_update {b : ℕ} (hb : b < slots) (chain : ℕ → List ℕ) (l : List ℕ) :
    (used slots (update chain b l)).Perm
      (l ++ used slots (update chain b [])) := by
  have hsplit : (List.range slots).Perm (b :: (List.range slots).erase b) :=
    perm_cons_erase (by simpa using hb)
  have hrest : ∀ l', ((List.range slots).erase b).flatMap (update chain b l') =
      ((List.range slots).erase b).flatMap chain := fun l' => by
    refine flatMap_congr fun i hi => update_of_ne ?_ _ _
    rintro rfl
    exact (nodup_range.not_mem_erase) hi
  have hall : ∀ l', (used slots (update chain b l')).Perm
      (l' ++ ((List.range slots).erase b).flatMap chain) := fun l' => by
    have hperm := hsplit.flatMap_right (update chain b l')
    rwa [flatMap_cons, hrest, update_self] at hperm
  exact (hall l).trans ((hall []).symm.append_left l)

theorem used_push {b i : ℕ} (hb : b < slots) (chain : ℕ → List ℕ) :
    (used slots (update chain b (i :: chain b))).Perm (i :: used slots chain) := by
  have hold := used_update hb chain (chain b)
  rw [update_eq_self] at hold
  exact (used_update hb chain (i :: chain b)).trans (hold.symm.cons i)

theorem used_unlink {b i : ℕ} (hb : b < slots) {l r : List ℕ} (hchain : chain b = l ++ i :: r) :
    (i :: used slots (update chain b (l ++ r))).Perm (used slots chain) := by
  have hold := used_update hb chain (chain b)
  rw [update_eq_self, hchain] at hold
  have hnew := (used_update hb chain (l ++ r)).cons i
  exact (hnew.trans (perm_middle.symm.append_right _)).trans hold.symm

/-- The lists that the links form: the free list and the chains of the buckets,
and assocs that are in no list for a moment. -/
structure Layout (slots : ℕ) (links : LinkRef → Option ℕ) (pending : List ℕ)
    (chain : ℕ → List ℕ) (free : List ℕ) : Prop where
  freeList : Chain .next links .freeList free
  bucket : ∀ b < slots, Chain .next links (.bucket b) (chain b)
  partition : (pending ++ (free ++ used slots chain)).Perm (List.range slots)

theorem next_injective : Injective LinkRef.next := fun _ _ h => LinkRef.next.inj h

namespace Layout

variable {slots b i : ℕ} {links : LinkRef → Option ℕ} {pending free : List ℕ}
  {chain : ℕ → List ℕ}

section

variable (h : Layout slots links pending chain free)

include h

theorem nodup : (pending ++ (free ++ used slots chain)).Nodup :=
  h.partition.nodup_iff.mpr nodup_range

theorem nodup_used : (used slots chain).Nodup :=
  (nodup_append.mp (nodup_append.mp h.nodup).2.1).2.1

theorem length_le (hb : b < slots) : (chain b).length ≤ slots := by
  have hused := (used_update hb chain (chain b)).length_eq
  have hall := h.partition.length_eq
  rw [update_eq_self] at hused
  simp only [length_append, length_range] at hused hall
  omega

end

theorem not_mem_of_pending (h : Layout slots links (i :: pending) chain free) :
    i ∉ free ∧ ∀ b < slots, i ∉ chain b := by
  have hnodup := h.nodup
  rw [cons_append, nodup_cons] at hnodup
  refine ⟨fun hi => hnodup.1 (by simp [hi]), fun b hb hi => hnodup.1 ?_⟩
  exact mem_append_right _ (mem_append_right _ (mem_used.mpr ⟨b, hb, hi⟩))

theorem bucket_disjoint (h : Layout slots links pending chain free) (hb : b < slots) :
    (chain b).Nodup ∧ ∀ i ∈ chain b,
      i ∉ free ∧ ∀ b' < slots, b' ≠ b → i ∉ chain b' := by
  have hused := used_update hb chain (chain b)
  rw [update_eq_self] at hused
  have hdisj := (nodup_append.mp (nodup_append.mp h.nodup).2.1).2.2
  have hown := hused.nodup_iff.mp h.nodup_used
  refine ⟨(nodup_append.mp hown).1, fun i hi => ⟨fun hf => ?_, fun b' hb' hne hi' => ?_⟩⟩
  · exact hdisj i hf i (mem_used.mpr ⟨b, hb, hi⟩) rfl
  · refine (nodup_append.mp hown).2.2 i hi i (mem_used.mpr ⟨b', hb', ?_⟩) rfl
    rwa [update_of_ne hne]

theorem pop (h : Layout slots links pending chain (i :: free)) :
    Layout slots (update links .freeList (links (.next i))) (i :: pending) chain free := by
  have hnodup := (nodup_append.mp h.nodup).2.1
  constructor
  · exact h.freeList.unlink (l := []) (by simp) next_injective
      (nodup_append.mp hnodup).1
  · intro b hb
    exact (h.bucket b hb).frame (by simp) (by simp)
  · have hperm := h.partition
    exact (perm_middle.symm.trans hperm)

theorem push (h : Layout slots links (i :: pending) chain free) (hb : b < slots) :
    Layout slots (Links.push .next links (.bucket b) i) pending
      (update chain b (i :: chain b)) free := by
  obtain ⟨hfree, hchain⟩ := h.not_mem_of_pending
  constructor
  · exact h.freeList.frame_push (by simp) (by simp) (by simp) next_injective hfree
  · intro b' hb'
    by_cases hbb : b' = b
    · subst hbb
      rw [update_self]
      exact (h.bucket b' hb').push (by simp) next_injective (hchain b' hb')
    · rw [update_of_ne hbb]
      exact (h.bucket b' hb').frame_push (by simp) (by simpa using Ne.symm hbb) (by simp)
        next_injective (hchain b' hb')
  · have hcons := used_push (i := i) hb chain
    calc pending ++ (free ++ used slots (update chain b (i :: chain b)))
        |>.Perm (pending ++ (free ++ i :: used slots chain)) :=
          (hcons.append_left free).append_left pending
      _ |>.Perm (pending ++ i :: (free ++ used slots chain)) :=
          perm_middle.append_left pending
      _ |>.Perm (i :: (pending ++ (free ++ used slots chain))) := perm_middle
      _ |>.Perm (List.range slots) := h.partition

theorem pushFree (h : Layout slots links (i :: pending) chain free) :
    Layout slots (Links.push .next links .freeList i) pending chain (i :: free) := by
  obtain ⟨hfree, hchain⟩ := h.not_mem_of_pending
  constructor
  · exact h.freeList.push (by simp) next_injective hfree
  · intro b hb
    exact (h.bucket b hb).frame_push (by simp) (by simp) (by simp) next_injective (hchain b hb)
  · exact perm_middle.trans h.partition

theorem unlink (h : Layout slots links pending chain free) (hb : b < slots) {l r : List ℕ}
    (hchain : chain b = l ++ i :: r) :
    Layout slots
      (update links (behind .next (.bucket b) l) (links (.next i)))
      (i :: pending) (update chain b (l ++ r)) free := by
  obtain ⟨hnodup, hdisj⟩ := h.bucket_disjoint hb
  -- the changed link belongs to the bucket
  have hbehind := Links.behind_eq LinkRef.next (.bucket b) l
  constructor
  · refine h.freeList.frame ?_ fun j hj => ?_
    · rcases hbehind with ⟨-, hb'⟩ | ⟨k, -, hb'⟩ <;> rw [hb'] <;> simp
    · rcases hbehind with ⟨-, hb'⟩ | ⟨k, hk, hb'⟩
      · rw [hb']
        simp
      · rw [hb']
        intro hkj
        obtain rfl := LinkRef.next.inj hkj
        exact (hdisj k (by rw [hchain]; simp [hk])).1 hj
  · intro b' hb'
    by_cases hbb : b' = b
    · subst hbb
      have hlinked := h.bucket b' hb'
      rw [update_self]
      rw [hchain] at hlinked hnodup
      exact hlinked.unlink (by simp) next_injective hnodup
    · rw [update_of_ne hbb]
      refine (h.bucket b' hb').frame ?_ fun j hj => ?_
      · rcases hbehind with ⟨-, hb''⟩ | ⟨k, -, hb''⟩ <;> rw [hb''] <;> simp [Ne.symm hbb]
      · rcases hbehind with ⟨-, hb''⟩ | ⟨k, hk, hb''⟩
        · rw [hb'']
          simp
        · rw [hb'']
          intro hkj
          obtain rfl := LinkRef.next.inj hkj
          exact (hdisj k (by rw [hchain]; simp [hk])).2 b' hb' hbb hj
  · have hcons := used_unlink hb hchain
    calc i :: pending ++ (free ++ used slots (update chain b (l ++ r)))
        |>.Perm (pending ++ i :: (free ++ used slots (update chain b (l ++ r)))) :=
          perm_middle.symm
      _ |>.Perm (pending ++ (free ++ i :: used slots (update chain b (l ++ r)))) :=
          perm_middle.symm.append_left pending
      _ |>.Perm (pending ++ (free ++ used slots chain)) :=
          (hcons.append_left free).append_left pending
      _ |>.Perm (List.range slots) := h.partition

end Layout

end CommCentral.Mork
