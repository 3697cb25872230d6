import Mathlib.Data.List.Nodup

/-!
# Doubly linked lists on the objects themselves

Objects with two attributes, `next` and `prev`, are linked to a list that starts
at `head` and ends at `tail`.  A reference is an object, null, or undefined, which
is what an attribute that was never set or that was deleted has.

`Linked L l` says that the links run through the objects of `l` in order, in both
directions, and that no other object has links.  An object is pushed at the end
(`Linked.pushBack`) and removed from any place (`Linked.remove`).
-/

namespace DoublyLinked

open Function List DoublyLinked

variable {ι : Type*}

inductive Ref (ι : Type*) where
  | undefined
  | null
  | obj (i : ι)
  deriving DecidableEq

/-- The attributes of the objects and the ends of the list. -/
structure Links (ι : Type*) where
  next : ι → Ref ι
  prev : ι → Ref ι
  head : Ref ι
  tail : Ref ι

/-- The first one of some objects, or what comes after them. -/
def first (q : Ref ι) : List ι → Ref ι
  | [] => q
  | i :: _ => .obj i

/-- The last one of some objects, or what comes before them. -/
def last (p : Ref ι) : List ι → Ref ι
  | [] => p
  | i :: l => last (.obj i) l

/-- The links run through the objects, from after `p` to before `q`. -/
def Seg (next prev : ι → Ref ι) : Ref ι → List ι → Ref ι → Prop
  | _, [], _ => True
  | p, i :: l, q => prev i = p ∧ next i = first q l ∧ Seg next prev (.obj i) l q

/-- The links run through the objects of the list, and no other object has any. -/
structure Linked (L : Links ι) (l : List ι) : Prop where
  nodup : l.Nodup
  head_eq : L.head = first .null l
  tail_eq : L.tail = last .null l
  seg : Seg L.next L.prev .null l .null
  absent : ∀ i, i ∉ l → L.next i = .undefined ∧ L.prev i = .undefined

/-! ## Pieces of a list -/

section Seg

variable {next prev next' prev' : ι → Ref ι} {p q : Ref ι} {i : ι} {l u w : List ι}

@[simp] theorem first_nil : first q [] = q := rfl

@[simp] theorem first_cons : first q (i :: l) = .obj i := rfl

@[simp] theorem last_nil : last p [] = p := rfl

@[simp] theorem last_cons : last p (i :: l) = last (.obj i) l := rfl

theorem first_append (q : Ref ι) (u w : List ι) : first q (u ++ w) = first (first q w) u := by
  cases u <;> rfl

theorem last_append (p : Ref ι) (u w : List ι) : last p (u ++ w) = last (last p u) w := by
  induction u generalizing p with
  | nil => rfl
  | cons i u ih => exact ih _

@[simp] theorem last_concat (p : Ref ι) (u : List ι) (i : ι) : last p (u ++ [i]) = .obj i := by
  rw [last_append]
  rfl

theorem seg_append :
    Seg next prev p (u ++ w) q ↔
      Seg next prev p u (first q w) ∧ Seg next prev (last p u) w q := by
  induction u generalizing p with
  | nil => simp [Seg]
  | cons i u ih => simp [Seg, ih, first_append, and_assoc]

/-- A piece depends on the links of its own objects. -/
theorem Seg.congr (h : Seg next prev p l q) (hnext : ∀ i ∈ l, next' i = next i)
    (hprev : ∀ i ∈ l, prev' i = prev i) : Seg next' prev' p l q := by
  induction l generalizing p with
  | nil => trivial
  | cons i l ih =>
    obtain ⟨hp, hn, hl⟩ := h
    refine ⟨(hprev i (by simp)).trans hp, (hnext i (by simp)).trans hn, ih hl ?_ ?_⟩
    · exact fun j hj => hnext j (by simp [hj])
    · exact fun j hj => hprev j (by simp [hj])

theorem exists_last (hne : l ≠ []) (p : Ref ι) : ∃ u i, l = u ++ [i] ∧ last p l = .obj i := by
  obtain ⟨u, i, rfl⟩ := eq_nil_or_concat l |>.resolve_left hne
  exact ⟨u, i, by simp, by simp⟩

end Seg

theorem mem_of_last {u : List ι} {p : ι} (h : last .null u = .obj p) : p ∈ u := by
  by_cases hu : u = []
  · subst hu
    cases h
  · obtain ⟨u', i, rfl, hlast⟩ := exists_last hu .null
    rw [hlast] at h
    cases h
    simp

theorem mem_of_first {w : List ι} {q : ι} (h : first .null w = .obj q) : q ∈ w := by
  cases w with
  | nil => cases h
  | cons i w =>
    cases h
    simp

theorem Linked.links_eq {L : Links ι} {u w : List ι} {i : ι} (h : Linked L (u ++ i :: w)) :
    L.prev i = last .null u ∧ L.next i = first .null w := by
  obtain ⟨-, hprev, hnext, -⟩ := seg_append.mp h.seg
  exact ⟨hprev, hnext⟩

/-! ## Links that are never deleted -/

/-- A reference that is null or an object. -/
def ref : Option ι → Ref ι
  | none => .null
  | some i => .obj i

theorem ref_inj {a b : Option ι} (h : ref a = ref b) : a = b := by
  cases a with
  | none =>
    cases b with
    | none => rfl
    | some b => cases h
  | some a =>
    cases b with
    | none => cases h
    | some b =>
      cases h
      rfl

theorem first_null (l : List ι) : first .null l = ref l.head? := by
  cases l with
  | nil => rfl
  | cons i l => rfl

theorem last_null (l : List ι) : last .null l = ref l.getLast? := by
  rcases eq_nil_or_concat l with rfl | ⟨u, i, rfl⟩
  · rfl
  · rw [concat_eq_append, last_concat, getLast?_concat]
    rfl

/-- An object comes between two pieces.  Only its neighbours get other links. -/
theorem Seg.insert {next prev next' prev' : ι → Ref ι} {p q : Ref ι} {i : ι} {u w : List ι}
    (h : Seg next prev p (u ++ w) q) (hnodup : (u ++ w).Nodup)
    (hi : next' i = first q w ∧ prev' i = last p u)
    (hfront : ∀ j ∈ u.getLast?, next' j = .obj i) (hback : ∀ j ∈ w.head?, prev' j = .obj i)
    (hnext : ∀ j ∈ u ++ w, j ∉ u.getLast? → next' j = next j)
    (hprev : ∀ j ∈ u ++ w, j ∉ w.head? → prev' j = prev j) :
    Seg next' prev' p (u ++ i :: w) q := by
  obtain ⟨hu, hw⟩ := seg_append.mp h
  obtain ⟨hnodupu, hnodupw, hdisjoint⟩ := nodup_append.mp hnodup
  refine seg_append.mpr ⟨?_, hi.2, hi.1, ?_⟩
  · have hprevu : ∀ j ∈ u, prev' j = prev j := by
      intro j hj
      refine hprev j (mem_append_left w hj) fun hjw => ?_
      exact hdisjoint j hj j (mem_of_mem_head? hjw) rfl
    rcases eq_nil_or_concat u with rfl | ⟨u', j, rfl⟩
    · trivial
    · rw [concat_eq_append] at *
      have hlast : (u' ++ [j]).getLast? = some j := getLast?_concat
      obtain ⟨hu', hj, -, -⟩ := seg_append.mp hu
      refine seg_append.mpr ⟨hu'.congr ?_ ?_, ?_, hfront j hlast, trivial⟩
      · intro k hk
        refine hnext k (by simp [hk]) fun hkj => ?_
        rw [hlast] at hkj
        cases hkj
        exact (nodup_append.mp hnodupu).2.2 j hk j (by simp) rfl
      · exact fun k hk => hprevu k (mem_append_left _ hk)
      · rw [hprevu j (by simp), hj]
  · cases w with
    | nil => trivial
    | cons j w =>
      obtain ⟨-, hj, hw'⟩ := hw
      have hnextw : ∀ k ∈ j :: w, next' k = next k := by
        intro k hk
        refine hnext k (mem_append_right u hk) fun hku => ?_
        exact hdisjoint k (mem_of_getLast? hku) k hk rfl
      refine ⟨hback j rfl, (hnextw j mem_cons_self).trans hj, hw'.congr ?_ ?_⟩
      · exact fun k hk => hnextw k (mem_cons_of_mem j hk)
      · intro k hk
        refine hprev k (by simp [hk]) fun hkj => ?_
        cases hkj
        exact (nodup_cons.mp hnodupw).1 hk

/-! ## Pushing and removing -/

section Update

variable [DecidableEq ι] {L : Links ι} {l u w : List ι} {i : ι}

/-- An object comes behind the last one. -/
def pushBack (L : Links ι) (i : ι) : Links ι where
  next := Function.update
    (match L.tail with
      | .obj t => Function.update L.next t (.obj i)
      | _ => L.next) i .null
  prev := Function.update L.prev i L.tail
  head :=
    match L.tail with
    | .obj _ => L.head
    | _ => .obj i
  tail := .obj i

/-- An object is passed over by the links of its neighbours. -/
def unlink (L : Links ι) (i : ι) : Links ι where
  next :=
    match L.prev i with
    | .obj p => Function.update L.next p (L.next i)
    | _ => L.next
  prev :=
    match L.next i with
    | .obj q => Function.update L.prev q (L.prev i)
    | _ => L.prev
  head :=
    match L.prev i with
    | .obj _ => L.head
    | _ => L.next i
  tail :=
    match L.next i with
    | .obj _ => L.tail
    | _ => L.prev i

/-- The attributes of an object are deleted. -/
def clear (L : Links ι) (i : ι) : Links ι :=
  { L with
    next := Function.update L.next i .undefined
    prev := Function.update L.prev i .undefined }

/-- An object is unlinked, and its attributes are deleted. -/
def remove (L : Links ι) (i : ι) : Links ι := clear (unlink L i) i

theorem pushBack_clear (ht : L.tail ≠ .obj i) : pushBack (clear L i) i = pushBack L i := by
  cases htail : L.tail with
  | obj t =>
    have hti : t ≠ i := fun hti => ht (by rw [htail, hti])
    simp [pushBack, clear, htail, update_comm hti]
  | undefined => simp [pushBack, clear, htail]
  | null => simp [pushBack, clear, htail]

/-- The last object of a piece is linked to what comes after the piece. -/
theorem Seg.relink_end {next prev : ι → Ref ι} {p q : Ref ι}
    (h : Seg next prev p (u ++ [i]) q) (hi : i ∉ u) (q' : Ref ι) :
    Seg (Function.update next i q') prev p (u ++ [i]) q' := by
  obtain ⟨hu, hprev, -, -⟩ := seg_append.mp h
  refine seg_append.mpr ⟨hu.congr (fun j hj => ?_) fun _ _ => rfl, hprev, ?_, trivial⟩
  · exact update_of_ne (ne_of_mem_of_not_mem hj hi) _ _
  · exact update_self ..

/-- The first object of a piece is linked to what comes before the piece. -/
theorem Seg.relink_start {next prev : ι → Ref ι} {p q : Ref ι}
    (h : Seg next prev p (i :: w) q) (hi : i ∉ w) (p' : Ref ι) :
    Seg next (Function.update prev i p') p' (i :: w) q := by
  obtain ⟨-, hnext, hw⟩ := h
  refine ⟨update_self .., hnext, hw.congr (fun _ _ => rfl) fun j hj => ?_⟩
  exact update_of_ne (ne_of_mem_of_not_mem hj hi) _ _

theorem Linked.pushBack (h : Linked L l) (hi : i ∉ l) : Linked (pushBack L i) (l ++ [i]) := by
  have hnodup : (l ++ [i]).Nodup := by
    rw [nodup_append]
    exact ⟨h.nodup, by simp, fun a ha b hb hab => hi (by simp_all)⟩
  have habsent : ∀ j, j ∉ l ++ [i] → j ≠ i ∧ j ∉ l := fun j hj => by simpa [and_comm] using hj
  have hne : ∀ j ∈ l, j ≠ i := fun j hj hji => hi (hji ▸ hj)
  by_cases hl : l = []
  · subst hl
    have htail : L.tail = .null := h.tail_eq
    refine ⟨hnodup, by simp [pushBack, htail], rfl, ?_, fun j hj => ?_⟩
    · exact ⟨by simp [pushBack, htail], by simp [pushBack], trivial⟩
    · obtain ⟨hji, hjl⟩ := habsent j hj
      simpa [pushBack, htail, hji] using h.absent j hjl
  · obtain ⟨u, t, rfl, hlast⟩ := exists_last hl .null
    have htail : L.tail = .obj t := h.tail_eq.trans hlast
    have htu : t ∉ u := fun htu => (nodup_append.mp h.nodup).2.2 t htu t (by simp) rfl
    refine ⟨hnodup, ?_, (last_concat _ _ _).symm, ?_, fun j hj => ?_⟩
    · have hhead := h.head_eq
      simp only [pushBack, htail, first_append, first_cons] at hhead ⊢
      exact hhead
    · refine seg_append.mpr ⟨(h.seg.relink_end htu (.obj i)).congr ?_ ?_, ?_, ?_, trivial⟩
      · intro j hj
        simp [pushBack, htail, hne j hj]
      · intro j hj
        simp [pushBack, hne j hj]
      · simp [pushBack, htail]
      · simp [pushBack]
    · obtain ⟨hji, hjl⟩ := habsent j hj
      have hjt : j ≠ t := fun hjt => hjl (by simp [hjt])
      simpa [pushBack, htail, hji, hjt] using h.absent j hjl

/-- Only the neighbour in front gets another next object. -/
theorem remove_next_of_ne {j : ι} (hi : j ≠ i) (hp : ∀ p, L.prev i = .obj p → j ≠ p) :
    (remove L i).next j = L.next j := by
  simp only [remove, clear, unlink, update_of_ne hi]
  cases hprev : L.prev i with
  | obj p => exact update_of_ne (hp p hprev) _ _
  | undefined => rfl
  | null => rfl

/-- Only the neighbour behind gets another previous object. -/
theorem remove_prev_of_ne {j : ι} (hi : j ≠ i) (hq : ∀ q, L.next i = .obj q → j ≠ q) :
    (remove L i).prev j = L.prev j := by
  simp only [remove, clear, unlink, update_of_ne hi]
  cases hnext : L.next i with
  | obj q => exact update_of_ne (hq q hnext) _ _
  | undefined => rfl
  | null => rfl

theorem Linked.remove (h : Linked L (u ++ i :: w)) : Linked (remove L i) (u ++ w) := by
  obtain ⟨hprev, hnext⟩ := h.links_eq
  have hsub : (u ++ w).Sublist (u ++ i :: w) :=
    (List.Sublist.refl u).append (sublist_cons_self i w)
  obtain ⟨hu, hiw', hdisjoint⟩ := nodup_append.mp h.nodup
  obtain ⟨hiw, hw⟩ := nodup_cons.mp hiw'
  have hiu : i ∉ u := fun hiu => hdisjoint i hiu i (by simp) rfl
  obtain ⟨hsegu, -, -, hsegw⟩ := seg_append.mp h.seg
  have hp : ∀ p, L.prev i = .obj p → p ∈ u := fun p hp => mem_of_last (hprev ▸ hp)
  have hq : ∀ q, L.next i = .obj q → q ∈ w := fun q hq => mem_of_first (hnext ▸ hq)
  -- the objects in front are linked to those behind ...
  have hfront : Seg (DoublyLinked.remove L i).next (DoublyLinked.remove L i).prev .null u
      (first .null w) := by
    have hprevs : ∀ j ∈ u, (DoublyLinked.remove L i).prev j = L.prev j := fun j hj =>
      remove_prev_of_ne (ne_of_mem_of_not_mem hj hiu) fun q hnq => hdisjoint j hj q (by simp [hq q hnq])
    by_cases hnil : u = []
    · subst hnil
      trivial
    · obtain ⟨u', p, rfl, hlast⟩ := exists_last hnil .null
      have hpu : p ∉ u' := fun hpu => (nodup_append.mp hu).2.2 p hpu p (by simp) rfl
      refine (hsegu.relink_end hpu (first .null w)).congr (fun j hj => ?_) hprevs
      have hji : j ≠ i := ne_of_mem_of_not_mem hj hiu
      simp [DoublyLinked.remove, clear, unlink, hprev, hnext, hji]
  -- ... and those behind to the ones in front
  have hback : Seg (DoublyLinked.remove L i).next (DoublyLinked.remove L i).prev (last .null u) w
      .null := by
    have hnexts : ∀ j ∈ w, (DoublyLinked.remove L i).next j = L.next j := fun j hj =>
      remove_next_of_ne (ne_of_mem_of_not_mem hj hiw)
        fun p hnp hjp => hdisjoint p (hp p hnp) j (by simp [hj]) hjp.symm
    cases w with
    | nil => trivial
    | cons q w =>
      obtain ⟨hqw, -⟩ := nodup_cons.mp hw
      refine (hsegw.relink_start hqw (last .null u)).congr hnexts fun j hj => ?_
      have hji : j ≠ i := ne_of_mem_of_not_mem hj hiw
      simp [DoublyLinked.remove, clear, unlink, hnext, hprev, hji]
  refine ⟨h.nodup.sublist hsub, ?_, ?_, seg_append.mpr ⟨hfront, hback⟩, fun j hj => ?_⟩
  · have hhead := h.head_eq
    cases u with
    | nil => simpa [DoublyLinked.remove, clear, unlink, hprev] using hnext
    | cons x u =>
      obtain ⟨u', p, hu', hp⟩ := exists_last (cons_ne_nil x u) .null
      simp only [DoublyLinked.remove, clear, unlink, hprev, hp]
      exact hhead
  · have htail := h.tail_eq
    cases w with
    | nil => simpa [DoublyLinked.remove, clear, unlink, hnext] using hprev
    | cons q w =>
      simp only [DoublyLinked.remove, clear, unlink, hnext, first_cons]
      simpa [last_append] using htail
  · rw [mem_append, not_or] at hj
    rcases eq_or_ne j i with rfl | hji
    · simp [DoublyLinked.remove, clear]
    · rw [remove_next_of_ne hji fun p hnp => (ne_of_mem_of_not_mem (hp p hnp) hj.1).symm,
        remove_prev_of_ne hji fun q hnq => (ne_of_mem_of_not_mem (hq q hnq) hj.2).symm]
      exact h.absent j (by simp [hj, hji])

end Update

end DoublyLinked
