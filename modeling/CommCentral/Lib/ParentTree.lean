import Mathlib.Data.List.Nodup
import Mathlib.Logic.Relation

/-!
# Trees given by parent links

A forest stored as a partial function `parent : α → Option α` on a set of
nodes.  `IsTree` says that the links make the set one tree with a given root:
the root alone has no parent, parents are again nodes, and climbing from any
node ends at the root.  That no node is its own ancestor follows.

`IsTree.climb_induction` says that what holds of the root, and passes from a parent
to its child, holds of every node.  From it come the edits that programs make.

* `IsTree.insert_below`: a new node is put below an old one and takes over
  nodes that are not above it.
* `IsTree.insert_above`: a new node is put above the root.
* `IsTree.remove`: a node is taken out and its children go to its parent.
-/

namespace ParentTree

open Relation ReflTransGen

variable {α : Type*} {parent parent' : α → Option α} {S S' : α → Prop} {root root' : α}

/-- Following parent links from the first node reaches the second one. -/
def Climbs (parent : α → Option α) : α → α → Prop :=
  Relation.ReflTransGen fun a b => parent a = some b

theorem Climbs.refl (a : α) : Climbs parent a a := ReflTransGen.refl

theorem Climbs.step {a b c : α} (h : parent a = some b) (hb : Climbs parent b c) :
    Climbs parent a c := head h hb

theorem Climbs.trans {a b c : α} (hab : Climbs parent a b) (hbc : Climbs parent b c) :
    Climbs parent a c := ReflTransGen.trans hab hbc

theorem Climbs.eq_of_none {a b : α} (h : Climbs parent a b) (ha : parent a = none) : b = a := by
  cases cases_head h with
  | inl hab => exact hab.symm
  | inr hc =>
    obtain ⟨c, hac, -⟩ := hc
    rw [ha] at hac
    cases hac

/-- Climbing does not leave a set that the links do not leave. -/
theorem Climbs.mem_of_closed {P : α → Prop} (hP : ∀ a b, P a → parent a = some b → P b) {a b : α}
    (h : Climbs parent a b) (ha : P a) : P b := by
  induction h with
  | refl => exact ha
  | tail _ hbc ih => exact hP _ _ ih hbc

/-- The links make the nodes one tree. -/
structure IsTree (S : α → Prop) (parent : α → Option α) (root : α) : Prop where
  root_mem : S root
  root_parent : parent root = none
  parent_mem : ∀ a b, S a → parent a = some b → S b
  climbs : ∀ a, S a → Climbs parent a root

namespace IsTree

variable {a : α}

theorem parent_eq_none_iff (h : IsTree S parent root) (ha : S a) : parent a = none ↔ a = root := by
  constructor
  · intro hn
    exact ((h.climbs a ha).eq_of_none hn).symm
  · rintro rfl
    exact h.root_parent

/-- Every other node has a parent, and it is a node. -/
theorem exists_parent (h : IsTree S parent root) (ha : S a) (hr : a ≠ root) :
    ∃ b, parent a = some b ∧ S b := by
  cases hp : parent a with
  | none => exact absurd ((h.parent_eq_none_iff ha).mp hp) hr
  | some b => exact ⟨b, rfl, h.parent_mem a b ha hp⟩

/-- Induction down the tree: the root first, then from a parent to its child. -/
theorem climb_induction {P : α → Prop} (h : IsTree S parent root) (hroot : P root)
    (hstep : ∀ a b, S a → parent a = some b → P b → P a) (ha : S a) : P a := by
  have hgen : ∀ {x y}, Climbs parent x y → y = root → S x → P x := by
    intro x y hxy
    induction hxy using head_induction_on with
    | refl =>
      rintro rfl -
      exact hroot
    | head hab _ ih =>
      intro hy hx
      exact hstep _ _ hx hab (ih hy (h.parent_mem _ _ hx hab))
  exact hgen (h.climbs a ha) rfl ha

section

variable (h : IsTree S parent root)

include h

theorem mem_of_climbs {b : α} (ha : S a) (hab : Climbs parent a b) : S b :=
  hab.mem_of_closed h.parent_mem ha

open Climbs

theorem not_climbs_of_parent (ha : S a) : ∀ b, parent a = some b → ¬ Climbs parent b a := by
  refine h.climb_induction (P := fun x => ∀ b, parent x = some b → ¬ Climbs parent b x) ?_ ?_ ha
  · intro b hb
    rw [h.root_parent] at hb
    cases hb
  · intro x y _ hxy ih b hb hbx
    cases hxy.symm.trans hb
    -- a cycle through `x` is a cycle through its parent
    cases cases_head hbx with
    | inl hyx =>
      subst hyx
      exact ih _ hxy (refl _)
    | inr hc =>
      obtain ⟨c, hyc, hcx⟩ := hc
      exact ih c hyc (hcx.trans (step hxy (refl _)))

theorem parent_ne_self (ha : S a) : parent a ≠ some a :=
  fun hp => h.not_climbs_of_parent ha a hp (refl a)

/-- Redirected links: a node that is not the new root keeps its link or is given
a node from which the new root is reached.  The old root must be given one,
unless it stays the root. -/
theorem redirect
    (hold : ∀ a, S a → a = root' ∨ (a ≠ root ∧ parent' a = parent a) ∨ ∃ b, parent' a = some b ∧ Climbs parent' b root') :
    ∀ a, S a → Climbs parent' a root' := by
  intro a ha
  refine h.climb_induction (P := fun x => Climbs parent' x root') ?_ ?_ ha
  · rcases hold root h.root_mem with hr | ⟨hr, -⟩ | ⟨b, hb, hb'⟩
    · rw [hr]; exact refl _
    · exact absurd rfl hr
    · exact step hb hb'
  · intro x y hx hxy hy
    rcases hold x hx with hr | ⟨-, he⟩ | ⟨b, hb, hb'⟩
    · rw [hr]; exact refl _
    · exact step (he.trans hxy) hy
    · exact step hb hb'

/-- Links that are kept everywhere above a node still lead from it to the root. -/
theorem climbs_of_above (hkeep : ∀ b, Climbs parent a b → parent' b = parent b) (ha : S a)
    : Climbs parent' a root := by
  refine h.climb_induction
    (P := fun x => (∀ b, Climbs parent x b → parent' b = parent b) → Climbs parent' x root)
    ?_ ?_ ha hkeep
  · intro _
    exact refl _
  · intro x y _ hxy ih hx
    have hx' : parent' x = some y := (hx x (refl x)).trans hxy
    exact step hx' (ih fun b hb => hx b (step hxy hb))

/-- Contracted links: a map of the nodes that sends every link to a link, or
makes its ends equal, or sends its lower end to the new root. -/
theorem contract (parent' : α → Option α) (root' : α) (g : α → α) (hroot : g root = root')
    (hlink : ∀ a b, S a → parent a = some b → g a = g b ∨ g a = root' ∨ parent' (g a) = some (g b)) :
    ∀ a, S a → Climbs parent' (g a) root' := by
  intro a ha
  refine h.climb_induction (P := fun x => Climbs parent' (g x) root') ?_ ?_ ha
  · rw [hroot]; exact refl _
  · intro x y hx hxy hy
    rcases hlink x y hx hxy with he | he | he
    · rw [he]; exact hy
    · rw [he]; exact refl _
    · exact step he hy

/-- A new node below a node `m`: it may take over children, as long as none of
them is `m` or above it. -/
theorem insert_below {x m : α} (hm : S m) (hx : parent' x = some m)
    (hkeep : ∀ a, S a → parent' a = parent a ∨ parent' a = some x ∧ ¬ Climbs parent m a) :
    IsTree (fun a => a = x ∨ S a) parent' root := by
  have hmr : Climbs parent' m root := by
    refine h.climbs_of_above (fun b hb => ?_) hm
    have hSb : S b := h.mem_of_climbs hm hb
    rcases hkeep b hSb with he | ⟨-, hnot⟩
    · exact he
    · exact absurd hb hnot
  have hxr : Climbs parent' x root := step hx hmr
  have hroot : parent' root = none := by
    rcases hkeep root h.root_mem with he | ⟨-, hnot⟩
    · rw [he, h.root_parent]
    · exact absurd (h.climbs m hm) hnot
  refine ⟨Or.inr h.root_mem, hroot, ?_, ?_⟩
  · rintro a b (rfl | ha) hab
    · rw [hx] at hab
      cases hab
      exact Or.inr hm
    · rcases hkeep a ha with he | ⟨he, -⟩
      · exact Or.inr (h.parent_mem a b ha (he.symm.trans hab))
      · exact Or.inl (Option.some.inj (hab.symm.trans he))
  · rintro a (rfl | ha)
    · exact hxr
    · refine h.redirect (fun b hb => ?_) a ha
      by_cases hbr : b = root
      · exact Or.inl hbr
      · rcases hkeep b hb with he | ⟨he, -⟩
        · exact Or.inr (Or.inl ⟨hbr, he⟩)
        · exact Or.inr (Or.inr ⟨x, he, hxr⟩)

/-- A new node above the old root.  The new root is the node or one that it is
put below; the other nodes keep their parent or are given one of these two. -/
theorem insert_above {x : α} (hmem : root' = x ∨ S root') (hroot : parent' root' = none)
    (hx : x = root' ∨ parent' x = some root') (hold : parent' root = some x)
    (hkeep : ∀ a, S a → a = root' ∨ parent' a = parent a ∨ parent' a = some x ∨ parent' a = some root') :
    IsTree (fun a => a = x ∨ S a) parent' root' := by
  have hxr : Climbs parent' x root' := by
    rcases hx with rfl | hx
    · exact refl _
    · exact step hx (refl _)
  refine ⟨hmem, hroot, ?_, ?_⟩
  · rintro a b (rfl | ha) hab
    · rcases hx with rfl | hx
      · rw [hroot] at hab
        cases hab
      · rw [hx] at hab
        cases hab
        exact hmem
    · rcases hkeep a ha with rfl | he | he | he
      · rw [hroot] at hab
        cases hab
      · exact Or.inr (h.parent_mem a b ha (he.symm.trans hab))
      · exact Or.inl (Option.some.inj (hab.symm.trans he))
      · cases he.symm.trans hab
        exact hmem
  · rintro a (rfl | ha)
    · exact hxr
    · refine h.redirect (fun b hb => ?_) a ha
      by_cases hbr : b = root
      · exact Or.inr (Or.inr ⟨x, hbr ▸ hold, hxr⟩)
      · rcases hkeep b hb with he | he | he | he
        · exact Or.inl he
        · exact Or.inr (Or.inl ⟨hbr, he⟩)
        · exact Or.inr (Or.inr ⟨x, he, hxr⟩)
        · exact Or.inr (Or.inr ⟨root', he, refl _⟩)

theorem exists_child (ha : S a) (hr : a ≠ root) : ∃ b, S b ∧ parent b = some root := by
  have hgen : a = root ∨ ∃ b, S b ∧ parent b = some root := by
    refine h.climb_induction (P := fun x => x = root ∨ ∃ b, S b ∧ parent b = some root)
      (Or.inl rfl) ?_ ha
    rintro x y hx hxy (rfl | hb)
    · exact Or.inr ⟨x, hx, hxy⟩
    · exact Or.inr hb
  exact hgen.resolve_left hr

/-- A node is taken out and its children go to `q`: its parent, or, when the
node was the root, one of the children, which becomes the root. -/
theorem remove {x q : α} (hx : S x) (hq : S q)
    (hcase : x = root ∧ root' = q ∧ parent q = some x ∧ parent' q = none ∨ x ≠ root ∧ root' = root ∧ parent x = some q)
    (hchild : ∀ a, S a → a ≠ root' → parent a = some x → parent' a = some q)
    (hother : ∀ a, S a → parent a ≠ some x → parent' a = parent a) :
    IsTree (fun a => S a ∧ a ≠ x) parent' root' := by
  have hqx : q ≠ x := by
    rintro rfl
    rcases hcase with ⟨-, -, hp, -⟩ | ⟨-, -, hp⟩ <;> exact h.parent_ne_self hx hp
  have hroot : parent' root' = none := by
    rcases hcase with ⟨-, rfl, -, hn⟩ | ⟨-, rfl, -⟩
    · exact hn
    · rw [hother _ h.root_mem (by simp [h.root_parent]), h.root_parent]
  have hroot' : S root' ∧ root' ≠ x := by
    rcases hcase with ⟨-, rfl, -, -⟩ | ⟨hne, rfl, -⟩
    · exact ⟨hq, hqx⟩
    · exact ⟨h.root_mem, Ne.symm hne⟩
  refine ⟨hroot', hroot, ?_, ?_⟩
  · rintro a b ⟨ha, -⟩ hab
    by_cases har : a = root'
    · rw [har, hroot] at hab
      cases hab
    by_cases hax : parent a = some x
    · rw [hchild a ha har hax] at hab
      cases hab
      exact ⟨hq, hqx⟩
    · rw [hother a ha hax] at hab
      exact ⟨h.parent_mem a b ha hab, fun hb => hax (hb ▸ hab)⟩
  · -- send the removed node to `q`; every link becomes a link or a point
    classical
    have hclimb := h.contract parent' root'
      (fun a => if a = x then q else a)
      (by
        rcases hcase with ⟨hxr, hr, -, -⟩ | ⟨hxr, hr, -⟩
        · rw [if_pos hxr.symm, hr]
        · rw [if_neg (Ne.symm hxr), hr])
      (by
        intro a b ha hab
        by_cases hax : a = x
        · subst hax
          rcases hcase with ⟨rfl, -, -, -⟩ | ⟨-, -, hp⟩
          · rw [h.root_parent] at hab
            cases hab
          · cases hab.symm.trans hp
            exact Or.inl (by rw [if_pos rfl, if_neg hqx])
        · rw [if_neg hax]
          by_cases har : a = root'
          · exact Or.inr (Or.inl har)
          by_cases hbx : b = x
          · rw [if_pos hbx]
            exact Or.inr (Or.inr (hchild a ha har (hbx ▸ hab)))
          · rw [if_neg hbx, hother a ha (by rw [hab]; simpa using hbx)]
            exact Or.inr (Or.inr hab))
    rintro a ⟨ha, hax⟩
    simpa [hax] using hclimb a ha

/-- Links that agree on the nodes are the same tree. -/
theorem of_agree (hsame : ∀ a, S a → parent' a = parent a) : IsTree S parent' root := by
  refine ⟨h.root_mem, (hsame root h.root_mem).trans h.root_parent, fun a b ha hab => ?_,
    fun a ha => ?_⟩
  · exact h.parent_mem a b ha ((hsame a ha).symm.trans hab)
  · exact h.climbs_of_above (fun b hb => hsame b (h.mem_of_climbs ha hb)) ha

theorem congr (hS : ∀ a, S' a ↔ S a) : IsTree S' parent root :=
  ⟨(hS _).mpr h.root_mem, h.root_parent,
    fun a b ha hab => (hS b).mpr (h.parent_mem a b ((hS a).mp ha) hab),
    fun a ha => h.climbs a ((hS a).mp ha)⟩

theorem eq_of_siblings {b c p : α} (hb : S b) (hc : S c) (hbp : parent b = some p)
    (hcp : parent c = some p) (hab : Climbs parent a b) (hac : Climbs parent a c) : b = c := by
  have hunique : Relator.RightUnique fun x y => parent x = some y := by
    intro x y z hxy hxz
    exact Option.some.inj (hxy.symm.trans hxz)
  -- a child that the other one climbs to is above the parent of both
  have hcase : ∀ {x y : α}, S y → parent x = some p → parent y = some p → Climbs parent x y →
      x = y := by
    intro x y hy hx hyp hxy
    rcases cases_head hxy with rfl | ⟨z, hxz, hzy⟩
    · rfl
    · cases hx.symm.trans hxz
      exact absurd hzy (h.not_climbs_of_parent hy p hyp)
  rcases total_of_right_unique hunique hab hac with hbc | hcb
  · exact hcase hc hbp hcp hbc
  · exact (hcase hb hcp hbp hcb).symm

end

end IsTree

/-! ## Going down a tree -/

/-- The nodes below a node, each before the ones below it, and none below a node at which one
stops.  The number bounds the depth. -/
def preorder (kids : α → List α) (stop : α → Bool) : ℕ → α → List α
  | 0, _ => []
  | n + 1, a => (kids a).flatMap fun b => b :: if stop b then [] else preorder kids stop n b

section Preorder

variable {kids : α → List α} {stop : α → Bool} {n : ℕ} {a b : α}

open Climbs

theorem climbs_of_mem_preorder (hkids : ∀ a, ∀ b ∈ kids a, S b ∧ parent b = some a)
    (h : b ∈ preorder kids stop n a) :
    S b ∧ ∃ c, S c ∧ parent c = some a ∧ Climbs parent b c := by
  induction n generalizing a with
  | zero => cases h
  | succ n ih =>
    rw [preorder, List.mem_flatMap] at h
    obtain ⟨c, hc, h⟩ := h
    obtain ⟨hSc, hca⟩ := hkids a c hc
    cases h with
    | head => exact ⟨hSc, b, hSc, hca, refl _⟩
    | tail _ h =>
      split at h
      next => cases h
      next =>
        obtain ⟨hSb, d, -, hdc, hbd⟩ := ih h
        exact ⟨hSb, c, hSc, hca, hbd.trans (step hdc (refl _))⟩

theorem IsTree.nodup_preorder (h : IsTree S parent root)
    (hkids : ∀ a, ∀ b ∈ kids a, S b ∧ parent b = some a) (hnodup : ∀ a, (kids a).Nodup) :
    (preorder kids stop n a).Nodup := by
  induction n generalizing a with
  | zero => exact List.nodup_nil
  | succ n ih =>
    have hclimbs : ∀ {b c : α}, b ∈ kids a →
        c ∈ b :: (if stop b then [] else preorder kids stop n b) → Climbs parent c b := by
      intro b c _ hc
      cases hc with
      | head => exact refl _
      | tail _ hc =>
        split at hc
        next => cases hc
        next =>
          obtain ⟨-, d, -, hdb, hcd⟩ := climbs_of_mem_preorder hkids hc
          exact hcd.trans (step hdb (refl _))
    rw [preorder, List.nodup_flatMap]
    constructor
    · intro b hb
      refine List.nodup_cons.mpr ⟨?_, ?_⟩
      · intro hmem
        split at hmem
        next => cases hmem
        next =>
          obtain ⟨hSb, d, hSd, hdb, hbd⟩ := climbs_of_mem_preorder hkids hmem
          exact h.not_climbs_of_parent hSd b hdb hbd
      · split
        next => exact List.nodup_nil
        next => exact ih
    · refine (hnodup a).imp_of_mem ?_
      intro b c hb hc hne d hdb hdc
      exact hne (h.eq_of_siblings (hkids a b hb).1 (hkids a c hc).1 (hkids a b hb).2
        (hkids a c hc).2 (hclimbs hb hdb) (hclimbs hc hdc))

end Preorder

end ParentTree
