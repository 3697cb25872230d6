import CommCentral.Lib.ParentTree
import Mathlib.Data.Set.Finite.List

/-!
# Links that come round

A partial function `next` need not make a tree.  A climb along it *circles* when
it comes to a node that is above itself.

* Where the nodes with links to them are finitely many, a climb that does not
  circle ends (`acc_of_not_circles`).
* A climb that stops at certain nodes circles when none of them is above its
  first node and the climb without stops circles (`circles_unless_iff`).
-/

namespace ParentTree

open Relation Climbs

variable {α : Type*} {next : α → Option α} {a b : α}

/-- Climbing from the node comes to one that is above itself. -/
def Circles (next : α → Option α) (a : α) : Prop :=
  ∃ b, Climbs next a b ∧ Relation.TransGen (fun a b => next a = some b) b b

namespace Circles

theorem exists_next (h : Circles next a) : ∃ b, next a = some b ∧ Circles next b := by
  obtain ⟨c, hac, hcc⟩ := h
  rcases ReflTransGen.cases_head hac with rfl | ⟨b, hab, hbc⟩
  · obtain ⟨b, hab, hba⟩ := TransGen.head'_iff.mp hcc
    exact ⟨b, hab, a, hba, hcc⟩
  · exact ⟨b, hab, c, hbc, hcc⟩

end Circles

/-- A climb that does not circle ends, when the links go to finitely many nodes. -/
theorem acc_of_not_circles (nodes : List α) (hnodes : ∀ a b, next a = some b → b ∈ nodes)
    (h : ¬ Circles next a) : Acc (fun b a => next a = some b) a := by
  let Reached := {b : α // b ∈ nodes ∧ Climbs next a b}
  have : Finite Reached :=
    ((List.finite_toSet nodes).subset fun b (hb : b ∈ nodes ∧ Climbs next a b) => hb.1).to_subtype
  let above : Reached → Reached → Prop := fun c b =>
    TransGen (fun a b => next a = some b) b.1 c.1
  have : Std.Irrefl above := ⟨fun b hb => h ⟨b.1, b.2.2, hb⟩⟩
  have hwf : WellFounded above := Finite.wellFounded_of_trans_of_irrefl above
  have hreached : ∀ b : Reached, Acc (fun b a => next a = some b) b.1 := fun b => by
    induction b using hwf.induction with
    | h b ih =>
      refine Acc.intro _ fun c hbc => ?_
      exact ih ⟨c, hnodes b.1 c hbc, b.2.2.trans (step hbc (refl c))⟩
        (TransGen.single hbc)
  exact Acc.intro _ fun b hab =>
    hreached ⟨b, hnodes a b hab, step hab (refl b)⟩

/-! ## Climbs that stop -/

/-- A climb that stops at some nodes circles when it does not stop and the whole climb circles. -/
theorem circles_unless_iff (stop : α → Bool) :
    Circles (fun a => if stop a then none else next a) a ↔
      Circles next a ∧ ∀ b, Climbs next a b → stop b = false := by
  have hlink : ∀ {b c : α}, (if stop b then none else next b) = some c →
      stop b = false ∧ next b = some c := fun {b c} hbc => by
    cases hstop : stop b with
    | true =>
      rw [hstop] at hbc
      cases hbc
    | false =>
      rw [hstop] at hbc
      exact ⟨rfl, hbc⟩
  constructor
  · intro h
    refine ⟨?_, fun b hab => ?_⟩
    · obtain ⟨b, hab, hbb⟩ := h
      exact ⟨b, ReflTransGen.mono (fun _ _ hbc => (hlink hbc).2) _ _ hab,
        TransGen.mono (fun _ _ hbc => (hlink hbc).2) _ _ hbb⟩
    · -- the climb circles from each node that is reached
      have hb : Circles (fun a => if stop a then none else next a) b := by
        induction hab with
        | refl => exact h
        | tail _ hcd ih =>
          obtain ⟨d, hcd', hd⟩ := ih.exists_next
          obtain rfl := Option.some.inj (hcd.symm.trans (hlink hcd').2)
          exact hd
      obtain ⟨c, hbc, -⟩ := hb.exists_next
      exact (hlink hbc).1
  · rintro ⟨⟨b, hab, hbb⟩, hstop⟩
    have hkeep : ∀ {c d : α}, Climbs next a c → next c = some d →
        (if stop c then none else next c) = some d := fun hac hcd => by
      rw [hstop _ hac]
      exact hcd
    have hclimbs : ∀ {c : α}, Climbs next a c →
        Climbs (fun a => if stop a then none else next a) a c := fun hac => by
      induction hac with
      | refl => exact refl _
      | tail hac hcd ih => exact ih.trans (step (hkeep hac hcd) (refl _))
    have hround : ∀ {c : α}, TransGen (fun a b => next a = some b) b c →
        TransGen (fun a b => (if stop a then none else next a) = some b) b c :=
      fun hbc => by
        induction hbc with
        | single hbc => exact TransGen.single (hkeep hab hbc)
        | tail hbc hcd ih => exact ih.tail (hkeep (hab.trans hbc.to_reflTransGen) hcd)
    exact ⟨b, hclimbs hab, hround hbb⟩

end ParentTree
