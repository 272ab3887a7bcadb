import Mathlib.Data.Set.Finite.Basic
import Mathlib.Logic.Relation
import Mathlib.Order.WellFounded
import Mathlib.Data.Fintype.Order

/-!
# Following a relation to its end

A program that follows pointers – links, parents, successors – stops if there is no
way to come round again. For a relation in which only finitely many elements lead
anywhere, that is all there is to it: an element from which no cycle can be reached is
accessible (`InstantMirror.acc_of_acyclic`), so a recursion along the relation is a
recursion on it; and where a cycle can be reached there is always a next step that does
not lose it (`InstantMirror.exists_step_of_reachesCycle`).
-/

namespace InstantMirror

variable {α : Type*} {r : α → α → Prop} {a : α}

/-- A cycle can be reached. -/
def ReachesCycle (r : α → α → Prop) (a : α) : Prop :=
  ∃ b, Relation.ReflTransGen r a b ∧ Relation.TransGen r b b

/-- What can be reached from a successor can be reached. -/
theorem ReachesCycle.head {b : α} (hab : r a b) (hb : ReachesCycle r b) : ReachesCycle r a := by
  obtain ⟨c, hbc, hc⟩ := hb
  exact ⟨c, .head hab hbc, hc⟩

/-- **There is a next step towards the cycle.** -/
theorem exists_step_of_reachesCycle (ha : ReachesCycle r a) : ∃ b, r a b ∧ ReachesCycle r b := by
  obtain ⟨c, hac, hc⟩ := ha
  rcases Relation.ReflTransGen.cases_head hac with rfl | ⟨b, hab, hbc⟩
  · obtain ⟨b, hab, hba⟩ := Relation.TransGen.head'_iff.mp hc
    exact ⟨b, hab, a, hba, hc⟩
  · exact ⟨b, hab, c, hbc, hc⟩

/-- **Without a cycle, the relation can be followed to its end**, if only finitely many elements
lead anywhere. -/
theorem acc_of_acyclic (hfin : {x | ∃ y, r x y}.Finite) (ha : ¬ ReachesCycle r a) :
    Acc (fun y x => r x y) a := by
  -- the elements that lead anywhere and reach no cycle, ordered by who reaches whom
  let T : Set α := {x | (∃ y, r x y) ∧ ¬ ReachesCycle r x}
  have : Finite T := (hfin.subset fun x hx => hx.1).to_subtype
  have : IsTrans T fun y x => Relation.TransGen r x.1 y.1 := ⟨fun _ _ _ h₁ h₂ => h₂.trans h₁⟩
  have : Std.Irrefl fun y x : T => Relation.TransGen r x.1 y.1 :=
    ⟨fun x hx => x.2.2 ⟨x.1, .refl, hx⟩⟩
  have hwf : WellFounded fun y x : T => Relation.TransGen r x.1 y.1 :=
    Finite.wellFounded_of_trans_of_irrefl _
  have hT : ∀ x : T, Acc (fun y x => r x y) x.1 := by
    intro x
    induction x using hwf.induction with
    | _ x ih =>
      refine Acc.intro _ fun y hxy => ?_
      have hy : ¬ ReachesCycle r y := fun h => x.2.2 (h.head hxy)
      by_cases hnext : ∃ z, r y z
      · exact ih ⟨y, hnext, hy⟩ (.single hxy)
      · exact Acc.intro _ fun z hz => absurd ⟨z, hz⟩ hnext
  by_cases hnext : ∃ y, r a y
  · exact hT ⟨a, hnext, ha⟩
  · exact Acc.intro _ fun y hy => absurd ⟨y, hy⟩ hnext

end InstantMirror
