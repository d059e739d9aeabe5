import Mathlib.Data.Set.Finite.Basic
import Mathlib.Order.WellFounded
import Mathlib.Data.Fintype.EquivFin

/-!
# Finite graphs without cycles

In a graph where only finitely many nodes have an edge, a walk from a node
that reaches no cycle comes to an end (`acc_of_acyclic`).
-/

namespace Metor.Lib

open Relation

variable {α : Type*} {E : α → α → Prop}

theorem acc_of_acyclic {S : Set α} (hS : S.Finite) (hE : ∀ a b, E a b → a ∈ S) {x : α}
    (hx : ∀ y, ReflTransGen E x y → ¬ TransGen E y y) : Acc (fun b a => E a b) x := by
  let T := {y // ReflTransGen E x y ∧ y ∈ S}
  have : Finite T := (hS.subset fun y (h : ReflTransGen E x y ∧ y ∈ S) => h.2).to_subtype
  let R : T → T → Prop := fun b a => TransGen E a.1 b.1
  have : IsTrans T R := ⟨fun _ _ _ h₁ h₂ => h₂.trans h₁⟩
  have : Std.Irrefl R := ⟨fun a => hx a.1 a.2.1⟩
  have hwf : WellFounded R := Finite.wellFounded_of_trans_of_irrefl R
  have leaf : ∀ y, y ∉ S → Acc (fun b a => E a b) y := fun y hy => ⟨y, fun z h => absurd (hE y z h) hy⟩
  have main : ∀ y : T, Acc (fun b a => E a b) y.1 := fun y => by
    induction y using hwf.induction with
    | _ y ih =>
      refine ⟨y.1, fun z h => ?_⟩
      by_cases hz : z ∈ S
      · exact ih ⟨z, y.2.1.tail h, hz⟩ (.single h)
      · exact leaf z hz
  by_cases hxS : x ∈ S
  · exact main ⟨x, .refl, hxS⟩
  · exact leaf x hxS

end Metor.Lib
