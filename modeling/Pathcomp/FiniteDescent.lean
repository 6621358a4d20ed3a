import Mathlib.Data.Fintype.Basic
import Mathlib.Data.Finite.Defs
import Mathlib.Logic.Relation
import Mathlib.Order.WellFounded
import Mathlib.Data.Fintype.Order

set_option autoImplicit false

/-!
# Descent along a relation with finitely many sources

Following a relation from a point always ends exactly when no cycle can be
reached from that point, provided that only finitely many points have a
successor.
-/
namespace Pathcomp.FiniteDescent
open Relation

section
variable {α : Type*} {r : α → α → Prop}

/-- No cycle can be reached from `a`. -/
def NoCycleFrom (r : α → α → Prop) (a : α) : Prop :=
  ∀ x, ReflTransGen r a x → ¬ TransGen r x x

/-- Every way of following the relation from `a` ends. -/
def Descends (r : α → α → Prop) (a : α) : Prop := Acc (fun y x => r x y) a

theorem Descends.reach {a b : α} (h : Descends r a) (hab : ReflTransGen r a b) : Descends r b := by
  induction hab with
  | refl => exact h
  | tail _ hbc ih => exact Acc.inv ih hbc

theorem Descends.not_transGen {a : α} (h : Descends r a) : ¬ TransGen r a a := by
  induction h with
  | intro a _ ih =>
    intro hc
    obtain ⟨b, hab, hba⟩ := TransGen.head'_iff.mp hc
    exact ih b hab (TransGen.tail'_iff.mpr ⟨a, hba, hab⟩)

theorem Descends.noCycle {a : α} (h : Descends r a) : NoCycleFrom r a :=
  fun _ hx => (h.reach hx).not_transGen

theorem NoCycleFrom.descends {s : Finset α} (hs : ∀ x y, r x y → x ∈ s) {a : α}
    (h : NoCycleFrom r a) : Descends r a := by
  let T := { x : α // x ∈ s ∧ ReflTransGen r a x }
  let below : T → T → Prop := fun y x => TransGen r x.1 y.1
  have : Finite T := Finite.of_injective
    (fun x : T => (⟨x.1, x.2.1⟩ : { x : α // x ∈ s })) (fun x y hxy => by
      apply Subtype.ext
      simpa using hxy)
  have : IsTrans T below := ⟨fun _ _ _ hxy hyz => hyz.trans hxy⟩
  have : Std.Irrefl below := ⟨fun x => h x.1 x.2.2⟩
  have hwf : WellFounded below := Finite.wellFounded_of_trans_of_irrefl below
  have hleaf : ∀ x, x ∉ s → Descends r x :=
    fun x hx => Acc.intro x fun y hxy => absurd (hs x y hxy) hx
  have hall : ∀ x : T, Descends r x.1 := by
    intro x
    induction x using hwf.induction with
    | h x ih =>
      refine Acc.intro x.1 fun y hxy => ?_
      by_cases hy : y ∈ s
      · exact ih ⟨y, hy, x.2.2.tail hxy⟩ (.single hxy)
      · exact hleaf y hy
  by_cases ha : a ∈ s
  · exact hall ⟨a, ha, .refl⟩
  · exact hleaf a ha

theorem descends_iff_noCycle {s : Finset α} (hs : ∀ x y, r x y → x ∈ s) (a : α) :
    Descends r a ↔ NoCycleFrom r a :=
  ⟨Descends.noCycle, NoCycleFrom.descends hs⟩

end
end Pathcomp.FiniteDescent
