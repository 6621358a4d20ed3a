import Mathlib.Data.Fintype.Card
import Mathlib.Tactic.Common

set_option autoImplicit false

/-!
# Growing stages

Elements are reached in stages, each of which contains the one before. If a new
element at one stage needs a new element at the stage before it, and only finitely
many elements are not reached at once, then as many stages as these are enough.
-/
namespace Pathcomp.Stages

section
variable {α : Type*} {D : ℕ → α → Prop} (mono : ∀ k x, D k x → D (k + 1) x)
include mono

theorem reached_later {j k : ℕ} (hjk : j ≤ k) {x : α} (h : D j x) : D k x := by
  induction hjk with
  | refl => exact h
  | step _ ih => exact mono _ x ih

/-- What is reached at all is new at some stage. -/
theorem exists_new {n k : ℕ} {x : α} (hn : ¬ D n x) (h : D k x) :
    ∃ m, n ≤ m ∧ D (m + 1) x ∧ ¬ D m x := by
  induction k with
  | zero => exact absurd (reached_later mono (Nat.zero_le n) h) hn
  | succ k ih =>
    by_cases hk : D k x
    · exact ih hk
    · refine ⟨k, ?_, h, hk⟩
      by_contra hlt
      exact hn (reached_later mono (by omega) h)

variable (step : ∀ k x, D (k + 2) x → ¬ D (k + 1) x → ∃ y, D (k + 1) y ∧ ¬ D k y)
include step

omit mono in
/-- New elements go back to the first stage. -/
theorem new_at_every_stage {m : ℕ} {x : α} (h : D (m + 1) x) (hm : ¬ D m x) {j : ℕ}
    (hj : j ≤ m) :
    ∃ y, D (j + 1) y ∧ ¬ D j y := by
  induction m generalizing x with
  | zero =>
    obtain rfl : j = 0 := by omega
    exact ⟨x, h, hm⟩
  | succ m ih =>
    by_cases he : j = m + 1
    · subst he
      exact ⟨x, h, hm⟩
    · obtain ⟨y, hy, hy'⟩ := step m x h hm
      exact ih hy hy' (by omega)

theorem reached_by_card {S : Finset α} (new : ∀ k x, D (k + 1) x → ¬ D k x → x ∈ S)
    {k : ℕ} {x : α} (h : D k x) : D S.card x := by
  by_contra hcard
  obtain ⟨m, hle, hm, hm'⟩ := exists_new mono hcard h
  have hstages : ∀ j : Fin (m + 1), ∃ y, D (j + 1) y ∧ ¬ D j y :=
    fun j => new_at_every_stage step hm hm' (by omega)
  choose y hy hy' using hstages
  -- elements that are new at different stages are different
  have hinj : Function.Injective y := by
    intro i j hij
    by_contra hne
    rcases Nat.lt_or_gt_of_ne (Fin.val_ne_of_ne hne) with hlt | hlt
    · exact hy' j (reached_later mono (by omega) (hij ▸ hy i))
    · exact hy' i (reached_later mono (by omega) (hij ▸ hy j))
  have hle' := Finset.card_le_card_of_injOn (s := Finset.univ) y
    (fun j _ => new j (y j) (hy j) (hy' j)) hinj.injOn
  rw [Finset.card_univ, Fintype.card_fin] at hle'
  omega

end

end Pathcomp.Stages
