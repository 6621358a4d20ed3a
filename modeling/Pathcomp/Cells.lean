import Mathlib.Data.List.Basic
import Mathlib.Tactic.Common

set_option autoImplicit false

/-!
# Blocks of memory cells

A block is the list of its cells. A write replaces the cells from an index on,
and is described at a block that is split where it starts and where it ends.
-/
namespace Pathcomp.Cells

variable {α : Type}

/-- The cells from `i` on are replaced by `data`, which should not reach over the
    end of the block. -/
def overwrite (cells : List α) (i : ℕ) (data : List α) : List α :=
  cells.take i ++ (data ++ cells.drop (i + data.length))

theorem overwrite_length {cells data : List α} {i : ℕ} (h : i + data.length ≤ cells.length) :
    (overwrite cells i data).length = cells.length := by
  simp only [overwrite, List.length_append, List.length_take, List.length_drop]
  omega

theorem overwrite_split (front old data rest : List α) (h : old.length = data.length) :
    overwrite (front ++ (old ++ rest)) front.length data = front ++ (data ++ rest) := by
  have hrest : (front ++ (old ++ rest)).drop (front.length + data.length) = rest := by
    rw [← List.append_assoc, ← h, ← List.length_append, List.drop_left]
  rw [overwrite, List.take_left, hrest]

theorem overwrite_append (front rest data : List α) (h : data.length ≤ rest.length) :
    overwrite (front ++ rest) front.length data = front ++ (data ++ rest.drop data.length) := by
  have hlen : (rest.take data.length).length = data.length := by
    rw [List.length_take]
    omega
  have hsplit := overwrite_split front (rest.take data.length) data (rest.drop data.length) hlen
  rwa [List.take_append_drop] at hsplit

theorem overwrite_singleton {cells : List α} {i : ℕ} (h : i < cells.length) (x : α) :
    overwrite cells i [x] = cells.set i x := by
  rw [List.set_eq_take_append_cons_drop, if_pos h]
  rfl

theorem overwrite_overwrite {cells : List α} {i : ℕ} (data tail : List α)
    (h : i + data.length ≤ cells.length) :
    overwrite (overwrite cells (i + data.length) tail) i data =
      overwrite cells i (data ++ tail) := by
  have hfront : (cells.take (i + data.length)).length = i + data.length := by
    rw [List.length_take]
    omega
  simp only [overwrite]
  rw [List.take_append_of_le_length (by omega), List.take_take, Nat.min_eq_left (by omega),
    List.drop_left' hfront, List.length_append, List.append_assoc, Nat.add_assoc]

theorem overwrite_self (front old rest : List α) :
    overwrite (front ++ (old ++ rest)) front.length old = front ++ (old ++ rest) :=
  overwrite_split front old old rest rfl

/-- A block extended by fresh cells. -/
def extend (cells : List α) (fresh : α) (n : ℕ) : List α :=
  cells ++ List.replicate (n - cells.length) fresh

end Pathcomp.Cells
