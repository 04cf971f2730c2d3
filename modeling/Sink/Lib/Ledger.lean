import Mathlib.Algebra.BigOperators.Intervals
import Mathlib.Tactic.Abel

/-!
# Sums over a growing table

A table of records `g : ℕ → α` with `n` entries in use, and totals
`∑ i ∈ range n, v (g i)` of some value of the records. A total changes by
what one entry changes, and a new entry adds its own value.
-/

namespace Ledger

open Finset Function

variable {α M : Type} [AddCommGroup M]
variable {v : α → M} {g : ℕ → α}

/-- The tally of `v` over the first `n` entries. -/
def tally (v : α → M) (n : ℕ) (g : ℕ → α) : M := ∑ i ∈ range n, v (g i)

theorem tally_congr {β : Type} {w : β → M} {n : ℕ} {h : ℕ → β} (hvw : ∀ i, v (g i) = w (h i)) :
    tally v n g = tally w n h :=
  sum_congr rfl fun i _ => hvw i

theorem tally_update {n i : ℕ} (hi : i < n) (a : α) :
    tally v n (update g i a) = tally v n g + (v a - v (g i)) := by
  have hmem := mem_range.mpr hi
  have hrest : ∑ j ∈ (range n).erase i, v (update g i a j) = ∑ j ∈ (range n).erase i, v (g j) := by
    refine sum_congr rfl fun j hj => ?_
    rw [update_of_ne (ne_of_mem_erase hj)]
  unfold tally
  rw [← add_sum_erase _ _ hmem, ← add_sum_erase _ (fun j => v (g j)) hmem, hrest, update_self]
  abel

theorem tally_alloc (n : ℕ) (g : ℕ → α) (a : α) :
    tally v (n + 1) (update g n a) = tally v n g + v a := by
  unfold tally
  rw [sum_range_succ, update_self]
  congr 1
  refine sum_congr rfl fun j hj => ?_
  rw [update_of_ne (ne_of_lt (mem_range.mp hj))]

theorem tally_owners (own : α → ℕ) {n m : ℕ} (hown : ∀ i < n, own (g i) < m) :
    ∑ o ∈ range m, tally (fun a => if own a = o then v a else 0) n g = tally v n g := by
  unfold tally
  rw [sum_comm]
  refine sum_congr rfl fun i hi => ?_
  rw [sum_ite_eq, if_pos (mem_range.mpr (hown i (mem_range.mp hi)))]

theorem tally_nonneg {v : α → ℤ} {n : ℕ} (h : ∀ i < n, 0 ≤ v (g i)) : 0 ≤ tally v n g := by
  unfold tally
  induction n with
  | zero => simp
  | succ n ih =>
    rw [sum_range_succ]
    have hn := h n (Nat.lt_succ_self n)
    have hrest := ih fun i hi => h i (Nat.lt_succ_of_lt hi)
    omega

theorem tally_eq_zero {n : ℕ} (h : ∀ i < n, v (g i) = 0) : tally v n g = 0 :=
  sum_eq_zero fun i hi => h i (mem_range.mp hi)

end Ledger
