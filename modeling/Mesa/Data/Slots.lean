import Mathlib.Algebra.BigOperators.Group.Finset.Piecewise
import Mathlib.Algebra.Order.BigOperators.Group.Finset

/-!
# Sums over the slots of an array

An array is a function, and what it holds is the sum of a weight over its first slots.
-/

namespace Slots

variable {α β : Type} [AddCommMonoid β]

/-- The sum of a weight over the first slots. -/
def sum (w : α → β) (n : ℕ) (f : ℕ → α) : β := ∑ i ∈ Finset.range n, w (f i)

/-- The sum after one slot was written. -/
theorem sum_update (w : α → β) {n a : ℕ} (f : ℕ → α) (ha : a < n) (x : α) :
  sum w n (Function.update f a x) + w (f a) = sum w n f + w x
  := by
  have mem : a ∈ Finset.range n := Finset.mem_range.2 ha
  have rest : ∑ i ∈ (Finset.range n).erase a, w (Function.update f a x i)
      = ∑ i ∈ (Finset.range n).erase a, w (f i) := by
    apply Finset.sum_congr rfl
    intro i hi
    rw [Function.update_of_ne (Finset.ne_of_mem_erase hi)]
  rw [sum, sum, ← Finset.add_sum_erase _ _ mem,
    ← Finset.add_sum_erase _ (fun i => w (f i)) mem, rest, Function.update_self, add_right_comm,
    add_comm (w x), add_right_comm]

theorem sum_succ (w : α → β) (n : ℕ) (f : ℕ → α) :
  sum w (n + 1) f = sum w n f + w (f n)
  := Finset.sum_range_succ _ _

theorem sum_add (w w' : α → β) (n : ℕ) (f : ℕ → α) :
  sum (fun x => w x + w' x) n f = sum w n f + sum w' n f
  := Finset.sum_add_distrib

theorem sum_eq_zero {w : α → β} {n : ℕ} {f : ℕ → α} (h : ∀ i < n, w (f i) = 0) :
  sum w n f = 0
  := by
  apply Finset.sum_eq_zero
  intro i mem
  exact h i (Finset.mem_range.1 mem)

end Slots
