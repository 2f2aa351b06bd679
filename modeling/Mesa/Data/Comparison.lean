import Mathlib.Algebra.Order.Group.Int
import Mathlib.Data.List.Pairwise
import Mathlib.Tactic.Common

/-!
# Comparison functions

A comparison function returns a negative number, zero or a positive number.  It is a total preorder
if the numbers of the two orders of its arguments agree and it is transitive.  The comparison of
keys by their first difference is one.
-/

/-- `f` compares as a total preorder does. -/
structure IsComparison {α : Type*} (f : α → α → ℤ) : Prop where
  swap : ∀ a b, f a b ≤ 0 ↔ 0 ≤ f b a
  trans : ∀ a b c, f a b ≤ 0 → f b c ≤ 0 → f a c ≤ 0

namespace IsComparison

variable {α : Type*} {f : α → α → ℤ}

theorem refl (comparison : IsComparison f) (a : α) :
  f a a = 0
  := by
  have := comparison.swap a a
  omega

theorem total (comparison : IsComparison f) (a b : α) :
  f a b ≤ 0 ∨ f b a ≤ 0
  := by
  have := comparison.swap b a
  omega

/-- Elements below a pivot are below those above it. -/
theorem around (comparison : IsComparison f) {a p b : α} (below : f a p ≤ 0) (above : 0 ≤ f b p) :
  f a b ≤ 0
  := comparison.trans a p b below ((comparison.swap p b).mpr above)

/-- Two sorted lists around elements that are equal to a pivot. -/
theorem pairwise_around (comparison : IsComparison f) {p : α} {left middle right : List α}
  (left_sorted : left.Pairwise (fun a b => f a b ≤ 0))
  (right_sorted : right.Pairwise (fun a b => f a b ≤ 0))
  (left_below : ∀ x ∈ left, f x p ≤ 0) (right_above : ∀ x ∈ right, 0 ≤ f x p)
  (middle_equal : ∀ x ∈ middle, f x p = 0) :
  (left ++ middle ++ right).Pairwise (fun a b => f a b ≤ 0)
  := by
  have middle_sorted : middle.Pairwise (fun a b => f a b ≤ 0) := by
    apply List.pairwise_of_forall_mem_list
    intro a ha b hb
    exact comparison.around (middle_equal a ha).le (middle_equal b hb).ge
  refine List.pairwise_append.mpr ⟨List.pairwise_append.mpr ⟨left_sorted, middle_sorted, ?_⟩,
    right_sorted, ?_⟩
  · intro a ha b hb
    exact comparison.around (left_below a ha) (middle_equal b hb).ge
  · intro a ha b hb
    rcases List.mem_append.mp ha with ha | ha
    · exact comparison.around (left_below a ha) (right_above b hb)
    · exact comparison.around (middle_equal a ha).le (right_above b hb)

/-- The comparison of the images under a function. -/
theorem comap (comparison : IsComparison f) {β : Type*} (g : β → α) :
  IsComparison (fun a b => f (g a) (g b))
  where
  swap := fun a b => comparison.swap (g a) (g b)
  trans := fun a b c => comparison.trans (g a) (g b) (g c)

end IsComparison

/-- The first difference of two keys. -/
def firstDifference : List ℤ → List ℤ → ℤ
  | a :: as, b :: bs => if a = b then firstDifference as bs else a - b
  | _, _ => 0

theorem firstDifference_swap (a b : List ℤ) :
  firstDifference b a = - firstDifference a b
  := by
  induction a generalizing b with
  | nil => cases b <;> rfl
  | cons x a ih =>
    cases b with
    | nil => rfl
    | cons y b =>
      simp only [firstDifference]
      by_cases same : x = y
      · rw [if_pos same, if_pos same.symm, ih]
      · rw [if_neg same, if_neg (Ne.symm same)]
        omega

theorem firstDifference_trans {a b c : List ℤ} (length : a.length = b.length)
  (length' : b.length = c.length) (hab : firstDifference a b ≤ 0) (hbc : firstDifference b c ≤ 0) :
  firstDifference a c ≤ 0
  := by
  induction a generalizing b c with
  | nil => exact le_refl 0
  | cons x a ih =>
    cases b with
    | nil => cases length
    | cons y b =>
      cases c with
      | nil => cases length'
      | cons z c =>
        simp only [List.length_cons, Nat.add_right_cancel_iff] at length length'
        simp only [firstDifference] at hab hbc ⊢
        split at hab <;> split at hbc <;> split
        case isTrue.isTrue.isTrue => exact ih length length' hab hbc
        all_goals omega

/-- Keys of one length are ordered by their first difference. -/
theorem isComparison_firstDifference {n : ℕ} :
  IsComparison (fun a b : { l : List ℤ // l.length = n } => firstDifference a.1 b.1)
  where
  swap := fun a b => by
    rw [firstDifference_swap a.1 b.1]
    omega
  trans := fun a b c => firstDifference_trans (a.2.trans b.2.symm) (b.2.trans c.2.symm)
