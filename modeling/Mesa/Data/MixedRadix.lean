import Mathlib.Algebra.BigOperators.Group.List.Basic

/-!
# Mixed radix numbers

The place of an element of an array of arrays among all of them, when the first coordinate is the one
that varies fastest.
-/

namespace MixedRadix

/-- The place of the element with the given coordinates. -/
def place : List ℕ → List ℕ → ℕ
  | size :: sizes, c :: coords => c + size * place sizes coords
  | _, _ => 0

/-- The coordinates are below the sizes. -/
def Within : List ℕ → List ℕ → Prop := List.Forall₂ fun size c => c < size

/-- There are as many places as elements. -/
theorem place_lt {sizes coords : List ℕ} (within : Within sizes coords) :
  place sizes coords < sizes.prod
  := by
  induction within with
  | nil => exact Nat.zero_lt_one
  | cons lt within ih =>
    rename_i size c sizes coords
    have step : size * (place sizes coords + 1) ≤ size * sizes.prod := Nat.mul_le_mul_left size ih
    rw [Nat.mul_succ] at step
    rw [place, List.prod_cons]
    omega

end MixedRadix
