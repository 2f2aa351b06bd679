import Mathlib.Data.Nat.ModEq

/-!
# Rounding up to a multiple

`roundUp n a` is the least multiple of `a` from `n` on.
-/

namespace Rounding

/-- The least multiple of `a` that is not below `n`. -/
def roundUp (n a : ℕ) : ℕ := (n + a - 1) / a * a

variable {n a b : ℕ}

theorem dvd_roundUp (n a : ℕ) :
  a ∣ roundUp n a
  := Nat.dvd_mul_left _ _

theorem le_roundUp (pos : 0 < a) (n : ℕ) :
  n ≤ roundUp n a
  := by
  have quotient := Nat.div_add_mod (n + a - 1) a
  have remainder := Nat.mod_lt (n + a - 1) pos
  rw [mul_comm] at quotient
  unfold roundUp
  omega

/-- What is rounded up to a multiple that is a summand stays behind it. -/
theorem roundUp_add (pos : 0 < a) (h : a ∣ b) (n : ℕ) :
  roundUp (b + n) a = b + roundUp n a
  := by
  obtain ⟨q, rfl⟩ := h
  have sum : a * q + n + a - 1 = n + a - 1 + a * q := by omega
  rw [roundUp, sum, Nat.add_mul_div_left _ _ pos, add_mul, mul_comm q a, add_comm]
  rfl

theorem roundUp_zero (pos : 0 < a) :
  roundUp 0 a = 0
  := by
  have less : 0 + a - 1 < a := by omega
  rw [roundUp, Nat.div_eq_of_lt less, zero_mul]

/-- A multiple is not moved. -/
theorem roundUp_of_dvd (pos : 0 < a) (h : a ∣ n) :
  roundUp n a = n
  := by
  have sum := roundUp_add pos h 0
  rw [add_zero, roundUp_zero pos, add_zero] at sum
  apply sum

/-- Rounding up can be done in a machine word, when the word is filled by multiples. -/
theorem roundUp_mod {m : ℕ} (pos : 0 < a) (h : a ∣ m) (n : ℕ) :
  (n % m + a - 1) % m / a * a = roundUp n a % m
  := by
  have shift (x : ℕ) : x + a - 1 = x + (a - 1) := Nat.add_sub_assoc pos x
  rw [roundUp, shift, shift, Nat.mod_add_mod]
  generalize n + (a - 1) = x
  obtain ⟨q, rfl⟩ := h
  rw [Nat.mod_mul_right_div_self, mul_comm (x / a) a, Nat.mul_mod_mul_left, mul_comm]

end Rounding
