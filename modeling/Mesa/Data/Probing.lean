import Mathlib.Data.Nat.Prime.Basic
import Mathlib.Data.Int.ModEq
import Mathlib.Data.Fintype.EquivFin
import Mathlib.Algebra.BigOperators.Group.List.Lemmas

/-!
# Probing

A probe sequence goes through the addresses of a table in steps of a fixed width, and starts again at
the first address after the last one.  Where the width and the size of the table have no common
divisor, it comes to every address once before it comes back to the first one.

The sizes of tables are primes.  A prime of moderate size is checked with products of many candidate
divisors at a time.
-/

namespace Probing

/-! ### Probe sequences -/

variable (size start step : ℕ)

/-- The address after the given number of steps. -/
def address (j : ℕ) : ℕ := (start + j * step) % size

theorem address_zero :
  address size start step 0 = start % size
  := by
  rw [address, Nat.zero_mul, Nat.add_zero]

theorem address_succ (j : ℕ) :
  address size start step (j + 1) = (address size start step j + step) % size
  := by
  rw [address, address, Nat.mod_add_mod, Nat.add_mul, Nat.one_mul, Nat.add_assoc]

variable {size start step}

theorem address_lt (h : 0 < size) (j : ℕ) :
  address size start step j < size
  := Nat.mod_lt _ h

/-- No address comes twice within a round. -/
theorem address_inj (coprime : Nat.Coprime size step) {j j' : ℕ} (hj : j < size) (hj' : j' < size)
    (h : address size start step j = address size start step j') :
  j = j'
  := by
  have shifted : j * step ≡ j' * step [MOD size] := Nat.ModEq.add_left_cancel' start h
  have same : j ≡ j' [MOD size] := Nat.ModEq.cancel_right_of_coprime coprime shifted
  rw [Nat.ModEq, Nat.mod_eq_of_lt hj, Nat.mod_eq_of_lt hj'] at same
  exact same

/-- Every address comes within a round. -/
theorem exists_address (coprime : Nat.Coprime size step) {i : ℕ} (hi : i < size) :
  ∃ j < size, address size start step j = i
  := by
  have pos : 0 < size := Nat.lt_of_le_of_lt (Nat.zero_le i) hi
  let f : Fin size → Fin size := fun j => ⟨address size start step j, address_lt pos j⟩
  have inj : Function.Injective f := by
    intro j j' h
    apply Fin.ext
    exact address_inj coprime j.isLt j'.isLt (congrArg Fin.val h)
  obtain ⟨j, hj⟩ := (Finite.injective_iff_surjective.1 inj) ⟨i, hi⟩
  exact ⟨j, j.isLt, congrArg Fin.val hj⟩

/-! ### Primes -/

/-- The product of sixteen odd numbers. -/
def oddProduct (d : ℕ) : ℕ :=
  d * (d + 2) * (d + 4) * (d + 6) * (d + 8) * (d + 10) * (d + 12) * (d + 14)
    * (d + 16) * (d + 18) * (d + 20) * (d + 22) * (d + 24) * (d + 26) * (d + 28) * (d + 30)

/-- None of the `16 * 2 ^ k` odd numbers from `d` on has a divisor in common with `n`. -/
def noOddDivisor (n : ℕ) : ℕ → ℕ → Bool
  | 0, d => Nat.beq (Nat.gcd n (oddProduct d)) 1
  | k + 1, d => noOddDivisor n k d && noOddDivisor n k (d + 32 * 2 ^ k)

theorem dvd_oddProduct {d i : ℕ} (hi : i < 16) :
  d + 2 * i ∣ oddProduct d
  := by
  have split : oddProduct d = ((List.range 16).map fun i => d + 2 * i).prod := by
    simp only [oddProduct, List.range_succ, List.range_zero, List.map_append, List.prod_append,
      List.map_nil, List.nil_append, List.map_cons, List.prod_nil, List.prod_cons, Nat.mul_one,
      Nat.mul_zero, Nat.add_zero, Nat.reduceMul]
  rw [split]
  apply List.dvd_prod
  apply List.mem_map_of_mem
  exact List.mem_range.2 hi

theorem not_dvd_of_noOddDivisor {n k d : ℕ} (h : noOddDivisor n k d = true) {i : ℕ}
    (hi : i < 16 * 2 ^ k) (nontrivial : d + 2 * i ≠ 1) :
  ¬ d + 2 * i ∣ n
  := by
  induction k generalizing d i with
  | zero =>
    intro divides
    have gcd : Nat.gcd n (oddProduct d) = 1 := Nat.eq_of_beq_eq_true h
    have both := Nat.dvd_gcd divides (dvd_oddProduct (d := d) (i := i) (by omega))
    rw [gcd] at both
    exact nontrivial (Nat.dvd_one.1 both)
  | succ k ih =>
    rw [noOddDivisor, Bool.and_eq_true] at h
    rcases Nat.lt_or_ge i (16 * 2 ^ k) with low | high
    · exact ih h.1 low nontrivial
    · have eq : d + 2 * i = d + 32 * 2 ^ k + 2 * (i - 16 * 2 ^ k) := by omega
      rw [eq] at nontrivial ⊢
      apply ih h.2 _ nontrivial
      rw [pow_succ] at hi
      omega

/-- An odd number is a prime when it has no odd divisor up to its root. -/
theorem prime_of_noOddDivisor {n k : ℕ} (hn : 1 < n) (odd : n % 2 = 1)
    (small : n < (3 + 32 * 2 ^ k) ^ 2) (h : noOddDivisor n k 3 = true) :
  n.Prime
  := by
  by_contra composite
  have ne : n ≠ 1 := by omega
  have prime := Nat.minFac_prime ne
  have divides := Nat.minFac_dvd n
  have square := Nat.minFac_sq_le_self (by omega) composite
  have below : n.minFac < 3 + 32 * 2 ^ k := by
    by_contra large
    have := Nat.pow_le_pow_left (Nat.le_of_not_lt large) 2
    omega
  have two : 2 ≤ n.minFac := prime.two_le
  have oddFac : n.minFac % 2 = 1 := by
    rcases Nat.mod_two_eq_zero_or_one n.minFac with even | odd'
    · have := Nat.dvd_trans (Nat.dvd_of_mod_eq_zero even) divides
      omega
    · exact odd'
  have eq : n.minFac = 3 + 2 * ((n.minFac - 3) / 2) := by omega
  rw [eq] at divides
  exact not_dvd_of_noOddDivisor h (by omega) (by omega) divides

end Probing
