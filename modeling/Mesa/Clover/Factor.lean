import Mathlib.Data.Nat.Factors
import Mathlib.Data.Fintype.BigOperators
import Mathlib.Tactic.Ring

/-!
# The block that divides a grid

The search of `factor.hpp` for the divisor of a grid that has the largest product within limits.  The
numbers are of the type `size_t`: products are taken modulo `2 ^ 64`.

A function has no result where it divides by zero or a loop goes on for ever; the loop of the search
is given a number of rounds.
-/

namespace Clover

namespace Factor

/-! ### Prime factors -/

/-- The loop that divides a number by a factor, with at most the given number of rounds. -/
def divideOut (d : ℕ) : ℕ → ℕ → Option ℕ
  | 0, _ => none
  | fuel + 1, x => if x % d = 0 then divideOut d fuel (x / d) else some x

/-- The loop of `find_integer_prime_factors` from a divisor on. -/
def factorLoop (maxD minX : ℕ) : ℕ → ℕ → ℕ → Option (List ℕ)
  | 0, _, _ => none
  | fuel + 1, d, x =>
    if d ≤ maxD ∧ x > minX then
      if x % d = 0 then do
        let x ← divideOut d (x + 1) x
        let factors ← factorLoop maxD minX fuel (d + 1) x
        return d :: factors
      else factorLoop maxD minX fuel (d + 1) x
    else some []

/-- The largest divisor that `find_integer_prime_factors` tries. -/
def maxDivisor (x limit : ℕ) : ℕ := if limit > 0 ∧ limit < x then limit else x

/-- `find_integer_prime_factors`. -/
def findIntegerPrimeFactors (x limit : ℕ) : Option (List ℕ) :=
  factorLoop (maxDivisor x limit) (x / maxDivisor x limit) (maxDivisor x limit + 1) 2 x

/-! ### The search -/

variable {n : ℕ}

/-- A block with its product, or the limits of both. -/
structure Block (n : ℕ) where
  first : ℕ
  second : Fin n → ℕ

/-- A product of two numbers of the type `size_t`. -/
def mulSize (a b : ℕ) : ℕ := a * b % 2 ^ 64

/-- The loop that backs off to the zeroth power of a factor, in the product and in one coordinate. -/
def backOff (f : ℕ) : ℕ → ℕ → ℕ → Option (ℕ × ℕ)
  | 0, _, _ => none
  | fuel + 1, first, second =>
    if second % f = 0 then backOff f fuel (first / f) (second / f) else some (first, second)

/-- `next_grid_factor` in one dimension, from a factor on. -/
def nextFactor (limits : Block n) (grid : Fin n → ℕ) (d : Fin n) :
    List ℕ → Block n → (Block n → Option (Block n)) → Option (Block n)
  | [], block, nextDimension => nextDimension block
  | f :: factors, block, nextDimension =>
    let first := mulSize block.first f
    let second := mulSize (block.second d) f
    if first ≤ limits.first ∧ second ≤ limits.second d ∧ second = 0 then none
    else if first ≤ limits.first ∧ second ≤ limits.second d ∧ grid d % second = 0 then
      some ⟨first, Function.update block.second d second⟩
    else do
      let (first, second) ← backOff f (second + 1) first second
      nextFactor limits grid d factors ⟨first, Function.update block.second d second⟩ nextDimension

/-- `next_grid_factor`, from a dimension on.  A block with the product 0 says that there is none. -/
def nextGridFactor (limits : Block n) (grid : Fin n → ℕ) :
    List (Fin n × List ℕ) → Block n → Option (Block n)
  | [], _ => some ⟨0, fun _ => 0⟩
  | (d, factors) :: dims, block =>
    nextFactor limits grid d factors block (nextGridFactor limits grid dims)

/-- The loop of `find_grid_optimal_factor`, with at most the given number of rounds. -/
def searchLoop (limits : Block n) (grid : Fin n → ℕ) (factors : List (Fin n × List ℕ)) :
    ℕ → Block n → Block n → Option (Block n)
  | 0, _, _ => none
  | fuel + 1, block, best =>
    if block.first ≠ 0 ∧ best.first ≠ limits.first then do
      let best := if block.first > best.first then block else best
      let block ← nextGridFactor limits grid factors block
      searchLoop limits grid factors fuel block best
    else some best

/-- The factors of each dimension. -/
def gridFactors (coordLimit grid : Fin n → ℕ) : Option (List (Fin n × List ℕ)) :=
  (List.finRange n).mapM fun i =>
    (findIntegerPrimeFactors (grid i) (coordLimit i)).map fun factors => (i, factors)

/-- `find_grid_optimal_factor`. -/
def findGridOptimalFactor (fuel productLimit : ℕ) (coordLimit grid : Fin n → ℕ) :
    Option (Fin n → ℕ) := do
  let factors ← gridFactors coordLimit grid
  let best ← searchLoop ⟨productLimit, coordLimit⟩ grid factors fuel ⟨1, fun _ => 1⟩
    ⟨1, fun _ => 1⟩
  return best.second

/-! ### The prime factors that are found -/

/-- A number without its prime factors below another one. -/
def cofactor (x d : ℕ) : ℕ := (x.primeFactorsList.filter (d ≤ ·)).prod

theorem cofactor_two {x : ℕ} (hx : x ≠ 0) :
  cofactor x 2 = x
  := by
  rw [cofactor, List.filter_eq_self.mpr]
  · exact Nat.prod_primeFactorsList hx
  · intro p hp
    exact decide_eq_true (Nat.prime_of_mem_primeFactorsList hp).two_le

/-- The prime factors that are left. -/
theorem prime_dvd_cofactor_iff {x d p : ℕ} (hx : x ≠ 0) (hp : p.Prime) :
  p ∣ cofactor x d ↔ p ∣ x ∧ d ≤ p
  := by
  rw [cofactor, hp.prime.dvd_prod_iff]
  constructor
  · rintro ⟨q, hq, hdvd⟩
    obtain ⟨hmem, hle⟩ := List.mem_filter.mp hq
    have hq := Nat.prime_of_mem_primeFactorsList hmem
    obtain rfl := (Nat.prime_dvd_prime_iff_eq hp hq).mp hdvd
    exact ⟨Nat.dvd_of_mem_primeFactorsList hmem, of_decide_eq_true hle⟩
  · rintro ⟨hdvd, hle⟩
    refine ⟨p, List.mem_filter.mpr ⟨?_, decide_eq_true hle⟩, dvd_rfl⟩
    exact (Nat.mem_primeFactorsList hx).mpr ⟨hp, hdvd⟩

theorem cofactor_pos (x d : ℕ) :
  0 < cofactor x d
  := by
  apply Nat.pos_of_ne_zero
  apply List.prod_ne_zero
  intro hzero
  exact Nat.not_prime_zero (Nat.prime_of_mem_primeFactorsList (List.mem_filter.mp hzero).1)

/-- A divisor that is tried is a prime factor if it divides what is left. -/
theorem prime_of_dvd_cofactor {x d : ℕ} (hx : x ≠ 0) (hd : 2 ≤ d) (h : d ∣ cofactor x d) :
  d.Prime
  := by
  have hmin := Nat.minFac_prime (show d ≠ 1 by omega)
  have hle := ((prime_dvd_cofactor_iff hx hmin).mp ((Nat.minFac_dvd d).trans h)).2
  rwa [le_antisymm (Nat.minFac_le (by omega)) hle] at hmin

/-- The next divisor leaves the number without the powers of the one before. -/
theorem cofactor_eq_pow_mul (x d : ℕ) :
  cofactor x d = d ^ x.primeFactorsList.count d * cofactor x (d + 1)
  := by
  unfold cofactor
  induction x.primeFactorsList with
  | nil => simp
  | cons p l ih =>
    rcases Nat.lt_trichotomy p d with hlt | rfl | hgt
    · rw [List.filter_cons_of_neg (by simpa using hlt), List.filter_cons_of_neg (by simp; omega),
        List.count_cons_of_ne (by omega), ih]
    · rw [List.filter_cons_of_pos (by simp), List.filter_cons_of_neg (by simp),
        List.count_cons_self, List.prod_cons, ih, Nat.pow_succ]
      ring
    · rw [List.filter_cons_of_pos (by simp; omega), List.filter_cons_of_pos (by simp; omega),
        List.count_cons_of_ne (by omega), List.prod_cons, List.prod_cons, ih]
      ring

theorem cofactor_anti {x d e : ℕ} (h : d ≤ e) :
  cofactor x e ≤ cofactor x d
  := by
  apply Nat.le_of_dvd (cofactor_pos x d)
  apply List.Sublist.prod_dvd_prod
  apply List.monotone_filter_right
  intro p hp
  exact decide_eq_true (h.trans (of_decide_eq_true hp))

/-- The powers of a factor are divided out. -/
theorem divideOut_eq {d w : ℕ} (hd : 0 < d) (hw : ¬d ∣ w) {k fuel : ℕ} (hk : k < fuel) :
  divideOut d fuel (d ^ k * w) = some w
  := by
  induction k generalizing fuel with
  | zero =>
    obtain ⟨fuel, rfl⟩ := Nat.exists_eq_succ_of_ne_zero (Nat.ne_of_gt hk)
    rw [divideOut, Nat.pow_zero, Nat.one_mul, if_neg fun h => hw (Nat.dvd_of_mod_eq_zero h)]
  | succ k ih =>
    obtain ⟨fuel, rfl⟩ := Nat.exists_eq_succ_of_ne_zero (Nat.ne_of_gt (Nat.zero_lt_of_lt hk))
    rw [divideOut, Nat.pow_succ', Nat.mul_assoc, if_pos (Nat.mul_mod_right _ _),
      Nat.mul_div_cancel_left _ hd, ih (Nat.lt_of_succ_lt_succ hk)]

/-- The prime factor is one that the loop finds: it is not too large, and enough is left when its
turn comes. -/
def Found (x limit p : ℕ) : Prop :=
  p.Prime ∧ p ∣ x ∧ p ≤ maxDivisor x limit ∧ x / maxDivisor x limit < cofactor x p

theorem factorLoop_spec {x maxD minX : ℕ} (hx : x ≠ 0) {fuel d : ℕ} (hd : 2 ≤ d)
    (hd' : d ≤ maxD + 1) (hfuel : maxD + 2 ≤ d + fuel) :
  ∃ factors, factorLoop maxD minX fuel d (cofactor x d) = some factors ∧
    factors.Pairwise (· < ·) ∧
    ∀ p, p ∈ factors ↔ d ≤ p ∧ p.Prime ∧ p ∣ x ∧ p ≤ maxD ∧ minX < cofactor x p
  := by
  induction fuel generalizing d with
  | zero => omega
  | succ fuel ih =>
    rw [factorLoop]
    by_cases hloop : d ≤ maxD ∧ cofactor x d > minX
    · rw [if_pos hloop]
      obtain ⟨factors, hrest, hsorted, hmem⟩ := @ih (d + 1) (by omega) (by omega) (by omega)
      by_cases hdvd : d ∣ cofactor x d
      · have hprime := prime_of_dvd_cofactor hx hd hdvd
        have hleft : ¬d ∣ cofactor x (d + 1) := by
          intro h
          have hle := ((prime_dvd_cofactor_iff hx hprime).mp h).2
          omega
        have hout : divideOut d (cofactor x d + 1) (cofactor x d) = some (cofactor x (d + 1)) := by
          have hpow := Nat.lt_pow_self hprime.one_lt (n := x.primeFactorsList.count d)
          have hle := Nat.le_mul_of_pos_right (d ^ x.primeFactorsList.count d)
            (cofactor_pos x (d + 1))
          rw [cofactor_eq_pow_mul x d]
          exact divideOut_eq hprime.pos hleft (by omega)
        refine ⟨d :: factors, ?_, ?_, ?_⟩
        · rw [if_pos (Nat.mod_eq_zero_of_dvd hdvd), hout]
          simp only [Option.bind_eq_bind, Option.bind_some, hrest]
          rfl
        · apply List.Pairwise.cons _ hsorted
          intro p hp
          exact ((hmem p).mp hp).1
        · intro p
          rw [List.mem_cons, hmem]
          constructor
          · rintro (rfl | ⟨hle, h⟩)
            · exact ⟨le_rfl, hprime, ((prime_dvd_cofactor_iff hx hprime).mp hdvd).1, hloop⟩
            · exact ⟨by omega, h⟩
          · rintro ⟨hle, h⟩
            rcases hle.eq_or_lt with rfl | hlt
            · exact Or.inl rfl
            · exact Or.inr ⟨hlt, h⟩
      · have hsame : cofactor x d = cofactor x (d + 1) := by
          have hpow := cofactor_eq_pow_mul x d
          cases hcount : x.primeFactorsList.count d with
          | zero => rwa [hcount, Nat.pow_zero, Nat.one_mul] at hpow
          | succ k =>
            exfalso
            apply hdvd
            rw [hpow, hcount, Nat.pow_succ', Nat.mul_assoc]
            exact Nat.dvd_mul_right d _
        refine ⟨factors, ?_, hsorted, ?_⟩
        · rw [if_neg fun h => hdvd (Nat.dvd_of_mod_eq_zero h), hsame, hrest]
        · intro p
          rw [hmem]
          constructor
          · rintro ⟨hle, h⟩
            exact ⟨by omega, h⟩
          · rintro ⟨hle, hp, hpx, h⟩
            refine ⟨?_, hp, hpx, h⟩
            rcases hle.eq_or_lt with rfl | hlt
            · exact absurd ((prime_dvd_cofactor_iff hx hp).mpr ⟨hpx, le_rfl⟩) hdvd
            · exact hlt
    · rw [if_neg hloop]
      refine ⟨[], rfl, List.Pairwise.nil, fun p => ⟨fun h => absurd h List.not_mem_nil, ?_⟩⟩
      rintro ⟨hle, -, -, hp, hleft⟩
      exfalso
      have hanti := @cofactor_anti x d p hle
      apply hloop
      exact ⟨by omega, by omega⟩

theorem findIntegerPrimeFactors_spec {x limit : ℕ} (hx : 0 < x) (hlimit : 0 < limit) :
  ∃ factors, findIntegerPrimeFactors x limit = some factors ∧ factors.Pairwise (· < ·) ∧
    ∀ p, p ∈ factors ↔ Found x limit p
  := by
  have hmax : 0 < maxDivisor x limit := by
    unfold maxDivisor
    split_ifs <;> omega
  obtain ⟨factors, hloop, hsorted, hmem⟩ := @factorLoop_spec x (maxDivisor x limit)
    (x / maxDivisor x limit) hx.ne' (maxDivisor x limit + 1) 2 le_rfl (by omega) (by omega)
  rw [cofactor_two hx.ne'] at hloop
  refine ⟨factors, hloop, hsorted, fun p => (hmem p).trans ⟨And.right, ?_⟩⟩
  intro h
  exact ⟨h.1.two_le, h⟩

end Factor

end Clover
