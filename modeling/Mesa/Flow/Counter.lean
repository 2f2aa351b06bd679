import Mathlib.Tactic.Linarith

/-!
# Wrapping 32-bit counters

A counter starts at `init` and is stepped by `step` with wrap-around.  While fewer steps
have been taken than the quotient of `limit - init` by `step`, the counter has not reached
`limit`, and it has wrapped around at most once.  Its position relative to `limit` thus
changes at most once before the quotient is reached, which is what `signedSide_eq` and
`unsignedSide_eq` say.
-/

namespace Flow.Counter

/-- The value of the counter after `i` steps. -/
def value (init step : BitVec 32) (i : ℕ) : BitVec 32 :=
  BitVec.ofNat 32 i * step + init

/-- The position of `x` relative to `y` as signed numbers. -/
def signedSide (x y : BitVec 32) : Ordering := compare x.toInt y.toInt

/-- The position of `x` relative to `y` as unsigned numbers. -/
def unsignedSide (x y : BitVec 32) : Ordering := compare x.toNat y.toNat

variable {init step limit : BitVec 32}

theorem value_zero :
  value init step 0 = init
  := by
  simp [value]

theorem value_succ (i : ℕ) :
  value init step (i + 1) = value init step i + step
  := by
  simp only [value, BitVec.ofNat_add, BitVec.add_mul]
  rw [BitVec.add_assoc, BitVec.add_assoc, BitVec.add_comm init]
  simp

/-! ### Signed counters -/

theorem toInt_value (i : ℕ) :
  (value init step i).toInt = (i * step.toInt + init.toInt).bmod (2 ^ 32)
  := by
  simp [value, BitVec.toInt_ofNat', Int.bmod_add_bmod, Int.bmod_mul_bmod]

/-- Before the quotient is reached, a rising counter has travelled less than the span. -/
theorem rising_travel {span s q : ℤ} (hs : 0 < s) (hq : span.tdiv s = q) {i : ℕ} (h : i < q) :
  0 ≤ i * s ∧ i * s < span
  := by
  have hspan : 0 < span := by
    by_contra hcon
    have := Int.tdiv_nonneg_of_nonpos_of_nonpos (a := span) (b := -s) (by omega) (by omega)
    rw [Int.tdiv_neg] at this
    omega
  have hdiv := Int.mul_tdiv_add_tmod span s
  have hmod := Int.tmod_nonneg s hspan.le
  rw [hq] at hdiv
  constructor
  · positivity
  · nlinarith

/-- Before the quotient is reached, the distance travelled is short of the span. -/
theorem signed_travel {span s q : ℤ} (hq : span.tdiv s = q) {i : ℕ} (h : i < q) :
  (0 < s ∧ 0 ≤ i * s ∧ i * s < span) ∨ (s < 0 ∧ span < i * s ∧ i * s ≤ 0)
  := by
  rcases lt_trichotomy s 0 with hs | rfl | hs
  · right
    have hneg : (-span).tdiv (-s) = q := by rw [Int.neg_tdiv_neg, hq]
    have := rising_travel (by omega) hneg h
    rw [Int.mul_neg] at this
    omega
  · simp at hq
    omega
  · left
    use hs
    apply rising_travel hs hq h

/-- Before the quotient is reached, a rising counter is below the limit, unless the limit is
only reached by wrapping around and the counter has not wrapped yet. -/
theorem signedSide_rising {t span : ℤ} (ht : 0 ≤ t ∧ t < span) {v limit : BitVec 32}
    (hspan : span ≤ 2 ^ 31) {a : ℤ} (ha : -2 ^ 31 ≤ a ∧ a < 2 ^ 31)
    (hv : v.toInt = (t + a).bmod (2 ^ 32)) (hlimit : limit.toInt = (span + a).bmod (2 ^ 32)) :
  signedSide v limit = if t + a < 2 ^ 31 ∧ 2 ^ 31 ≤ span + a then .gt else .lt
  := by
  simp only [Int.bmod_def] at hv hlimit
  split
  · apply Int.compare_eq_gt.mpr
    omega
  · apply Int.compare_eq_lt.mpr
    omega

/-- Before the quotient is reached, a falling counter is above the limit, unless the limit is
only reached by wrapping around and the counter has not wrapped yet. -/
theorem signedSide_falling {t span : ℤ} (ht : span < t ∧ t ≤ 0) {v limit : BitVec 32}
    (hspan : -2 ^ 31 ≤ span) {a : ℤ} (ha : -2 ^ 31 ≤ a ∧ a < 2 ^ 31)
    (hv : v.toInt = (t + a).bmod (2 ^ 32)) (hlimit : limit.toInt = (span + a).bmod (2 ^ 32)) :
  signedSide v limit = if -2 ^ 31 ≤ t + a ∧ span + a < -2 ^ 31 then .lt else .gt
  := by
  simp only [Int.bmod_def] at hv hlimit
  split
  · apply Int.compare_eq_lt.mpr
    omega
  · apply Int.compare_eq_gt.mpr
    omega

/-- Until the quotient is reached, the signed position of the counter relative to the limit
is the one it has at the first or at the last of the steps considered. -/
theorem signedSide_eq {q : ℤ} (hq : ((limit - init).sdiv step).toInt = q)
    (hov : ¬ (limit - init = BitVec.intMin 32 ∧ step = -1#32))
    {o i m : ℕ} (hoi : o ≤ i) (him : i ≤ m) (hm : m < q) :
  signedSide (value init step i) limit = signedSide (value init step o) limit
    ∨ signedSide (value init step i) limit = signedSide (value init step m) limit
  := by
  have hdiv : (limit - init).toInt.tdiv step.toInt = q := by
    rw [← hq, BitVec.toInt_sdiv_of_ne_or_ne]
    tauto
  have hinit : -2 ^ 31 ≤ init.toInt ∧ init.toInt < 2 ^ 31 := ⟨init.le_toInt, init.toInt_lt⟩
  have hspan := (limit - init).toInt_lt
  have hspan' := (limit - init).le_toInt
  have hlimit : limit.toInt = ((limit - init).toInt + init.toInt).bmod (2 ^ 32) := by
    rw [← BitVec.toInt_add, BitVec.sub_add_cancel]
  have hoi' : (o : ℤ) ≤ i := by omega
  have him' : (i : ℤ) ≤ m := by omega
  rcases lt_trichotomy step.toInt 0 with hs | hs | hs
  · have side : ∀ j : ℕ, j < q → signedSide (value init step j) limit =
        if -2 ^ 31 ≤ j * step.toInt + init.toInt ∧ (limit - init).toInt + init.toInt < -2 ^ 31
        then .lt else .gt := by
      intro j hj
      apply signedSide_falling _ (by omega) hinit (toInt_value j) hlimit
      have := signed_travel hdiv hj
      omega
    rw [side i (by omega), side o (by omega), side m (by omega)]
    have h₁ : i * step.toInt ≤ o * step.toInt := by nlinarith
    have h₂ : m * step.toInt ≤ i * step.toInt := by nlinarith
    split_ifs <;> first | simp; done | omega
  · rw [hs] at hdiv
    simp at hdiv
    omega
  · have side : ∀ j : ℕ, j < q → signedSide (value init step j) limit =
        if j * step.toInt + init.toInt < 2 ^ 31 ∧ 2 ^ 31 ≤ (limit - init).toInt + init.toInt
        then .gt else .lt := by
      intro j hj
      apply signedSide_rising _ (by omega) hinit (toInt_value j) hlimit
      have := signed_travel hdiv hj
      omega
    rw [side i (by omega), side o (by omega), side m (by omega)]
    have h₁ : o * step.toInt ≤ i * step.toInt := by nlinarith
    have h₂ : i * step.toInt ≤ m * step.toInt := by nlinarith
    split_ifs <;> first | simp; done | omega

/-! ### Unsigned counters -/

theorem toNat_value (i : ℕ) :
  (value init step i).toNat = (i * step.toNat + init.toNat) % 2 ^ 32
  := by
  simp [value]

/-- Until the quotient is reached, the unsigned position of the counter relative to the limit
is the one it has at the first or at the last of the steps considered. -/
theorem unsignedSide_eq {q : ℕ} (hq : ((limit - init) / step).toNat = q)
    {o i m : ℕ} (hoi : o ≤ i) (him : i ≤ m) (hm : m < q) :
  unsignedSide (value init step i) limit = unsignedSide (value init step o) limit
    ∨ unsignedSide (value init step i) limit = unsignedSide (value init step m) limit
  := by
  rw [BitVec.toNat_udiv] at hq
  have hspan := (limit - init).isLt
  have hinit := init.isLt
  have hlimit : limit.toNat = ((limit - init).toNat + init.toNat) % 2 ^ 32 := by
    rw [← BitVec.toNat_add, BitVec.sub_add_cancel]
  have side : ∀ j < q, unsignedSide (value init step j) limit =
      if j * step.toNat + init.toNat < 2 ^ 32 ∧ 2 ^ 32 ≤ (limit - init).toNat + init.toNat
      then .gt else .lt := by
    intro j hj
    have htravel : j * step.toNat < (limit - init).toNat := by
      have := Nat.div_mul_le_self (limit - init).toNat step.toNat
      rw [hq] at this
      have hstep : 0 < step.toNat := by
        by_contra hcon
        have : step.toNat = 0 := by omega
        simp [this] at hq
        omega
      nlinarith
    have hv := @toNat_value init step j
    split
    · apply Nat.compare_eq_gt.mpr
      omega
    · apply Nat.compare_eq_lt.mpr
      omega
  rw [side i (by omega), side o (by omega), side m (by omega)]
  have h₁ : o * step.toNat ≤ i * step.toNat := Nat.mul_le_mul_right _ hoi
  have h₂ : i * step.toNat ≤ m * step.toNat := Nat.mul_le_mul_right _ him
  split_ifs <;> first | simp; done | omega

end Flow.Counter
