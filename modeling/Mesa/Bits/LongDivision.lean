import Mathlib.Data.Nat.Bitwise
import Mathlib.Tactic.Linarith
import Mathlib.Tactic.Ring

/-!
# Long division in base two

A number is divided by shifting and subtracting: from the highest place down, a multiple of the
divisor by a power of two is taken away wherever it fits, and the bit of the quotient is set.  A
machine that keeps the remainder and the quotient in words does the same steps, as long as a guard
tells where the shifted divisor no longer fits in a word.
-/

namespace Bits.LongDivision

/-! ### Numbers -/

/-- One step: the remainder so far, and the quotient so far. -/
def step (d : ℕ) (s : ℕ × ℕ) (i : ℕ) : ℕ × ℕ :=
  if d * 2 ^ i ≤ s.1 then (s.1 - d * 2 ^ i, s.2 + 2 ^ i) else s

/-- The places below `k` from the highest one down. -/
def places (k : ℕ) : List ℕ := (List.range k).reverse

theorem places_succ (k : ℕ) :
  places (k + 1) = k :: places k
  := by
  rw [places, List.range_succ, List.reverse_append, List.reverse_singleton, List.singleton_append,
    places]

/-- All steps from the place `k` down. -/
def divide (d k : ℕ) (s : ℕ × ℕ) : ℕ × ℕ := (places k).foldl (step d) s

theorem divide_succ (d k : ℕ) (s : ℕ × ℕ) :
  divide d (k + 1) s = divide d k (step d s k)
  := by
  rw [divide, places_succ, List.foldl_cons, divide]

/-- The remainder after a step at the place `k` is less than the divisor shifted there. -/
theorem step_lt {d k n : ℕ} (q : ℕ) (hn : n < d * 2 ^ (k + 1)) :
  (step d (n, q) k).1 < d * 2 ^ k
  := by
  have htwo : d * 2 ^ (k + 1) = d * 2 ^ k + d * 2 ^ k := by ring
  rw [step]
  split
  · simp only
    omega
  · simp only at *
    omega

/-- What is taken from the remainder goes to the quotient. -/
theorem step_balance (d : ℕ) (s : ℕ × ℕ) (k : ℕ) :
  d * (step d s k).2 + (step d s k).1 = d * s.2 + s.1
  := by
  rw [step]
  split
  next h =>
    simp only [Nat.mul_add]
    omega
  next => rfl

/-- The steps divide. -/
theorem divide_eq {d k n q : ℕ} (hn : n < d * 2 ^ k) :
  divide d k (n, q) = (n % d, q + n / d)
  := by
  -- the remainder gets less than the divisor, and the balance is kept
  have hlt : ∀ {k : ℕ} {s : ℕ × ℕ}, s.1 < d * 2 ^ k → (divide d k s).1 < d := by
    intro k
    induction k with
    | zero =>
        intro s hs
        rw [Nat.pow_zero, Nat.mul_one] at hs
        exact hs
    | succ k ih =>
        intro s hs
        rw [divide_succ]
        apply ih
        exact step_lt s.2 hs
  have hbalance : ∀ {k : ℕ} {s : ℕ × ℕ},
      d * (divide d k s).2 + (divide d k s).1 = d * s.2 + s.1 := by
    intro k
    induction k with
    | zero =>
        intro s
        rfl
    | succ k ih =>
        intro s
        rw [divide_succ, ih, step_balance]
  have hsmall := hlt (s := (n, q)) hn
  have hsum := hbalance (k := k) (s := (n, q))
  simp only at hsum
  have hpos : 0 < d := Nat.pos_of_lt_mul_right hn
  apply Prod.ext
  · have hmod := congrArg (· % d) hsum
    simp only [Nat.mul_add_mod] at hmod
    rw [Nat.mod_eq_of_lt hsmall] at hmod
    exact hmod
  · have hdiv := congrArg (· / d) hsum
    simp only [Nat.mul_add_div hpos, Nat.div_eq_of_lt hsmall, Nat.add_zero] at hdiv
    exact hdiv

/-- The quotient is a multiple of the last power of two that was added to it. -/
theorem step_dvd {d k : ℕ} {s : ℕ × ℕ} (h : 2 ^ (k + 1) ∣ s.2) :
  2 ^ k ∣ (step d s k).2
  := by
  have hle : 2 ^ k ∣ s.2 := (pow_dvd_pow 2 (Nat.le_succ k)).trans h
  rw [step]
  split
  · exact Nat.dvd_add hle (Nat.dvd_refl _)
  · exact hle

/-! ### Words -/

variable {v w : ℕ}

/-- One step in words.  Where the shifted divisor does not fit in a word, it is more than any
remainder. -/
def wordStep (d : BitVec w) (s : BitVec w × BitVec v) (i : ℕ) : BitVec w × BitVec v :=
  if d <<< i ≤ s.1 ∧ d.toNat * 2 ^ i < 2 ^ w then (s.1 - d <<< i, s.2 ||| 1#v <<< i) else s

/-- All steps in words. -/
def wordDivide (d : BitVec w) (k : ℕ) (s : BitVec w × BitVec v) : BitVec w × BitVec v :=
  (places k).foldl (wordStep d) s

theorem wordDivide_succ (d : BitVec w) (k : ℕ) (s : BitVec w × BitVec v) :
  wordDivide d (k + 1) s = wordDivide d k (wordStep d s k)
  := by
  rw [wordDivide, places_succ, List.foldl_cons, wordDivide]

/-- The numbers in a pair of words. -/
def numbers (s : BitVec w × BitVec v) : ℕ × ℕ := (s.1.toNat, s.2.toNat)

/-- To set a bit in a word that has none up to it is to add it. -/
theorem toNat_or_bit {q : BitVec v} {i : ℕ} (hi : i < v) (hq : 2 ^ (i + 1) ∣ q.toNat) :
  (q ||| 1#v <<< i).toNat = q.toNat + 2 ^ i
  := by
  have hone : (1#v <<< i).toNat = 2 ^ i := by
    have hv : 1 % 2 ^ v = 1 := Nat.one_mod_two_pow_eq_one.mpr (by omega)
    rw [BitVec.toNat_shiftLeft, BitVec.toNat_ofNat, hv, Nat.shiftLeft_eq, Nat.one_mul]
    exact Nat.mod_eq_of_lt (Nat.pow_lt_pow_right Nat.one_lt_two hi)
  have hlow : 2 ^ i < 2 ^ (i + 1) := Nat.pow_lt_pow_right Nat.one_lt_two (Nat.lt_succ_self i)
  obtain ⟨m, hm⟩ := hq
  rw [BitVec.toNat_or, hone, hm]
  exact (Nat.two_pow_add_eq_or_of_lt hlow m).symm

/-- A step in words is one on their numbers. -/
theorem numbers_wordStep {d : BitVec w} {s : BitVec w × BitVec v} {i : ℕ} (hi : i < v)
    (hq : 2 ^ (i + 1) ∣ s.2.toNat) :
  numbers (wordStep d s i) = step d.toNat (numbers s) i
  := by
  have hshift : d.toNat * 2 ^ i < 2 ^ w → (d <<< i).toNat = d.toNat * 2 ^ i := by
    intro h
    rw [BitVec.toNat_shiftLeft, Nat.shiftLeft_eq]
    exact Nat.mod_eq_of_lt h
  have hiff : d <<< i ≤ s.1 ∧ d.toNat * 2 ^ i < 2 ^ w ↔ d.toNat * 2 ^ i ≤ s.1.toNat := by
    constructor
    · rintro ⟨hle, h⟩
      rw [← hshift h]
      exact hle
    · intro hle
      have h : d.toNat * 2 ^ i < 2 ^ w := hle.trans_lt s.1.isLt
      rw [BitVec.le_def, hshift h]
      exact ⟨hle, h⟩
  rw [wordStep, step]
  split
  next h =>
    have hle := hiff.mp h
    rw [if_pos (show d.toNat * 2 ^ i ≤ (numbers s).1 from hle)]
    apply Prod.ext
    · change (s.1 - d <<< i).toNat = s.1.toNat - d.toNat * 2 ^ i
      rw [BitVec.toNat_sub_of_le h.1, hshift h.2]
    · exact toNat_or_bit hi hq
  next h =>
    rw [if_neg (show ¬d.toNat * 2 ^ i ≤ (numbers s).1 from mt hiff.mpr h)]

/-- The steps in words divide. -/
theorem numbers_wordDivide {d : BitVec w} {k : ℕ} (hk : k ≤ v) {s : BitVec w × BitVec v}
    (hq : 2 ^ k ∣ s.2.toNat) :
  numbers (wordDivide d k s) = divide d.toNat k (numbers s)
  := by
  induction k generalizing s with
  | zero => rfl
  | succ k ih =>
      have hstep := numbers_wordStep (d := d) (Nat.lt_of_succ_le hk) hq
      rw [wordDivide_succ, divide_succ, ih (Nat.le_of_succ_le hk), hstep]
      have hdvd := step_dvd (d := d.toNat) (s := numbers s) hq
      rw [← hstep] at hdvd
      exact hdvd

/-- The remainder and the quotient, where the quotient has at most `k` bits. -/
theorem toNat_wordDivide {d : BitVec w} {k : ℕ} (hk : k ≤ v) {m : BitVec w}
    (hm : m.toNat < d.toNat * 2 ^ k) :
  (wordDivide d k (m, 0#v)).1.toNat = m.toNat % d.toNat ∧
    (wordDivide d k (m, 0#v)).2.toNat = m.toNat / d.toNat
  := by
  have hdvd : 2 ^ k ∣ (0#v).toNat := by
    rw [BitVec.toNat_ofNat, Nat.zero_mod]
    exact dvd_zero _
  have h := numbers_wordDivide (d := d) hk (s := (m, 0#v)) hdvd
  rw [numbers, numbers, BitVec.toNat_ofNat, Nat.zero_mod, divide_eq hm, Nat.zero_add] at h
  exact Prod.ext_iff.mp h

end Bits.LongDivision
