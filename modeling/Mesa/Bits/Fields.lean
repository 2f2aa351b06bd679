import Mathlib.Data.Nat.Bitwise

/-!
# Bit fields

Bit vectors are described by their bits: a mask of consecutive ones, what it selects, and bit
vectors given by a function from positions to bits.
-/

namespace Bits

variable {w : ℕ}

/-- The bit vector of width `w` with the given bits. -/
def ofBits (f : ℕ → Bool) : (w : ℕ) → BitVec w
  | 0 => 0#0
  | w + 1 => BitVec.cons (f w) (ofBits f w)

@[simp]
theorem getLsbD_ofBits (f : ℕ → Bool) (i : ℕ) :
  (ofBits f w).getLsbD i = (decide (i < w) && f i)
  := by
  induction w with
  | zero => simp [ofBits]
  | succ w ih =>
      rw [ofBits, BitVec.getLsbD_cons, ih]
      split_ifs with hi
      · simp [hi]
      · have hlt : i < w + 1 ↔ i < w := by omega
        simp [hlt]

/-- The ones below position `n`, as they are computed by a shift and a subtraction. -/
theorem getLsbD_shiftLeft_sub_one {n : ℕ} (h : n < w) (i : ℕ) :
  ((1#w <<< n) - 1#w).getLsbD i = decide (i < n)
  := by
  have hone : (1#w).toNat = 1 := by
    rw [BitVec.toNat_ofNat]
    apply Nat.mod_eq_of_lt
    apply Nat.one_lt_two_pow
    omega
  have hpow : (1#w <<< n).toNat = 2 ^ n := by
    rw [BitVec.toNat_shiftLeft, hone, Nat.one_shiftLeft, Nat.mod_eq_of_lt]
    apply Nat.pow_lt_pow_right (by omega) h
  have hsub : ((1#w <<< n) - 1#w).toNat = 2 ^ n - 1 := by
    rw [BitVec.toNat_sub_of_le, hpow, hone]
    rw [BitVec.le_def, hpow, hone]
    apply Nat.one_le_two_pow
  rw [BitVec.getLsbD, hsub, Nat.testBit_two_pow_sub_one]

/-- The ones from position `m` on, `n` of them. -/
theorem getLsbD_mask {n : ℕ} (h : n < w) (m i : ℕ) (hi : i < w) :
  (((1#w <<< n) - 1#w) <<< m).getLsbD i = (decide (m ≤ i) && decide (i < m + n))
  := by
  rw [BitVec.getLsbD_shiftLeft, getLsbD_shiftLeft_sub_one h]
  by_cases hm : m ≤ i
  · have hlt : i - m < n ↔ i < m + n := by omega
    simp [hi, hm, hlt, Nat.not_lt.mpr hm]
  · simp [hm, Nat.lt_of_not_le hm]

/-- Merging under a mask chooses bit by bit. -/
theorem getLsbD_merge (mask a b : BitVec w) {i : ℕ} (hi : i < w) :
  ((b &&& ~~~mask) ||| (a &&& mask)).getLsbD i =
    if mask.getLsbD i then a.getLsbD i else b.getLsbD i
  := by
  simp only [BitVec.getLsbD_or, BitVec.getLsbD_and, BitVec.getLsbD_not, hi, decide_true,
    Bool.true_and]
  cases mask.getLsbD i <;> simp

end Bits
