import Mesa.Data.BinaryFloat

/-!
# Half floats

The conversions of `half_float.c` between patterns of 32 and of 16 bits.  The operations on floats
are those of IEEE 754, rounded to the nearest number.
-/

namespace Util

namespace HalfFloat

open BinaryFloat (IsFinite IsNaN IsRounded Represents Fits infinity mag sign magValue value pack
  roundEven)

/-- A number as a float. -/
def toFloat (n : ℕ) : ℕ := pack 23 8 0 (BinaryFloat.round 23 8 n)

/-- `fabsf`. -/
def fabsf (f : ℕ) : ℕ := mag 23 8 f

/-- `_mesa_lroundevenf`, for a finite float. -/
def lroundevenf (f : ℕ) : ℤ := roundEven (value 23 8 f)

/-- The exponent and the fraction of `_mesa_float_to_half` before the fraction is carried over. -/
def halfFields (fi fltE fltM : ℕ) : ℕ × ℤ :=
  if fltE = 0 ∧ fltM = 0 then (0, 0)
  else if fltE = 0 ∧ fltM ≠ 0 then (0, 0)
  else if fltE = 0xff ∧ fltM = 0 then (31, 0)
  else if fltE = 0xff ∧ fltM ≠ 0 then (31, 1)
  else
    let newExp : ℤ := fltE - 127
    if newExp < -14 then
      (0, lroundevenf (BinaryFloat.mul 23 8 (toFloat (1 <<< 24)) (fabsf fi)))
    else if newExp > 15 then (31, 0)
    else
      ((newExp + 15).toNat,
        lroundevenf (BinaryFloat.div 23 8 (toFloat fltM) (toFloat (1 <<< 13))))

/-- `_mesa_float_to_half`.  There is no result where the assertion fails. -/
def floatToHalf (val : BitVec 32) : Option (BitVec 16) :=
  let fi := val.toNat
  let fltM := fi &&& 0x7fffff
  let fltE := (fi >>> 23) &&& 0xff
  let fltS := (fi >>> 31) &&& 0x1
  let (e, m) := halfFields fi fltE fltM
  if 0 ≤ m ∧ m ≤ 1024 then
    let (e, m) := if m = 1024 then (e + 1, 0) else (e, m.toNat)
    some (BitVec.ofNat 16 ((fltS <<< 15) ||| (e <<< 10) ||| m))
  else none

/-- The float of a half float that is not a normal number, `sign * mantissa * half_denorm`. -/
def denormToFloat (s m : ℕ) : ℕ :=
  let halfDenorm := BinaryFloat.div 23 8 (toFloat 1) (toFloat 16384)
  let mantissa := BinaryFloat.div 23 8 (toFloat m) (toFloat 1024)
  let sign := if s ≠ 0 then pack 23 8 1 (toFloat 1) else toFloat 1
  BinaryFloat.mul 23 8 (BinaryFloat.mul 23 8 sign mantissa) halfDenorm

/-- `_mesa_half_to_float`. -/
def halfToFloat (val : BitVec 16) : BitVec 32 :=
  let m := val.toNat &&& 0x3ff
  let e := (val.toNat >>> 10) &&& 0x1f
  let s := (val.toNat >>> 15) &&& 0x1
  let join (fltE fltM : ℕ) := BitVec.ofNat 32 ((s <<< 31) ||| (fltE <<< 23) ||| fltM)
  if e = 0 ∧ m = 0 then join 0 0
  else if e = 0 ∧ m ≠ 0 then BitVec.ofNat 32 (denormToFloat s m)
  else if e = 31 ∧ m = 0 then join 0xff 0
  else if e = 31 ∧ m ≠ 0 then join 0xff 1
  else join (e + 112) (m <<< 13)

/-! ### Fields -/

/-- The bits of a field. -/
theorem and_mask (n k : ℕ) :
  n &&& (2 ^ k - 1) = n % 2 ^ k
  := Nat.and_two_pow_sub_one_eq_mod n k

/-- Fields are put together. -/
theorem join_eq {p w s e m : ℕ} (he : e < 2 ^ w) (hm : m < 2 ^ p) :
  (s <<< (w + p)) ||| (e <<< p) ||| m = pack p w s (e * 2 ^ p + m)
  := by
  have hlow : e * 2 ^ p + m < 2 ^ (w + p) := by
    rw [Nat.pow_add]
    calc
      e * 2 ^ p + m < (e + 1) * 2 ^ p := by rw [Nat.succ_mul]; omega
      _ ≤ 2 ^ w * 2 ^ p := Nat.mul_le_mul_right _ he
  rw [Nat.or_assoc, ← Nat.shiftLeft_add_eq_or_of_lt hm, Nat.shiftLeft_eq e p,
    ← Nat.shiftLeft_add_eq_or_of_lt hlow, Nat.shiftLeft_eq, pack]

/-- Fields are taken apart. -/
theorem exists_fields {p w N : ℕ} (hN : N < 2 * 2 ^ (w + p)) :
  ∃ s e m, s < 2 ∧ e < 2 ^ w ∧ m < 2 ^ p ∧ N = pack p w s (e * 2 ^ p + m) ∧
    N &&& (2 ^ p - 1) = m ∧ (N >>> p) &&& (2 ^ w - 1) = e ∧ (N >>> (w + p)) &&& (2 ^ 1 - 1) = s
  := by
  have hs : N / 2 ^ (w + p) < 2 := (Nat.div_lt_iff_lt_mul (Nat.two_pow_pos _)).mpr hN
  refine ⟨N / 2 ^ (w + p), N / 2 ^ p % 2 ^ w, N % 2 ^ p, hs, Nat.mod_lt _ (Nat.two_pow_pos w),
    Nat.mod_lt _ (Nat.two_pow_pos p), ?_, ?_, ?_, ?_⟩
  · have hlow : N / 2 ^ p % 2 ^ w * 2 ^ p + N % 2 ^ p = N % 2 ^ (w + p) := by
      rw [Nat.add_comm w p, Nat.pow_add, Nat.mod_mul, Nat.mul_comm, Nat.add_comm]
    rw [hlow, pack, Nat.mul_comm]
    exact (Nat.div_add_mod N (2 ^ (w + p))).symm
  · rw [and_mask]
  · rw [and_mask, Nat.shiftRight_eq_div_pow]
  · rw [and_mask, Nat.shiftRight_eq_div_pow, Nat.pow_one, Nat.mod_eq_of_lt hs]

theorem floatFields (val : BitVec 32) :
  ∃ s e m, s < 2 ∧ e < 2 ^ 8 ∧ m < 2 ^ 23 ∧ val.toNat = pack 23 8 s (e * 2 ^ 23 + m) ∧
    val.toNat &&& 0x7fffff = m ∧ (val.toNat >>> 23) &&& 0xff = e ∧
    (val.toNat >>> 31) &&& 0x1 = s
  := @exists_fields 23 8 val.toNat val.isLt

theorem halfFloatFields (val : BitVec 16) :
  ∃ s e m, s < 2 ∧ e < 2 ^ 5 ∧ m < 2 ^ 10 ∧ val.toNat = pack 10 5 s (e * 2 ^ 10 + m) ∧
    val.toNat &&& 0x3ff = m ∧ (val.toNat >>> 10) &&& 0x1f = e ∧
    (val.toNat >>> 15) &&& 0x1 = s
  := @exists_fields 10 5 val.toNat val.isLt

end HalfFloat

end Util
