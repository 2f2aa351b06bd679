import Mesa.Bits.Fields

/-!
# Bit field opcodes

The constant expressions of `nir_opcodes.py` for the opcodes on bit fields, the rules of
`nir_opt_algebraic.py` that lower them, and what GLSL says their results are; and likewise for the
opcodes that pack and unpack, and the split opcodes they are lowered to.

An operand of type `int` is a bit vector that is compared as a signed number; a shift takes the
value of its second operand, which is below the width wherever the shift is reached.
-/

namespace Nir

/-! ### Constant expressions -/

/-- `bfm`. -/
def bfm (bits offset : BitVec 32) : BitVec 32 :=
  if offset.toInt < 0 ∨ bits.toInt < 0 ∨ 31 < offset.toInt ∨ 31 < bits.toInt ∨
      32 < (offset + bits).toInt then 0
  else ((1#32 <<< bits.toNat) - 1#32) <<< offset.toNat

/-- The loop of `bfi`: the insert is shifted by the position of the lowest one of the mask. -/
def bfiLoop (tmp insert : BitVec 32) : BitVec 32 :=
  if _h : tmp = 0 ∨ tmp.getLsbD 0 = true then insert else bfiLoop (tmp >>> 1) (insert <<< 1)
termination_by tmp.toNat
decreasing_by
  have hpos : 0 < tmp.toNat := by
    apply Nat.pos_of_ne_zero
    intro h0
    apply _h
    left
    apply BitVec.eq_of_toNat_eq
    simpa using h0
  rw [BitVec.toNat_ushiftRight, Nat.shiftRight_one]
  omega

/-- `bfi`. -/
def bfi (mask insert base : BitVec 32) : BitVec 32 :=
  if mask = 0 then base else (base &&& ~~~mask) ||| (bfiLoop mask insert &&& mask)

/-- `ubfe`. -/
def ubfe (base offset bits : BitVec 32) : BitVec 32 :=
  if bits = 0 then 0
  else if bits.toInt < 0 ∨ offset.toInt < 0 then 0
  else if (offset + bits).toInt < 32 then
    (base <<< (32 - bits - offset).toNat) >>> (32 - bits).toNat
  else base >>> offset.toNat

/-- `ibfe`. -/
def ibfe (base offset bits : BitVec 32) : BitVec 32 :=
  if bits = 0 then 0
  else if bits.toInt < 0 ∨ offset.toInt < 0 then 0
  else if (offset + bits).toInt < 32 then
    (base <<< (32 - bits - offset).toNat).sshiftRight (32 - bits).toNat
  else base.sshiftRight offset.toNat

/-- `ubitfield_extract`. -/
def ubitfieldExtract (base offset bits : BitVec 32) : BitVec 32 :=
  if bits = 0 then 0
  else if bits.toInt < 0 ∨ offset.toInt < 0 ∨ 32 < (offset + bits).toInt then 0
  else (BitVec.setWidth 64 (base >>> offset.toNat) &&& ((1#64 <<< bits.toNat) - 1#64)).setWidth 32

/-- `ibitfield_extract`. -/
def ibitfieldExtract (base offset bits : BitVec 32) : BitVec 32 :=
  if bits = 0 then 0
  else if offset.toInt < 0 ∨ bits.toInt < 0 ∨ 32 < (offset + bits).toInt then 0
  else (base <<< (32 - offset - bits).toNat).sshiftRight offset.toNat

/-- `bitfield_insert`. -/
def bitfieldInsert (base insert offset bits : BitVec 32) : BitVec 32 :=
  if bits = 0 then 0
  else if offset.toInt < 0 ∨ bits.toInt < 0 ∨ 32 < (bits + offset).toInt then 0
  else
    let mask : BitVec 32 := (((1#64 <<< bits.toNat) - 1#64) <<< offset.toNat).setWidth 32
    (base &&& ~~~mask) ||| ((insert <<< bits.toNat) &&& mask)

/-- `ilt`. -/
def ilt (a b : BitVec 32) : Bool := a.slt b

/-- `ult`. -/
def ult (a b : BitVec 32) : Bool := a.ult b

/-- `bcsel`. -/
def bcsel (c : Bool) (a b : BitVec 32) : BitVec 32 := if c then a else b

/-! ### Packing and unpacking -/

/-- `_mesa_lroundevenf` of `a / 2 ^ k`: to the nearest number, ties to even. -/
def mesaLroundevenf (a k : ℕ) : ℕ :=
  if 2 * (a % 2 ^ k) < 2 ^ k ∨ (2 * (a % 2 ^ k) = 2 ^ k ∧ (a / 2 ^ k) % 2 = 0) then a / 2 ^ k
  else a / 2 ^ k + 1

/-- `_mesa_float_to_half`. -/
def mesaFloatToHalf (val : BitVec 32) : BitVec 16 :=
  let fltM := val.toNat % 2 ^ 23
  let fltE := val.toNat / 2 ^ 23 % 2 ^ 8
  let s := val.toNat / 2 ^ 31
  let (e, m) :=
    if fltE = 0 then (0, 0)
    else if fltE = 0xff ∧ fltM = 0 then (31, 0)
    else if fltE = 0xff then (31, 1)
    -- the source multiplies the number by `2 ^ 24`, which is exact, and rounds
    else if fltE < 127 - 14 then (0, mesaLroundevenf (2 ^ 23 + fltM) (126 - fltE))
    else if 127 + 15 < fltE then (31, 0)
    else (fltE - 127 + 15, mesaLroundevenf fltM 13)
  let (e, m) := if m = 1024 then (e + 1, 0) else (e, m)
  (BitVec.ofNat 16 s <<< 15) ||| (BitVec.ofNat 16 e <<< 10) ||| BitVec.ofNat 16 m

/-- A single precision number given by its sign, exponent and mantissa. -/
def fltBits (fltS fltE fltM : ℕ) : BitVec 32 :=
  (BitVec.ofNat 32 fltS <<< 31) ||| (BitVec.ofNat 32 fltE <<< 23) ||| BitVec.ofNat 32 fltM

/-- `_mesa_half_to_float`. -/
def mesaHalfToFloat (val : BitVec 16) : BitVec 32 :=
  let m := val.toNat % 2 ^ 10
  let e := val.toNat / 2 ^ 10 % 2 ^ 5
  let s := val.toNat / 2 ^ 15
  if e = 0 ∧ m = 0 then fltBits s 0 0
  -- the product `m / 1024 * 2 ^ -14` is exact, and normalized by the position of its highest bit
  else if e = 0 then fltBits s (103 + Nat.log2 m) (m * 2 ^ (23 - Nat.log2 m) % 2 ^ 23)
  else if e = 31 ∧ m = 0 then fltBits s 0xff 0
  else if e = 31 then fltBits s 0xff 1
  else fltBits s (e + 112) (m * 2 ^ 13)

/-- `pack_half_1x16`. -/
def packHalf1x16 (x : BitVec 32) : BitVec 16 := mesaFloatToHalf x

/-- `unpack_half_1x16`. -/
def unpackHalf1x16 (u : BitVec 16) : BitVec 32 := mesaHalfToFloat u

/-- `pack_half_2x16`. -/
def packHalf2x16 (x y : BitVec 32) : BitVec 32 :=
  (packHalf1x16 x).setWidth 32 ||| ((packHalf1x16 y).setWidth 32 <<< 16)

/-- `pack_half_2x16_split`. -/
def packHalf2x16Split (x y : BitVec 32) : BitVec 32 :=
  (packHalf1x16 x).setWidth 32 ||| ((packHalf1x16 y).setWidth 32 <<< 16)

/-- `unpack_half_2x16`. -/
def unpackHalf2x16 (src : BitVec 32) : BitVec 32 × BitVec 32 :=
  (unpackHalf1x16 ((src &&& 0xffff).setWidth 16), unpackHalf1x16 ((src <<< 16).setWidth 16))

/-- `unpack_half_2x16_split_x`. -/
def unpackHalf2x16SplitX (src : BitVec 32) : BitVec 32 :=
  unpackHalf1x16 ((src &&& 0xffff).setWidth 16)

/-- `unpack_half_2x16_split_y`. -/
def unpackHalf2x16SplitY (src : BitVec 32) : BitVec 32 :=
  unpackHalf1x16 ((src >>> 16).setWidth 16)

/-- `pack_64_2x32`. -/
def pack64_2x32 (x y : BitVec 32) : BitVec 64 := x.setWidth 64 ||| (y.setWidth 64 <<< 32)

/-- `pack_64_2x32_split`. -/
def pack64_2x32Split (x y : BitVec 32) : BitVec 64 := x.setWidth 64 ||| (y.setWidth 64 <<< 32)

/-- `unpack_64_2x32`. -/
def unpack64_2x32 (src : BitVec 64) : BitVec 32 × BitVec 32 :=
  (src.setWidth 32, (src >>> 32).setWidth 32)

/-- `unpack_64_2x32_split_x`. -/
def unpack64_2x32SplitX (src : BitVec 64) : BitVec 32 := src.setWidth 32

/-- `unpack_64_2x32_split_y`. -/
def unpack64_2x32SplitY (src : BitVec 64) : BitVec 32 := (src >>> 32).setWidth 32

/-! ### Lowering rules -/

/-- The replacement of `bitfield_insert`. -/
def lowerBitfieldInsert (base insert offset bits : BitVec 32) : BitVec 32 :=
  bcsel (ilt 31 bits) insert (bfi (bfm bits offset) insert base)

/-- The replacement of `ibitfield_extract`. -/
def lowerIbitfieldExtract (value offset bits : BitVec 32) : BitVec 32 :=
  bcsel (ilt 31 bits) value (ibfe value offset bits)

/-- The replacement of `ubitfield_extract`. -/
def lowerUbitfieldExtract (value offset bits : BitVec 32) : BitVec 32 :=
  bcsel (ult 31 bits) value (ubfe value offset bits)

/-! ### GLSL -/

/-- `bitfieldInsert`: the bits from `offset` on, `bits` of them, are the lowest bits of `insert`, and
the others are those of `base`. -/
def glslBitfieldInsert (base insert : BitVec 32) (offset bits : ℕ) : BitVec 32 :=
  Bits.ofBits
    (fun i => if offset ≤ i ∧ i < offset + bits then insert.getLsbD (i - offset)
      else base.getLsbD i) 32

/-- `bitfieldExtract` of a `uint`: the bits from `offset` on, `bits` of them, and zeros above. -/
def glslUbitfieldExtract (value : BitVec 32) (offset bits : ℕ) : BitVec 32 :=
  Bits.ofBits (fun i => decide (i < bits) && value.getLsbD (offset + i)) 32

/-- `bitfieldExtract` of an `int`: the bits from `offset` on, `bits` of them, and the highest of
these repeated above; zero if there are none. -/
def glslIbitfieldExtract (value : BitVec 32) (offset bits : ℕ) : BitVec 32 :=
  Bits.ofBits
    (fun i => decide (0 < bits) && value.getLsbD (offset + min i (bits - 1))) 32

/-! ### The range of the operands -/

/-- The operands for which GLSL defines a result. -/
def InRange (offset bits : BitVec 32) : Prop :=
  0 ≤ offset.toInt ∧ 0 ≤ bits.toInt ∧ offset.toInt + bits.toInt ≤ 32

/-- In range, the operands are small natural numbers. -/
theorem InRange.exists_nat {offset bits : BitVec 32} (h : InRange offset bits) :
  ∃ o n : ℕ, o + n ≤ 32 ∧ offset = BitVec.ofNat 32 o ∧ bits = BitVec.ofNat 32 n
  := by
  obtain ⟨ho, hn, hsum⟩ := h
  refine ⟨offset.toNat, bits.toNat, ?_, by simp, by simp⟩
  have hoffset := offset.isLt
  have hbits := bits.isLt
  rw [BitVec.toInt_eq_toNat_cond] at ho hn hsum
  rw [BitVec.toInt_eq_toNat_cond] at hsum
  split_ifs at ho hn hsum <;> omega

section Small

variable {o n : ℕ} (h : o + n ≤ 32)
include h

theorem toNat_ofNat_left :
  (BitVec.ofNat 32 o).toNat = o
  := by
  rw [BitVec.toNat_ofNat]
  omega

theorem toInt_ofNat_left :
  (BitVec.ofNat 32 o).toInt = o
  := by
  rw [BitVec.toInt_eq_toNat_of_lt] <;> rw [toNat_ofNat_left h]
  omega

theorem toInt_ofNat_add :
  (BitVec.ofNat 32 o + BitVec.ofNat 32 n).toInt = o + n
  := by
  rw [← BitVec.ofNat_add]
  have hsum : (BitVec.ofNat 32 (o + n)).toInt = ((o + n : ℕ) : ℤ) :=
    toInt_ofNat_left (n := 0) h
  rw [hsum]
  push_cast
  rfl

theorem toNat_sub_sub :
  (32 - BitVec.ofNat 32 o - BitVec.ofNat 32 n).toNat = 32 - o - n
  := by
  have ho : (BitVec.ofNat 32 o).toNat = o := toNat_ofNat_left h
  have hn : (BitVec.ofNat 32 n).toNat = n := toNat_ofNat_left (n := o) (by omega)
  rw [BitVec.toNat_sub, BitVec.toNat_sub, ho, hn]
  have h32 : (32 : BitVec 32).toNat = 32 := rfl
  rw [h32]
  omega

theorem toNat_sub_left :
  (32 - BitVec.ofNat 32 o).toNat = 32 - o
  := by
  have ho : (BitVec.ofNat 32 o).toNat = o := toNat_ofNat_left h
  rw [BitVec.toNat_sub, ho]
  have h32 : (32 : BitVec 32).toNat = 32 := rfl
  rw [h32]
  omega

theorem ofNat_eq_zero_iff :
  BitVec.ofNat 32 o = 0 ↔ o = 0
  := by
  constructor
  · intro heq
    rw [← toNat_ofNat_left h, heq]
    rfl
  · rintro rfl
    rfl

end Small

/-! ### The constant expressions, bit by bit -/

section Bits

variable {o n : ℕ} (h : o + n ≤ 32)
include h

/-- In range, the guard of the constant expressions does not hold. -/
theorem not_guard :
  ¬((BitVec.ofNat 32 o).toInt < 0 ∨ (BitVec.ofNat 32 n).toInt < 0 ∨
    32 < (BitVec.ofNat 32 o + BitVec.ofNat 32 n).toInt)
  := by
  rw [toInt_ofNat_left h, toInt_ofNat_left (n := o) (by omega), toInt_ofNat_add h]
  omega

theorem getLsbD_bitfieldInsert (base insert : BitVec 32) (hn : n ≠ 0) {i : ℕ} (hi : i < 32) :
  (bitfieldInsert base insert (BitVec.ofNat 32 o) (BitVec.ofNat 32 n)).getLsbD i =
    if o ≤ i ∧ i < o + n then decide (n ≤ i) && insert.getLsbD (i - n) else base.getLsbD i
  := by
  have hbits : ¬BitVec.ofNat 32 n = 0 := by
    rw [ofNat_eq_zero_iff (n := o) (by omega)]
    exact hn
  have hguard := not_guard h
  rw [BitVec.add_comm] at hguard
  rw [bitfieldInsert, if_neg hbits, if_neg hguard, toNat_ofNat_left h,
    toNat_ofNat_left (n := o) (by omega)]
  simp only
  rw [Bits.getLsbD_merge _ _ _ hi, BitVec.getLsbD_setWidth,
    Bits.getLsbD_mask (by omega) _ _ (by omega), BitVec.getLsbD_shiftLeft]
  by_cases hfield : o ≤ i ∧ i < o + n
  · by_cases hni : n ≤ i
    · simp [hi, hfield, hni, Nat.not_lt.mpr hni]
    · simp [hi, hfield, hni, Nat.lt_of_not_le hni]
  · rw [if_neg hfield]
    rw [not_and_or] at hfield
    rcases hfield with hlow | hhigh
    · simp [hlow]
    · simp [hhigh]

theorem ubitfieldExtract_eq (value : BitVec 32) :
  ubitfieldExtract value (BitVec.ofNat 32 o) (BitVec.ofNat 32 n) =
    glslUbitfieldExtract value o n
  := by
  apply BitVec.eq_of_getLsbD_eq
  intro i hi
  rw [glslUbitfieldExtract, Bits.getLsbD_ofBits]
  by_cases hn : n = 0
  · subst hn
    simp [ubitfieldExtract]
  · have hbits : ¬BitVec.ofNat 32 n = 0 := by
      rw [ofNat_eq_zero_iff (n := o) (by omega)]
      exact hn
    have hguard := not_guard h
    rw [or_left_comm] at hguard
    rw [ubitfieldExtract, if_neg hbits, if_neg hguard, toNat_ofNat_left h,
      toNat_ofNat_left (n := o) (by omega), BitVec.getLsbD_setWidth, BitVec.getLsbD_and,
      BitVec.getLsbD_setWidth, Bits.getLsbD_shiftLeft_sub_one (by omega),
      BitVec.getLsbD_ushiftRight]
    have hi64 : i < 64 := by omega
    simp [hi, hi64, Bool.and_comm]

theorem getLsbD_ibitfieldExtract (value : BitVec 32) (hn : n ≠ 0) {i : ℕ} (hi : i < 32) :
  (ibitfieldExtract value (BitVec.ofNat 32 o) (BitVec.ofNat 32 n)).getLsbD i =
    if o + i < 32 then
      decide (32 - o - n ≤ o + i) && value.getLsbD (o + i - (32 - o - n))
    else value.getLsbD (o + n - 1)
  := by
  have hbits : ¬BitVec.ofNat 32 n = 0 := by
    rw [ofNat_eq_zero_iff (n := o) (by omega)]
    exact hn
  rw [ibitfieldExtract, if_neg hbits, if_neg (not_guard h), toNat_sub_sub h,
    toNat_ofNat_left h, BitVec.getLsbD_sshiftRight, BitVec.msb_eq_getLsbD_last,
    BitVec.getLsbD_shiftLeft, BitVec.getLsbD_shiftLeft]
  have hnlt : ¬32 ≤ i := by omega
  by_cases hoi : o + i < 32
  · by_cases hle : 32 - o - n ≤ o + i
    · simp [hnlt, hoi, hle, Nat.not_lt.mpr hle]
    · simp [hnlt, hoi, hle, Nat.lt_of_not_le hle]
  · have hlast : ¬32 - 1 < 32 - o - n := by omega
    have hidx : 32 - 1 - (32 - o - n) = o + n - 1 := by omega
    simp [hnlt, hoi, hlast, hidx]

end Bits

/-! ### The lowered expressions, bit by bit -/

section Lowered

variable {o n : ℕ} (h : o + n ≤ 32)
include h

/-- The lowered expressions test for the full width first. -/
theorem ilt_ofNat :
  ilt 31 (BitVec.ofNat 32 n) = decide (31 < n)
  := by
  rw [ilt, BitVec.slt, toInt_ofNat_left (n := o) (by omega)]
  have h31 : (31 : BitVec 32).toInt = ((31 : ℕ) : ℤ) := rfl
  rw [h31]
  simp only [Int.ofNat_lt]

theorem ult_ofNat :
  ult 31 (BitVec.ofNat 32 n) = decide (31 < n)
  := by
  rw [ult, BitVec.ult, toNat_ofNat_left (n := o) (by omega)]
  have h31 : (31 : BitVec 32).toNat = 31 := rfl
  rw [h31]

/-- In range, `ubfe` and `ibfe` get past their guards. -/
theorem not_guard_bfe :
  ¬((BitVec.ofNat 32 n).toInt < 0 ∨ (BitVec.ofNat 32 o).toInt < 0)
  := by
  rw [toInt_ofNat_left h, toInt_ofNat_left (n := o) (by omega)]
  omega

theorem ubfe_eq (value : BitVec 32) (hn : n < 32) :
  ubfe value (BitVec.ofNat 32 o) (BitVec.ofNat 32 n) = glslUbitfieldExtract value o n
  := by
  apply BitVec.eq_of_getLsbD_eq
  intro i hi
  rw [glslUbitfieldExtract, Bits.getLsbD_ofBits, ubfe, if_neg (not_guard_bfe h),
    toInt_ofNat_add h, toNat_sub_left (o := n) (n := o) (by omega),
    toNat_sub_sub (o := n) (n := o) (by omega), toNat_ofNat_left h]
  simp only [ofNat_eq_zero_iff (o := n) (n := o) (by omega)]
  split_ifs with hzero hlt
  · simp [hzero]
  · rw [BitVec.getLsbD_ushiftRight, BitVec.getLsbD_shiftLeft]
    by_cases hin : i < n
    · have hlow : ¬32 - n + i < 32 - n - o := by omega
      have hidx : 32 - n + i - (32 - n - o) = o + i := by omega
      have hwidth : 32 - n + i < 32 := by omega
      simp [hi, hin, hlow, hidx, hwidth]
    · have hwidth : ¬32 - n + i < 32 := by omega
      simp [hin, hwidth]
  · rw [BitVec.getLsbD_ushiftRight]
    by_cases hin : i < n
    · simp [hi, hin]
    · have hout : 32 ≤ o + i := by omega
      simp [hin, BitVec.getLsbD_of_ge value _ hout]

theorem ibfe_eq (value : BitVec 32) (hn : n < 32) :
  ibfe value (BitVec.ofNat 32 o) (BitVec.ofNat 32 n) = glslIbitfieldExtract value o n
  := by
  apply BitVec.eq_of_getLsbD_eq
  intro i hi
  have hnlt : ¬32 ≤ i := by omega
  rw [glslIbitfieldExtract, Bits.getLsbD_ofBits, ibfe, if_neg (not_guard_bfe h),
    toInt_ofNat_add h, toNat_sub_left (o := n) (n := o) (by omega),
    toNat_sub_sub (o := n) (n := o) (by omega), toNat_ofNat_left h]
  simp only [ofNat_eq_zero_iff (o := n) (n := o) (by omega)]
  split_ifs with hzero hlt
  · simp [hzero]
  · have hpos : 0 < n := by omega
    rw [BitVec.getLsbD_sshiftRight, BitVec.msb_eq_getLsbD_last, BitVec.getLsbD_shiftLeft,
      BitVec.getLsbD_shiftLeft]
    by_cases hin : i < n
    · have hlow : ¬32 - n + i < 32 - n - o := by omega
      have hidx : 32 - n + i - (32 - n - o) = o + i := by omega
      have hwidth : 32 - n + i < 32 := by omega
      have hmin : min i (n - 1) = i := by omega
      simp [hi, hnlt, hlow, hidx, hwidth, hmin, hpos]
    · have hwidth : ¬32 - n + i < 32 := by omega
      have hlow : ¬31 < 32 - n - o := by omega
      have hidx : 31 - (32 - n - o) = o + (n - 1) := by omega
      have hmin : min i (n - 1) = n - 1 := by omega
      simp [hi, hnlt, hwidth, hlow, hidx, hmin, hpos]
  · have hpos : 0 < n := by omega
    rw [BitVec.getLsbD_sshiftRight, BitVec.msb_eq_getLsbD_last]
    by_cases hin : i < n
    · have hwidth : o + i < 32 := by omega
      have hmin : min i (n - 1) = i := by omega
      simp [hi, hnlt, hwidth, hmin, hpos]
    · have hwidth : ¬o + i < 32 := by omega
      have hmin : min i (n - 1) = n - 1 := by omega
      have hidx : o + (n - 1) = 31 := by omega
      simp [hi, hnlt, hwidth, hmin, hidx, hpos]

theorem lowerUbitfieldExtract_eq (value : BitVec 32) :
  lowerUbitfieldExtract value (BitVec.ofNat 32 o) (BitVec.ofNat 32 n) =
    glslUbitfieldExtract value o n
  := by
  rw [lowerUbitfieldExtract, ult_ofNat h, bcsel]
  by_cases hn : n < 32
  · have hnot : ¬31 < n := by omega
    rw [if_neg (by simpa using hnot), ubfe_eq h value hn]
  · obtain rfl : n = 32 := by omega
    obtain rfl : o = 0 := by omega
    rw [if_pos (by simp)]
    apply BitVec.eq_of_getLsbD_eq
    intro i hi
    rw [glslUbitfieldExtract, Bits.getLsbD_ofBits]
    simp [hi]

theorem lowerIbitfieldExtract_eq (value : BitVec 32) :
  lowerIbitfieldExtract value (BitVec.ofNat 32 o) (BitVec.ofNat 32 n) =
    glslIbitfieldExtract value o n
  := by
  rw [lowerIbitfieldExtract, ilt_ofNat h, bcsel]
  by_cases hn : n < 32
  · have hnot : ¬31 < n := by omega
    rw [if_neg (by simpa using hnot), ibfe_eq h value hn]
  · obtain rfl : n = 32 := by omega
    obtain rfl : o = 0 := by omega
    rw [if_pos (by simp)]
    apply BitVec.eq_of_getLsbD_eq
    intro i hi
    have hmin : min i 31 = i := by omega
    rw [glslIbitfieldExtract, Bits.getLsbD_ofBits]
    simp [hi, hmin]

/-- In range, and not at full width, `bfm` is the mask of the field. -/
theorem bfm_eq (hn : n < 32) (hn0 : n ≠ 0) :
  bfm (BitVec.ofNat 32 n) (BitVec.ofNat 32 o) = ((1#32 <<< n) - 1#32) <<< o
  := by
  rw [bfm, if_neg, toNat_ofNat_left h, toNat_ofNat_left (n := o) (by omega)]
  rw [toInt_ofNat_left h, toInt_ofNat_left (n := o) (by omega), toInt_ofNat_add h]
  omega

/-- The loop of `bfi` stops at the lowest bit of the field. -/
theorem bfiLoop_mask (hn : n < 32) (hn0 : n ≠ 0) (insert : BitVec 32) :
  bfiLoop (((1#32 <<< n) - 1#32) <<< o) insert = insert <<< o
  := by
  induction o generalizing insert with
  | zero =>
      rw [bfiLoop, dif_pos]
      · rw [BitVec.shiftLeft_zero]
      · right
        rw [Bits.getLsbD_mask hn _ _ (by omega)]
        simp
        omega
  | succ o ih =>
      have hbit : ¬((((1#32 <<< n) - 1#32) <<< (o + 1)) = 0 ∨
          (((1#32 <<< n) - 1#32) <<< (o + 1)).getLsbD 0 = true) := by
        rintro (heq | hlow)
        · have hone := Bits.getLsbD_mask hn (o + 1) (o + 1) (by omega)
          rw [heq] at hone
          simp at hone
          omega
        · rw [Bits.getLsbD_mask hn _ _ (by omega)] at hlow
          simp at hlow
      have hshift : (((1#32 <<< n) - 1#32) <<< (o + 1)) >>> 1 = ((1#32 <<< n) - 1#32) <<< o := by
        apply BitVec.eq_of_getLsbD_eq
        intro i hi
        rw [BitVec.getLsbD_ushiftRight]
        by_cases hlast : 1 + i < 32
        · rw [Bits.getLsbD_mask hn _ _ hlast, Bits.getLsbD_mask hn _ _ hi]
          have hle : o + 1 ≤ 1 + i ↔ o ≤ i := by omega
          have hlt : 1 + i < o + 1 + n ↔ i < o + n := by omega
          simp [hle, hlt]
        · rw [BitVec.getLsbD_of_ge _ _ (by omega), Bits.getLsbD_mask hn _ _ hi]
          have hlt : ¬i < o + n := by omega
          simp [hlt]
      rw [bfiLoop, dif_neg hbit, hshift, ih (by omega), ← BitVec.shiftLeft_add, Nat.add_comm]

theorem lowerBitfieldInsert_eq (base insert : BitVec 32) :
  lowerBitfieldInsert base insert (BitVec.ofNat 32 o) (BitVec.ofNat 32 n) =
    glslBitfieldInsert base insert o n
  := by
  rw [lowerBitfieldInsert, ilt_ofNat h, bcsel]
  apply BitVec.eq_of_getLsbD_eq
  intro i hi
  rw [glslBitfieldInsert, Bits.getLsbD_ofBits]
  by_cases hn : n < 32
  · have hnot : ¬31 < n := by omega
    rw [if_neg (by simpa using hnot)]
    by_cases hn0 : n = 0
    · -- an empty mask leaves the base as it is
      subst hn0
      have hmask : bfm (BitVec.ofNat 32 0) (BitVec.ofNat 32 o) = 0 := by
        rw [bfm]
        split_ifs
        · rfl
        · simp
      have hempty : ¬(o ≤ i ∧ i < o + 0) := by omega
      rw [hmask, bfi, if_pos rfl, if_neg hempty]
      simp [hi]
    · have hmask : ¬((1#32 <<< n) - 1#32) <<< o = 0 := by
        intro heq
        have hone := Bits.getLsbD_mask hn o o (by omega)
        rw [heq] at hone
        simp at hone
        omega
      rw [bfm_eq h hn hn0, bfi, if_neg hmask, bfiLoop_mask h hn hn0, Bits.getLsbD_merge _ _ _ hi,
        Bits.getLsbD_mask hn _ _ hi, BitVec.getLsbD_shiftLeft]
      by_cases hfield : o ≤ i ∧ i < o + n
      · simp [hi, hfield, Nat.not_lt.mpr hfield.1]
      · rw [if_neg hfield, if_neg (by simpa using hfield)]
        simp [hi]
  · obtain rfl : n = 32 := by omega
    obtain rfl : o = 0 := by omega
    rw [if_pos (by simp)]
    simp [hi]

end Lowered

/-! ### Where the constant expressions are right -/

/-- The low bits of `insert`, read from the place where `bitfield_insert` shifts them to, and not
from the place of the field, are the same; and an empty field is inserted in zero. -/
def InsertExact (base insert : BitVec 32) (offset bits : ℕ) : Prop :=
  (bits = 0 → base = 0) ∧
    ∀ j < bits, insert.getLsbD j =
      (decide (bits ≤ offset + j) && insert.getLsbD (offset + j - bits))

/-- The field is empty, or ends at the highest bit, or has equal bits and so many of the same bits
below it as there are bits above it, where there are zeros below the lowest bit. -/
def ExtractExact (value : BitVec 32) (offset bits : ℕ) : Prop :=
  bits = 0 ∨ offset + bits = 32 ∨
    (∀ p < offset + bits, offset ≤ p + (32 - offset - bits) →
      value.getLsbD p = value.getLsbD (offset + bits - 1)) ∧
    (offset < 32 - offset - bits → value.getLsbD (offset + bits - 1) = false)

section Exact

variable {o n : ℕ} (h : o + n ≤ 32)
include h

theorem bitfieldInsert_eq_iff (base insert : BitVec 32) :
  bitfieldInsert base insert (BitVec.ofNat 32 o) (BitVec.ofNat 32 n) =
    glslBitfieldInsert base insert o n ↔
  InsertExact base insert o n
  := by
  by_cases hn : n = 0
  · subst hn
    have hglsl : glslBitfieldInsert base insert o 0 = base := by
      apply BitVec.eq_of_getLsbD_eq
      intro i hi
      have hempty : ¬(o ≤ i ∧ i < o + 0) := by omega
      rw [glslBitfieldInsert, Bits.getLsbD_ofBits, if_neg hempty]
      simp [hi]
    have hcode : bitfieldInsert base insert (BitVec.ofNat 32 o) (BitVec.ofNat 32 0) = 0 := by
      simp [bitfieldInsert]
    rw [hglsl, hcode, InsertExact, eq_comm]
    simp
  · constructor
    · intro heq
      refine ⟨fun h0 => absurd h0 hn, ?_⟩
      intro j hj
      have hbit := congrArg (BitVec.getLsbD · (o + j)) heq
      have hfield : o ≤ o + j ∧ o + j < o + n := by omega
      rw [getLsbD_bitfieldInsert h base insert hn (by omega), glslBitfieldInsert,
        Bits.getLsbD_ofBits, if_pos hfield, if_pos hfield, Nat.add_sub_cancel_left] at hbit
      have hlt : o + j < 32 := by omega
      simpa [hlt] using hbit.symm
    · rintro ⟨-, hbits⟩
      apply BitVec.eq_of_getLsbD_eq
      intro i hi
      rw [getLsbD_bitfieldInsert h base insert hn hi, glslBitfieldInsert, Bits.getLsbD_ofBits]
      by_cases hfield : o ≤ i ∧ i < o + n
      · have hj := hbits (i - o) (by omega)
        rw [Nat.add_sub_cancel' hfield.1] at hj
        rw [if_pos hfield, if_pos hfield, hj]
        simp [hi]
      · rw [if_neg hfield, if_neg hfield]
        simp [hi]

/-- Where `ibitfield_extract` is right, every bit it takes is the sign: a bit of the field is that
many places lower what it should be, and the argument goes down from the highest. -/
theorem ibitfieldExtract_sign (value : BitVec 32) (hn : n ≠ 0)
  (heq : ibitfieldExtract value (BitVec.ofNat 32 o) (BitVec.ofNat 32 n) =
    glslIbitfieldExtract value o n) (hk : o + n < 32) :
  ∀ d q, q + d = 31 - o →
    (decide (32 - o - n ≤ o + q) && value.getLsbD (o + q - (32 - o - n))) =
      value.getLsbD (o + n - 1)
  := by
  intro d
  induction d using Nat.strong_induction_on with
  | _ d ih =>
      intro q hq
      have hbit := congrArg (BitVec.getLsbD · q) heq
      have hq32 : q < 32 := by omega
      have hoq : o + q < 32 := by omega
      have hpos : 0 < n := by omega
      rw [getLsbD_ibitfieldExtract h value hn hq32, if_pos hoq, glslIbitfieldExtract,
        Bits.getLsbD_ofBits] at hbit
      simp only [hq32, hpos, decide_true, Bool.true_and] at hbit
      rw [hbit]
      by_cases hlast : n - 1 ≤ q
      · have hidx : o + min q (n - 1) = o + n - 1 := by omega
        rw [hidx]
      · have hidx : o + min q (n - 1) = o + q := by omega
        have hup := ih (d - (32 - o - n)) (by omega) (q + (32 - o - n)) (by omega)
        have hle : 32 - o - n ≤ o + (q + (32 - o - n)) := by omega
        have hsub : o + (q + (32 - o - n)) - (32 - o - n) = o + q := by omega
        rw [hsub] at hup
        simp only [hle, decide_true, Bool.true_and] at hup
        rw [hidx, hup]

theorem ibitfieldExtract_eq_iff (value : BitVec 32) :
  ibitfieldExtract value (BitVec.ofNat 32 o) (BitVec.ofNat 32 n) =
    glslIbitfieldExtract value o n ↔
  ExtractExact value o n
  := by
  constructor
  · intro heq
    rw [ExtractExact]
    by_cases hn : n = 0
    · left
      exact hn
    right
    by_cases hk : o + n = 32
    · left
      exact hk
    right
    have hsign := ibitfieldExtract_sign h value hn heq (by omega)
    constructor
    · intro p hp hle
      have hq := hsign (31 - o - (p + (32 - o - n) - o)) (p + (32 - o - n) - o) (by omega)
      have hidx : o + (p + (32 - o - n) - o) = p + (32 - o - n) := by omega
      have hge : 32 - o - n ≤ p + (32 - o - n) := by omega
      rw [hidx, Nat.add_sub_cancel] at hq
      simpa [hge] using hq
    · intro hlow
      have hq := hsign (31 - o) 0 (by omega)
      have hnot : ¬32 - o - n ≤ o + 0 := by omega
      rw [← hq, decide_eq_false hnot, Bool.false_and]
  · intro hexact
    apply BitVec.eq_of_getLsbD_eq
    intro i hi
    rw [glslIbitfieldExtract, Bits.getLsbD_ofBits]
    by_cases hn : n = 0
    · subst hn
      simp [ibitfieldExtract]
    have hpos : 0 < n := by omega
    rw [getLsbD_ibitfieldExtract h value hn hi]
    simp only [hi, hpos, decide_true, Bool.true_and]
    rcases hexact with h0 | hfull | ⟨hsign, hlow⟩
    · exact absurd h0 hn
    · by_cases hoi : o + i < 32
      · have hmin : min i (n - 1) = i := by omega
        have hzero : 32 - o - n = 0 := by omega
        simp [hoi, hmin, hzero]
      · have hmin : o + min i (n - 1) = o + n - 1 := by omega
        rw [if_neg hoi, hmin]
    · rw [hsign (o + min i (n - 1)) (by omega) (by omega)]
      split_ifs with hoi
      · by_cases hk : 32 - o - n ≤ o + i
        · rw [hsign (o + i - (32 - o - n)) (by omega) (by omega)]
          simp [hk]
        · rw [hlow (by omega)]
          simp [hk]
      · rfl

end Exact

/-! ### Unpacking -/

/-- A number with no bit in its sign, exponent and mantissa. -/
theorem fltBits_eq_zero {fltS fltE fltM : ℕ} (hs : fltS < 2) (he : fltE < 2 ^ 8)
  (hm : fltM < 2 ^ 23) (h : fltBits fltS fltE fltM = 0) :
  fltS = 0 ∧ fltE = 0 ∧ fltM = 0
  := by
  rw [fltBits, BitVec.ofNat_eq_ofNat, BitVec.or_eq_zero_iff, BitVec.or_eq_zero_iff] at h
  obtain ⟨⟨hS, hE⟩, hM⟩ := h
  have hS' := congrArg BitVec.toNat hS
  have hE' := congrArg BitVec.toNat hE
  have hM' := congrArg BitVec.toNat hM
  rw [BitVec.toNat_shiftLeft, Nat.shiftLeft_eq] at hS' hE'
  simp only [BitVec.toNat_ofNat] at hS' hE' hM'
  omega

/-- Only the half of zero is the number of zero. -/
theorem mesaHalfToFloat_eq_zero_iff (val : BitVec 16) :
  mesaHalfToFloat val = mesaHalfToFloat 0 ↔ val = 0
  := by
  constructor
  · intro h
    have hzero : mesaHalfToFloat 0 = 0 := by decide
    rw [hzero, mesaHalfToFloat] at h
    have hval := val.isLt
    have hs : val.toNat / 2 ^ 15 < 2 := by omega
    have hm : val.toNat % 2 ^ 10 < 2 ^ 10 := Nat.mod_lt _ (by omega)
    have he : val.toNat / 2 ^ 10 % 2 ^ 5 < 2 ^ 5 := Nat.mod_lt _ (by omega)
    split_ifs at h with hfield hdenorm hinf hnan
    · have hsign := (fltBits_eq_zero hs (by omega) (by omega) h).1
      apply BitVec.eq_of_toNat_eq
      change val.toNat = 0
      omega
    · -- the exponent of a denormal half is not zero
      have hlog : Nat.log2 (val.toNat % 2 ^ 10) < 10 := by
        apply (Nat.log2_lt (by omega)).mpr hm
      have hexp := (fltBits_eq_zero hs (by omega) (Nat.mod_lt _ (by omega)) h).2.1
      omega
    · have hexp := (fltBits_eq_zero hs (by omega) (by omega) h).2.1
      omega
    · have hexp := (fltBits_eq_zero hs (by omega) (by omega) h).2.1
      omega
    · have hexp := (fltBits_eq_zero hs (by omega) (by omega) h).2.1
      omega
  · intro h
    rw [h]

/-- The second component of `unpack_half_2x16` is always that of zero. -/
theorem unpackHalf2x16_eq_iff (word : BitVec 32) :
  unpackHalf2x16 word = (unpackHalf2x16SplitX word, unpackHalf2x16SplitY word) ↔
    word.toNat < 2 ^ 16
  := by
  have hlost : (word <<< 16).setWidth 16 = 0#16 := by
    apply BitVec.eq_of_getLsbD_eq
    intro i hi
    rw [BitVec.getLsbD_setWidth, BitVec.getLsbD_shiftLeft]
    simp [hi]
  have hhigh : (word >>> 16).setWidth 16 = 0#16 ↔ word.toNat < 2 ^ 16 := by
    rw [← BitVec.toNat_inj, BitVec.toNat_setWidth, BitVec.toNat_ushiftRight,
      Nat.shiftRight_eq_div_pow, BitVec.toNat_ofNat]
    have hword := word.isLt
    omega
  rw [unpackHalf2x16, unpackHalf2x16SplitX, unpackHalf2x16SplitY, hlost, ← hhigh]
  rw [← BitVec.ofNat_eq_ofNat, ← mesaHalfToFloat_eq_zero_iff]
  simp [unpackHalf1x16, eq_comm]

/-! ### Folded, lowered and defined results -/

end Nir
