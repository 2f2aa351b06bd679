import Mesa.Bits.LongDivision
import Mathlib.Data.Int.ModEq

/-!
# Lowering 64-bit integer instructions

The sequences that `nir_lower_int64.c` emits for 64-bit multiplications, signs, divisions and
remainders.  A def is the vector of its components, and a builder function stands for the value of
the instruction that it emits, by the constant expression of the opcode in `nir_opcodes.py`.
-/

namespace Nir.LowerInt64

/-- The value of a `nir_ssa_def` of `n` components of `w` bits. -/
abbrev Def (n w : ℕ) : Type := Fin n → BitVec w

variable {n v w : ℕ}

/-! ### Opcodes -/

/-- What is stored for a C `bool`: `NIR_TRUE` or `NIR_FALSE`. -/
def nirBool (b : Bool) : BitVec 32 := if b then BitVec.allOnes 32 else 0

/-- `nir_imm_int` and `nir_imm_int64`: the one component is there for all of them. -/
def imm (x : BitVec w) : Def n w := fun _ => x

/-- `unpack_64_2x32_split_x` -/
def unpackX (x : Def n 64) : Def n 32 := fun c => (x c).setWidth 32

/-- `unpack_64_2x32_split_y` -/
def unpackY (x : Def n 64) : Def n 32 := fun c => (x c >>> 32).setWidth 32

/-- `pack_64_2x32_split` -/
def pack (lo hi : Def n 32) : Def n 64 := fun c => (lo c).setWidth 64 ||| (hi c).setWidth 64 <<< 32

def iadd (x y : Def n w) : Def n w := fun c => x c + y c

def isub (x y : Def n w) : Def n w := fun c => x c - y c

def imul (x y : Def n w) : Def n w := fun c => x c * y c

/-- `umul_high` -/
def umulHigh (x y : Def n 32) : Def n 32 :=
  fun c => (((x c).setWidth 64 * (y c).setWidth 64) >>> 32).setWidth 32

def ineg (x : Def n w) : Def n w := fun c => -x c

def iabs (x : Def n w) : Def n w := fun c => if (x c).toInt < 0 then -x c else x c

def ior (x y : Def n w) : Def n w := fun c => x c ||| y c

def iand (x y : Def n w) : Def n w := fun c => x c &&& y c

def ishl (x : Def n w) (s : Def n 32) : Def n w := fun c => x c <<< s c

def ishr (x : Def n w) (s : Def n 32) : Def n w := fun c => (x c).sshiftRight' (s c)

def i2b (x : Def n w) : Def n 32 := fun c => nirBool (decide (x c ≠ 0))

def b2i (x : Def n 32) : Def n 32 := fun c => if x c ≠ 0 then 1 else 0

def ieq (x y : Def n w) : Def n 32 := fun c => nirBool (decide (x c = y c))

def ine (x y : Def n w) : Def n 32 := fun c => nirBool (decide (x c ≠ y c))

def ilt (x y : Def n w) : Def n 32 := fun c => nirBool (decide ((x c).toInt < (y c).toInt))

def ige (x y : Def n w) : Def n 32 := fun c => nirBool (decide ((y c).toInt ≤ (x c).toInt))

def uge (x y : Def n w) : Def n 32 := fun c => nirBool (decide (y c ≤ x c))

def bcsel (b : Def n 32) (x y : Def n w) : Def n w := fun c => if b c ≠ 0 then x c else y c

/-- The loop of `ufind_msb`, from `bit` down. -/
def findMsbFrom (x : BitVec 32) : ℕ → BitVec 32
  | 0 => -1
  | bit + 1 => if x.getLsbD bit then BitVec.ofNat 32 bit else findMsbFrom x bit

/-- `ufind_msb` -/
def ufindMsb (x : Def n 32) : Def n 32 := fun c => findMsbFrom (x c) 32

/-- `nir_bany` -/
def bany (x : Def n 32) : Bool := decide (∃ c, x c ≠ 0)

/-! ### Lowered instructions -/

/-- `lower_imul64` -/
def lowerImul64 (x y : Def n 64) : Def n 64 :=
  let xLo := unpackX x
  let xHi := unpackY x
  let yLo := unpackX y
  let yHi := unpackY y
  let resLo := imul xLo yLo
  let resHi := iadd (umulHigh xLo yLo) (iadd (imul xLo yHi) (imul xHi yLo))
  pack resLo resHi

/-- `lower_isign64` -/
def lowerIsign64 (x : Def n 64) : Def n 64 :=
  let xLo := unpackX x
  let xHi := unpackY x
  let isNonZero := i2b (ior xLo xHi)
  let resHi := ishr xHi (imm 31)
  let resLo := ior resHi (b2i isNonZero)
  pack resLo resHi

/-- The body of the first loop of `lower_udiv64_mod64`, on `n_hi` and `q_hi`. -/
def highStep (needHighDiv dLo log2DLo : Def n 32) (s : Def n 32 × Def n 32) (i : ℕ) :
    Def n 32 × Def n 32 :=
  let (nHi, qHi) := s
  let dShift := ishl dLo (imm (BitVec.ofNat 32 i))
  let newNHi := isub nHi dShift
  let newQHi := ior qHi (imm (1#32 <<< i))
  let cond := iand needHighDiv (uge nHi dShift)
  let cond := if i ≠ 0 then iand cond (ige (imm (31 - BitVec.ofNat 32 i)) log2DLo) else cond
  (bcsel cond newNHi nHi, bcsel cond newQHi qHi)

/-- The body of the second loop of `lower_udiv64_mod64`, on `n` and `q_lo`. -/
def lowStep (d : Def n 64) (log2Denom : Def n 32) (s : Def n 64 × Def n 32) (i : ℕ) :
    Def n 64 × Def n 32 :=
  let (m, qLo) := s
  let dShift := ishl d (imm (BitVec.ofNat 32 i))
  let newN := isub m dShift
  let newQLo := ior qLo (imm (1#32 <<< i))
  let cond := uge m dShift
  let cond := if i ≠ 0 then iand cond (ige (imm (31 - BitVec.ofNat 32 i)) log2Denom) else cond
  (bcsel cond newN m, bcsel cond newQLo qLo)

/-- `for (int i = 31; i >= 0; i--)` -/
def downFrom31 : List ℕ := (List.range 32).reverse

/-- `lower_udiv64_mod64`: the quotient and the remainder. -/
def lowerUdiv64Mod64 (m d : Def n 64) : Def n 64 × Def n 64 :=
  let nLo := unpackX m
  let nHi := unpackY m
  let dLo := unpackX d
  let dHi := unpackY d
  let qLo := imm 0
  let qHi := imm 0
  let needHighDiv := iand (ieq dHi (imm 0)) (uge nHi dLo)
  -- the phis behind the `if` take the new values if it is entered, and the old ones otherwise
  let high :=
    if bany needHighDiv then
      let needHighDiv := if n = 1 then imm (nirBool true) else needHighDiv
      let log2DLo := ufindMsb dLo
      downFrom31.foldl (highStep needHighDiv dLo log2DLo) (nHi, qHi)
    else (nHi, qHi)
  let log2Denom := ufindMsb dHi
  let m := pack nLo high.1
  let d := pack dLo dHi
  let low := downFrom31.foldl (lowStep d log2Denom) (m, qLo)
  (pack low.2 high.2, low.1)

/-- `lower_udiv64` -/
def lowerUdiv64 (m d : Def n 64) : Def n 64 := (lowerUdiv64Mod64 m d).1

/-- `lower_idiv64` -/
def lowerIdiv64 (m d : Def n 64) : Def n 64 :=
  let nHi := unpackY m
  let dHi := unpackY d
  let negate := ine (ilt nHi (imm 0)) (ilt dHi (imm 0))
  let (q, _) := lowerUdiv64Mod64 (iabs m) (iabs d)
  bcsel negate (ineg q) q

/-- `lower_umod64` -/
def lowerUmod64 (m d : Def n 64) : Def n 64 := (lowerUdiv64Mod64 m d).2

/-- `lower_imod64` -/
def lowerImod64 (m d : Def n 64) : Def n 64 :=
  let nHi := unpackY m
  let dHi := unpackY d
  let nIsNeg := ilt nHi (imm 0)
  let dIsNeg := ilt dHi (imm 0)
  let (_, r) := lowerUdiv64Mod64 (iabs m) (iabs d)
  let rem := bcsel nIsNeg (ineg r) r
  bcsel (ieq r (imm 0)) (imm 0) (bcsel (ieq nIsNeg dIsNeg) rem (iadd rem d))

/-- `lower_irem64` -/
def lowerIrem64 (m d : Def n 64) : Def n 64 :=
  let nHi := unpackY m
  let nIsNeg := ilt nHi (imm 0)
  let (_, r) := lowerUdiv64Mod64 (iabs m) (iabs d)
  bcsel nIsNeg (ineg r) r

/-- The opcodes that are lowered. -/
inductive Op where
  | imul | isign | udiv | idiv | umod | imod | irem
deriving DecidableEq

/-- `lower_int64_alu_instr` -/
def lowerInt64AluInstr (op : Op) (src : ℕ → Def n 64) : Def n 64 :=
  match op with
  | .imul => lowerImul64 (src 0) (src 1)
  | .isign => lowerIsign64 (src 0)
  | .udiv => lowerUdiv64 (src 0) (src 1)
  | .idiv => lowerIdiv64 (src 0) (src 1)
  | .umod => lowerUmod64 (src 0) (src 1)
  | .imod => lowerImod64 (src 0) (src 1)
  | .irem => lowerIrem64 (src 0) (src 1)

/-! ### Constant expressions -/

/-- The constant expressions of `nir_opcodes.py`, with the operators of C on `int64_t` and
`uint64_t`: division truncates.  What is too large for the type wraps around. -/
def constExpr (op : Op) (src0 src1 : BitVec 64) : BitVec 64 :=
  let s0 := src0.toInt
  let s1 := src1.toInt
  match op with
  | .imul => BitVec.ofInt 64 (s0 * s1)
  | .isign => if s0 = 0 then 0 else if 0 < s0 then 1 else -1
  | .idiv => BitVec.ofInt 64 (s0.tdiv s1)
  | .udiv => BitVec.ofNat 64 (src0.toNat / src1.toNat)
  | .umod => if src1.toNat = 0 then 0 else BitVec.ofNat 64 (src0.toNat % src1.toNat)
  | .irem => if s1 = 0 then 0 else BitVec.ofInt 64 (s0.tmod s1)
  | .imod =>
      if s1 = 0 then 0
      else if s0.tmod s1 = 0 ∨ (0 ≤ s0 ↔ 0 ≤ s1) then BitVec.ofInt 64 (s0.tmod s1)
      else BitVec.ofInt 64 (s0.tmod s1 + s1)

/-- Whether an opcode divides. -/
def Op.divides : Op → Bool
  | .imul | .isign => false
  | .udiv | .idiv | .umod | .imod | .irem => true

end Nir.LowerInt64
