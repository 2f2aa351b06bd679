import Mathlib.Tactic.Common

/-!
# QPU instructions

The instructions of the QPUs of `qpu_instr.h`.  An enumeration is an inductive type, with the numbers
that the source gives to its members.
-/

namespace Broadcom

namespace Qpu

/-! ### Signals -/

/-- `struct v3d_qpu_sig`. -/
structure Sig where
  thrsw : Bool := false
  ldunif : Bool := false
  ldtmu : Bool := false
  ldvary : Bool := false
  ldvpm : Bool := false
  ldtlb : Bool := false
  ldtlbu : Bool := false
  smallImm : Bool := false
  ucb : Bool := false
  rotate : Bool := false
  wrtmuc : Bool := false
deriving DecidableEq

/-! ### Flags -/

/-- `enum v3d_qpu_cond`. -/
inductive Cond where
  | none | ifa | ifb | ifna | ifnb
deriving DecidableEq

namespace Cond

def num : Cond → ℕ
  | none => 0
  | ifa => 1
  | ifb => 2
  | ifna => 3
  | ifnb => 4

def ofNum : ℕ → Cond
  | 0 => none
  | 1 => ifa
  | 2 => ifb
  | 3 => ifna
  | _ => ifnb

end Cond

/-- `enum v3d_qpu_pf`. -/
inductive Pf where
  | none | pushz | pushn | pushc
deriving DecidableEq

namespace Pf

def num : Pf → ℕ
  | none => 0
  | pushz => 1
  | pushn => 2
  | pushc => 3

def ofNum : ℕ → Pf
  | 0 => none
  | 1 => pushz
  | 2 => pushn
  | _ => pushc

end Pf

/-- `enum v3d_qpu_uf`. -/
inductive Uf where
  | none | andz | andnz | nornz | norz | andn | andnn | nornn | norn | andc | andnc | nornc | norc
deriving DecidableEq

namespace Uf

def num : Uf → ℕ
  | none => 0
  | andz => 1
  | andnz => 2
  | nornz => 3
  | norz => 4
  | andn => 5
  | andnn => 6
  | nornn => 7
  | norn => 8
  | andc => 9
  | andnc => 10
  | nornc => 11
  | norc => 12

def ofNum : ℕ → Uf
  | 0 => none
  | 1 => andz
  | 2 => andnz
  | 3 => nornz
  | 4 => norz
  | 5 => andn
  | 6 => andnn
  | 7 => nornn
  | 8 => norn
  | 9 => andc
  | 10 => andnc
  | 11 => nornc
  | _ => norc

end Uf

/-- `struct v3d_qpu_flags`. -/
structure Flags where
  ac : Cond := .none
  mc : Cond := .none
  apf : Pf := .none
  mpf : Pf := .none
  auf : Uf := .none
  muf : Uf := .none
deriving DecidableEq

/-! ### Operations -/

/-- `enum v3d_qpu_add_op`. -/
inductive AddOp where
  | fadd | faddnf | vfpack | add | sub | fsub | min | max | umin | umax | shl | shr | asr | ror
  | fmin | fmax | vfmin | and | or | xor | vadd | vsub | not | neg | flapush | flbpush | flbpop
  | setmsf | setrevf | nop | tidx | eidx | lr | vfla | vflna | vflb | vflnb | fxcd | xcd | fycd
  | ycd | msf | revf | vdwwt | iid | sampid | patchid | tmuwt | vpmsetup | vpmwt | ldvpmv
  | ldvpmd | ldvpmp | ldvpmg | fcmp | vfmax | fround | ftoin | ftrunc | ftoiz | ffloor | ftouz
  | fceil | ftoc | fdx | fdy | stvpmv | stvpmd | stvpmp | itof | clz | utof
deriving DecidableEq

/-- `enum v3d_qpu_mul_op`. -/
inductive MulOp where
  | add | sub | umul24 | vfmul | smul24 | multop | fmov | mov | nop | fmul
deriving DecidableEq

/-- `v3d_qpu_add_op_num_src`. -/
def addOpNumSrc : AddOp → ℕ
  | .nop | .tidx | .eidx | .lr | .vfla | .vflna | .vflb | .vflnb | .fxcd | .xcd | .fycd | .ycd
  | .msf | .revf | .vdwwt | .iid | .sampid | .patchid | .tmuwt | .vpmwt => 0
  | .not | .neg | .flapush | .flbpush | .flbpop | .setmsf | .setrevf | .vpmsetup | .ldvpmv
  | .ldvpmd | .ldvpmp | .fround | .ftoin | .ftrunc | .ftoiz | .ffloor | .ftouz | .fceil | .ftoc
  | .fdx | .fdy | .itof | .clz | .utof => 1
  | _ => 2

/-- `v3d_qpu_mul_op_num_src`. -/
def mulOpNumSrc : MulOp → ℕ
  | .nop => 0
  | .fmov | .mov => 1
  | _ => 2

/-- `enum v3d_qpu_output_pack`. -/
inductive OutputPack where
  | none | l | h
deriving DecidableEq

/-- The number of an output pack; 3 is not one of them. -/
def OutputPack.ofNum : ℕ → OutputPack
  | 0 => .none
  | 1 => .l
  | _ => .h

/-- `enum v3d_qpu_input_unpack`. -/
inductive InputUnpack where
  | none | abs | l | h | replicate32f16 | replicateL16 | replicateH16 | swap16
deriving DecidableEq

/-- `enum v3d_qpu_mux`. -/
inductive Mux where
  | r0 | r1 | r2 | r3 | r4 | r5 | a | b
deriving DecidableEq

namespace Mux

def num : Mux → ℕ
  | r0 => 0
  | r1 => 1
  | r2 => 2
  | r3 => 3
  | r4 => 4
  | r5 => 5
  | a => 6
  | b => 7

def ofNum : ℕ → Mux
  | 0 => r0
  | 1 => r1
  | 2 => r2
  | 3 => r3
  | 4 => r4
  | 5 => r5
  | 6 => a
  | _ => b

end Mux

/-! ### Instructions -/

/-- One of the two ALU operations of `struct v3d_qpu_alu_instr`. -/
@[ext]
structure Alu (Op : Type) where
  op : Op
  a : Mux
  b : Mux
  waddr : ℕ
  magicWrite : Bool
  outputPack : OutputPack := .none
  aUnpack : InputUnpack := .none
  bUnpack : InputUnpack := .none
deriving DecidableEq

/-- `struct v3d_qpu_instr` with `V3D_QPU_INSTR_TYPE_ALU`. -/
structure AluInstr where
  sig : Sig := {}
  raddrA : ℕ
  raddrB : ℕ
  flags : Flags := {}
  add : Alu AddOp
  mul : Alu MulOp
deriving DecidableEq

/-- `enum v3d_qpu_branch_cond`. -/
inductive BranchCond where
  | always | a0 | na0 | alla | anyna | anya | allna
deriving DecidableEq

namespace BranchCond

def num : BranchCond → ℕ
  | always => 0
  | a0 => 1
  | na0 => 2
  | alla => 3
  | anyna => 4
  | anya => 5
  | allna => 6

def ofNum : ℕ → BranchCond
  | 0 => always
  | 1 => a0
  | 2 => na0
  | 3 => alla
  | 4 => anyna
  | 5 => anya
  | _ => allna

end BranchCond

/-- `enum v3d_qpu_msfign`. -/
inductive Msfign where
  | none | p | q
deriving DecidableEq

namespace Msfign

def num : Msfign → ℕ
  | none => 0
  | p => 1
  | q => 2

def ofNum : ℕ → Msfign
  | 0 => none
  | 1 => p
  | _ => q

end Msfign

/-- `enum v3d_qpu_branch_dest`, with the other numbers that a field can hold. -/
inductive BranchDest where
  | abs | rel | linkReg | regfile
  | reserved (n : ℕ)
deriving DecidableEq

namespace BranchDest

def num : BranchDest → ℕ
  | abs => 0
  | rel => 1
  | linkReg => 2
  | regfile => 3
  | reserved n => n

def ofNum : ℕ → BranchDest
  | 0 => abs
  | 1 => rel
  | 2 => linkReg
  | 3 => regfile
  | n => reserved n

end BranchDest

/-- `struct v3d_qpu_branch_instr`. -/
structure BranchInstr where
  cond : BranchCond := .always
  msfign : Msfign := .none
  bdi : BranchDest := .abs
  bdu : BranchDest := .abs
  ub : Bool := false
  raddrA : ℕ := 0
  offset : ℕ := 0
deriving DecidableEq

/-- `struct v3d_qpu_instr`. -/
inductive Instr where
  | alu (instr : AluInstr)
  | branch (instr : BranchInstr)
deriving DecidableEq

end Qpu

end Broadcom
