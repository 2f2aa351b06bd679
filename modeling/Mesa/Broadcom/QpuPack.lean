import Mesa.Bits.Words
import Mesa.Broadcom.QpuInstr

/-!
# Packing of QPU instructions

The functions of `qpu_pack.c`.  A function that returns `false`, or that fails an assertion, is
`none`; a function that fills in a structure is given what the structure held before.  The device is
left out, since nothing depends on it.
-/

namespace Broadcom

namespace Qpu

open Bits (field)

/-! ### Fields -/

/-- `QPU_SET_FIELD`, with its assertion, and the assignment that adds the field to a word. -/
def addField (packed : BitVec 64) (hi lo value : ℕ) : Option (BitVec 64) :=
  if value < 2 ^ (hi - lo + 1) then some (packed ||| (BitVec.ofNat 64 value <<< lo)) else none

/-! ### Signals -/

/-- `v33_sig_map`. -/
def v33SigMap : List Sig := [
  {},
  { thrsw := true },
  { ldunif := true },
  { thrsw := true, ldunif := true },
  { ldtmu := true },
  { thrsw := true, ldtmu := true },
  { ldtmu := true, ldunif := true },
  { thrsw := true, ldtmu := true, ldunif := true },
  { ldvary := true },
  { thrsw := true, ldvary := true },
  { ldvary := true, ldunif := true },
  { thrsw := true, ldvary := true, ldunif := true },
  { ldvary := true, ldtmu := true },
  { thrsw := true, ldvary := true, ldtmu := true },
  { smallImm := true, ldvary := true },
  { smallImm := true },
  { ldtlb := true },
  { ldtlbu := true },
  {},
  {},
  {},
  {},
  { ucb := true },
  { rotate := true },
  { ldvpm := true },
  { thrsw := true, ldvpm := true },
  { ldvpm := true, ldunif := true },
  { thrsw := true, ldvpm := true, ldunif := true },
  { ldvpm := true, ldtmu := true },
  { thrsw := true, ldvpm := true, ldtmu := true },
  { smallImm := true, ldvpm := true },
  { smallImm := true }]

/-- The first eight flags of a signal, which are its first byte, are not set. -/
def Sig.firstByteZero (sig : Sig) : Bool :=
  !(sig.thrsw || sig.ldunif || sig.ldtmu || sig.ldvary || sig.ldvpm || sig.ldtlb || sig.ldtlbu ||
    sig.smallImm)

/-- `v3d_qpu_sig_unpack`.  The comparison with 0 is made of the length that `memcmp` is given, which
is therefore 1. -/
def sigUnpack (packedSig : ℕ) : Option Sig := do
  let sig ← v33SigMap[packedSig]?
  if packedSig = 0 ∨ ¬sig.firstByteZero then some sig else none

/-- `v3d_qpu_sig_pack`. -/
def sigPack (sig : Sig) : Option ℕ := v33SigMap.findIdx? (· = sig)

/-! ### Flags -/

/-- `cond_map`. -/
def condMap (n : ℕ) : Cond := Cond.ofNum (n + 1)

/-- `v3d_qpu_flags_unpack`. -/
def flagsUnpack (packedCond : ℕ) : Option Flags :=
  if packedCond = 0 then some {}
  else if packedCond >>> 2 = 0 then some { apf := Pf.ofNum (packedCond &&& 0x3) }
  else if packedCond >>> 4 = 0 then
    some { auf := Uf.ofNum ((packedCond &&& 0xf) - 4 + Uf.andz.num) }
  else if packedCond = 0x10 then none
  else if packedCond >>> 2 = 0x4 then some { mpf := Pf.ofNum (packedCond &&& 0x3) }
  else if packedCond >>> 4 = 0x1 then
    some { muf := Uf.ofNum ((packedCond &&& 0xf) - 4 + Uf.andz.num) }
  else if packedCond >>> 4 = 0x2 then
    some {
      ac := Cond.ofNum (((packedCond >>> 2) &&& 0x3) + Cond.ifa.num)
      mpf := Pf.ofNum (packedCond &&& 0x3) }
  else if packedCond >>> 4 = 0x3 then
    some {
      mc := Cond.ofNum (((packedCond >>> 2) &&& 0x3) + Cond.ifa.num)
      apf := Pf.ofNum (packedCond &&& 0x3) }
  else if packedCond >>> 6 ≠ 0 then
    if (packedCond >>> 2) &&& 0x3 = 0 then
      some { mc := condMap ((packedCond >>> 4) &&& 0x3), ac := condMap (packedCond &&& 0x3) }
    else
      some {
        mc := condMap ((packedCond >>> 4) &&& 0x3)
        auf := Uf.ofNum ((packedCond &&& 0xf) - 4 + Uf.andz.num) }
  else some {}

/-- The flags that are present, in the order of the bits `AC`, `MC`, `APF`, `MPF`, `AUF`, `MUF`. -/
structure Present where
  ac : Bool := false
  mc : Bool := false
  apf : Bool := false
  mpf : Bool := false
  auf : Bool := false
  muf : Bool := false
deriving DecidableEq

/-- `flags_table`. -/
def flagsTable : List (Present × ℕ) := [
  ({}, 0),
  ({ apf := true }, 0),
  ({ auf := true }, 0),
  ({ mpf := true }, 1 <<< 4),
  ({ muf := true }, 1 <<< 4),
  ({ ac := true }, 1 <<< 5),
  ({ ac := true, mpf := true }, 1 <<< 5),
  ({ mc := true }, (1 <<< 5) ||| (1 <<< 4)),
  ({ mc := true, apf := true }, (1 <<< 5) ||| (1 <<< 4)),
  ({ mc := true, ac := true }, 1 <<< 6),
  ({ mc := true, auf := true }, 1 <<< 6)]

/-- `v3d_qpu_flags_pack`. -/
def flagsPack (cond : Flags) : Option ℕ := do
  let present : Present := {
    ac := cond.ac ≠ .none
    mc := cond.mc ≠ .none
    apf := cond.apf ≠ .none
    mpf := cond.mpf ≠ .none
    auf := cond.auf ≠ .none
    muf := cond.muf ≠ .none }
  let entry ← flagsTable.find? (·.1 = present)
  let packed := entry.2
  let packed := packed ||| cond.apf.num
  let packed := packed ||| cond.mpf.num
  let packed := if present.auf then packed ||| (cond.auf.num - Uf.andz.num + 4) else packed
  let packed := if present.muf then packed ||| (cond.muf.num - Uf.andz.num + 4) else packed
  let packed := if present.ac then packed ||| ((cond.ac.num - Cond.ifa.num) <<< 2) else packed
  let packed :=
    if present.mc then
      if packed &&& (1 <<< 6) ≠ 0 then packed ||| ((cond.mc.num - Cond.ifa.num) <<< 4)
      else packed ||| ((cond.mc.num - Cond.ifa.num) <<< 2)
    else packed
  return packed

/-! ### Opcodes -/

/-- `MUX_MASK`. -/
def muxMask (bot top : ℕ) : ℕ := ((1 <<< (top + 1)) - 1) - ((1 <<< bot) - 1)

/-- `ANYMUX`. -/
def anymux : ℕ := muxMask 0 7

/-- `struct opcode_desc`, without the version, which is never read. -/
structure OpcodeDesc (Op : Type) where
  opcodeFirst : ℕ
  opcodeLast : ℕ
  muxBMask : ℕ
  muxAMask : ℕ
  op : Op
deriving DecidableEq

/-- `add_ops`. -/
def addOps : List (OpcodeDesc AddOp) := [
  ⟨0, 47, anymux, anymux, .fadd⟩,
  ⟨0, 47, anymux, anymux, .faddnf⟩,
  ⟨53, 55, anymux, anymux, .vfpack⟩,
  ⟨56, 56, anymux, anymux, .add⟩,
  ⟨57, 59, anymux, anymux, .vfpack⟩,
  ⟨60, 60, anymux, anymux, .sub⟩,
  ⟨61, 63, anymux, anymux, .vfpack⟩,
  ⟨64, 111, anymux, anymux, .fsub⟩,
  ⟨120, 120, anymux, anymux, .min⟩,
  ⟨121, 121, anymux, anymux, .max⟩,
  ⟨122, 122, anymux, anymux, .umin⟩,
  ⟨123, 123, anymux, anymux, .umax⟩,
  ⟨124, 124, anymux, anymux, .shl⟩,
  ⟨125, 125, anymux, anymux, .shr⟩,
  ⟨126, 126, anymux, anymux, .asr⟩,
  ⟨127, 127, anymux, anymux, .ror⟩,
  ⟨128, 175, anymux, anymux, .fmin⟩,
  ⟨128, 175, anymux, anymux, .fmax⟩,
  ⟨176, 180, anymux, anymux, .vfmin⟩,
  ⟨181, 181, anymux, anymux, .and⟩,
  ⟨182, 182, anymux, anymux, .or⟩,
  ⟨183, 183, anymux, anymux, .xor⟩,
  ⟨184, 184, anymux, anymux, .vadd⟩,
  ⟨185, 185, anymux, anymux, .vsub⟩,
  ⟨186, 186, 1 <<< 0, anymux, .not⟩,
  ⟨186, 186, 1 <<< 1, anymux, .neg⟩,
  ⟨186, 186, 1 <<< 2, anymux, .flapush⟩,
  ⟨186, 186, 1 <<< 3, anymux, .flbpush⟩,
  ⟨186, 186, 1 <<< 4, anymux, .flbpop⟩,
  ⟨186, 186, 1 <<< 6, anymux, .setmsf⟩,
  ⟨186, 186, 1 <<< 7, anymux, .setrevf⟩,
  ⟨187, 187, 1 <<< 0, 1 <<< 0, .nop⟩,
  ⟨187, 187, 1 <<< 0, 1 <<< 1, .tidx⟩,
  ⟨187, 187, 1 <<< 0, 1 <<< 2, .eidx⟩,
  ⟨187, 187, 1 <<< 0, 1 <<< 3, .lr⟩,
  ⟨187, 187, 1 <<< 0, 1 <<< 4, .vfla⟩,
  ⟨187, 187, 1 <<< 0, 1 <<< 5, .vflna⟩,
  ⟨187, 187, 1 <<< 0, 1 <<< 6, .vflb⟩,
  ⟨187, 187, 1 <<< 0, 1 <<< 7, .vflnb⟩,
  ⟨187, 187, 1 <<< 1, muxMask 0 2, .fxcd⟩,
  ⟨187, 187, 1 <<< 1, 1 <<< 3, .xcd⟩,
  ⟨187, 187, 1 <<< 1, muxMask 4 6, .fycd⟩,
  ⟨187, 187, 1 <<< 1, 1 <<< 7, .ycd⟩,
  ⟨187, 187, 1 <<< 2, 1 <<< 0, .msf⟩,
  ⟨187, 187, 1 <<< 2, 1 <<< 1, .revf⟩,
  ⟨187, 187, 1 <<< 2, 1 <<< 2, .vdwwt⟩,
  ⟨187, 187, 1 <<< 2, 1 <<< 5, .tmuwt⟩,
  ⟨187, 187, 1 <<< 2, 1 <<< 6, .vpmwt⟩,
  ⟨187, 187, 1 <<< 3, anymux, .vpmsetup⟩,
  ⟨192, 239, anymux, anymux, .fcmp⟩,
  ⟨240, 244, anymux, anymux, .vfmax⟩,
  ⟨245, 245, muxMask 0 2, anymux, .fround⟩,
  ⟨245, 245, 1 <<< 3, anymux, .ftoin⟩,
  ⟨245, 245, muxMask 4 6, anymux, .ftrunc⟩,
  ⟨245, 245, 1 <<< 7, anymux, .ftoiz⟩,
  ⟨246, 246, muxMask 0 2, anymux, .ffloor⟩,
  ⟨246, 246, 1 <<< 3, anymux, .ftouz⟩,
  ⟨246, 246, muxMask 4 6, anymux, .fceil⟩,
  ⟨246, 246, 1 <<< 7, anymux, .ftoc⟩,
  ⟨247, 247, muxMask 0 2, anymux, .fdx⟩,
  ⟨247, 247, muxMask 4 6, anymux, .fdy⟩,
  ⟨248, 248, anymux, anymux, .stvpmv⟩,
  ⟨248, 248, anymux, anymux, .stvpmd⟩,
  ⟨248, 248, anymux, anymux, .stvpmp⟩,
  ⟨252, 252, muxMask 0 2, anymux, .itof⟩,
  ⟨252, 252, 1 <<< 3, anymux, .clz⟩,
  ⟨252, 252, muxMask 4 6, anymux, .utof⟩]

/-- `mul_ops`. -/
def mulOps : List (OpcodeDesc MulOp) := [
  ⟨1, 1, anymux, anymux, .add⟩,
  ⟨2, 2, anymux, anymux, .sub⟩,
  ⟨3, 3, anymux, anymux, .umul24⟩,
  ⟨4, 8, anymux, anymux, .vfmul⟩,
  ⟨9, 9, anymux, anymux, .smul24⟩,
  ⟨10, 10, anymux, anymux, .multop⟩,
  ⟨14, 14, anymux, anymux, .fmov⟩,
  ⟨15, 15, muxMask 0 3, anymux, .fmov⟩,
  ⟨15, 15, 1 <<< 4, 1 <<< 0, .nop⟩,
  ⟨15, 15, 1 <<< 7, anymux, .mov⟩,
  ⟨16, 63, anymux, anymux, .fmul⟩]

/-- The opcode is one of a description. -/
def OpcodeDesc.inRange {Op : Type} (desc : OpcodeDesc Op) (opcode : ℕ) : Bool :=
  !(decide (opcode < desc.opcodeFirst) || decide (opcode > desc.opcodeLast))

/-- The muxes are those of a description. -/
def OpcodeDesc.inMasks {Op : Type} (desc : OpcodeDesc Op) (muxA muxB : ℕ) : Bool :=
  desc.muxBMask &&& (1 <<< muxB) != 0 && desc.muxAMask &&& (1 <<< muxA) != 0

/-- `lookup_opcode`. -/
def lookupOpcode {Op : Type} (opcodes : List (OpcodeDesc Op)) (opcode muxA muxB : ℕ) :
    Option (OpcodeDesc Op) :=
  opcodes.find? fun desc => desc.inRange opcode && desc.inMasks muxA muxB

/-- The position of the first bit that is set, from 1 on, or 0. -/
def ffs (x : ℕ) : ℕ :=
  match (List.range 32).find? x.testBit with
  | some i => i + 1
  | none => 0

/-! ### Packs and unpacks -/

/-- `v3d_qpu_float32_unpack_unpack`. -/
def float32UnpackUnpack : ℕ → Option InputUnpack
  | 0 => some .abs
  | 1 => some .none
  | 2 => some .l
  | 3 => some .h
  | _ => none

/-- `v3d_qpu_float32_unpack_pack`. -/
def float32UnpackPack : InputUnpack → Option ℕ
  | .abs => some 0
  | .none => some 1
  | .l => some 2
  | .h => some 3
  | _ => none

/-- `v3d_qpu_float16_unpack_unpack`. -/
def float16UnpackUnpack : ℕ → Option InputUnpack
  | 0 => some .none
  | 1 => some .replicate32f16
  | 2 => some .replicateL16
  | 3 => some .replicateH16
  | 4 => some .swap16
  | _ => none

/-- `v3d_qpu_float16_unpack_pack`. -/
def float16UnpackPack : InputUnpack → Option ℕ
  | .none => some 0
  | .replicate32f16 => some 1
  | .replicateL16 => some 2
  | .replicateH16 => some 3
  | .swap16 => some 4
  | _ => none

/-- `v3d_qpu_float32_pack_pack`. -/
def float32PackPack : OutputPack → Option ℕ
  | .none => some 0
  | .l => some 1
  | .h => some 2

/-! ### The add operation -/

/-- The cases of the switches over the add operation. -/
inductive AddCase where
  /-- two floats -/
  | float2
  /-- one float -/
  | float1
  /-- from a float to an integer -/
  | toInt
  /-- pairs of half floats -/
  | half
  | default
deriving DecidableEq

def AddOp.case : AddOp → AddCase
  | fadd | faddnf | fsub | fmin | fmax | fcmp => .float2
  | ffloor | fround | ftrunc | fceil | fdx | fdy => .float1
  | ftoin | ftoiz | ftouz | ftoc => .toInt
  | vfmin | vfmax => .half
  | _ => .default

/-- The fields of an operation in the word. -/
structure OpFields where
  opcode : ℕ
  muxA : ℕ
  muxB : ℕ
  waddr : ℕ
deriving DecidableEq

/-- An operation whose operands may be exchanged is not in the order that its opcode asks for. -/
def outOfOrder (op : AddOp) (ordering : Bool) : Bool :=
  ((op = .fmin ∨ op = .fadd) ∧ ordering) ∨ ((op = .fmax ∨ op = .faddnf) ∧ ¬ordering)

/-- The write address that `v3d_qpu_add_pack` uses. -/
def AddOp.packWaddr (waddr : ℕ) : AddOp → ℕ
  | stvpmv => 0
  | stvpmd => 1
  | stvpmp => 2
  | _ => waddr

/-- The fields that `v3d_qpu_add_pack` computes. -/
def addFields (instr : Alu AddOp) : Option OpFields := do
  let nsrc := addOpNumSrc instr.op
  let desc ← addOps.find? (·.op = instr.op)
  let opcode := desc.opcodeFirst
  let muxB := if nsrc < 2 then ffs desc.muxBMask - 1 else instr.b.num
  let muxA := if nsrc < 1 then ffs desc.muxAMask - 1 else instr.a.num
  let waddr := instr.op.packWaddr instr.waddr
  match instr.op.case with
  | .float2 =>
    let outputPack ← float32PackPack instr.outputPack
    let opcode := opcode ||| (outputPack <<< 4)
    let aUnpack ← float32UnpackPack instr.aUnpack
    let bUnpack ← float32UnpackPack instr.bUnpack
    let ordering := decide (aUnpack * 8 + muxA > bUnpack * 8 + muxB)
    if outOfOrder instr.op ordering then
      return ⟨opcode ||| (bUnpack <<< 2) ||| aUnpack, muxB, muxA, waddr⟩
    else
      return ⟨opcode ||| (aUnpack <<< 2) ||| bUnpack, muxA, muxB, waddr⟩
  | .float1 =>
    let outputPack ← float32PackPack instr.outputPack
    let muxB := muxB ||| outputPack
    let aUnpack ← float32UnpackPack instr.aUnpack
    if aUnpack = 0 then none else return ⟨opcode ||| (aUnpack <<< 2), muxA, muxB, waddr⟩
  | .toInt =>
    if instr.outputPack ≠ .none then none
    else
      let aUnpack ← float32UnpackPack instr.aUnpack
      if aUnpack = 0 then none else return ⟨opcode ||| (aUnpack <<< 2), muxA, muxB, waddr⟩
  | .half =>
    if instr.outputPack ≠ .none ∨ instr.bUnpack ≠ .none then none
    else
      let aUnpack ← float16UnpackPack instr.aUnpack
      return ⟨opcode ||| aUnpack, muxA, muxB, waddr⟩
  | .default =>
    if instr.op ≠ .nop ∧ (instr.outputPack ≠ .none ∨ instr.aUnpack ≠ .none ∨
        instr.bUnpack ≠ .none) then none
    else return ⟨opcode, muxA, muxB, waddr⟩

/-- `v3d_qpu_add_pack`. -/
def addPack (instr : Alu AddOp) (packed : BitVec 64) : Option (BitVec 64) := do
  let fields ← addFields instr
  let packed ← addField packed 14 12 fields.muxA
  let packed ← addField packed 17 15 fields.muxB
  let packed ← addField packed 31 24 fields.opcode
  let packed ← addField packed 37 32 fields.waddr
  addField packed 44 44 instr.magicWrite.toNat

/-- The opcode that is looked up; some clusters of opcodes are replicated with unpack flags. -/
def mapOpcode (op : ℕ) : ℕ :=
  let mapOp := if op ≥ 249 ∧ op ≤ 251 then op - 249 + 245 else op
  if mapOp ≥ 253 ∧ mapOp ≤ 255 then mapOp - 253 + 245 else mapOp

/-- The operations that are told apart by the order of their operands. -/
def AddOp.reversed : AddOp → AddOp
  | fmin => fmax
  | fadd => faddnf
  | op => op

/-- The operations that are told apart by the write address. -/
def AddOp.withWaddr (waddr : ℕ) : AddOp → Option AddOp
  | stvpmv | stvpmd | stvpmp =>
    match waddr with
    | 0 => some stvpmv
    | 1 => some stvpmd
    | 2 => some stvpmp
    | _ => none
  | op => some op

/-- The operation that `v3d_qpu_add_unpack` finds. -/
def addOpUnpack (fields : OpFields) : Option AddOp := do
  let desc ← lookupOpcode addOps (mapOpcode fields.opcode) fields.muxA fields.muxB
  let reversed := ((fields.opcode >>> 2) &&& 3) * 8 + fields.muxA >
    (fields.opcode &&& 3) * 8 + fields.muxB
  (if reversed then desc.op.reversed else desc.op).withWaddr fields.waddr

/-- `v3d_qpu_add_unpack`, from the fields. -/
def addFieldsUnpack (fields : OpFields) (magicWrite : Bool) (instr : Alu AddOp) :
    Option (Alu AddOp) := do
  let op ← addOpUnpack fields
  let instr := { instr with
    op := op
    a := Mux.ofNum fields.muxA
    b := Mux.ofNum fields.muxB
    waddr := fields.waddr
    magicWrite := magicWrite }
  match op.case with
  | .float2 =>
    let aUnpack ← float32UnpackUnpack ((fields.opcode >>> 2) &&& 0x3)
    let bUnpack ← float32UnpackUnpack (fields.opcode &&& 0x3)
    return { instr with
      outputPack := OutputPack.ofNum ((fields.opcode >>> 4) &&& 0x3)
      aUnpack := aUnpack
      bUnpack := bUnpack }
  | .float1 =>
    let aUnpack ← float32UnpackUnpack ((fields.opcode >>> 2) &&& 0x3)
    return { instr with
      outputPack := OutputPack.ofNum (fields.muxB &&& 0x3)
      aUnpack := aUnpack }
  | .toInt =>
    let aUnpack ← float32UnpackUnpack ((fields.opcode >>> 2) &&& 0x3)
    return { instr with outputPack := .none, aUnpack := aUnpack }
  | .half =>
    let aUnpack ← float16UnpackUnpack (fields.opcode &&& 0x7)
    return { instr with outputPack := .none, aUnpack := aUnpack, bUnpack := .none }
  | .default => return { instr with outputPack := .none, aUnpack := .none, bUnpack := .none }

/-- `v3d_qpu_add_unpack`. -/
def addUnpack (packed : BitVec 64) (instr : Alu AddOp) : Option (Alu AddOp) :=
  addFieldsUnpack
    { opcode := field packed 31 24
      muxA := field packed 14 12
      muxB := field packed 17 15
      waddr := field packed 37 32 }
    (field packed 44 44 ≠ 0) instr

/-! ### The mul operation -/

/-- The fields that `v3d_qpu_mul_pack` computes. -/
def mulFields (instr : Alu MulOp) : Option OpFields := do
  let nsrc := mulOpNumSrc instr.op
  let desc ← mulOps.find? (·.op = instr.op)
  let opcode := desc.opcodeFirst
  let muxB := if nsrc < 2 then ffs desc.muxBMask - 1 else instr.b.num
  let muxA := if nsrc < 1 then ffs desc.muxAMask - 1 else instr.a.num
  match instr.op with
  | .fmul =>
    let outputPack ← float32PackPack instr.outputPack
    let opcode := opcode + (outputPack <<< 4)
    let aUnpack ← float32UnpackPack instr.aUnpack
    let opcode := opcode ||| (aUnpack <<< 2)
    let bUnpack ← float32UnpackPack instr.bUnpack
    return ⟨opcode ||| bUnpack, muxA, muxB, instr.waddr⟩
  | .fmov =>
    let outputPack ← float32PackPack instr.outputPack
    let opcode := opcode ||| ((outputPack >>> 1) &&& 1)
    let muxB := (outputPack &&& 1) <<< 2
    let aUnpack ← float32UnpackPack instr.aUnpack
    return ⟨opcode, muxA, muxB ||| aUnpack, instr.waddr⟩
  | _ => return ⟨opcode, muxA, muxB, instr.waddr⟩

/-- `v3d_qpu_mul_pack`. -/
def mulPack (instr : Alu MulOp) (packed : BitVec 64) : Option (BitVec 64) := do
  let fields ← mulFields instr
  let packed ← addField packed 20 18 fields.muxA
  let packed ← addField packed 23 21 fields.muxB
  let packed ← addField packed 63 58 fields.opcode
  let packed ← addField packed 43 38 fields.waddr
  addField packed 45 45 instr.magicWrite.toNat

/-- `v3d_qpu_mul_unpack`, from the fields. -/
def mulFieldsUnpack (fields : OpFields) (magicWrite : Bool) (instr : Alu MulOp) :
    Option (Alu MulOp) := do
  let desc ← lookupOpcode mulOps fields.opcode fields.muxA fields.muxB
  let instr := { instr with
    op := desc.op
    a := Mux.ofNum fields.muxA
    b := Mux.ofNum fields.muxB
    waddr := fields.waddr
    magicWrite := magicWrite }
  match desc.op with
  | .fmul =>
    let aUnpack ← float32UnpackUnpack ((fields.opcode >>> 2) &&& 0x3)
    let bUnpack ← float32UnpackUnpack (fields.opcode &&& 0x3)
    return { instr with
      outputPack := OutputPack.ofNum (((fields.opcode >>> 4) &&& 0x3) - 1)
      aUnpack := aUnpack
      bUnpack := bUnpack }
  | .fmov =>
    let aUnpack ← float32UnpackUnpack (fields.muxB &&& 0x3)
    return { instr with
      outputPack := OutputPack.ofNum (((fields.opcode &&& 1) <<< 1) + ((fields.muxB >>> 2) &&& 1))
      aUnpack := aUnpack }
  | _ => return { instr with outputPack := .none, aUnpack := .none, bUnpack := .none }

/-- `v3d_qpu_mul_unpack`. -/
def mulUnpack (packed : BitVec 64) (instr : Alu MulOp) : Option (Alu MulOp) :=
  mulFieldsUnpack
    { opcode := field packed 63 58
      muxA := field packed 20 18
      muxB := field packed 23 21
      waddr := field packed 43 38 }
    (field packed 45 45 ≠ 0) instr

/-! ### Instructions -/

/-- `v3d_qpu_instr_unpack_alu`. -/
def instrUnpackAlu (packed : BitVec 64) (instr : AluInstr) : Option AluInstr := do
  let sig ← sigUnpack (field packed 57 53)
  let flags ← flagsUnpack (field packed 52 46)
  let add ← addUnpack packed instr.add
  let mul ← mulUnpack packed instr.mul
  return {
    sig := sig
    raddrA := field packed 11 6
    raddrB := field packed 5 0
    flags := flags
    add := add
    mul := mul }

/-- `v3d_qpu_instr_unpack_branch`.  The numbers are unsigned, so that a condition of 1 wraps around
to `V3D_QPU_BRANCH_COND_ALWAYS`. -/
def instrUnpackBranch (packed : BitVec 64) (instr : BranchInstr) : Option BranchInstr :=
  let cond := field packed 34 32
  let msfign := field packed 22 21
  let ub := decide (field packed 14 14 ≠ 0)
  if msfign = 3 then none
  else some {
    cond := if cond ≤ 1 then .always else BranchCond.ofNum (BranchCond.a0.num + (cond - 2))
    msfign := Msfign.ofNum msfign
    bdi := BranchDest.ofNum (field packed 13 12)
    bdu := if ub then BranchDest.ofNum (field packed 17 15) else instr.bdu
    ub := ub
    raddrA := field packed 11 6
    offset := (field packed 55 35 <<< 3) + (field packed 31 24 <<< 24) }

/-- `v3d_qpu_instr_unpack`; the memory that is filled in is an ALU instruction, or a branch. -/
def instrUnpack (packed : BitVec 64) (alu : AluInstr) (branch : BranchInstr) : Option Instr :=
  if field packed 63 58 ≠ 0 then (instrUnpackAlu packed alu).map .alu
  else if field packed 57 53 &&& 24 = 16 then (instrUnpackBranch packed branch).map .branch
  else none

/-- `v3d_qpu_instr_pack_alu`. -/
def instrPackAlu (instr : AluInstr) (packed : BitVec 64) : Option (BitVec 64) := do
  let sig ← sigPack instr.sig
  let packed ← addField packed 57 53 sig
  let packed ← addField packed 11 6 instr.raddrA
  let packed ← addField packed 5 0 instr.raddrB
  let packed ← addPack instr.add packed
  let packed ← mulPack instr.mul packed
  let flags ← flagsPack instr.flags
  addField packed 52 46 flags

/-- `v3d_qpu_instr_pack_branch`. -/
def instrPackBranch (instr : BranchInstr) (packed : BitVec 64) : Option (BitVec 64) := do
  let packed ← addField packed 57 53 16
  let packed ←
    if instr.cond ≠ .always then addField packed 34 32 (2 + (instr.cond.num - BranchCond.a0.num))
    else some packed
  let packed ← addField packed 22 21 instr.msfign.num
  let packed ← addField packed 13 12 instr.bdi.num
  let packed ←
    if instr.ub then do
      let packed ← addField packed 14 14 1
      addField packed 17 15 instr.bdu.num
    else some packed
  match instr.bdi with
  | .abs | .rel =>
    let packed ← addField packed 22 21 instr.msfign.num
    let packed ← addField packed 55 35 ((instr.offset &&& 0xffffff) >>> 3)
    let packed ← addField packed 31 24 (instr.offset >>> 24)
    addField packed 11 6 instr.raddrA
  | .regfile => addField packed 11 6 instr.raddrA
  | _ => some packed

/-- `v3d_qpu_instr_pack`. -/
def instrPack : Instr → Option (BitVec 64)
  | .alu instr => instrPackAlu instr 0#64
  | .branch instr => instrPackBranch instr 0#64

end Qpu

end Broadcom
