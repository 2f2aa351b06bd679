import Mathlib.Data.List.Sort
import Mesa.Nir.LoopAnalyze

/-!
# The instruction set

The hash and the equality of `nir_instr_set.c`, and what the instructions compute.

An SSA value or a block is known by its address.  The tables `nir_op_infos` and
`nir_intrinsic_infos` are generated, and stand as a parameter.  The arrays of sources are functions
from indices, of which as many are used as the tables or the instruction say.
-/

namespace Nir.InstrSet

/-! ### Instructions -/

/-- What the passes read of `nir_op_info`. -/
structure OpInfo where
  numInputs : ℕ
  outputType : AluType
  inputSizes : ℕ → ℕ
  inputTypes : ℕ → AluType
  commutative : Bool

/-- What the passes read of `nir_intrinsic_info`. -/
structure IntrinsicInfo where
  numSrcs : ℕ
  hasDest : Bool
  numVariables : ℕ
  numIndices : ℕ
  canEliminate : Bool
  canReorder : Bool

/-- The tables.  Every commutative opcode has two inputs of one size and type. -/
structure Infos where
  ops : ℕ → OpInfo
  intrinsics : ℕ → IntrinsicInfo
  comm_inputs : ∀ op, (ops op).commutative = true →
    (ops op).numInputs = 2 ∧ (ops op).inputSizes 0 = (ops op).inputSizes 1 ∧
      (ops op).inputTypes 0 = (ops op).inputTypes 1

/-- `nir_ssa_def`. -/
structure Def where
  addr : ℕ
  numComponents : ℕ
  bitSize : ℕ

/-- `nir_alu_src`. -/
structure AluSrc where
  src : ℕ
  negate : Bool
  abs : Bool
  swizzle : ℕ → ℕ

/-- `nir_alu_instr`, with its `nir_alu_dest`. -/
structure AluInstr where
  op : ℕ
  exact : Bool
  dest : Def
  saturate : Bool
  writeMask : ℕ
  src : ℕ → AluSrc

/-- `glsl_sampler_dim`. -/
inductive SamplerDim where
  | dim1D | dim2D | dim3D | cube | rect | buf | external | ms | subpass | subpassMs
deriving DecidableEq

/-- `nir_texop`. -/
inductive TexOp where
  | tex | txb | txl | txd | txf | txfMs | txfMsMcs | txs | lod | tg4 | queryLevels
  | textureSamples | samplesIdentical
deriving DecidableEq

/-- The fields of `nir_tex_instr` other than its destination and its sources. -/
@[ext]
structure TexFields where
  samplerDim : SamplerDim
  destType : ℕ
  op : TexOp
  coordComponents : ℕ
  isArray : Bool
  isShadow : Bool
  isNewStyleShadow : Bool
  component : ℕ
  textureIndex : ℕ
  textureArraySize : ℕ
  samplerIndex : ℕ
  texture : Option ℕ
  sampler : Option ℕ

/-- `nir_tex_src`. -/
structure TexSrc where
  src : ℕ
  srcType : ℕ
deriving DecidableEq

/-- `nir_tex_instr`. -/
structure TexInstr where
  fields : TexFields
  dest : Def
  numSrcs : ℕ
  src : ℕ → TexSrc

/-- `nir_load_const_instr`, with the bytes of its `nir_const_value`. -/
structure LoadConstInstr where
  dest : Def
  value : ℕ → BitVec 8

/-- `nir_phi_src`. -/
structure PhiSrc where
  pred : ℕ
  src : ℕ
deriving DecidableEq

/-- `nir_phi_instr`, with the block it is in. -/
structure PhiInstr where
  block : ℕ
  dest : Def
  srcs : List PhiSrc

/-- `nir_intrinsic_instr`. -/
structure IntrinsicInstr where
  intrinsic : ℕ
  dest : Def
  numComponents : ℕ
  constIndex : ℕ → BitVec 32
  derefVars : ℕ → ℕ
  src : ℕ → ℕ

/-- `nir_instr`.  The types that are never handed to the hash and the equality are one. -/
inductive Instr where
  | alu (instr : AluInstr)
  | tex (instr : TexInstr)
  | loadConst (instr : LoadConstInstr)
  | phi (instr : PhiInstr)
  | intrinsic (instr : IntrinsicInstr)
  | other (kind : ℕ) (dest : Option Def) (srcs : List ℕ)

section Tables

variable (T : Infos)

/-- `nir_ssa_alu_instr_src_components`. -/
def ssaAluInstrSrcComponents (instr : AluInstr) (src : ℕ) : ℕ :=
  if 0 < (T.ops instr.op).inputSizes src then (T.ops instr.op).inputSizes src
  else instr.dest.numComponents

/-- `nir_tex_instr_dest_size`. -/
def texInstrDestSize (f : TexFields) : ℕ :=
  match f.op with
  | .txs =>
      (match f.samplerDim with
        | .dim1D | .buf => 1
        | .dim3D => 3
        | _ => 2) + (if f.isArray then 1 else 0)
  | .lod => 2
  | .textureSamples | .queryLevels | .samplesIdentical => 1
  | _ => if f.isShadow && f.isNewStyleShadow then 1 else 4

/-- `instr_can_rewrite`, for instructions whose sources and destinations are SSA values. -/
def instrCanRewrite : Instr → Bool
  | .alu _ | .loadConst _ | .phi _ => true
  | .tex i => i.fields.texture.isNone && i.fields.sampler.isNone
  | .intrinsic i =>
      (T.intrinsics i.intrinsic).canEliminate && (T.intrinsics i.intrinsic).canReorder &&
        (T.intrinsics i.intrinsic).numVariables == 0
  | .other _ _ _ => false

/-! ### Hash -/

/-- `_mesa_fnv32_1a_accumulate_block`. -/
def fnvAccumulateBlock (hash : BitVec 32) (data : List (BitVec 8)) : BitVec 32 :=
  data.foldl (fun hash byte => (hash ^^^ byte.setWidth 32) * 0x01000193#32) hash

/-- The bytes of an integer that takes `size` of them. -/
def bytes (size n : ℕ) : List (BitVec 8) :=
  (List.range size).map (fun k => BitVec.ofNat 8 (n / 256 ^ k))

/-- `HASH` of an integer that takes `size` bytes. -/
def hashInt (size : ℕ) (hash : BitVec 32) (n : ℕ) : BitVec 32 :=
  fnvAccumulateBlock hash (bytes size n)

/-- `hash_src`. -/
def hashSrc (hash : BitVec 32) (src : ℕ) : BitVec 32 := hashInt 8 hash src

/-- `hash_alu_src`. -/
def hashAluSrc (hash : BitVec 32) (src : AluSrc) (numComponents : ℕ) : BitVec 32 :=
  let hash := hashInt 1 hash src.abs.toNat
  let hash := hashInt 1 hash src.negate.toNat
  let hash := (List.range numComponents).foldl (fun hash i => hashInt 1 hash (src.swizzle i)) hash
  hashSrc hash src.src

/-- `hash_alu`. -/
def hashAlu (hash : BitVec 32) (instr : AluInstr) : BitVec 32 :=
  let hash := hashInt 4 hash instr.op
  let hash := hashInt 1 hash instr.dest.numComponents
  let hash := hashInt 1 hash instr.dest.bitSize
  if (T.ops instr.op).commutative then
    let hash0 := hashAluSrc hash (instr.src 0) (ssaAluInstrSrcComponents T instr 0)
    let hash1 := hashAluSrc hash (instr.src 1) (ssaAluInstrSrcComponents T instr 1)
    hash0 * hash1
  else
    (List.range (T.ops instr.op).numInputs).foldl
      (fun hash i => hashAluSrc hash (instr.src i) (ssaAluInstrSrcComponents T instr i)) hash

/-- `hash_load_const`. -/
def hashLoadConst (hash : BitVec 32) (instr : LoadConstInstr) : BitVec 32 :=
  let hash := hashInt 1 hash instr.dest.numComponents
  fnvAccumulateBlock hash
    ((List.range (instr.dest.numComponents * (instr.dest.bitSize / 8))).map instr.value)

/-- The order of the sources of a phi by `cmp_phi_src`. -/
def cmpPhiSrc (a b : PhiSrc) : Prop := a.pred ≤ b.pred

instance : DecidableRel cmpPhiSrc := fun a b => inferInstanceAs (Decidable (a.pred ≤ b.pred))

/-- `hash_phi`. -/
def hashPhi (hash : BitVec 32) (instr : PhiInstr) : BitVec 32 :=
  (instr.srcs.insertionSort cmpPhiSrc).foldl
    (fun hash src => hashInt 8 (hashSrc hash src.src) src.pred) (hashInt 8 hash instr.block)

/-- `hash_intrinsic`. -/
def hashIntrinsic (hash : BitVec 32) (instr : IntrinsicInstr) : BitVec 32 :=
  let info := T.intrinsics instr.intrinsic
  let hash := hashInt 4 hash instr.intrinsic
  let hash :=
    if info.hasDest then hashInt 1 (hashInt 1 hash instr.dest.numComponents) instr.dest.bitSize
    else hash
  (List.range info.numIndices).foldl (fun hash i => hashInt 4 hash (instr.constIndex i).toNat) hash

/-- `hash_tex`. -/
def hashTex (hash : BitVec 32) (instr : TexInstr) : BitVec 32 :=
  let f := instr.fields
  let hash := hashInt 4 hash f.op.ctorIdx
  let hash := hashInt 4 hash instr.numSrcs
  let hash := (List.range instr.numSrcs).foldl
    (fun hash i => hashSrc (hashInt 4 hash (instr.src i).srcType) (instr.src i).src) hash
  let hash := hashInt 4 hash f.coordComponents
  let hash := hashInt 4 hash f.samplerDim.ctorIdx
  let hash := hashInt 1 hash f.isArray.toNat
  let hash := hashInt 1 hash f.isShadow.toNat
  let hash := hashInt 1 hash f.isNewStyleShadow.toNat
  let hash := hashInt 4 hash f.component
  let hash := hashInt 4 hash f.textureIndex
  let hash := hashInt 4 hash f.textureArraySize
  hashInt 4 hash f.samplerIndex

/-- `hash_instr`, which is not called for other instructions. -/
def hashInstr (instr : Instr) : BitVec 32 :=
  let hash := 2166136261#32
  match instr with
  | .alu i => hashAlu T hash i
  | .loadConst i => hashLoadConst hash i
  | .phi i => hashPhi hash i
  | .intrinsic i => hashIntrinsic T hash i
  | .tex i => hashTex hash i
  | .other _ _ _ => hash

/-! ### Equality -/

/-- `nir_alu_srcs_equal`. -/
def aluSrcsEqual (alu1 alu2 : AluInstr) (src1 src2 : ℕ) : Bool :=
  if (alu1.src src1).abs ≠ (alu2.src src2).abs ∨ (alu1.src src1).negate ≠ (alu2.src src2).negate
  then false
  else if ∀ i < ssaAluInstrSrcComponents T alu1 src1,
      (alu1.src src1).swizzle i = (alu2.src src2).swizzle i
  then (alu1.src src1).src == (alu2.src src2).src
  else false

/-- The case `nir_instr_type_alu` of `nir_instrs_equal`. -/
def aluInstrsEqual (alu1 alu2 : AluInstr) : Bool :=
  if alu1.op ≠ alu2.op then false
  else if alu1.dest.numComponents ≠ alu2.dest.numComponents then false
  else if alu1.dest.bitSize ≠ alu2.dest.bitSize then false
  else if (T.ops alu1.op).commutative then
    (aluSrcsEqual T alu1 alu2 0 0 && aluSrcsEqual T alu1 alu2 1 1) ||
      (aluSrcsEqual T alu1 alu2 0 1 && aluSrcsEqual T alu1 alu2 1 0)
  else decide (∀ i < (T.ops alu1.op).numInputs, aluSrcsEqual T alu1 alu2 i i = true)

/-- The case `nir_instr_type_tex` of `nir_instrs_equal`. -/
def texInstrsEqual (tex1 tex2 : TexInstr) : Bool :=
  if tex1.fields.op ≠ tex2.fields.op then false
  else if tex1.numSrcs ≠ tex2.numSrcs then false
  else if ¬∀ i < tex1.numSrcs, (tex1.src i).srcType = (tex2.src i).srcType ∧
      (tex1.src i).src = (tex2.src i).src
  then false
  else if tex1.fields.coordComponents ≠ tex2.fields.coordComponents ∨
      tex1.fields.samplerDim ≠ tex2.fields.samplerDim ∨
      tex1.fields.isArray ≠ tex2.fields.isArray ∨
      tex1.fields.isShadow ≠ tex2.fields.isShadow ∨
      tex1.fields.isNewStyleShadow ≠ tex2.fields.isNewStyleShadow ∨
      tex1.fields.component ≠ tex2.fields.component ∨
      tex1.fields.textureIndex ≠ tex2.fields.textureIndex ∨
      tex1.fields.textureArraySize ≠ tex2.fields.textureArraySize ∨
      tex1.fields.samplerIndex ≠ tex2.fields.samplerIndex
  then false
  else true

/-- The case `nir_instr_type_load_const` of `nir_instrs_equal`. -/
def loadConstInstrsEqual (load1 load2 : LoadConstInstr) : Bool :=
  if load1.dest.numComponents ≠ load2.dest.numComponents then false
  else if load1.dest.bitSize ≠ load2.dest.bitSize then false
  else decide (∀ k < load1.dest.numComponents * (load1.dest.bitSize / 8),
    load1.value k = load2.value k)

/-- The case `nir_instr_type_phi` of `nir_instrs_equal`: a source is compared with the first one of
the other phi with the same predecessor. -/
def phiInstrsEqual (phi1 phi2 : PhiInstr) : Bool :=
  if phi1.block ≠ phi2.block then false
  else phi1.srcs.all (fun src1 =>
    match phi2.srcs.find? (fun src2 => src1.pred == src2.pred) with
    | some src2 => src1.src == src2.src
    | none => true)

/-- The case `nir_instr_type_intrinsic` of `nir_instrs_equal`. -/
def intrinsicInstrsEqual (i1 i2 : IntrinsicInstr) : Bool :=
  let info := T.intrinsics i1.intrinsic
  if i1.intrinsic ≠ i2.intrinsic ∨ i1.numComponents ≠ i2.numComponents then false
  else if info.hasDest ∧ i1.dest.numComponents ≠ i2.dest.numComponents then false
  else if info.hasDest ∧ i1.dest.bitSize ≠ i2.dest.bitSize then false
  else if ¬∀ i < info.numSrcs, i1.src i = i2.src i then false
  else decide (∀ i < info.numIndices, i1.constIndex i = i2.constIndex i)

/-- `nir_instrs_equal`. -/
def instrsEqual : Instr → Instr → Bool
  | .alu alu1, .alu alu2 => aluInstrsEqual T alu1 alu2
  | .tex tex1, .tex tex2 => texInstrsEqual tex1 tex2
  | .loadConst load1, .loadConst load2 => loadConstInstrsEqual load1 load2
  | .phi phi1, .phi phi2 => phiInstrsEqual phi1 phi2
  | .intrinsic i1, .intrinsic i2 => intrinsicInstrsEqual T i1 i2
  | _, _ => false

end Tables

/-! ### Values -/

/-- An SSA value: the bits of each component. -/
structure Value where
  bitSize : ℕ
  comps : List ℕ
deriving DecidableEq

/-- The number one. -/
def floatOne (bitSize : ℕ) : ℕ :=
  if bitSize = 64 then 0x3ff0000000000000 else if bitSize = 16 then 0x3c00 else 0x3f800000

/-- Infinity. -/
def floatInf (bitSize : ℕ) : ℕ :=
  if bitSize = 64 then 0x7ff0000000000000 else if bitSize = 16 then 0x7c00 else 0x7f800000

/-- The output modifier `saturate`, as the opcode `fsat`: numbers above one become one and those
not above zero become zero, and what is not a number stays. -/
def fsat (bitSize x : ℕ) : ℕ :=
  if x < 2 ^ (bitSize - 1) then
    if floatOne bitSize < x ∧ x ≤ floatInf bitSize then floatOne bitSize else x
  else if x ≤ 2 ^ (bitSize - 1) + floatInf bitSize then 0 else x

/-- The input modifier `abs`. -/
def absMod (type : AluType) (bitSize x : ℕ) : ℕ :=
  match type with
  | .float => x % 2 ^ (bitSize - 1)
  | .int => if x < 2 ^ (bitSize - 1) then x else 2 ^ bitSize - x
  | .uint | .bool => x

/-- The input modifier `negate`. -/
def negateMod (type : AluType) (bitSize x : ℕ) : ℕ :=
  match type with
  | .float => if x < 2 ^ (bitSize - 1) then x + 2 ^ (bitSize - 1) else x - 2 ^ (bitSize - 1)
  | .int => (2 ^ bitSize - x) % 2 ^ bitSize
  | .uint | .bool => x

/-- What the opcodes compute.  An opcode that is marked as commutative is; an intrinsic that can be
eliminated and reordered depends on its sources only, and does nothing else. -/
structure Meaning (T : Infos) (Mem : Type*) where
  alu : (op numComponents bitSize : ℕ) → List Value → List ℕ
  alu_comm : ∀ op n b x y, (T.ops op).commutative = true → alu op n b [x, y] = alu op n b [y, x]
  tex : TexFields → (numComponents : ℕ) → List (ℕ × Value) → List ℕ
  intrinsic : (op numComponents : ℕ) → List (BitVec 32) → List ℕ → (destComponents : ℕ) →
    List Value → Mem → List ℕ × Mem
  intrinsic_reorder : ∀ op n indices vars d srcs, (T.intrinsics op).canEliminate = true →
    (T.intrinsics op).canReorder = true →
    ∃ v, ∀ mem, intrinsic op n indices vars d srcs mem = (v, mem)
  other : ℕ → List Value → Mem → Value × Mem

/-- The values of the SSA values. -/
abbrev Env := ℕ → Value

section Execution

variable {T : Infos} {Mem : Type*} (M : Meaning T Mem)

/-- A source of an ALU instruction, swizzled and modified. -/
def aluSrcValue (T : Infos) (env : Env) (instr : AluInstr) (i : ℕ) : Value :=
  let src := instr.src i
  let v := env src.src
  let type := (T.ops instr.op).inputTypes i
  ⟨v.bitSize, (List.range (ssaAluInstrSrcComponents T instr i)).map (fun c =>
    let x := v.comps.getD (src.swizzle c) 0
    let x := if src.abs then absMod type v.bitSize x else x
    if src.negate then negateMod type v.bitSize x else x)⟩

/-- The result of an ALU instruction.  The write mask is ignored. -/
def aluValue (env : Env) (instr : AluInstr) : Value :=
  let comps := M.alu instr.op instr.dest.numComponents instr.dest.bitSize
    ((List.range (T.ops instr.op).numInputs).map (aluSrcValue T env instr))
  ⟨instr.dest.bitSize, if instr.saturate then comps.map (fsat instr.dest.bitSize) else comps⟩

/-- The result of a texture instruction. -/
def texValue (env : Env) (instr : TexInstr) : Value :=
  ⟨instr.dest.bitSize, M.tex instr.fields instr.dest.numComponents
    ((List.range instr.numSrcs).map (fun i => ((instr.src i).srcType, env (instr.src i).src)))⟩

/-- A constant. -/
def loadConstValue (instr : LoadConstInstr) : Value :=
  let size := instr.dest.bitSize / 8
  ⟨instr.dest.bitSize, (List.range instr.dest.numComponents).map (fun c =>
    ((List.range size).map (fun k => (instr.value (c * size + k)).toNat * 256 ^ k)).sum)⟩

/-- The source of a phi for the block that control comes from. -/
def phiValue (env : Env) (prev : Option ℕ) (instr : PhiInstr) : Value :=
  match instr.srcs.find? (fun src => some src.pred == prev) with
  | some src => env src.src
  | none => ⟨0, []⟩

/-- The result of an intrinsic, and what it does. -/
def intrinsicValue (env : Env) (mem : Mem) (instr : IntrinsicInstr) : Value × Mem :=
  let info := T.intrinsics instr.intrinsic
  let r := M.intrinsic instr.intrinsic instr.numComponents
    ((List.range info.numIndices).map instr.constIndex)
    ((List.range info.numVariables).map instr.derefVars)
    (if info.hasDest then instr.dest.numComponents else 0)
    ((List.range info.numSrcs).map (fun i => env (instr.src i))) mem
  (⟨if info.hasDest then instr.dest.bitSize else 0, r.1⟩, r.2)

/-- An instruction is executed with the values `env`; a phi takes its source from the values at the
start of its block, where control has come from `prev`. -/
def Instr.exec (start env : Env) (prev : Option ℕ) (mem : Mem) : Instr → Value × Mem
  | .alu i => (aluValue M env i, mem)
  | .tex i => (texValue M env i, mem)
  | .loadConst i => (loadConstValue i, mem)
  | .phi i => (phiValue start prev i, mem)
  | .intrinsic i => intrinsicValue M env mem i
  | .other kind _ srcs => M.other kind (srcs.map env) mem

/-- What `nir_validate` says of an instruction, where `preds` are the predecessors of a block. -/
def Instr.Valid (T : Infos) (preds : ℕ → List ℕ) : Instr → Prop
  | .alu i => 0 < i.dest.numComponents ∧
      (i.saturate = true → (T.ops i.op).outputType = .float) ∧
      ((T.ops i.op).outputType = .float →
        i.dest.bitSize = 16 ∨ i.dest.bitSize = 32 ∨ i.dest.bitSize = 64)
  | .tex i => i.dest.numComponents = texInstrDestSize i.fields
  | .phi i => (i.srcs.map PhiSrc.pred).Nodup ∧
      ∀ p, p ∈ i.srcs.map PhiSrc.pred ↔ p ∈ preds i.block
  | .loadConst _ | .intrinsic _ | .other _ _ _ => True

/-- The fields that the equality leaves out: the output modifier of ALU instructions, and the result
type and bit size of texture instructions. -/
def SameResult : Instr → Instr → Prop
  | .alu i, .alu j => i.saturate = j.saturate
  | .tex i, .tex j => i.fields.destType = j.fields.destType ∧ i.dest.bitSize = j.dest.bitSize
  | _, _ => True

end Execution

/-! ### ALU instructions -/

section Alu

variable {T : Infos} {i j : AluInstr}

theorem aluSrcsEqual_iff {k l : ℕ} :
  aluSrcsEqual T i j k l = true ↔
    (i.src k).abs = (j.src l).abs ∧ (i.src k).negate = (j.src l).negate ∧
    (∀ c < ssaAluInstrSrcComponents T i k, (i.src k).swizzle c = (j.src l).swizzle c) ∧
    (i.src k).src = (j.src l).src
  := by
  rw [aluSrcsEqual]
  split_ifs with hmods hswizzle
  · simp only [false_iff]
    rintro ⟨habs, hneg, -⟩
    rcases hmods with h | h
    · exact h habs
    · exact h hneg
  · rw [not_or, not_not, not_not] at hmods
    rw [beq_iff_eq]
    constructor
    · intro hsrc
      exact ⟨hmods.1, hmods.2, hswizzle, hsrc⟩
    · intro h
      exact h.2.2.2
  · simp only [false_iff]
    intro h
    exact hswizzle h.2.2.1

/-- Equal sources have the same hash. -/
theorem hashAluSrc_congr {k l : ℕ} (h : aluSrcsEqual T i j k l = true)
  (hcomps : ssaAluInstrSrcComponents T i k = ssaAluInstrSrcComponents T j l) (hash : BitVec 32) :
  hashAluSrc hash (i.src k) (ssaAluInstrSrcComponents T i k) =
    hashAluSrc hash (j.src l) (ssaAluInstrSrcComponents T j l)
  := by
  obtain ⟨habs, hneg, hswizzle, hsrc⟩ := aluSrcsEqual_iff.mp h
  have hfold : ∀ hash : BitVec 32,
      (List.range (ssaAluInstrSrcComponents T i k)).foldl
        (fun hash c => hashInt 1 hash ((i.src k).swizzle c)) hash =
      (List.range (ssaAluInstrSrcComponents T i k)).foldl
        (fun hash c => hashInt 1 hash ((j.src l).swizzle c)) hash := by
    intro hash
    apply List.foldl_ext
    intro hash c hc
    rw [hswizzle c (List.mem_range.mp hc)]
  simp only [hashAluSrc, habs, hneg, hsrc, ← hcomps, hfold]

/-- Equal sources have the same value. -/
theorem aluSrcValue_congr {k l : ℕ} (h : aluSrcsEqual T i j k l = true)
  (hcomps : ssaAluInstrSrcComponents T i k = ssaAluInstrSrcComponents T j l)
  (htype : (T.ops i.op).inputTypes k = (T.ops j.op).inputTypes l) (env : Env) :
  aluSrcValue T env i k = aluSrcValue T env j l
  := by
  obtain ⟨habs, hneg, hswizzle, hsrc⟩ := aluSrcsEqual_iff.mp h
  rw [aluSrcValue, aluSrcValue]
  simp only [habs, hneg, hsrc, htype, ← hcomps, Value.mk.injEq, true_and]
  apply List.map_congr_left
  intro c hc
  rw [hswizzle c (List.mem_range.mp hc)]

/-- Equal ALU instructions have the same shape, and the same sources, perhaps in another order. -/
theorem aluInstrsEqual_cases (h : aluInstrsEqual T i j = true) :
  i.op = j.op ∧ i.dest.numComponents = j.dest.numComponents ∧ i.dest.bitSize = j.dest.bitSize ∧
    (((T.ops i.op).commutative = true ∧
        ((aluSrcsEqual T i j 0 0 = true ∧ aluSrcsEqual T i j 1 1 = true) ∨
          (aluSrcsEqual T i j 0 1 = true ∧ aluSrcsEqual T i j 1 0 = true))) ∨
      ((T.ops i.op).commutative = false ∧
        ∀ k < (T.ops i.op).numInputs, aluSrcsEqual T i j k k = true))
  := by
  rw [aluInstrsEqual] at h
  split_ifs at h with hop hcomps hbits hcomm
  · refine ⟨not_not.mp hop, not_not.mp hcomps, not_not.mp hbits, ?_⟩
    left
    simpa [hcomm] using h
  · refine ⟨not_not.mp hop, not_not.mp hcomps, not_not.mp hbits, ?_⟩
    right
    simpa [hcomm] using h

/-- The components of a source depend on the opcode and the destination. -/
theorem ssaAluInstrSrcComponents_congr {k l : ℕ} (hop : i.op = j.op)
  (hcomps : i.dest.numComponents = j.dest.numComponents)
  (hsize : (T.ops j.op).inputSizes k = (T.ops j.op).inputSizes l) :
  ssaAluInstrSrcComponents T i k = ssaAluInstrSrcComponents T j l
  := by
  rw [ssaAluInstrSrcComponents, ssaAluInstrSrcComponents, hop, hcomps, hsize]

theorem hashAlu_congr (h : aluInstrsEqual T i j = true) (hash : BitVec 32) :
  hashAlu T hash i = hashAlu T hash j
  := by
  obtain ⟨hop, hcomps, hbits, hsrcs⟩ := aluInstrsEqual_cases h
  have hsame := fun k => ssaAluInstrSrcComponents_congr (T := T) (k := k) (l := k) hop hcomps rfl
  rcases hsrcs with ⟨hcomm, hsrcs⟩ | ⟨hcomm, hsrcs⟩
  · have hcomm' : (T.ops j.op).commutative = true := hop ▸ hcomm
    obtain ⟨-, hsize, -⟩ := T.comm_inputs j.op hcomm'
    simp only [hashAlu, hcomm, hcomm', if_true]
    rcases hsrcs with ⟨h0, h1⟩ | ⟨h01, h10⟩
    · rw [hashAluSrc_congr h0 (hsame 0), hashAluSrc_congr h1 (hsame 1), hop, hcomps, hbits]
    · rw [hashAluSrc_congr h01 (ssaAluInstrSrcComponents_congr hop hcomps hsize),
        hashAluSrc_congr h10 (ssaAluInstrSrcComponents_congr hop hcomps hsize.symm), hop, hcomps,
        hbits, BitVec.mul_comm]
  · have hcomm' : (T.ops j.op).commutative = false := hop ▸ hcomm
    simp only [hashAlu, hcomm, hcomm', Bool.false_eq_true, if_false]
    rw [hop, hcomps, hbits]
    apply List.foldl_ext
    intro hash k hk
    rw [List.mem_range, ← hop] at hk
    exact hashAluSrc_congr (hsrcs k hk) (hsame k) hash

/-- Equal ALU instructions with the same output modifier have the same value. -/
theorem aluValue_congr {Mem : Type*} (M : Meaning T Mem) (h : aluInstrsEqual T i j = true)
  (hsat : i.saturate = j.saturate) (env : Env) :
  aluValue M env i = aluValue M env j
  := by
  obtain ⟨hop, hcomps, hbits, hsrcs⟩ := aluInstrsEqual_cases h
  have hsame := fun k => ssaAluInstrSrcComponents_congr (T := T) (k := k) (l := k) hop hcomps rfl
  have htype : ∀ k, (T.ops i.op).inputTypes k = (T.ops j.op).inputTypes k := by
    intro k
    rw [hop]
  have hargs : M.alu j.op j.dest.numComponents j.dest.bitSize
        ((List.range (T.ops j.op).numInputs).map (aluSrcValue T env i)) =
      M.alu j.op j.dest.numComponents j.dest.bitSize
        ((List.range (T.ops j.op).numInputs).map (aluSrcValue T env j)) := by
    rcases hsrcs with ⟨hcomm, hsrcs⟩ | ⟨-, hsrcs⟩
    · rw [hop] at hcomm
      obtain ⟨hnum, hsize, htypes⟩ := T.comm_inputs j.op hcomm
      have hrange : List.range 2 = [0, 1] := rfl
      rw [hnum, hrange]
      simp only [List.map_cons, List.map_nil]
      rcases hsrcs with ⟨h0, h1⟩ | ⟨h01, h10⟩
      · rw [aluSrcValue_congr h0 (hsame 0) (htype 0), aluSrcValue_congr h1 (hsame 1) (htype 1)]
      · rw [aluSrcValue_congr h01 (ssaAluInstrSrcComponents_congr hop hcomps hsize)
            ((htype 0).trans htypes),
          aluSrcValue_congr h10 (ssaAluInstrSrcComponents_congr hop hcomps hsize.symm)
            ((htype 1).trans htypes.symm), M.alu_comm _ _ _ _ _ hcomm]
    · congr 1
      apply List.map_congr_left
      intro k hk
      rw [List.mem_range, ← hop] at hk
      exact aluSrcValue_congr (hsrcs k hk) (hsame k) (htype k) env
  rw [aluValue, aluValue, hop, hcomps, hbits, hsat]
  simp only [hargs]

end Alu

/-! ### Phis -/

section Phi

/-- The sources of a phi have different predecessors. -/
theorem eq_of_pred_eq {l : List PhiSrc} (hnodup : (l.map PhiSrc.pred).Nodup) {s t : PhiSrc}
  (hs : s ∈ l) (ht : t ∈ l) (hpred : s.pred = t.pred) :
  s = t
  := by
  exact List.inj_on_of_nodup_map hnodup hs ht hpred

variable {T : Infos} {preds : ℕ → List ℕ} {i j : PhiInstr}

/-- Equal phis have the same sources. -/
theorem phiInstrsEqual_srcs (h : phiInstrsEqual i j = true) (hi : (Instr.phi i).Valid T preds)
  (hj : (Instr.phi j).Valid T preds) :
  i.block = j.block ∧ ∀ s, s ∈ i.srcs ↔ s ∈ j.srcs
  := by
  rw [phiInstrsEqual] at h
  split_ifs at h with hblock
  rw [not_not] at hblock
  rw [List.all_eq_true] at h
  obtain ⟨hnodup, hpreds⟩ := hi
  obtain ⟨hnodup', hpreds'⟩ := hj
  have hsub : ∀ s ∈ i.srcs, s ∈ j.srcs := by
    intro s hs
    have hmem : s.pred ∈ j.srcs.map PhiSrc.pred := by
      rw [hpreds', ← hblock, ← hpreds]
      exact List.mem_map_of_mem hs
    obtain ⟨t, ht, hpred⟩ := List.mem_map.mp hmem
    have hsrc := h s hs
    cases hfind : j.srcs.find? (fun t => s.pred == t.pred) with
    | none =>
        have hnot := List.find?_eq_none.mp hfind t ht
        exact absurd (beq_iff_eq.mpr hpred.symm) hnot
    | some u =>
        rw [hfind] at hsrc
        have hu : u ∈ j.srcs := List.mem_of_find?_eq_some hfind
        have hup : s.pred = u.pred := by
          simpa using List.find?_some hfind
        have heq : s = u := by
          cases s
          cases u
          simp_all
        rw [heq]
        exact hu
  refine ⟨hblock, ?_⟩
  intro s
  constructor
  · exact hsub s
  · intro hs
    have hmem : s.pred ∈ i.srcs.map PhiSrc.pred := by
      rw [hpreds, hblock, ← hpreds']
      exact List.mem_map_of_mem hs
    obtain ⟨t, ht, hpred⟩ := List.mem_map.mp hmem
    have heq := eq_of_pred_eq hnodup' (hsub t ht) hs hpred
    rw [← heq]
    exact ht

/-- The order in which the sources stand does not matter for the hash. -/
theorem hashPhi_congr (h : phiInstrsEqual i j = true) (hi : (Instr.phi i).Valid T preds)
  (hj : (Instr.phi j).Valid T preds) (hash : BitVec 32) :
  hashPhi hash i = hashPhi hash j
  := by
  obtain ⟨hblock, hsrcs⟩ := phiInstrsEqual_srcs h hi hj
  have : Std.Total cmpPhiSrc := ⟨fun a b => Nat.le_total a.pred b.pred⟩
  have : IsTrans PhiSrc cmpPhiSrc := ⟨fun a b c => Nat.le_trans⟩
  have hperm : i.srcs.Perm j.srcs :=
    (List.perm_ext_iff_of_nodup (List.Nodup.of_map _ hi.1) (List.Nodup.of_map _ hj.1)).mpr hsrcs
  have hsort : i.srcs.insertionSort cmpPhiSrc = j.srcs.insertionSort cmpPhiSrc := by
    refine List.Perm.eq_of_pairwise ?_ (List.pairwise_insertionSort cmpPhiSrc i.srcs)
      (List.pairwise_insertionSort cmpPhiSrc j.srcs) ?_
    · intro a b ha hb hab hba
      rw [List.mem_insertionSort] at ha hb
      exact eq_of_pred_eq hj.1 ((hsrcs a).mp ha) hb (Nat.le_antisymm hab hba)
    · exact (List.perm_insertionSort _ _).trans (hperm.trans (List.perm_insertionSort _ _).symm)
  rw [hashPhi, hashPhi, hsort, hblock]

/-- The source of a phi for a predecessor. -/
theorem find?_pred_eq_some_iff {l : List PhiSrc} (hnodup : (l.map PhiSrc.pred).Nodup)
  {prev : Option ℕ} {s : PhiSrc} :
  l.find? (fun src => some src.pred == prev) = some s ↔ s ∈ l ∧ some s.pred = prev
  := by
  constructor
  · intro h
    refine ⟨List.mem_of_find?_eq_some h, ?_⟩
    simpa using List.find?_some h
  · rintro ⟨hs, hprev⟩
    cases hfind : l.find? (fun src => some src.pred == prev) with
    | none =>
        have hnot := List.find?_eq_none.mp hfind s hs
        exact absurd (beq_iff_eq.mpr hprev) hnot
    | some t =>
        have ht : t ∈ l := List.mem_of_find?_eq_some hfind
        have hpred : some t.pred = prev := by
          simpa using List.find?_some hfind
        rw [eq_of_pred_eq hnodup ht hs (Option.some.inj (hpred.trans hprev.symm))]

theorem phiValue_congr (h : phiInstrsEqual i j = true) (hi : (Instr.phi i).Valid T preds)
  (hj : (Instr.phi j).Valid T preds) (env : Env) (prev : Option ℕ) :
  phiValue env prev i = phiValue env prev j
  := by
  obtain ⟨-, hsrcs⟩ := phiInstrsEqual_srcs h hi hj
  have hfind : i.srcs.find? (fun src => some src.pred == prev) =
      j.srcs.find? (fun src => some src.pred == prev) := by
    apply Option.ext
    intro s
    rw [find?_pred_eq_some_iff hi.1, find?_pred_eq_some_iff hj.1, hsrcs]
  rw [phiValue, phiValue, hfind]

end Phi

/-! ### The other instructions -/

section Rest

variable {T : Infos}

theorem loadConstInstrsEqual_iff {i j : LoadConstInstr} :
  loadConstInstrsEqual i j = true ↔
    i.dest.numComponents = j.dest.numComponents ∧ i.dest.bitSize = j.dest.bitSize ∧
    ∀ k < i.dest.numComponents * (i.dest.bitSize / 8), i.value k = j.value k
  := by
  rw [loadConstInstrsEqual]
  split_ifs with hcomps hbits
  · simp [hcomps]
  · simp [hbits]
  · rw [not_not] at hcomps hbits
    simp [hcomps, hbits]

theorem hashLoadConst_congr {i j : LoadConstInstr} (h : loadConstInstrsEqual i j = true)
  (hash : BitVec 32) :
  hashLoadConst hash i = hashLoadConst hash j
  := by
  rw [loadConstInstrsEqual_iff] at h
  obtain ⟨hcomps, hbits, hvalue⟩ := h
  have hmap : (List.range (i.dest.numComponents * (i.dest.bitSize / 8))).map i.value =
      (List.range (i.dest.numComponents * (i.dest.bitSize / 8))).map j.value := by
    apply List.map_congr_left
    intro k hk
    exact hvalue k (List.mem_range.mp hk)
  simp only [hashLoadConst, hmap]
  rw [hcomps, hbits]

theorem loadConstValue_congr {i j : LoadConstInstr} (h : loadConstInstrsEqual i j = true) :
  loadConstValue i = loadConstValue j
  := by
  rw [loadConstInstrsEqual_iff] at h
  obtain ⟨hcomps, hbits, hvalue⟩ := h
  simp only [loadConstValue, ← hcomps, ← hbits, Value.mk.injEq, true_and]
  apply List.map_congr_left
  intro c hc
  congr 1
  apply List.map_congr_left
  intro k hk
  rw [List.mem_range] at hc hk
  rw [hvalue]
  calc c * (i.dest.bitSize / 8) + k < c * (i.dest.bitSize / 8) + i.dest.bitSize / 8 := by omega
    _ = (c + 1) * (i.dest.bitSize / 8) := by rw [Nat.succ_mul]
    _ ≤ i.dest.numComponents * (i.dest.bitSize / 8) := Nat.mul_le_mul_right _ hc

theorem texInstrsEqual_cases {i j : TexInstr} (h : texInstrsEqual i j = true) :
  i.numSrcs = j.numSrcs ∧
    (∀ k < i.numSrcs, (i.src k).srcType = (j.src k).srcType ∧ (i.src k).src = (j.src k).src) ∧
    i.fields =
      { j.fields with
        destType := i.fields.destType, texture := i.fields.texture, sampler := i.fields.sampler }
  := by
  rw [texInstrsEqual] at h
  split_ifs at h with hop hnum hsrcs hfields
  simp only [not_or, not_not] at hop hnum hsrcs hfields
  obtain ⟨h1, h2, h3, h4, h5, h6, h7, h8, h9⟩ := hfields
  refine ⟨hnum, hsrcs, ?_⟩
  apply TexFields.ext <;> first | assumption | rfl

theorem hashTex_congr {i j : TexInstr} (h : texInstrsEqual i j = true) (hash : BitVec 32) :
  hashTex hash i = hashTex hash j
  := by
  obtain ⟨hnum, hsrcs, hfields⟩ := texInstrsEqual_cases h
  have hfold : ∀ hash : BitVec 32,
      (List.range i.numSrcs).foldl
        (fun hash k => hashSrc (hashInt 4 hash (i.src k).srcType) (i.src k).src) hash =
      (List.range i.numSrcs).foldl
        (fun hash k => hashSrc (hashInt 4 hash (j.src k).srcType) (j.src k).src) hash := by
    intro hash
    apply List.foldl_ext
    intro hash k hk
    obtain ⟨htype, hsrc⟩ := hsrcs k (List.mem_range.mp hk)
    rw [htype, hsrc]
  simp only [hashTex, hfold]
  rw [hfields, hnum]

/-- Equal texture instructions with the same result type and bit size have the same value. -/
theorem texValue_congr {Mem : Type*} (M : Meaning T Mem) {i j : TexInstr} {preds : ℕ → List ℕ}
  (h : texInstrsEqual i j = true) (hi : (Instr.tex i).Valid T preds)
  (hj : (Instr.tex j).Valid T preds) (hri : instrCanRewrite T (.tex i) = true)
  (hrj : instrCanRewrite T (.tex j) = true) (hsame : SameResult (.tex i) (.tex j)) (env : Env) :
  texValue M env i = texValue M env j
  := by
  obtain ⟨hnum, hsrcs, hfields⟩ := texInstrsEqual_cases h
  obtain ⟨htype, hbits⟩ := hsame
  have hfields' : i.fields = j.fields := by
    simp only [instrCanRewrite, Bool.and_eq_true, Option.isNone_iff_eq_none] at hri hrj
    have htexture : i.fields.texture = j.fields.texture := hri.1.trans hrj.1.symm
    have hsampler : i.fields.sampler = j.fields.sampler := hri.2.trans hrj.2.symm
    rw [hfields, htype, htexture, hsampler]
  have hcomps : i.dest.numComponents = j.dest.numComponents := by
    rw [hi, hj, hfields']
  have hargs : (List.range i.numSrcs).map (fun k => ((i.src k).srcType, env (i.src k).src)) =
      (List.range j.numSrcs).map (fun k => ((j.src k).srcType, env (j.src k).src)) := by
    rw [← hnum]
    apply List.map_congr_left
    intro k hk
    obtain ⟨htype, hsrc⟩ := hsrcs k (List.mem_range.mp hk)
    rw [htype, hsrc]
  rw [texValue, texValue, hfields', hcomps, hargs, hbits]

theorem intrinsicInstrsEqual_cases {i j : IntrinsicInstr} (h : intrinsicInstrsEqual T i j = true) :
  i.intrinsic = j.intrinsic ∧ i.numComponents = j.numComponents ∧
    ((T.intrinsics i.intrinsic).hasDest = true →
      i.dest.numComponents = j.dest.numComponents ∧ i.dest.bitSize = j.dest.bitSize) ∧
    (∀ k < (T.intrinsics i.intrinsic).numSrcs, i.src k = j.src k) ∧
    ∀ k < (T.intrinsics i.intrinsic).numIndices, i.constIndex k = j.constIndex k
  := by
  rw [intrinsicInstrsEqual] at h
  split_ifs at h with hop hcomps hbits hsrcs
  simp only [not_or, not_not] at hop
  refine ⟨hop.1, hop.2, ?_, hsrcs, of_decide_eq_true h⟩
  intro hdest
  simp only [hdest, true_and, not_not] at hcomps hbits
  exact ⟨hcomps, hbits⟩

theorem hashIntrinsic_congr {i j : IntrinsicInstr} (h : intrinsicInstrsEqual T i j = true)
  (hash : BitVec 32) :
  hashIntrinsic T hash i = hashIntrinsic T hash j
  := by
  obtain ⟨hop, -, hdest, -, hindices⟩ := intrinsicInstrsEqual_cases h
  have hfold : ∀ hash : BitVec 32,
      (List.range (T.intrinsics i.intrinsic).numIndices).foldl
        (fun hash k => hashInt 4 hash (i.constIndex k).toNat) hash =
      (List.range (T.intrinsics i.intrinsic).numIndices).foldl
        (fun hash k => hashInt 4 hash (j.constIndex k).toNat) hash := by
    intro hash
    apply List.foldl_ext
    intro hash k hk
    rw [hindices k (List.mem_range.mp hk)]
  simp only [hashIntrinsic, hfold, ← hop]
  by_cases hd : (T.intrinsics i.intrinsic).hasDest = true
  · obtain ⟨hcomps, hbits⟩ := hdest hd
    rw [hcomps, hbits]
  · simp only [hd, Bool.false_eq_true, if_false]

theorem intrinsicValue_congr {Mem : Type*} (M : Meaning T Mem) {i j : IntrinsicInstr}
  (h : intrinsicInstrsEqual T i j = true) (hr : instrCanRewrite T (.intrinsic i) = true)
  (env : Env) (mem : Mem) :
  intrinsicValue M env mem i = intrinsicValue M env mem j
  := by
  obtain ⟨hop, hnum, hdest, hsrcs, hindices⟩ := intrinsicInstrsEqual_cases h
  have hvars : (T.intrinsics i.intrinsic).numVariables = 0 := by
    simp only [instrCanRewrite, Bool.and_eq_true, beq_iff_eq] at hr
    exact hr.2
  have hidx : (List.range (T.intrinsics i.intrinsic).numIndices).map i.constIndex =
      (List.range (T.intrinsics i.intrinsic).numIndices).map j.constIndex := by
    apply List.map_congr_left
    intro k hk
    exact hindices k (List.mem_range.mp hk)
  have hargs : (List.range (T.intrinsics i.intrinsic).numSrcs).map (fun k => env (i.src k)) =
      (List.range (T.intrinsics i.intrinsic).numSrcs).map (fun k => env (j.src k)) := by
    apply List.map_congr_left
    intro k hk
    rw [hsrcs k (List.mem_range.mp hk)]
  simp only [intrinsicValue, hidx, hargs, ← hop, hnum, hvars, List.range_zero, List.map_nil]
  by_cases hd : (T.intrinsics i.intrinsic).hasDest = true
  · obtain ⟨hcomps, hbits⟩ := hdest hd
    rw [hcomps, hbits]
  · simp only [hd, Bool.false_eq_true, if_false]

end Rest

/-! ### Equal instructions -/

section Equal

variable {T : Infos} {preds : ℕ → List ℕ} {i j : Instr}

/-- Instructions that are equal have the same hash. -/
theorem hashInstr_congr (h : instrsEqual T i j = true) (hi : i.Valid T preds)
  (hj : j.Valid T preds) :
  hashInstr T i = hashInstr T j
  := by
  cases i <;> cases j <;> simp only [instrsEqual, Bool.false_eq_true] at h
  case alu.alu i j => exact hashAlu_congr h _
  case tex.tex i j => exact hashTex_congr h _
  case loadConst.loadConst i j => exact hashLoadConst_congr h _
  case phi.phi i j => exact hashPhi_congr h hi hj _
  case intrinsic.intrinsic i j => exact hashIntrinsic_congr h _

/-- Instructions that are equal, also in the fields the equality leaves out, do the same. -/
theorem exec_congr {Mem : Type*} (M : Meaning T Mem) (h : instrsEqual T i j = true)
  (hi : i.Valid T preds) (hj : j.Valid T preds) (hri : instrCanRewrite T i = true)
  (hrj : instrCanRewrite T j = true) (hsame : SameResult i j) (start env : Env)
  (prev : Option ℕ) (mem : Mem) :
  i.exec M start env prev mem = j.exec M start env prev mem
  := by
  cases i <;> cases j <;> simp only [instrsEqual, Bool.false_eq_true] at h
  case alu.alu i j => rw [Instr.exec, Instr.exec, aluValue_congr M h hsame]
  case tex.tex i j => rw [Instr.exec, Instr.exec, texValue_congr M h hi hj hri hrj hsame]
  case loadConst.loadConst i j => rw [Instr.exec, Instr.exec, loadConstValue_congr h]
  case phi.phi i j => rw [Instr.exec, Instr.exec, phiValue_congr h hi hj]
  case intrinsic.intrinsic i j => rw [Instr.exec, Instr.exec, intrinsicValue_congr M h hri]

end Equal

end Nir.InstrSet
