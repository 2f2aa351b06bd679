import Mesa.Data.BitRuns
import Mesa.Util.MarkedMap

/-!
# Ranges of uniform buffers

The pass of `brw_nir_analyze_ubo_ranges.c`, which decides what parts of uniform buffers are pushed
to a shader.  The loads with a constant block and offset are counted for each part of 32 bytes; the
runs of parts that are used are the ranges, and those with the best scores are returned.

The order in which the hash table is visited and the function that sorts the ranges are parameters.
-/

namespace Brw

open Util

/-- `struct brw_ubo_range`. -/
structure UboRange where
  block : ℕ
  start : ℕ
  length : ℕ
  deriving DecidableEq

/-- `struct ubo_range_entry`. -/
structure UboRangeEntry where
  range : UboRange
  benefit : ℤ
  deriving DecidableEq

/-- `score`. -/
def UboRangeEntry.score (entry : UboRangeEntry) : ℤ := 2 * entry.benefit - entry.range.length

/-- `cmp_ubo_range_entry`, whose last comparison is of the blocks once more. -/
def cmpUboRangeEntry (a b : UboRangeEntry) : ℤ :=
  let delta := b.score - a.score
  let delta := if delta = 0 then (b.range.block : ℤ) - a.range.block else delta
  if delta = 0 then (b.range.block : ℤ) - a.range.block else delta

/-- `struct ubo_block_info`; the uses are numbers of 8 bits. -/
structure UboBlockInfo where
  offsets : BitVec 64
  uses : ℕ → ℕ

/-- A block without loads, as `rzalloc` gives it. -/
def UboBlockInfo.zero : UboBlockInfo := ⟨0#64, fun _ => 0⟩

/-- One more load. -/
def UboBlockInfo.use (info : UboBlockInfo) (offset : ℕ) : UboBlockInfo :=
  { offsets := info.offsets ||| 1#64 <<< offset
    uses := Function.update info.uses offset ((info.uses offset + 1) % 2 ^ 8) }

/-- `struct ubo_analysis_state`, and the memory of the blocks that it points to. -/
structure UboAnalysisState where
  blocks : HashTable ℕ (Option ℕ)
  infos : List UboBlockInfo
  usesRegularUniforms : Bool

/-- What there is memory for: an array with the given number of entries, and the given block. -/
structure UboMemory where
  array : ℕ → Bool
  info : ℕ → Bool

/-- `get_block_info`: a pointer to the block.  There is no result where an assertion fails. -/
def getBlockInfo (memory : UboMemory) (state : UboAnalysisState) (block : ℕ) :
    Option (Option ℕ × UboAnalysisState) :=
  let hash := (block + 1) % 2 ^ 32
  (state.blocks.search HashTable.numberKeys hash hash).bind fun entry =>
    match entry with
    | some a => some ((state.blocks.dataAt (some a)).join, state)
    | none =>
      let new := state.infos.length
      let info := if memory.info new then some new else none
      if hash = 0 then none
      else (state.blocks.insert HashTable.numberKeys memory.array hash hash info).map fun r =>
        (info, { state with blocks := r.2, infos := state.infos ++ [.zero] })

/-- An instruction.  The sources of a load are there if they are constants. -/
inductive NirInstr where
  | loadUniform
  | loadUbo (block offset : Option ℕ)
  | other

/-- One round of the loop of `analyze_ubos_block`; there is no result where `NULL` is used. -/
def analyzeInstr (memory : UboMemory) (state : UboAnalysisState) :
    NirInstr → Option UboAnalysisState
  | .loadUniform => some { state with usesRegularUniforms := true }
  | .loadUbo (some block) (some offset) =>
    if offset / 32 ≥ 64 then some state
    else (getBlockInfo memory state block).bind fun r =>
      r.1.map fun info =>
        { r.2 with infos := r.2.infos.modify info fun info => info.use (offset / 32) }
  | _ => some state

/-- `analyze_ubos_block`. -/
def analyzeUbosBlock (memory : UboMemory) (state : UboAnalysisState) (block : List NirInstr) :
    Option UboAnalysisState :=
  block.foldlM (analyzeInstr memory) state

/-- `nir_shader`: the stage, and the blocks of the functions that have an implementation. -/
structure NirShader where
  stage : ℕ
  functions : List (Option (List (List NirInstr)))

/-- The loop of `brw_nir_analyze_ubo_ranges` over the functions. -/
def analyzeFunctions (memory : UboMemory) (state : UboAnalysisState) (nir : NirShader) :
    Option UboAnalysisState :=
  nir.functions.foldlM (fun state function =>
    match function with
    | none => some state
    | some blocks => blocks.foldlM (analyzeUbosBlock memory) state) state

/-- The range from the first bit to before the first hole. -/
def newRange (b : ℕ) (info : UboBlockInfo) (firstBit firstHole : ℕ) : UboRangeEntry :=
  let length := (firstHole - firstBit) % 2 ^ 8
  { range := ⟨b % 2 ^ 16, firstBit % 2 ^ 8, length⟩
    benefit := ((List.range length).map fun i => (info.uses (firstBit + i) : ℤ)).sum }

/-- The loop over the bits of a block; there is no result if it does not end within the given number
of rounds. -/
def findRanges (b : ℕ) (info : UboBlockInfo) :
    ℕ → BitVec 64 → List UboRangeEntry → Option (List UboRangeEntry)
  | 0, offsets, ranges => if offsets = 0#64 then some ranges else none
  | fuel + 1, offsets, ranges =>
    if offsets = 0#64 then some ranges
    else
      let firstBit := offsets.findFirstSet - 1
      let hole := (~~~offsets &&& ~~~(1#64 <<< firstBit - 1#64)).findFirstSet
      if hole = 0 then findRanges b info fuel 0#64 (ranges ++ [newRange b info firstBit 64])
      else
        findRanges b info fuel (offsets &&& ~~~(1#64 <<< (hole - 1) - 1#64))
          (ranges ++ [newRange b info firstBit (hole - 1)])

/-- The ranges of the blocks, in the order in which the entries are visited. -/
def blockRanges (infos : List UboBlockInfo) (entries : List (HashEntry ℕ (Option ℕ))) :
    Option (List UboRangeEntry) :=
  entries.foldlM (fun ranges entry =>
    (entry.data.bind fun info => infos[info]?).bind fun info =>
      findRanges (entry.hash - 1) info 64 info.offsets ranges) []

/-- What is read of `struct brw_compiler`. -/
structure BrwCompiler where
  gen : ℕ
  isHaswell : Bool
  scalarStage : ℕ → Bool
  constantBuffer0IsRelative : Bool

/-- Whether the pass returns no ranges without looking at the shader. -/
def pushesNothing (compiler : BrwCompiler) (stage : ℕ) : Bool :=
  (decide (compiler.gen ≤ 7) && !compiler.isHaswell) || !compiler.scalarStage stage

/-- `max_ubos`. -/
def maxUbos (compiler : BrwCompiler) (usesRegularUniforms : Bool) : ℕ :=
  (if compiler.constantBuffer0IsRelative then 3 else 4) - if usesRegularUniforms then 1 else 0

/-- The entry of `out_ranges` behind the ranges. -/
def noRange : UboRange := ⟨0, 0, 0⟩

/-- `brw_nir_analyze_ubo_ranges`: the contents of `out_ranges`. -/
def brwNirAnalyzeUboRanges (memory : UboMemory)
    (foreach : HashTable ℕ (Option ℕ) → List (HashEntry ℕ (Option ℕ)))
    (qsort : List UboRangeEntry → List UboRangeEntry) (compiler : BrwCompiler) (nir : NirShader) :
    Option (List UboRange) :=
  if pushesNothing compiler nir.stage then some (List.replicate 4 noRange)
  else
    (hashTableCreate ℕ (Option ℕ) memory.array).bind fun blocks =>
      (analyzeFunctions memory ⟨blocks, [], false⟩ nir).bind fun state =>
        (blockRanges state.infos (foreach state.blocks)).map fun ranges =>
          let nrEntries := min ranges.length (maxUbos compiler state.usesRegularUniforms)
          ((qsort ranges).take nrEntries).map UboRangeEntry.range ++
            List.replicate (4 - nrEntries) noRange

/-! ### What the pass is for -/

/-- The instructions that are visited. -/
def NirShader.instrs (nir : NirShader) : List NirInstr :=
  (nir.functions.map fun function => (function.getD []).flatten).flatten

/-- The block and the offset of a load where both are constants. -/
def NirInstr.constantLoad : NirInstr → Option (ℕ × ℕ)
  | .loadUbo (some block) (some offset) => some (block, offset)
  | _ => none

/-- The loads with a constant block and a constant offset. -/
def NirShader.loads (nir : NirShader) : List (ℕ × ℕ) := nir.instrs.filterMap NirInstr.constantLoad

/-- Whether uniforms that are not in a buffer are loaded. -/
def NirInstr.isLoadUniform : NirInstr → Bool
  | .loadUniform => true
  | _ => false

/-- Whether there are loads of uniforms that are not in a buffer. -/
def NirShader.usesRegularUniforms (nir : NirShader) : Bool := nir.instrs.any NirInstr.isLoadUniform

/-- The number of loads of a slot of 32 bytes. -/
def slotLoads (loads : List (ℕ × ℕ)) (block slot : ℕ) : ℕ :=
  loads.countP fun load => load.1 = block ∧ load.2 / 32 = slot

/-- A range is a maximal run of slots that are used, among the 64 slots of its block. -/
def IsUboRun (loads : List (ℕ × ℕ)) (range : UboRange) : Prop :=
  IsRun (fun slot => slotLoads loads range.block slot ≠ 0) 64 range.start range.length

/-- The number of loads of a range, when those of each slot are counted in the given way. -/
def benefitBy (count : ℕ → ℕ) (loads : List (ℕ × ℕ)) (range : UboRange) : ℤ :=
  ((List.range range.length).map fun i =>
    (count (slotLoads loads range.block (range.start + i)) : ℤ)).sum

/-- The score of a range by the number of its loads. -/
def trueScore (loads : List (ℕ × ℕ)) (range : UboRange) : ℤ :=
  2 * benefitBy id loads range - range.length

/-- The score of a range when the loads of each slot are counted with 8 bits. -/
def countedScore (loads : List (ℕ × ℕ)) (range : UboRange) : ℤ :=
  2 * benefitBy (· % 2 ^ 8) loads range - range.length

/-- Two ranges have no slot in common. -/
def UboRange.Disjoint (r r' : UboRange) : Prop :=
  r.block = r'.block → r.start + r.length ≤ r'.start ∨ r'.start + r'.length ≤ r.start

/-- Disjoint maximal runs of used slots, not more than `k` of them, such that no other one has a
better score: there are others only if there are `k` of them. -/
structure BestRuns (loads : List (ℕ × ℕ)) (k : ℕ) (ranges : List UboRange) : Prop where
  isRun : ∀ r ∈ ranges, IsUboRun loads r
  disjoint : ranges.Pairwise UboRange.Disjoint
  length_le : ranges.length ≤ k
  best : ∀ r, IsUboRun loads r → r ∉ ranges →
    ranges.length = k ∧ ∀ r' ∈ ranges, trueScore loads r ≤ trueScore loads r'

/-- The number of ranges that may be returned for a shader. -/
def rangeLimit (compiler : BrwCompiler) (nir : NirShader) : ℕ :=
  if pushesNothing compiler nir.stage then 0 else maxUbos compiler nir.usesRegularUniforms

/-- Two shaders with the same loads, in whatever order and wherever they are. -/
structure SameLoads (nir nir' : NirShader) : Prop where
  stage : nir.stage = nir'.stage
  uniforms : nir.usesRegularUniforms = nir'.usesRegularUniforms
  loads : nir'.loads.Perm nir.loads

end Brw
