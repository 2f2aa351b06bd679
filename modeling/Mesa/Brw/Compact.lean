import Mesa.Bits.Words

/-!
# Instruction compaction

The compact encoding of the instructions of Intel GPUs, `brw_eu_compact.c`: the tables, the
functions that compact an instruction, and those that restore it.

An instruction has 128 bits, and a compacted one has 64.  A failed assertion, and a return of
`false`, end a computation; a field that a value is written to must be wide enough for it, as
`brw_inst_set_bits` and `brw_compact_inst_set_bits` assert.
-/

namespace Brw

open Bits

/-! ### Tables -/

/-- `g45_control_index_table`. -/
def g45ControlIndexTable : List ℕ :=
  [0b00000000000000000, 0b01000000000000000, 0b00110000000000000, 0b00000000000000010,
    0b00100000000000000, 0b00010000000000000, 0b01000000000100000, 0b01000000100000000,
    0b01010000000100000, 0b00000000100000010, 0b11000000000000000, 0b00001000100000010,
    0b01001000100000000, 0b00000000100000000, 0b11000000000100000, 0b00001000100000000,
    0b10110000000000000, 0b11010000000100000, 0b00110000100000000, 0b00100000100000000,
    0b01000000000001000, 0b01000000000000100, 0b00111100000000000, 0b00101011000000000,
    0b00110000000010000, 0b00010000100000000, 0b01000000000100100, 0b01000000000101000,
    0b00110000000000110, 0b00000000000001010, 0b01010000000101000, 0b01010000000100100]

/-- `g45_datatype_table`. -/
def g45DatatypeTable : List ℕ :=
  [0b001000000000100001, 0b001011010110101101, 0b001000001000110001, 0b001111011110111101,
    0b001011010110101100, 0b001000000110101101, 0b001000000000100000, 0b010100010110110001,
    0b001100011000101101, 0b001000000000100010, 0b001000001000110110, 0b010000001000110001,
    0b001000001000110010, 0b011000001000110010, 0b001111011110111100, 0b001000000100101000,
    0b010100011000110001, 0b001010010100101001, 0b001000001000101001, 0b010000001000110110,
    0b101000001000110001, 0b001011011000101101, 0b001000000100001001, 0b001011011000101100,
    0b110100011000110001, 0b001000001110111101, 0b110000001000110001, 0b011000000100101010,
    0b101000001000101001, 0b001011010110001100, 0b001000000110100001, 0b001010010100001000]

/-- `g45_subreg_table`. -/
def g45SubregTable : List ℕ :=
  [0b000000000000000, 0b000000010000000, 0b000001000000000, 0b000100000000000, 0b000000000100000,
    0b100000000000000, 0b000000000010000, 0b001100000000000, 0b001010000000000, 0b000000100000000,
    0b001000000000000, 0b000000000001000, 0b000000001000000, 0b000000000000001, 0b000010000000000,
    0b000000010100000, 0b000000000000111, 0b000001000100000, 0b011000000000000, 0b000000110000000,
    0b000000000000010, 0b000000000000100, 0b000000001100000, 0b000100000000010, 0b001110011000110,
    0b001110100001000, 0b000110011000110, 0b000001000011000, 0b000110010000100, 0b001100000000110,
    0b000000010000110, 0b000001000110000]

/-- `g45_src_index_table`. -/
def g45SrcIndexTable : List ℕ :=
  [0b000000000000, 0b010001101000, 0b010110001000, 0b011010010000, 0b001101001000, 0b010110001010,
    0b010101110000, 0b011001111000, 0b001000101000, 0b000000101000, 0b010001010000, 0b111101101100,
    0b010110001100, 0b010001101100, 0b011010010100, 0b010001001100, 0b001100101000, 0b000000000010,
    0b111101001100, 0b011001101000, 0b010101001000, 0b000000000100, 0b000000101100, 0b010001101010,
    0b000000111000, 0b010101011000, 0b000100100000, 0b010110000000, 0b010000000100, 0b010000111000,
    0b000101100000, 0b111101110100]

/-- `gen6_control_index_table`. -/
def gen6ControlIndexTable : List ℕ :=
  [0b00000000000000000, 0b01000000000000000, 0b00110000000000000, 0b00000000100000000,
    0b00010000000000000, 0b00001000100000000, 0b00000000100000010, 0b00000000000000010,
    0b01000000100000000, 0b01010000000000000, 0b10110000000000000, 0b00100000000000000,
    0b11010000000000000, 0b11000000000000000, 0b01001000100000000, 0b01000000000001000,
    0b01000000000000100, 0b00000000000001000, 0b00000000000000100, 0b00111000100000000,
    0b00001000100000010, 0b00110000100000000, 0b00110000000000001, 0b00100000000000001,
    0b00110000000000010, 0b00110000000000101, 0b00110000000001001, 0b00110000000010000,
    0b00110000000000011, 0b00110000000000100, 0b00110000100001000, 0b00100000000001001]

/-- `gen6_datatype_table`. -/
def gen6DatatypeTable : List ℕ :=
  [0b001001110000000000, 0b001000110000100000, 0b001001110000000001, 0b001000000001100000,
    0b001010110100101001, 0b001000000110101101, 0b001100011000101100, 0b001011110110101101,
    0b001000000111101100, 0b001000000001100001, 0b001000110010100101, 0b001000000001000001,
    0b001000001000110001, 0b001000001000101001, 0b001000000000100000, 0b001000001000110010,
    0b001010010100101001, 0b001011010010100101, 0b001000000110100101, 0b001100011000101001,
    0b001011011000101100, 0b001011010110100101, 0b001011110110100101, 0b001111011110111101,
    0b001111011110111100, 0b001111011110111101, 0b001111011110011101, 0b001111011110111110,
    0b001000000000100001, 0b001000000000100010, 0b001001111111011101, 0b001000001110111110]

/-- `gen6_subreg_table`. -/
def gen6SubregTable : List ℕ :=
  [0b000000000000000, 0b000000000000100, 0b000000110000000, 0b111000000000000, 0b011110000001000,
    0b000010000000000, 0b000000000010000, 0b000110000001100, 0b001000000000000, 0b000001000000000,
    0b000001010010100, 0b000000001010110, 0b010000000000000, 0b110000000000000, 0b000100000000000,
    0b000000010000000, 0b000000000001000, 0b100000000000000, 0b000001010000000, 0b001010000000000,
    0b001100000000000, 0b000000001010100, 0b101101010010100, 0b010100000000000, 0b000000010001111,
    0b011000000000000, 0b111110000000000, 0b101000000000000, 0b000000000001111, 0b000100010001111,
    0b001000010001111, 0b000110000000000]

/-- `gen6_src_index_table`. -/
def gen6SrcIndexTable : List ℕ :=
  [0b000000000000, 0b010110001000, 0b010001101000, 0b001000101000, 0b011010010000, 0b000100100000,
    0b010001101100, 0b010101110000, 0b011001111000, 0b001100101000, 0b010110001100, 0b001000100000,
    0b010110001010, 0b000000000010, 0b010101010000, 0b010101101000, 0b111101001100, 0b111100101100,
    0b011001110000, 0b010110001001, 0b010101011000, 0b001101001000, 0b010000101100, 0b010000000000,
    0b001101110000, 0b001100010000, 0b001100000000, 0b010001101010, 0b001101111000, 0b000001110000,
    0b001100100000, 0b001101010000]

/-- `gen7_control_index_table`. -/
def gen7ControlIndexTable : List ℕ :=
  [0b0000000000000000010, 0b0000100000000000000, 0b0000100000000000001, 0b0000100000000000010,
    0b0000100000000000011, 0b0000100000000000100, 0b0000100000000000101, 0b0000100000000000111,
    0b0000100000000001000, 0b0000100000000001001, 0b0000100000000001101, 0b0000110000000000000,
    0b0000110000000000001, 0b0000110000000000010, 0b0000110000000000011, 0b0000110000000000100,
    0b0000110000000000101, 0b0000110000000000111, 0b0000110000000001001, 0b0000110000000001101,
    0b0000110000000010000, 0b0000110000100000000, 0b0001000000000000000, 0b0001000000000000010,
    0b0001000000000000100, 0b0001000000100000000, 0b0010110000000000000, 0b0010110000000010000,
    0b0011000000000000000, 0b0011000000100000000, 0b0101000000000000000, 0b0101000000100000000]

/-- `gen7_datatype_table`. -/
def gen7DatatypeTable : List ℕ :=
  [0b001000000000000001, 0b001000000000100000, 0b001000000000100001, 0b001000000001100001,
    0b001000000010111101, 0b001000001011111101, 0b001000001110100001, 0b001000001110100101,
    0b001000001110111101, 0b001000010000100001, 0b001000110000100000, 0b001000110000100001,
    0b001001010010100101, 0b001001110010100100, 0b001001110010100101, 0b001111001110111101,
    0b001111011110011101, 0b001111011110111100, 0b001111011110111101, 0b001111111110111100,
    0b000000001000001100, 0b001000000000111101, 0b001000000010100101, 0b001000010000100000,
    0b001001010010100100, 0b001001110010000100, 0b001010010100001001, 0b001101111110111101,
    0b001111111110111101, 0b001011110110101100, 0b001010010100101000, 0b001010110100101000]

/-- `gen7_subreg_table`. -/
def gen7SubregTable : List ℕ :=
  [0b000000000000000, 0b000000000000001, 0b000000000001000, 0b000000000001111, 0b000000000010000,
    0b000000010000000, 0b000000100000000, 0b000000110000000, 0b000001000000000, 0b000001000010000,
    0b000010100000000, 0b001000000000000, 0b001000000000001, 0b001000010000001, 0b001000010000010,
    0b001000010000011, 0b001000010000100, 0b001000010000111, 0b001000010001000, 0b001000010001110,
    0b001000010001111, 0b001000110000000, 0b001000111101000, 0b010000000000000, 0b010000110000000,
    0b011000000000000, 0b011110010000111, 0b100000000000000, 0b101000000000000, 0b110000000000000,
    0b111000000000000, 0b111000000011100]

/-- `gen7_src_index_table`. -/
def gen7SrcIndexTable : List ℕ :=
  [0b000000000000, 0b000000000010, 0b000000010000, 0b000000010010, 0b000000011000, 0b000000100000,
    0b000000101000, 0b000001001000, 0b000001010000, 0b000001110000, 0b000001111000, 0b001100000000,
    0b001100000010, 0b001100001000, 0b001100010000, 0b001100010010, 0b001100100000, 0b001100101000,
    0b001100111000, 0b001101000000, 0b001101000010, 0b001101001000, 0b001101010000, 0b001101100000,
    0b001101101000, 0b001101110000, 0b001101110001, 0b001101111000, 0b010001101000, 0b010001101001,
    0b010001101010, 0b010110001000]

/-- `gen8_control_index_table`. -/
def gen8ControlIndexTable : List ℕ :=
  [0b0000000000000000010, 0b0000100000000000000, 0b0000100000000000001, 0b0000100000000000010,
    0b0000100000000000011, 0b0000100000000000100, 0b0000100000000000101, 0b0000100000000000111,
    0b0000100000000001000, 0b0000100000000001001, 0b0000100000000001101, 0b0000110000000000000,
    0b0000110000000000001, 0b0000110000000000010, 0b0000110000000000011, 0b0000110000000000100,
    0b0000110000000000101, 0b0000110000000000111, 0b0000110000000001001, 0b0000110000000001101,
    0b0000110000000010000, 0b0000110000100000000, 0b0001000000000000000, 0b0001000000000000010,
    0b0001000000000000100, 0b0001000000100000000, 0b0010110000000000000, 0b0010110000000010000,
    0b0011000000000000000, 0b0011000000100000000, 0b0101000000000000000, 0b0101000000100000000]

/-- `gen8_datatype_table`. -/
def gen8DatatypeTable : List ℕ :=
  [0b001000000000000000001, 0b001000000000001000000, 0b001000000000001000001,
    0b001000000000011000001, 0b001000000000101011101, 0b001000000010111011101,
    0b001000000011101000001, 0b001000000011101000101, 0b001000000011101011101,
    0b001000001000001000001, 0b001000011000001000000, 0b001000011000001000001,
    0b001000101000101000101, 0b001000111000101000100, 0b001000111000101000101,
    0b001011100011101011101, 0b001011101011100011101, 0b001011101011101011100,
    0b001011101011101011101, 0b001011111011101011100, 0b000000000010000001100,
    0b001000000000001011101, 0b001000000000101000101, 0b001000001000001000000,
    0b001000101000101000100, 0b001000111000100000100, 0b001001001001000001001,
    0b001010111011101011101, 0b001011111011101011101, 0b001001111001101001100,
    0b001001001001001001000, 0b001001011001001001000]

/-- `gen8_subreg_table`. -/
def gen8SubregTable : List ℕ :=
  [0b000000000000000, 0b000000000000001, 0b000000000001000, 0b000000000001111, 0b000000000010000,
    0b000000010000000, 0b000000100000000, 0b000000110000000, 0b000001000000000, 0b000001000010000,
    0b000001010000000, 0b001000000000000, 0b001000000000001, 0b001000010000001, 0b001000010000010,
    0b001000010000011, 0b001000010000100, 0b001000010000111, 0b001000010001000, 0b001000010001110,
    0b001000010001111, 0b001000110000000, 0b001000111101000, 0b010000000000000, 0b010000110000000,
    0b011000000000000, 0b011110010000111, 0b100000000000000, 0b101000000000000, 0b110000000000000,
    0b111000000000000, 0b111000000011100]

/-- `gen8_src_index_table`. -/
def gen8SrcIndexTable : List ℕ :=
  [0b000000000000, 0b000000000010, 0b000000010000, 0b000000010010, 0b000000011000, 0b000000100000,
    0b000000101000, 0b000001001000, 0b000001010000, 0b000001110000, 0b000001111000, 0b001100000000,
    0b001100000010, 0b001100001000, 0b001100010000, 0b001100010010, 0b001100100000, 0b001100101000,
    0b001100111000, 0b001101000000, 0b001101000010, 0b001101001000, 0b001101010000, 0b001101100000,
    0b001101101000, 0b001101110000, 0b001101110001, 0b001101111000, 0b010001101000, 0b010001101001,
    0b010001101010, 0b010110001000]

/-- `gen8_3src_control_index_table`. -/
def gen83srcControlIndexTable : List ℕ :=
  [0b00100000000110000000000001, 0b00000000000110000000000001, 0b00000000001000000000000001,
    0b00000000001000000000100001]

/-- `gen8_3src_source_index_table`. -/
def gen83srcSourceIndexTable : List ℕ :=
  [0b0000001110010011100100111001000001111000000000000,
    0b0000001110010011100100111001000001111000000000010,
    0b0000001110010011100100111001000001111000000001000,
    0b0000001110010011100100111001000001111000000100000]

/-! ### Devices and opcodes -/

/-- What the functions read of `gen_device_info`. -/
structure DevInfo where
  gen : ℕ
  isG4x : Bool
  isHaswell : Bool
  isCherryview : Bool
deriving DecidableEq

namespace DevInfo

variable (dev : DevInfo)

/-- The tables that `brw_init_compaction_tables` chooses. -/
def controlIndexTable : List ℕ :=
  if 8 ≤ dev.gen then gen8ControlIndexTable
  else if dev.gen = 7 then gen7ControlIndexTable
  else if dev.gen = 6 then gen6ControlIndexTable
  else g45ControlIndexTable

@[inherit_doc controlIndexTable]
def datatypeTable : List ℕ :=
  if 8 ≤ dev.gen then gen8DatatypeTable
  else if dev.gen = 7 then gen7DatatypeTable
  else if dev.gen = 6 then gen6DatatypeTable
  else g45DatatypeTable

@[inherit_doc controlIndexTable]
def subregTable : List ℕ :=
  if 8 ≤ dev.gen then gen8SubregTable
  else if dev.gen = 7 then gen7SubregTable
  else if dev.gen = 6 then gen6SubregTable
  else g45SubregTable

@[inherit_doc controlIndexTable]
def srcIndexTable : List ℕ :=
  if 8 ≤ dev.gen then gen8SrcIndexTable
  else if dev.gen = 7 then gen7SrcIndexTable
  else if dev.gen = 6 then gen6SrcIndexTable
  else g45SrcIndexTable

/-- Cherryview, and the generations after it, have more bits in three-source instructions. -/
def wide3src : Bool := 9 ≤ dev.gen || dev.isCherryview

/-- `is_3src`: the opcodes `csel`, `bfe`, `bfi2`, `mad`, `lrp` and `madm`, where they exist. -/
def is3src (opcode : ℕ) : Bool :=
  (opcode == 18 && 8 ≤ dev.gen) || (opcode == 24 && 7 ≤ dev.gen) ||
    (opcode == 26 && 7 ≤ dev.gen) || (opcode == 91 && 6 ≤ dev.gen) ||
    (opcode == 92 && 6 ≤ dev.gen) || (opcode == 93 && 8 ≤ dev.gen)

end DevInfo

/-- `BRW_IMMEDIATE_VALUE`. -/
def immediateValue : ℕ := 3

/-- `brw_inst`. -/
abbrev Inst := BitVec 128

/-- `brw_compact_inst`. -/
abbrev CompactInst := BitVec 64

namespace Inst

/-- `brw_inst_opcode`. -/
def opcode (src : Inst) : ℕ := field src 6 0

/-- `brw_inst_imm_ud`. -/
def immUd (src : Inst) : ℕ := field src 127 96

/-- `brw_inst_src0_reg_file`. -/
def src0RegFile (dev : DevInfo) (src : Inst) : ℕ :=
  if 8 ≤ dev.gen then field src 42 41 else field src 38 37

/-- `brw_inst_src1_reg_file`. -/
def src1RegFile (dev : DevInfo) (src : Inst) : ℕ :=
  if 8 ≤ dev.gen then field src 90 89 else field src 43 42

/-- Is a source an immediate? -/
def isImmediate (dev : DevInfo) (src : Inst) : Bool :=
  src.src0RegFile dev == immediateValue || src.src1RegFile dev == immediateValue

end Inst

/-! ### Compaction -/

/-- How a computation ends early. -/
inductive Stop where
  | returnFalse
  | assertion
deriving DecidableEq

/-- Fields are written one after the other, and each has to be wide enough. -/
def setFields {w : ℕ} (x : BitVec w) (l : List Write) : Except Stop (BitVec w) :=
  if ∀ f ∈ l, f.val < 2 ^ (f.hi - f.lo + 1) then .ok (writes x l) else .error .assertion

/-- The index of a value in a table. -/
def lookup (table : List ℕ) (uncompacted : ℕ) : Except Stop ℕ :=
  match table.findIdx? (· == uncompacted) with
  | some i => .ok i
  | none => .error .returnFalse

/-- The bits that `set_control_index` puts together. -/
def controlPieces (dev : DevInfo) : List Piece :=
  if 8 ≤ dev.gen then [⟨33, 31, 16⟩, ⟨23, 12, 4⟩, ⟨10, 9, 2⟩, ⟨34, 34, 1⟩, ⟨8, 8, 0⟩]
  else [⟨31, 31, 16⟩, ⟨23, 8, 0⟩] ++ (if dev.gen = 7 then [⟨90, 89, 17⟩] else [])

/-- The bits that `set_datatype_index` puts together. -/
def datatypePieces (dev : DevInfo) : List Piece :=
  if 8 ≤ dev.gen then [⟨63, 61, 18⟩, ⟨94, 89, 12⟩, ⟨46, 35, 0⟩] else [⟨63, 61, 15⟩, ⟨46, 32, 0⟩]

/-- The bits that `set_subreg_index` puts together. -/
def subregPieces (isImmediate : Bool) : List Piece :=
  [⟨52, 48, 0⟩, ⟨68, 64, 5⟩] ++ (if isImmediate then [] else [⟨100, 96, 10⟩])

/-- The value of `src1_index`: the index of the source, or the middle bits of an immediate. -/
def src1Index (dev : DevInfo) (src : Inst) (isImmediate : Bool) : Except Stop ℕ :=
  if isImmediate then .ok ((src.immUd >>> 8) % 2 ^ 5)
  else lookup dev.srcIndexTable (field src 120 109)

/-- `is_compactable_immediate`. -/
def isCompactableImmediate (imm : ℕ) : Bool :=
  imm / 2 ^ 12 * 2 ^ 12 == 0 || imm / 2 ^ 12 * 2 ^ 12 == 0xfffff000

/-- The assertions of `has_unmapped_bits` that a word has to pass. -/
def mappedReserved (dev : DevInfo) (src : Inst) : Bool :=
  if 8 ≤ dev.gen then field src 7 7 == 0
  else field src 7 7 == 0 && !(decide (dev.gen < 7) && field src 90 90 != 0)

/-- `has_unmapped_bits`: `send` and `sendc` with the end of the thread, and bits without a field. -/
def hasUnmappedBits (dev : DevInfo) (src : Inst) : Except Stop Bool :=
  if (src.opcode == 50 || src.opcode == 49) && field src 127 127 != 0 then .ok true
  else if !mappedReserved dev src then .error .assertion
  else if 8 ≤ dev.gen then
    .ok (field src 95 95 != 0 || field src 47 47 != 0 || field src 11 11 != 0)
  else .ok (field src 95 91 != 0 || field src 47 47 != 0)

/-- The assertions of `has_3src_unmapped_bits` that a word has to pass. -/
def mapped3srcReserved (dev : DevInfo) (src : Inst) : Bool :=
  if dev.wide3src then field src 127 127 == 0 && field src 7 7 == 0
  else field src 127 126 == 0 && field src 105 105 == 0 && field src 84 84 == 0 &&
    field src 36 35 == 0 && field src 7 7 == 0

/-- The bits that `set_3src_control_index` puts together. -/
def control3srcPieces (dev : DevInfo) : List Piece :=
  [⟨34, 32, 21⟩, ⟨28, 8, 0⟩] ++ (if dev.wide3src then [⟨36, 35, 24⟩] else [])

/-- The bits that `set_3src_source_index` puts together. -/
def source3srcPieces (dev : DevInfo) : List Piece :=
  [⟨83, 83, 43⟩, ⟨114, 107, 35⟩, ⟨93, 86, 27⟩, ⟨72, 65, 19⟩, ⟨55, 37, 0⟩] ++
    (if dev.wide3src then [⟨126, 125, 47⟩, ⟨105, 104, 45⟩, ⟨84, 84, 44⟩]
      else [⟨125, 125, 45⟩, ⟨104, 104, 44⟩])

/-- The fields of a compacted three-source instruction, with the indices of the control and the
source bits. -/
def compact3srcFields (src : Inst) (control source : ℕ) : List Write := [
  ⟨6, 0, field src 6 0⟩,            -- opcode
  ⟨9, 8, control⟩, ⟨11, 10, source⟩,
  ⟨18, 12, field src 63 56⟩,        -- dst_reg_nr, which has one bit less here
  ⟨28, 28, field src 64 64⟩,        -- src0_rep_ctrl
  ⟨29, 29, 1⟩,                      -- cmpt_control
  ⟨30, 30, field src 30 30⟩,        -- debug_control
  ⟨31, 31, field src 31 31⟩,        -- saturate
  ⟨32, 32, field src 85 85⟩,        -- src1_rep_ctrl
  ⟨33, 33, field src 106 106⟩,      -- src2_rep_ctrl
  ⟨49, 43, field src 83 76⟩,        -- src0_reg_nr
  ⟨56, 50, field src 104 97⟩,       -- src1_reg_nr
  ⟨63, 57, field src 125 118⟩,      -- src2_reg_nr
  ⟨36, 34, field src 75 73⟩,        -- src0_subreg_nr
  ⟨39, 37, field src 96 94⟩,        -- src1_subreg_nr
  ⟨42, 40, field src 117 115⟩]      -- src2_subreg_nr

/-- `brw_try_compact_3src_instruction`. -/
def tryCompact3srcInstruction (dev : DevInfo) (src : Inst) : Except Stop CompactInst :=
  if mapped3srcReserved dev src then do
    let control ← lookup gen83srcControlIndexTable (gather src (control3srcPieces dev))
    let source ← lookup gen83srcSourceIndexTable (gather src (source3srcPieces dev))
    setFields 0 (compact3srcFields src control source)
  else .error .assertion

/-- The fields of a compacted instruction with up to two sources. -/
def compactFields (dev : DevInfo) (src : Inst) (control datatype subreg src0 src1 : ℕ) :
    List Write := [
  ⟨6, 0, field src 6 0⟩,            -- opcode
  ⟨7, 7, field src 30 30⟩,          -- debug_control
  ⟨12, 8, control⟩, ⟨17, 13, datatype⟩, ⟨22, 18, subreg⟩,
  ⟨23, 23, field src 28 28⟩,        -- acc_wr_control, and mask_control_ex before
  ⟨27, 24, field src 27 24⟩] ++     -- cond_modifier
  (if dev.gen ≤ 6 then [⟨28, 28, field src 89 89⟩] else []) ++ [   -- flag_subreg_nr
  ⟨29, 29, 1⟩,                      -- cmpt_control
  ⟨34, 30, src0⟩, ⟨39, 35, src1⟩,
  ⟨47, 40, field src 60 53⟩,        -- dst_reg_nr
  ⟨55, 48, field src 76 69⟩,        -- src0_reg_nr
  ⟨63, 56, if src.isImmediate dev then src.immUd % 2 ^ 8 else field src 108 101⟩]  -- src1_reg_nr

/-- The rest of `brw_try_compact_instruction`, for instructions with up to two sources. -/
def tryCompact2srcInstruction (dev : DevInfo) (src : Inst) : Except Stop CompactInst :=
  if src.isImmediate dev && (decide (dev.gen < 6) || !isCompactableImmediate src.immUd) then
    .error .returnFalse
  else do
    let unmapped ← hasUnmappedBits dev src
    if unmapped then .error .returnFalse
    else
      let control ← lookup dev.controlIndexTable (gather src (controlPieces dev))
      let datatype ← lookup dev.datatypeTable (gather src (datatypePieces dev))
      let subreg ← lookup dev.subregTable (gather src (subregPieces (src.isImmediate dev)))
      let src0 ← lookup dev.srcIndexTable (field src 88 77)
      let src1 ← src1Index dev src (src.isImmediate dev)
      setFields 0 (compactFields dev src control datatype subreg src0 src1)

/-- `brw_try_compact_instruction`: what it returns, and the destination after it; no value if an
assertion fails. -/
def tryCompactInstruction (dev : DevInfo) (dst : CompactInst) (src : Inst) :
    Option (Bool × CompactInst) :=
  let result : Except Stop CompactInst :=
    if field src 29 29 != 0 then .error .assertion
    else if dev.is3src src.opcode then
      if 8 ≤ dev.gen then tryCompact3srcInstruction dev src else .error .returnFalse
    else tryCompact2srcInstruction dev src
  match result with
  | .ok temp => some (true, temp)
  | .error .returnFalse => some (false, dst)
  | .error .assertion => none

/-! ### Uncompaction -/

/-- The value that a piece of a table entry is written with: cut to its width by a mask, or the
rest of the entry where the source has no mask. -/
def spread (uncompacted : ℕ) (ps : List (Piece × Bool)) : List Write :=
  ps.map (fun (p, masked) =>
    ⟨p.hi, p.lo, if masked then (uncompacted >>> p.shift) % 2 ^ (p.hi - p.lo + 1)
      else uncompacted >>> p.shift⟩)

/-- The pieces that `set_uncompacted_control` writes. -/
def uncompactedControl (dev : DevInfo) : List (Piece × Bool) :=
  if 8 ≤ dev.gen then [(⟨33, 31, 16⟩, false), (⟨23, 12, 4⟩, true), (⟨10, 9, 2⟩, true),
    (⟨34, 34, 1⟩, true), (⟨8, 8, 0⟩, true)]
  else [(⟨31, 31, 16⟩, true), (⟨23, 8, 0⟩, true)] ++
    (if dev.gen = 7 then [(⟨90, 89, 17⟩, false)] else [])

/-- The pieces that `set_uncompacted_datatype` writes. -/
def uncompactedDatatype (dev : DevInfo) : List (Piece × Bool) :=
  if 8 ≤ dev.gen then [(⟨63, 61, 18⟩, false), (⟨94, 89, 12⟩, true), (⟨46, 35, 0⟩, true)]
  else [(⟨63, 61, 15⟩, false), (⟨46, 32, 0⟩, true)]

/-- The pieces that `set_uncompacted_subreg` writes. -/
def uncompactedSubreg : List (Piece × Bool) :=
  [(⟨100, 96, 10⟩, false), (⟨68, 64, 5⟩, true), (⟨52, 48, 0⟩, true)]

/-- The pieces that `set_uncompacted_3src_control_index` writes. -/
def uncompacted3srcControl (dev : DevInfo) : List (Piece × Bool) :=
  [(⟨34, 32, 21⟩, true), (⟨28, 8, 0⟩, true)] ++
    (if dev.wide3src then [(⟨36, 35, 24⟩, true)] else [])

/-- The pieces that `set_uncompacted_3src_source_index` writes. -/
def uncompacted3srcSource (dev : DevInfo) : List (Piece × Bool) :=
  [(⟨83, 83, 43⟩, true), (⟨114, 107, 35⟩, true), (⟨93, 86, 27⟩, true), (⟨72, 65, 19⟩, true),
    (⟨55, 37, 0⟩, true)] ++
    (if dev.wide3src then [(⟨126, 125, 47⟩, true), (⟨105, 104, 45⟩, true), (⟨84, 84, 44⟩, true)]
      else [(⟨125, 125, 45⟩, true), (⟨104, 104, 44⟩, true)])

/-- The high bits of an immediate: `(high5 << 27) >> 19` in 32 bits, with the sign. -/
def highImmediate (high5 : ℕ) : ℕ := ((BitVec.ofNat 32 high5 <<< 27).sshiftRight 19).toNat

/-- The fields that `brw_uncompact_3src_instruction` writes. -/
def uncompacted3srcFields (dev : DevInfo) (src : CompactInst) : List Write :=
  [⟨6, 0, field src 6 0⟩] ++
  spread (gen83srcControlIndexTable.getD (field src 9 8) 0) (uncompacted3srcControl dev) ++
  spread (gen83srcSourceIndexTable.getD (field src 11 10) 0) (uncompacted3srcSource dev) ++ [
  ⟨63, 56, field src 18 12⟩, ⟨64, 64, field src 28 28⟩, ⟨29, 29, 0⟩, ⟨30, 30, field src 30 30⟩,
  ⟨31, 31, field src 31 31⟩, ⟨85, 85, field src 32 32⟩, ⟨106, 106, field src 33 33⟩,
  ⟨83, 76, field src 49 43⟩, ⟨104, 97, field src 56 50⟩, ⟨125, 118, field src 63 57⟩,
  ⟨75, 73, field src 36 34⟩, ⟨96, 94, field src 39 37⟩, ⟨117, 115, field src 42 40⟩]

/-- The fields that `brw_uncompact_instruction` writes before it looks at the sources. -/
def uncompactedFirst (dev : DevInfo) (src : CompactInst) : List Write :=
  [⟨6, 0, field src 6 0⟩, ⟨30, 30, field src 7 7⟩] ++
  spread (dev.controlIndexTable.getD (field src 12 8) 0) (uncompactedControl dev) ++
  spread (dev.datatypeTable.getD (field src 17 13) 0) (uncompactedDatatype dev)

/-- The fields that `brw_uncompact_instruction` writes then. -/
def uncompactedSecond (dev : DevInfo) (src : CompactInst) (isImmediate : Bool) : List Write :=
  spread (dev.subregTable.getD (field src 22 18) 0) uncompactedSubreg ++
  [⟨28, 28, field src 23 23⟩, ⟨27, 24, field src 27 24⟩] ++
  (if dev.gen ≤ 6 then [⟨89, 89, field src 28 28⟩] else []) ++
  [⟨88, 77, dev.srcIndexTable.getD (field src 34 30) 0⟩] ++
  (if isImmediate then [⟨127, 96, highImmediate (field src 39 35)⟩]
    else [⟨120, 109, dev.srcIndexTable.getD (field src 39 35) 0⟩]) ++
  [⟨60, 53, field src 47 40⟩, ⟨76, 69, field src 55 48⟩]

/-- `brw_uncompact_instruction`. -/
def uncompactInstruction (dev : DevInfo) (src : CompactInst) : Except Stop Inst :=
  if 8 ≤ dev.gen ∧ dev.is3src (field src 6 0) = true then
    setFields 0 (uncompacted3srcFields dev src)
  else do
    let dst ← setFields 0 (uncompactedFirst dev src)
    let isImmediate := Inst.isImmediate dev dst
    let dst ← setFields dst (uncompactedSecond dev src isImmediate)
    if isImmediate then setFields dst [⟨127, 96, field dst 127 96 ||| field src 63 56⟩]
    else setFields dst [⟨108, 101, field src 63 56⟩]

end Brw
