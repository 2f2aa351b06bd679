import Mesa.Clover.Serializer

/-!
# Modules

The program binaries of Clover, `struct module`, and their serialization.  This is the build with
the compiler bridge; without it there are no relocations, and no arguments that are structures.
-/

namespace Clover

/-! ### Enumerations -/

/-- An enumeration of C++, with the numbers of its enumerators. -/
class Enumeration (E : Type) where
  code : E → ℕ
  ofCode : ℕ → Option E
  ofCode_code : ∀ e, ofCode (code e) = some e
  code_lt : ∀ e, code e < 2 ^ 32

/-- An object whose type is an enumeration.  The bits of one that was read need not be those of an
enumerator. -/
inductive Enumerated (E : Type) [Enumeration E] where
  | enumerator (e : E)
  | other (bits : BitVec 32) (h : Enumeration.ofCode (E := E) bits.toNat = none)

section
variable {E : Type} [Enumeration E]

instance : Coe E (Enumerated E) := ⟨.enumerator⟩

/-- The bits of an object. -/
def Enumerated.bits : Enumerated E → BitVec 32
  | .enumerator e => BitVec.ofNat 32 (Enumeration.code e)
  | .other bits _ => bits

/-- The object with the given bits. -/
def Enumerated.ofBits (bits : BitVec 32) : Enumerated E :=
  match h : Enumeration.ofCode (E := E) bits.toNat with
  | some e => .enumerator e
  | none => .other bits h

theorem Enumerated.ofBits_bits (x : Enumerated E) :
  Enumerated.ofBits x.bits = x
  := by
  rw [ofBits]
  cases x with
  | enumerator e =>
    have found : Enumeration.ofCode (E := E) (BitVec.ofNat 32 (Enumeration.code e)).toNat
        = some e := by
      rw [BitVec.toNat_ofNat, Nat.mod_eq_of_lt (Enumeration.code_lt e), Enumeration.ofCode_code]
    split
    · rename_i e' h
      rw [bits, found] at h
      rw [Option.some.inj h]
    · rename_i h
      rw [bits, found] at h
      contradiction
  | other b h =>
    split
    · rename_i e' h'
      rw [bits, h] at h'
      contradiction
    · rfl

instance : Scalar (Enumerated E) where
  sizeof := 4
  bytes env x := Scalar.bytes env x.bits
  ofBytes env l := .ofBits (Scalar.ofBytes env l)
  length_bytes env x := Scalar.length_bytes env x.bits
  ofBytes_bytes env x := by
    rw [Scalar.ofBytes_bytes, Enumerated.ofBits_bits]

end

/-! ### The data -/

/-- `module::section::type`. -/
inductive SectionType where
  | textIntermediate | textLibrary | textExecutable | dataConstant | dataGlobal | dataLocal
  | dataPrivate
deriving DecidableEq

/-- `module::argument::type`. -/
inductive ArgumentType where
  | scalar | constant | global | local | image2dRd | image2dWr | image3dRd | image3dWr | sampler
  | «structure»
deriving DecidableEq

/-- `module::argument::ext_type`. -/
inductive ExtType where
  | zeroExt | signExt
deriving DecidableEq

/-- `module::argument::semantic`. -/
inductive Semantic where
  | general | gridDimension | gridOffset | imageSize | imageFormat
deriving DecidableEq

/-- `module::reloc::type`. -/
inductive RelocType where
  | low32bit | high32bit
deriving DecidableEq

/-- An enumeration whose enumerators are numbered in the order of a list. -/
@[reducible] def Enumeration.ofList {E : Type} [DecidableEq E] (all : List E) (complete : ∀ e, e ∈ all)
    (short : all.length ≤ 2 ^ 32) : Enumeration E where
  code e := all.idxOf e
  ofCode n := all[n]?
  ofCode_code e := List.getElem?_idxOf (complete e)
  code_lt e := Nat.lt_of_lt_of_le (List.idxOf_lt_length_of_mem (complete e)) short

instance : Enumeration SectionType :=
  .ofList [.textIntermediate, .textLibrary, .textExecutable, .dataConstant, .dataGlobal, .dataLocal,
    .dataPrivate] (by rintro ⟨⟩ <;> decide) (by decide)

instance : Enumeration ArgumentType :=
  .ofList [.scalar, .constant, .global, .local, .image2dRd, .image2dWr, .image3dRd, .image3dWr,
    .sampler, .«structure»] (by rintro ⟨⟩ <;> decide) (by decide)

instance : Enumeration ExtType :=
  .ofList [.zeroExt, .signExt] (by rintro ⟨⟩ <;> decide) (by decide)

instance : Enumeration Semantic :=
  .ofList [.general, .gridDimension, .gridOffset, .imageSize, .imageFormat]
    (by rintro ⟨⟩ <;> decide) (by decide)

/-- `module::section`. -/
structure Section where
  id : BitVec 32
  type : Enumerated SectionType
  size : BitVec 32
  data : List UInt8

/-- `module::argument`. -/
structure Argument where
  type : Enumerated ArgumentType
  size : BitVec 32
  targetSize : BitVec 32
  targetAlign : BitVec 32
  extType : Enumerated ExtType
  semantic : Enumerated Semantic

/-- `module::symbol`. -/
structure Symbol where
  name : List UInt8
  «section» : BitVec 32
  offset : BitVec 32
  args : List Argument

/-- `module::reloc`. -/
structure Reloc where
  type : RelocType
  offset : BitVec 64
  addend : BitVec 64

/-- `struct module`. -/
structure Module where
  syms : List Symbol
  secs : List Section
  relocs : List Reloc

/-- `section()`. -/
def Section.default : Section := ⟨0, SectionType.textIntermediate, 0, []⟩

/-- `argument()`. -/
def Argument.default : Argument := ⟨ArgumentType.scalar, 0, 0, 1, ExtType.zeroExt, Semantic.general⟩

/-- `symbol()`. -/
def Symbol.default : Symbol := ⟨[], 0, 0, []⟩

/-- `module()`. -/
def Module.default : Module := ⟨[], [], []⟩

/-! ### The serializers -/

/-- `_serializer<module::section>`. -/
def sectionSerializer : Serializer Section :=
  (Serializer.field Section.id (fun x v => { x with id := v }) (.scalar _)).andThen <|
  (Serializer.field Section.type (fun x v => { x with type := v }) (.scalar _)).andThen <|
  (Serializer.field Section.size (fun x v => { x with size := v }) (.scalar _)).andThen <|
  Serializer.field Section.data (fun x v => { x with data := v }) .chars

/-- `_serializer<module::argument>`. -/
def argumentSerializer : Serializer Argument :=
  (Serializer.field Argument.type (fun x v => { x with type := v }) (.scalar _)).andThen <|
  (Serializer.field Argument.size (fun x v => { x with size := v }) (.scalar _)).andThen <|
  (Serializer.field Argument.targetSize (fun x v => { x with targetSize := v }) (.scalar _)).andThen <|
  (Serializer.field Argument.targetAlign (fun x v => { x with targetAlign := v })
    (.scalar _)).andThen <|
  (Serializer.field Argument.extType (fun x v => { x with extType := v }) (.scalar _)).andThen <|
  Serializer.field Argument.semantic (fun x v => { x with semantic := v }) (.scalar _)

/-- `_serializer<module::symbol>`. -/
def symbolSerializer : Serializer Symbol :=
  (Serializer.field Symbol.name (fun x v => { x with name := v }) .chars).andThen <|
  (Serializer.field Symbol.section (fun x v => { x with «section» := v }) (.scalar _)).andThen <|
  (Serializer.field Symbol.offset (fun x v => { x with offset := v }) (.scalar _)).andThen <|
  Serializer.field Symbol.args (fun x v => { x with args := v })
    (argumentSerializer.vector Argument.default)

/-- `_serializer<module>`. -/
def moduleSerializer : Serializer Module :=
  (Serializer.field Module.syms (fun x v => { x with syms := v })
    (symbolSerializer.vector Symbol.default)).andThen <|
  Serializer.field Module.secs (fun x v => { x with secs := v })
    (sectionSerializer.vector Section.default)

namespace Module

/-- `module::serialize`. -/
def serialize (env : Env) (m : Module) : List UInt8 := moduleSerializer.write env m

/-- `module::deserialize`. -/
def deserialize (env : Env) (s : IStream) : Except Thrown (Module × IStream) :=
  moduleSerializer.read env .default s

/-- `module::size`. -/
def size (m : Module) : BitVec 32 := moduleSerializer.size 0 m

/-- The vectors and strings of a module have fewer than `2^32` elements. -/
structure Bounded (m : Module) : Prop where
  syms : m.syms.length < 2 ^ 32
  secs : m.secs.length < 2 ^ 32
  names : ∀ sym ∈ m.syms, sym.name.length < 2 ^ 32
  args : ∀ sym ∈ m.syms, sym.args.length < 2 ^ 32
  data : ∀ sec ∈ m.secs, sec.data.length < 2 ^ 32

end Module

/-! ### Round trips -/

theorem sectionSerializer_lawful :
  sectionSerializer.Lawful (fun x => True ∧ True ∧ True ∧ x.data.length < 2 ^ 32) whole
  := (Serializer.scalar_lawful.field _ _).andThen <| (Serializer.scalar_lawful.field _ _).andThen <|
    (Serializer.scalar_lawful.field _ _).andThen <| Serializer.chars_lawful.field _ _

theorem argumentSerializer_lawful :
  argumentSerializer.Lawful (fun _ => True ∧ True ∧ True ∧ True ∧ True ∧ True) whole
  := (Serializer.scalar_lawful.field _ _).andThen <| (Serializer.scalar_lawful.field _ _).andThen <|
    (Serializer.scalar_lawful.field _ _).andThen <| (Serializer.scalar_lawful.field _ _).andThen <|
    (Serializer.scalar_lawful.field _ _).andThen <| Serializer.scalar_lawful.field _ _

/-- A symbol that the format can hold. -/
def SymbolHolds (x : Symbol) : Prop :=
  x.name.length < 2 ^ 32 ∧ True ∧ True
    ∧ VectorHolds (fun _ : Argument => True ∧ True ∧ True ∧ True ∧ True ∧ True) x.args

theorem symbolSerializer_lawful :
  symbolSerializer.Lawful SymbolHolds whole
  := (Serializer.chars_lawful.field _ _).andThen <| (Serializer.scalar_lawful.field _ _).andThen <|
    (Serializer.scalar_lawful.field _ _).andThen <|
    (Serializer.vector_lawful argumentSerializer_lawful _).field _ _

/-- The serializer of modules reads the symbols and the sections. -/
theorem moduleSerializer_lawful :
  moduleSerializer.Lawful
    (fun m => VectorHolds SymbolHolds m.syms
      ∧ VectorHolds (fun x : Section => True ∧ True ∧ True ∧ x.data.length < 2 ^ 32) m.secs)
    (fun old m => { old with syms := m.syms, secs := m.secs })
  := ((Serializer.vector_lawful symbolSerializer_lawful _).field _ _).andThen <|
    (Serializer.vector_lawful sectionSerializer_lawful _).field _ _

theorem Module.Bounded.holds {m : Module} (h : m.Bounded) :
  VectorHolds SymbolHolds m.syms
    ∧ VectorHolds (fun x : Section => True ∧ True ∧ True ∧ x.data.length < 2 ^ 32) m.secs
  := by
  refine ⟨⟨h.syms, ?_⟩, ⟨h.secs, ?_⟩⟩
  · intro sym mem
    refine ⟨h.names sym mem, trivial, trivial, h.args sym mem, ?_⟩
    intro arg _
    simp
  · intro sec mem
    exact ⟨trivial, trivial, trivial, h.data sec mem⟩

/-- The size of a module is how many bytes are written, as a number of 32 bits. -/
theorem Module.size_eq (env : Env) (m : Module) :
  m.size = BitVec.ofNat 32 (m.serialize env).length
  := by
  rw [size, moduleSerializer_lawful.size_eq env]
  apply BitVec.zero_add

/-- A stream at its start. -/
def IStream.ofBytes (bytes : List UInt8) : IStream := ⟨bytes, false, false, 0⟩

/-- A module that is written and read again is the same but for its relocations, of which there are
none then; all that was written is read; and the size of the module is how many bytes were
written. -/
theorem Module.deserialize_serialize (env : Env) (m : Module) (ample : env.Ample)
    (bounded : m.Bounded) (fits : (m.serialize env).length < 2 ^ 32) :
  (∃ s, deserialize env (.ofBytes (m.serialize env)) = .ok ({ m with relocs := [] }, s)
      ∧ s.failbit = false ∧ s.rest = [])
    ∧ m.size.toNat = (m.serialize env).length
  := by
  constructor
  · have start : (IStream.ofBytes (m.serialize env)).rest = moduleSerializer.write env m ++ [] := by
      rw [List.append_nil]
      rfl
    obtain ⟨s, read, good, rest⟩ :=
      moduleSerializer_lawful.read_write ample bounded.holds rfl start .default
    exact ⟨s, read, good, rest⟩
  · rw [size_eq env, BitVec.toNat_ofNat, Nat.mod_eq_of_lt fits]

/-- An environment with enough memory, where variables that are not initialized are zero. -/
def zeroEnv : Env := ⟨false, fun _ => 0, fun _ _ => true⟩

/-- A module with a kernel that has an argument, and with a section. -/
def smallModule : Module where
  syms := [⟨[107], 0, 256, [⟨ArgumentType.global, 8, 8, 8, ExtType.zeroExt, Semantic.general⟩]⟩]
  secs := [⟨0, SectionType.textExecutable, 2, [1, 2]⟩]
  relocs := []

/-- A module with a relocation. -/
def relocModule : Module := { smallModule with relocs := [⟨.low32bit, 16, 4⟩] }

theorem smallModule_bounded :
  smallModule.Bounded
  where
  syms := by decide
  secs := by decide
  names := by simp [smallModule]
  args := by simp [smallModule]
  data := by simp [smallModule]

theorem Module.deserialize_serialize_small :
  (∃ s, deserialize zeroEnv (.ofBytes (smallModule.serialize zeroEnv)) = .ok (smallModule, s)
      ∧ s.failbit = false ∧ s.rest = [])
    ∧ smallModule.size.toNat = 67
  := by
  have h := deserialize_serialize zeroEnv smallModule (fun _ _ => rfl) smallModule_bounded
    (by decide)
  exact ⟨h.1, h.2.trans rfl⟩

/-- The relocations of a module are lost. -/
theorem Module.deserialize_serialize_reloc :
  ¬ ∃ s, deserialize zeroEnv (.ofBytes (relocModule.serialize zeroEnv)) = .ok (relocModule, s)
  := by
  rintro ⟨s, read⟩
  have start : (IStream.ofBytes (relocModule.serialize zeroEnv)).rest
      = moduleSerializer.write zeroEnv relocModule ++ [] := by
    rw [List.append_nil]
    rfl
  obtain ⟨s', read', -, -⟩ := moduleSerializer_lawful.read_write (fun _ _ => rfl)
    (Module.Bounded.holds ⟨smallModule_bounded.syms, smallModule_bounded.secs,
      smallModule_bounded.names, smallModule_bounded.args, smallModule_bounded.data⟩) rfl start
    .default
  have same := Except.ok.inj (read.symm.trans read')
  have lost : 1 = 0 := congrArg (fun r => r.1.relocs.length) same
  contradiction

end Clover
