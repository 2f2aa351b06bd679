import Mesa.Glsl.Types

/-!
# Offsets in interface blocks

The visitor of the linker that walks over the members of a uniform or shader storage block and gives
each variable in it an offset, and the layout rules that the offsets should follow.
-/

namespace Glsl.Layout

open Rounding

/-- `glsl_interface_packing`, as `get_internal_ifc_packing` returns it. -/
inductive Packing where
  | std140
  | std430
  deriving DecidableEq

/-- A member of an interface block.  It may have an explicit offset. -/
structure Member where
  offset : Option ℕ
  matrixLayout : MatrixLayout
  type : GlslType

/-- `gl_uniform_buffer_variable` -/
structure UniformBufferVariable where
  type : GlslType
  rowMajor : Bool
  offset : ℕ

/-! ### The visitor -/

/-- `ubo_visitor` -/
structure UboVisitor where
  offset : ℕ
  bufferSize : ℕ
  uniforms : List UniformBufferVariable

/-- The base alignment for a packing. -/
def baseAlignment (packing : Packing) (type : GlslType) (rowMajor : Bool) : ℕ :=
  match packing with
  | .std140 => std140BaseAlignment type rowMajor
  | .std430 => std430BaseAlignment type rowMajor

/-- The size for a packing. -/
def size (packing : Packing) (type : GlslType) (rowMajor : Bool) : ℕ :=
  match packing with
  | .std140 => std140Size type rowMajor
  | .std430 => std430Size type rowMajor

namespace UboVisitor

/-- `enter_record`, and `leave_record`, which does the same. -/
def enterRecord (packing : Packing) (type : GlslType) (rowMajor : Bool) (v : UboVisitor) :
    UboVisitor :=
  { v with offset := glslAlign v.offset (baseAlignment packing type rowMajor) }

/-- `visit_field` -/
def visitField (packing : Packing) (type : GlslType) (rowMajor : Bool) (v : UboVisitor) :
    UboVisitor :=
  let rowMajor := type.withoutArray.isMatrix && rowMajor
  let typeForSize := if type.isUnsizedArray then type.withoutArray else type
  let offset := glslAlign v.offset (baseAlignment packing type rowMajor)
  let next := unsigned (offset + size packing typeForSize rowMajor)
  { offset := next
    bufferSize := glslAlign next 16
    uniforms := v.uniforms ++ [⟨type, rowMajor, offset⟩] }

mutual

/-- `program_resource_visitor::recursion`, below the interface block -/
def recursion (packing : Packing) : GlslType → Bool → UboVisitor → UboVisitor
  | .record fields, rowMajor, v =>
    let v := v.enterRecord packing (.record fields) rowMajor
    let v := recursionFields packing fields rowMajor v
    v.enterRecord packing (.record fields) rowMajor
  | .array element length, rowMajor, v =>
    if (GlslType.array element length).withoutArray.isRecord || element.isArray then
      (recursion packing element rowMajor)^[if length = 0 then 1 else length] v
    else v.visitField packing (.array element length) rowMajor
  | type, rowMajor, v => v.visitField packing type rowMajor

/-- The loop over the fields of a structure. -/
def recursionFields (packing : Packing) : Fields → Bool → UboVisitor → UboVisitor
  | .nil, _, v => v
  | .cons matrixLayout type rest, rowMajor, v =>
    recursionFields packing rest rowMajor
      (recursion packing type (fieldRowMajor matrixLayout rowMajor) v)

end

/-- The loop over the members of the interface block. -/
def recursionMembers (packing : Packing) : List Member → UboVisitor → UboVisitor
  | [], v => v
  | m :: rest, v =>
    let v :=
      match m.offset with
      | some offset => { v with offset := offset }
      | none => v
    recursionMembers packing rest
      (recursion packing m.type (fieldRowMajor m.matrixLayout false) v)

/-- `process` -/
def process (packing : Packing) (members : List Member) : UboVisitor :=
  recursionMembers packing members ⟨0, 0, []⟩

end UboVisitor

/-! ### The layout rules -/

namespace Rules

/-- Where std140 rounds up to the base alignment of a vec4, and std430 does not. -/
def round (packing : Packing) (n : ℕ) : ℕ :=
  match packing with
  | .std140 => roundUp n 16
  | .std430 => n

/-- The base alignment of a vector: rules (1), (2), and (3). -/
def vectorAlignment (wide : Bool) (elements : ℕ) : ℕ :=
  if elements = 1 then componentSize wide
  else if elements = 2 then 2 * componentSize wide
  else 4 * componentSize wide

mutual

/-- The base alignment. -/
def alignment (packing : Packing) : GlslType → Bool → ℕ
  | .vector wide elements, _ => vectorAlignment wide elements
  -- (5) and (7): an array of columns or rows
  | .matrix wide columns rows, rowMajor =>
    round packing (vectorAlignment wide (if rowMajor then columns else rows))
  -- (4), (6), (8), (10)
  | .array element _, rowMajor => round packing (alignment packing element rowMajor)
  -- (9)
  | .record fields, rowMajor => round packing (fieldsAlignment packing fields rowMajor)

/-- The largest base alignment of the fields. -/
def fieldsAlignment (packing : Packing) : Fields → Bool → ℕ
  | .nil, _ => 0
  | .cons matrixLayout type rest, rowMajor =>
    max (alignment packing type (fieldRowMajor matrixLayout rowMajor))
      (fieldsAlignment packing rest rowMajor)

end

/-- How far apart the elements of an array are, given how much they take: the base alignment of the
array, if they are vectors. -/
def stride (packing : Packing) (element : GlslType) (extent : ℕ) : ℕ :=
  match element with
  | .vector wide elements => round packing (vectorAlignment wide elements)
  | _ => extent

mutual

/-- How many bytes a value takes, with the padding at its end. -/
def extent (packing : Packing) : GlslType → Bool → ℕ
  | .vector wide elements, _ => elements * componentSize wide
  | .matrix wide columns rows, rowMajor =>
    if rowMajor then rows * round packing (vectorAlignment wide columns)
    else columns * round packing (vectorAlignment wide rows)
  | .array element length, rowMajor =>
    length * stride packing element (extent packing element rowMajor)
  | .record fields, rowMajor =>
    roundUp (fieldsEnd packing fields rowMajor 0) (alignment packing (.record fields) rowMajor)

/-- Where fields end that begin at an offset. -/
def fieldsEnd (packing : Packing) : Fields → Bool → ℕ → ℕ
  | .nil, _, offset => offset
  | .cons matrixLayout type rest, rowMajor, offset =>
    let rowMajor' := fieldRowMajor matrixLayout rowMajor
    fieldsEnd packing rest rowMajor
      (roundUp offset (alignment packing type rowMajor') + extent packing type rowMajor')

end

mutual

/-- The variables in a value that is placed at an offset: its vectors and matrices, and the arrays
of these. -/
def place (packing : Packing) : GlslType → Bool → ℕ → List UniformBufferVariable
  | .record fields, rowMajor, offset => placeFields packing fields rowMajor offset 0
  | .array element length, rowMajor, offset =>
    if element.isRecord || element.isArray then
      -- an array with no declared size counts as one with one element
      (List.range (if length = 0 then 1 else length)).flatMap fun i =>
        place packing element rowMajor
          (offset + i * stride packing element (extent packing element rowMajor))
    else [⟨.array element length, element.isMatrix && rowMajor, offset⟩]
  | type, rowMajor, offset => [⟨type, type.isMatrix && rowMajor, offset⟩]

/-- The variables in the fields of a structure that is placed at an offset. -/
def placeFields (packing : Packing) : Fields → Bool → ℕ → ℕ → List UniformBufferVariable
  | .nil, _, _, _ => []
  | .cons matrixLayout type rest, rowMajor, base, offset =>
    let rowMajor' := fieldRowMajor matrixLayout rowMajor
    let start := roundUp offset (alignment packing type rowMajor')
    place packing type rowMajor' (base + start) ++
      placeFields packing rest rowMajor base (start + extent packing type rowMajor')

end

/-- The variables in the members of an interface block. -/
def placeMembers (packing : Packing) : List Member → ℕ → List UniformBufferVariable
  | [], _ => []
  | m :: rest, offset =>
    let rowMajor := fieldRowMajor m.matrixLayout false
    let start := roundUp offset (alignment packing m.type rowMajor)
    place packing m.type rowMajor start ++
      placeMembers packing rest (start + extent packing m.type rowMajor)

end Rules

/-! ### What the visitor is for -/

mutual

/-- A type that a member can have, where every array has a size. -/
def GlslType.WellFormed : GlslType → Prop
  | .vector _ elements => 1 ≤ elements ∧ elements ≤ 4
  | .matrix _ columns rows => 2 ≤ columns ∧ columns ≤ 4 ∧ 2 ≤ rows ∧ rows ≤ 4
  | .array element length => 0 < length ∧ element.WellFormed
  | .record fields => fields.isEmpty = false ∧ fields.WellFormed

def Fields.WellFormed : Fields → Prop
  | .nil => True
  | .cons _ type rest => type.WellFormed ∧ rest.WellFormed

end

/-- The types of the members of an interface block.  The last one may be an array without a size. -/
@[simp]
def WellFormedMembers : List Member → Prop
  | [] => True
  | [m] => m.type.WellFormed ∨ ∃ element, m.type = .array element 0 ∧ element.WellFormed
  | m :: rest => m.type.WellFormed ∧ WellFormedMembers rest

/-- The variables of an interface block are where the layout rules place them, one behind the
other. -/
structure Follows (packing : Packing) (members : List Member) : Prop where
  placed : (UboVisitor.process packing members).uniforms = Rules.placeMembers packing members 0
  ordered : (UboVisitor.process packing members).uniforms.Pairwise fun a b =>
    a.offset + Rules.extent packing a.type a.rowMajor ≤ b.offset

/-- A member that is a structure takes the offset on by the size of the structure, from its base
alignment on. -/
def Advances (packing : Packing) : Prop :=
  ∀ fields rowMajor (v : UboVisitor), (GlslType.record fields).WellFormed → v.offset < 2 ^ 32 →
    (v.recursion packing (.record fields) rowMajor).offset =
      unsigned (glslAlign v.offset (baseAlignment packing (.record fields) rowMajor) +
        size packing (.record fields) rowMajor)

end Glsl.Layout
