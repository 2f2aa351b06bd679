import Mesa.Data.Rounding

/-!
# Types in interface blocks

The types of the members of a uniform or shader storage block, and the functions of `glsl_types.cpp`
that compute alignments and sizes for the layouts std140 and std430, in arithmetic modulo `2 ^ 32`.
-/

namespace Glsl.Layout

/-- `glsl_matrix_layout` -/
inductive MatrixLayout where
  | inherited
  | columnMajor
  | rowMajor
  deriving DecidableEq

mutual

/-- `glsl_type`, as far as layouts depend on it: of a base type only whether its values have 64
bits.  Scalars are vectors with one element, and the length of an unsized array is zero. -/
inductive GlslType where
  | vector (wide : Bool) (elements : ℕ)
  | matrix (wide : Bool) (columns rows : ℕ)
  | array (element : GlslType) (length : ℕ)
  | record (fields : Fields)

/-- The fields of a structure. -/
inductive Fields where
  | nil
  | cons (matrixLayout : MatrixLayout) (type : GlslType) (rest : Fields)

end

namespace GlslType

def isMatrix : GlslType → Bool
  | matrix _ _ _ => true
  | _ => false

def isArray : GlslType → Bool
  | array _ _ => true
  | _ => false

def isUnsizedArray : GlslType → Bool
  | array _ length => length = 0
  | _ => false

def isRecord : GlslType → Bool
  | record _ => true
  | _ => false

/-- `without_array` -/
def withoutArray : GlslType → GlslType
  | array element _ => element.withoutArray
  | type => type

end GlslType

def Fields.isEmpty : Fields → Bool
  | nil => true
  | cons _ _ _ => false

/-- A number in 32 bits. -/
def unsigned (n : ℕ) : ℕ := n % 2 ^ 32

/-- `glsl_align` -/
def glslAlign (a align : ℕ) : ℕ := unsigned (a + align - 1) / align * align

/-- `arrays_of_arrays_size` -/
def arraysOfArraysSize : GlslType → ℕ
  | .array element length => dimensions element length
  | _ => 0
where
  /-- The loop, that multiplies the lengths of the inner arrays. -/
  dimensions : GlslType → ℕ → ℕ
    | .array element length, size => dimensions element (unsigned (size * length))
    | _, size => size

/-- The layout of a field's matrices, given the one around it. -/
def fieldRowMajor (matrixLayout : MatrixLayout) (rowMajor : Bool) : Bool :=
  match matrixLayout with
  | .rowMajor => true
  | .columnMajor => false
  | .inherited => rowMajor

/-- How many bytes a component takes. -/
def componentSize (wide : Bool) : ℕ := if wide then 8 else 4

/-- The rules (1) to (3), which both layouts share. -/
def vectorBaseAlignment (wide : Bool) (elements : ℕ) : ℕ :=
  match elements with
  | 1 => componentSize wide
  | 2 => 2 * componentSize wide
  | 3 => 4 * componentSize wide
  | 4 => 4 * componentSize wide
  | _ => 0

/-! ### std140 -/

mutual

/-- `std140_base_alignment` -/
def std140BaseAlignment : GlslType → Bool → ℕ
  | .vector wide elements, _ => vectorBaseAlignment wide elements
  | .array element _, rowMajor =>
    if element.isRecord || element.isArray then std140BaseAlignment element rowMajor
    else max (std140BaseAlignment element rowMajor) 16
  -- an array of column vectors or of row vectors
  | .matrix wide columns rows, rowMajor =>
    max (vectorBaseAlignment wide (if rowMajor then columns else rows)) 16
  | .record fields, rowMajor => std140FieldsAlignment fields rowMajor 16

/-- The loop over the fields of a structure. -/
def std140FieldsAlignment : Fields → Bool → ℕ → ℕ
  | .nil, _, baseAlignment => baseAlignment
  | .cons matrixLayout type rest, rowMajor, baseAlignment =>
    std140FieldsAlignment rest rowMajor
      (max baseAlignment (std140BaseAlignment type (fieldRowMajor matrixLayout rowMajor)))

end

theorem sizeOf_withoutArray_le (type : GlslType) :
  sizeOf type.withoutArray ≤ sizeOf type
  := by
  cases type with
  | array element length =>
    have h := sizeOf_withoutArray_le element
    simp only [GlslType.withoutArray, GlslType.array.sizeOf_spec]
    omega
  | vector wide elements => exact le_refl _
  | matrix wide columns rows => exact le_refl _
  | record fields => exact le_refl _

/-- The size of an array of vectors. -/
def std140VectorsSize (wide : Bool) (elements length : ℕ) : ℕ :=
  unsigned (length * max (vectorBaseAlignment wide elements) 16)

/-- The size of a number of matrices, as an array of column vectors or of row vectors. -/
def std140MatricesSize (wide : Bool) (columns rows : ℕ) (rowMajor : Bool) (length : ℕ) : ℕ :=
  if rowMajor then std140VectorsSize wide columns (unsigned (length * rows))
  else std140VectorsSize wide rows (unsigned (length * columns))

mutual

/-- `std140_size` -/
def std140Size (type : GlslType) (rowMajor : Bool) : ℕ :=
  match type with
  | .vector wide elements => elements * componentSize wide
  | .matrix wide columns rows => std140MatricesSize wide columns rows rowMajor 1
  | .array element length =>
    match _withoutArray : element.withoutArray with
    | .matrix wide columns rows =>
      std140MatricesSize wide columns rows rowMajor (arraysOfArraysSize (.array element length))
    | .record fields =>
      unsigned (arraysOfArraysSize (.array element length) * std140Size (.record fields) rowMajor)
    | other =>
      unsigned (arraysOfArraysSize (.array element length) *
        max (std140BaseAlignment other rowMajor) 16)
  | .record fields => std140FieldsSize fields rowMajor 0 0
termination_by sizeOf type
decreasing_by
  · have le := sizeOf_withoutArray_le element
    rw [_withoutArray] at le
    simp only [GlslType.array.sizeOf_spec]
    omega
  · simp

/-- The loop over the fields of a structure. -/
def std140FieldsSize (fields : Fields) (rowMajor : Bool) (size maxAlign : ℕ) : ℕ :=
  match fields with
  | .nil => glslAlign size (max maxAlign 16)
  | .cons matrixLayout type rest =>
    let fieldRowMajor := fieldRowMajor matrixLayout rowMajor
    let align := std140BaseAlignment type fieldRowMajor
    if type.isUnsizedArray then std140FieldsSize rest rowMajor size maxAlign
    else
      let size := unsigned (glslAlign size align + std140Size type fieldRowMajor)
      std140FieldsSize rest rowMajor
        (if type.isRecord && !rest.isEmpty then glslAlign size 16 else size) (max align maxAlign)
termination_by sizeOf fields
decreasing_by
  all_goals
    simp only [Fields.cons.sizeOf_spec]
    omega

end

/-! ### std430 -/

mutual

/-- `std430_base_alignment` -/
def std430BaseAlignment : GlslType → Bool → ℕ
  | .vector wide elements, _ => vectorBaseAlignment wide elements
  | .array element _, rowMajor => std430BaseAlignment element rowMajor
  -- an array of column vectors or of row vectors
  | .matrix wide columns rows, rowMajor =>
    vectorBaseAlignment wide (if rowMajor then columns else rows)
  | .record fields, rowMajor => std430FieldsAlignment fields rowMajor 0

/-- The loop over the fields of a structure. -/
def std430FieldsAlignment : Fields → Bool → ℕ → ℕ
  | .nil, _, baseAlignment => baseAlignment
  | .cons matrixLayout type rest, rowMajor, baseAlignment =>
    std430FieldsAlignment rest rowMajor
      (max baseAlignment (std430BaseAlignment type (fieldRowMajor matrixLayout rowMajor)))

end

/-- The size of an array of vectors. -/
def std430VectorsSize (wide : Bool) (elements length : ℕ) : ℕ :=
  unsigned (length * vectorBaseAlignment wide elements)

/-- The size of a number of matrices, as an array of column vectors or of row vectors. -/
def std430MatricesSize (wide : Bool) (columns rows : ℕ) (rowMajor : Bool) (length : ℕ) : ℕ :=
  if rowMajor then std430VectorsSize wide columns (unsigned (length * rows))
  else std430VectorsSize wide rows (unsigned (length * columns))

mutual

/-- `std430_size` -/
def std430Size (type : GlslType) (rowMajor : Bool) : ℕ :=
  match type with
  | .vector wide elements => elements * componentSize wide
  | .matrix wide columns rows => std430MatricesSize wide columns rows rowMajor 1
  | .array element length =>
    match _withoutArray : element.withoutArray with
    | .matrix wide columns rows =>
      std430MatricesSize wide columns rows rowMajor (arraysOfArraysSize (.array element length))
    | .record fields =>
      unsigned (arraysOfArraysSize (.array element length) * std430Size (.record fields) rowMajor)
    | other =>
      unsigned (arraysOfArraysSize (.array element length) * std430BaseAlignment other rowMajor)
  | .record fields => std430FieldsSize fields rowMajor 0 0
termination_by sizeOf type
decreasing_by
  · have le := sizeOf_withoutArray_le element
    rw [_withoutArray] at le
    simp only [GlslType.array.sizeOf_spec]
    omega
  · simp

/-- The loop over the fields of a structure. -/
def std430FieldsSize (fields : Fields) (rowMajor : Bool) (size maxAlign : ℕ) : ℕ :=
  match fields with
  | .nil => glslAlign size maxAlign
  | .cons matrixLayout type rest =>
    let fieldRowMajor := fieldRowMajor matrixLayout rowMajor
    let align := std430BaseAlignment type fieldRowMajor
    std430FieldsSize rest rowMajor
      (unsigned (glslAlign size align + std430Size type fieldRowMajor)) (max align maxAlign)
termination_by sizeOf fields
decreasing_by
  all_goals
    simp only [Fields.cons.sizeOf_spec]
    omega

end

end Glsl.Layout
