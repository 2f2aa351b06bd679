import Mesa.Glsl.UniformBlocks
import Mathlib.Tactic.IntervalCases

/-!
# The layout of interface blocks

The functions on types compute the alignments and sizes of the layout rules, and the visitor places
variables where these do, in arithmetic modulo `2 ^ 32`.
-/

namespace Glsl.Layout

open Rounding

/-! ### Alignments -/

/-- What a base alignment can be. -/
def IsAlignment (a : ℕ) : Prop := a = 4 ∨ a = 8 ∨ a = 16 ∨ a = 32

theorem IsAlignment.pos {a : ℕ} (h : IsAlignment a) :
  0 < a
  := by
  unfold IsAlignment at h
  omega

theorem IsAlignment.max {a b : ℕ} (ha : IsAlignment a) (hb : IsAlignment b) :
  IsAlignment (max a b)
  := by
  rcases max_choice a b with h | h <;> rw [h] <;> assumption

/-- A smaller alignment divides a larger one. -/
theorem IsAlignment.dvd_of_le {a b : ℕ} (ha : IsAlignment a) (hb : IsAlignment b) (le : a ≤ b) :
  a ∣ b
  := by
  rcases ha with rfl | rfl | rfl | rfl <;> rcases hb with rfl | rfl | rfl | rfl <;> omega

theorem IsAlignment.dvd_word {a : ℕ} (h : IsAlignment a) :
  a ∣ 2 ^ 32
  := by
  rcases h with rfl | rfl | rfl | rfl <;> decide

/-- `glsl_align` rounds up modulo `2 ^ 32`. -/
theorem glslAlign_eq {a n m : ℕ} (h : IsAlignment a) (eq : m = unsigned n) :
  glslAlign m a = unsigned (roundUp n a)
  := by
  rw [eq]
  apply roundUp_mod h.pos h.dvd_word

theorem unsigned_add (m n : ℕ) :
  unsigned (unsigned m + unsigned n) = unsigned (m + n)
  := (Nat.add_mod m n _).symm

theorem unsigned_mul (m n : ℕ) :
  unsigned (unsigned m * n) = unsigned (m * n)
  := Nat.mod_mul_mod m n _

theorem unsigned_mul' (m n : ℕ) :
  unsigned (m * unsigned n) = unsigned (m * n)
  := Nat.mul_mod_mod m n _

theorem unsigned_of_lt {n : ℕ} (lt : n < 2 ^ 32) :
  unsigned n = n
  := Nat.mod_eq_of_lt lt

theorem isAlignment_vector {wide : Bool} {elements : ℕ} :
  IsAlignment (Rules.vectorAlignment wide elements)
  := by
  unfold IsAlignment Rules.vectorAlignment componentSize
  cases wide <;> grind

theorem vectorBaseAlignment_eq {wide : Bool} {elements : ℕ} (lower : 1 ≤ elements)
    (upper : elements ≤ 4) :
  vectorBaseAlignment wide elements = Rules.vectorAlignment wide elements
  := by
  interval_cases elements <;> rfl

theorem round_std140 {a : ℕ} (h : IsAlignment a) :
  Rules.round .std140 a = max a 16
  := by
  rcases h with rfl | rfl | rfl | rfl <;> decide

theorem IsAlignment.round {packing : Packing} {a : ℕ} (h : IsAlignment a) :
  IsAlignment (Rules.round packing a)
  := by
  cases packing with
  | std140 =>
    rw [round_std140 h]
    apply h.max
    simp [IsAlignment]
  | std430 => exact h

theorem le_round (packing : Packing) (a : ℕ) :
  a ≤ Rules.round packing a
  := by
  cases packing with
  | std140 => exact le_roundUp (by decide) a
  | std430 => exact le_refl a

theorem round_round (packing : Packing) (a : ℕ) :
  Rules.round packing (Rules.round packing a) = Rules.round packing a
  := by
  cases packing with
  | std140 => exact roundUp_of_dvd (by decide) (dvd_roundUp a 16)
  | std430 => rfl

mutual

theorem isAlignment_alignment (packing : Packing) : ∀ (type : GlslType) (rowMajor : Bool),
    type.WellFormed → IsAlignment (Rules.alignment packing type rowMajor)
  | .vector _ _, _, _ => isAlignment_vector
  | .matrix _ _ _, _, _ => isAlignment_vector.round
  | .array element _, rowMajor, wf =>
    (isAlignment_alignment packing element rowMajor wf.2).round
  | .record fields, rowMajor, wf =>
    (isAlignment_fieldsAlignment packing fields rowMajor wf.2 wf.1).round

theorem isAlignment_fieldsAlignment (packing : Packing) : ∀ (fields : Fields) (rowMajor : Bool),
    fields.WellFormed → fields.isEmpty = false →
    IsAlignment (Rules.fieldsAlignment packing fields rowMajor)
  | .cons matrixLayout type .nil, rowMajor, wf, _ => by
    have h := isAlignment_alignment packing type (fieldRowMajor matrixLayout rowMajor) wf.1
    simpa [Rules.fieldsAlignment] using h
  | .cons matrixLayout type (.cons matrixLayout' type' rest), rowMajor, wf, _ => by
    have h := isAlignment_alignment packing type (fieldRowMajor matrixLayout rowMajor) wf.1
    have h' := isAlignment_fieldsAlignment packing (.cons matrixLayout' type' rest) rowMajor wf.2
      rfl
    rw [Rules.fieldsAlignment]
    apply h.max h'

end

/-- The elements of an array of structures or arrays have its alignment. -/
theorem alignment_array {packing : Packing} {element : GlslType} {rowMajor : Bool} {length : ℕ}
    (h : element.isRecord || element.isArray) :
  Rules.alignment packing (.array element length) rowMajor =
    Rules.alignment packing element rowMajor
  := by
  cases element with
  | vector wide elements => simp [GlslType.isRecord, GlslType.isArray] at h
  | matrix wide columns rows => simp [GlslType.isRecord, GlslType.isArray] at h
  | array element length => simp only [Rules.alignment, round_round]
  | record fields => simp only [Rules.alignment, round_round]

mutual

theorem std140BaseAlignment_eq : ∀ (type : GlslType) (rowMajor : Bool), type.WellFormed →
    std140BaseAlignment type rowMajor = Rules.alignment .std140 type rowMajor
  | .vector wide elements, rowMajor, wf => by
    rw [std140BaseAlignment, Rules.alignment, vectorBaseAlignment_eq wf.1 wf.2]
  | .matrix wide columns rows, rowMajor, wf => by
    obtain ⟨hc, hc', hr, hr'⟩ := wf
    rw [std140BaseAlignment, Rules.alignment, round_std140 isAlignment_vector,
      vectorBaseAlignment_eq] <;> split <;> omega
  | .array element length, rowMajor, wf => by
    have h := std140BaseAlignment_eq element rowMajor wf.2
    rw [std140BaseAlignment, h]
    split
    next nested => rw [alignment_array nested]
    next =>
      rw [Rules.alignment, round_std140 (isAlignment_alignment .std140 element rowMajor wf.2)]
  | .record fields, rowMajor, wf => by
    have h := std140FieldsAlignment_eq fields rowMajor 16 wf.2
    rw [std140BaseAlignment, h, Rules.alignment,
      round_std140 (isAlignment_fieldsAlignment .std140 fields rowMajor wf.2 wf.1), max_comm]

theorem std140FieldsAlignment_eq : ∀ (fields : Fields) (rowMajor : Bool) (a : ℕ),
    fields.WellFormed →
    std140FieldsAlignment fields rowMajor a = max a (Rules.fieldsAlignment .std140 fields rowMajor)
  | .nil, rowMajor, a, _ => by
    rw [std140FieldsAlignment, Rules.fieldsAlignment, max_eq_left (Nat.zero_le a)]
  | .cons matrixLayout type rest, rowMajor, a, wf => by
    rw [std140FieldsAlignment, std140FieldsAlignment_eq rest rowMajor _ wf.2,
      std140BaseAlignment_eq type _ wf.1, Rules.fieldsAlignment, max_assoc]

end

mutual

theorem std430BaseAlignment_eq : ∀ (type : GlslType) (rowMajor : Bool), type.WellFormed →
    std430BaseAlignment type rowMajor = Rules.alignment .std430 type rowMajor
  | .vector wide elements, rowMajor, wf => by
    rw [std430BaseAlignment, Rules.alignment, vectorBaseAlignment_eq wf.1 wf.2]
  | .matrix wide columns rows, rowMajor, wf => by
    obtain ⟨hc, hc', hr, hr'⟩ := wf
    rw [std430BaseAlignment, Rules.alignment, Rules.round, vectorBaseAlignment_eq] <;> split <;>
      omega
  | .array element length, rowMajor, wf => by
    rw [std430BaseAlignment, std430BaseAlignment_eq element rowMajor wf.2]
    rfl
  | .record fields, rowMajor, wf => by
    rw [std430BaseAlignment, std430FieldsAlignment_eq fields rowMajor 0 wf.2]
    apply max_eq_right (Nat.zero_le _)

theorem std430FieldsAlignment_eq : ∀ (fields : Fields) (rowMajor : Bool) (a : ℕ),
    fields.WellFormed →
    std430FieldsAlignment fields rowMajor a = max a (Rules.fieldsAlignment .std430 fields rowMajor)
  | .nil, rowMajor, a, _ => by
    rw [std430FieldsAlignment, Rules.fieldsAlignment, max_eq_left (Nat.zero_le a)]
  | .cons matrixLayout type rest, rowMajor, a, wf => by
    rw [std430FieldsAlignment, std430FieldsAlignment_eq rest rowMajor _ wf.2,
      std430BaseAlignment_eq type _ wf.1, Rules.fieldsAlignment, max_assoc]

end

theorem baseAlignment_eq (packing : Packing) {type : GlslType} (rowMajor : Bool)
    (wf : type.WellFormed) :
  baseAlignment packing type rowMajor = Rules.alignment packing type rowMajor
  := by
  cases packing with
  | std140 => exact std140BaseAlignment_eq type rowMajor wf
  | std430 => exact std430BaseAlignment_eq type rowMajor wf

/-! ### Sizes -/

/-- How many elements an array of arrays has. -/
def count : GlslType → ℕ
  | .array element length => length * count element
  | _ => 1

theorem dimensions_eq (type : GlslType) (n : ℕ) :
  unsigned (arraysOfArraysSize.dimensions type n) = unsigned (n * count type)
  := by
  cases type with
  | array element length =>
    rw [arraysOfArraysSize.dimensions, dimensions_eq element, unsigned_mul, count, mul_assoc]
  | vector wide elements => simp [arraysOfArraysSize.dimensions, count]
  | matrix wide columns rows => simp [arraysOfArraysSize.dimensions, count]
  | record fields => simp [arraysOfArraysSize.dimensions, count]

/-- The size of an array of arrays is computed from the number of its elements. -/
theorem arraysOfArraysSize_mul (element : GlslType) (length n : ℕ) :
  unsigned (arraysOfArraysSize (.array element length) * n) =
    unsigned (count (.array element length) * n)
  := by
  rw [← unsigned_mul, arraysOfArraysSize, dimensions_eq, unsigned_mul]
  rfl

/-- The elements of an array of arrays are laid out in order. -/
theorem extent_array (packing : Packing) (element : GlslType) (length : ℕ) (rowMajor : Bool) :
  Rules.extent packing (.array element length) rowMajor =
    count (.array element length) * Rules.stride packing element.withoutArray
      (Rules.extent packing element.withoutArray rowMajor)
  := by
  cases element with
  | array element' length' =>
    have h := extent_array packing element' length' rowMajor
    have whole (n : ℕ) : Rules.stride packing (.array element' length') n = n := rfl
    rw [Rules.extent, whole, h, ← mul_assoc]
    rfl
  | vector wide elements => simp [Rules.extent, count, GlslType.withoutArray]
  | matrix wide columns rows => simp [Rules.extent, count, GlslType.withoutArray]
  | record fields => simp [Rules.extent, count, GlslType.withoutArray]

theorem wellFormed_withoutArray {type : GlslType} (wf : type.WellFormed) :
  type.withoutArray.WellFormed
  := by
  cases type with
  | array element length =>
    have h := wellFormed_withoutArray wf.2
    exact h
  | vector wide elements => exact wf
  | matrix wide columns rows => exact wf
  | record fields => exact wf

theorem withoutArray_ne_array (type element : GlslType) (length : ℕ) :
  type.withoutArray ≠ .array element length
  := by
  cases type with
  | array element' length' => exact withoutArray_ne_array element' element length
  | vector wide elements => rintro ⟨⟩
  | matrix wide columns rows => rintro ⟨⟩
  | record fields => rintro ⟨⟩

theorem vectorSize_lt {wide : Bool} {elements : ℕ} (upper : elements ≤ 4) :
  elements * componentSize wide < 2 ^ 32
  := by
  cases wide <;> simp only [componentSize] <;> grind

theorem std140MatricesSize_eq {wide : Bool} {columns rows length : ℕ} {rowMajor : Bool}
    (wf : (GlslType.matrix wide columns rows).WellFormed) :
  std140MatricesSize wide columns rows rowMajor length =
    unsigned (length * Rules.extent .std140 (.matrix wide columns rows) rowMajor)
  := by
  obtain ⟨hc, hc', hr, hr'⟩ := wf
  cases rowMajor with
  | true =>
    have h : vectorBaseAlignment wide columns = _ := vectorBaseAlignment_eq (by omega) hc'
    simp only [std140MatricesSize, std140VectorsSize, Rules.extent, ↓reduceIte]
    rw [h, unsigned_mul, round_std140 isAlignment_vector, mul_assoc]
  | false =>
    have h : vectorBaseAlignment wide rows = _ := vectorBaseAlignment_eq (by omega) hr'
    simp only [std140MatricesSize, std140VectorsSize, Rules.extent, Bool.false_eq_true, ↓reduceIte]
    rw [h, unsigned_mul, round_std140 isAlignment_vector, mul_assoc]

/-- The size of an array, given the size of its elements. -/
theorem std140Size_array {element : GlslType} {length : ℕ} {rowMajor : Bool}
    (wf : element.WellFormed)
    (h : std140Size element.withoutArray rowMajor =
      unsigned (Rules.extent .std140 element.withoutArray rowMajor)) :
  std140Size (.array element length) rowMajor =
    unsigned (Rules.extent .std140 (.array element length) rowMajor)
  := by
  have wf' := wellFormed_withoutArray wf
  have flat := withoutArray_ne_array element
  rw [extent_array, std140Size]
  split
  next wide columns rows eq =>
    rw [eq] at wf' ⊢
    rw [std140MatricesSize_eq wf', arraysOfArraysSize_mul]
    rfl
  next fields eq =>
    rw [eq] at h ⊢
    rw [h, unsigned_mul', arraysOfArraysSize_mul]
    rfl
  next unmatrix unrecord =>
    rw [arraysOfArraysSize_mul, std140BaseAlignment_eq _ _ wf']
    cases eq : element.withoutArray with
    | vector wide elements =>
      rw [Rules.stride, round_std140 isAlignment_vector]
      rfl
    | matrix wide columns rows => exact absurd eq (unmatrix wide columns rows)
    | array element' length' => exact absurd eq (flat element' length')
    | record fields => exact absurd eq (unrecord fields)

/-- What a structure takes is a multiple of its alignment. -/
theorem dvd_extent_record (packing : Packing) (fields : Fields) (rowMajor : Bool) :
  Rules.alignment packing (.record fields) rowMajor ∣
    Rules.extent packing (.record fields) rowMajor
  := by
  rw [Rules.extent]
  apply dvd_roundUp

theorem dvd_alignment_record (fields : Fields) (rowMajor : Bool) :
  16 ∣ Rules.alignment .std140 (.record fields) rowMajor
  := by
  rw [Rules.alignment]
  apply dvd_roundUp

theorem std140Size_of_withoutArray {type : GlslType} {rowMajor : Bool} (wf : type.WellFormed)
    (h : std140Size type.withoutArray rowMajor =
      unsigned (Rules.extent .std140 type.withoutArray rowMajor)) :
  std140Size type rowMajor = unsigned (Rules.extent .std140 type rowMajor)
  := by
  cases type with
  | array element length => exact std140Size_array wf.2 h
  | vector wide elements => exact h
  | matrix wide columns rows => exact h
  | record fields => exact h

theorem not_isUnsizedArray {type : GlslType} (wf : type.WellFormed) :
  type.isUnsizedArray = false
  := by
  cases type with
  | array element length => simpa [GlslType.isUnsizedArray] using Nat.ne_of_gt wf.1
  | vector wide elements => rfl
  | matrix wide columns rows => rfl
  | record fields => rfl

/-- After a structure the offset is a multiple of its alignment already. -/
theorem glslAlign_record {type : GlslType} {rowMajor : Bool} (record : type.isRecord)
    (offset : ℕ) :
  glslAlign (unsigned (roundUp offset (Rules.alignment .std140 type rowMajor) +
      Rules.extent .std140 type rowMajor)) 16 =
    unsigned (roundUp offset (Rules.alignment .std140 type rowMajor) +
      Rules.extent .std140 type rowMajor)
  := by
  cases type with
  | record fields =>
    have h := dvd_alignment_record fields rowMajor
    have padded : 16 ∣ roundUp offset (Rules.alignment .std140 (.record fields) rowMajor) +
        Rules.extent .std140 (.record fields) rowMajor := by
      apply Nat.dvd_add
      · apply h.trans (dvd_roundUp _ _)
      · apply h.trans (dvd_extent_record .std140 fields rowMajor)
    have isAlignment : IsAlignment 16 := by simp [IsAlignment]
    rw [glslAlign_eq isAlignment rfl, roundUp_of_dvd isAlignment.pos padded]
  | array element length => simp [GlslType.isRecord] at record
  | vector wide elements => simp [GlslType.isRecord] at record
  | matrix wide columns rows => simp [GlslType.isRecord] at record

/-- The largest alignment so far, that may be of no field yet. -/
theorem isAlignment_max {a b : ℕ} (ha : a = 0 ∨ IsAlignment a) (hb : IsAlignment b) :
  IsAlignment (max a b)
  := by
  rcases ha with rfl | ha
  · rwa [max_eq_right (Nat.zero_le b)]
  · apply ha.max hb

mutual

theorem std140Size_withoutArray : ∀ (type : GlslType) (rowMajor : Bool), type.WellFormed →
    std140Size type.withoutArray rowMajor =
      unsigned (Rules.extent .std140 type.withoutArray rowMajor)
  | .vector wide elements, rowMajor, wf => by
    simp only [GlslType.withoutArray, std140Size, Rules.extent]
    rw [unsigned_of_lt (vectorSize_lt wf.2)]
  | .matrix wide columns rows, rowMajor, wf => by
    simp only [GlslType.withoutArray, std140Size]
    rw [std140MatricesSize_eq wf, one_mul]
  | .array element length, rowMajor, wf => std140Size_withoutArray element rowMajor wf.2
  | .record fields, rowMajor, wf => by
    have isAlignment := isAlignment_fieldsAlignment .std140 fields rowMajor wf.2 wf.1
    have h := std140FieldsSize_eq fields rowMajor 0 0 wf.2 (.inl rfl)
    simp only [GlslType.withoutArray, std140Size, Rules.extent, Rules.alignment]
    rw [round_std140 isAlignment, ← max_eq_right (Nat.zero_le (Rules.fieldsAlignment _ _ _))]
    apply h

theorem std140FieldsSize_eq : ∀ (fields : Fields) (rowMajor : Bool) (offset maxAlign : ℕ),
    fields.WellFormed → maxAlign = 0 ∨ IsAlignment maxAlign →
    std140FieldsSize fields rowMajor (unsigned offset) maxAlign =
      unsigned (roundUp (Rules.fieldsEnd .std140 fields rowMajor offset)
        (max (max maxAlign (Rules.fieldsAlignment .std140 fields rowMajor)) 16))
  | .nil, rowMajor, offset, maxAlign, _, isAlignment => by
    have padded : IsAlignment (max maxAlign 16) := by
      apply isAlignment_max isAlignment
      simp [IsAlignment]
    rw [std140FieldsSize, glslAlign_eq padded rfl, Rules.fieldsEnd, Rules.fieldsAlignment,
      max_eq_left (Nat.zero_le maxAlign)]
  | .cons matrixLayout type rest, rowMajor, offset, maxAlign, wf, isAlignment => by
    rw [std140FieldsSize, Rules.fieldsEnd, Rules.fieldsAlignment]
    generalize fieldRowMajor matrixLayout rowMajor = rowMajor'
    have typeAlignment := isAlignment_alignment .std140 type rowMajor' wf.1
    have size := std140Size_of_withoutArray wf.1 (std140Size_withoutArray type rowMajor' wf.1)
    simp only [not_isUnsizedArray wf.1, std140BaseAlignment_eq type rowMajor' wf.1, size,
      Bool.false_eq_true, ↓reduceIte]
    rw [glslAlign_eq typeAlignment rfl, unsigned_add]
    -- the padding after a structure is there already
    have same : (if type.isRecord && !rest.isEmpty then
        glslAlign (unsigned (roundUp offset (Rules.alignment .std140 type rowMajor') +
          Rules.extent .std140 type rowMajor')) 16
      else unsigned (roundUp offset (Rules.alignment .std140 type rowMajor') +
          Rules.extent .std140 type rowMajor')) =
        unsigned (roundUp offset (Rules.alignment .std140 type rowMajor') +
          Rules.extent .std140 type rowMajor') := by
      split
      next h => rw [glslAlign_record (Bool.and_eq_true_iff.mp h).1]
      next => rfl
    have largest : IsAlignment (max (Rules.alignment .std140 type rowMajor') maxAlign) := by
      rw [max_comm]
      apply isAlignment_max isAlignment typeAlignment
    rw [same, std140FieldsSize_eq rest rowMajor _ _ wf.2 (.inr largest),
      max_comm (Rules.alignment _ _ _) maxAlign, max_assoc maxAlign]

end

theorem std430MatricesSize_eq {wide : Bool} {columns rows length : ℕ} {rowMajor : Bool}
    (wf : (GlslType.matrix wide columns rows).WellFormed) :
  std430MatricesSize wide columns rows rowMajor length =
    unsigned (length * Rules.extent .std430 (.matrix wide columns rows) rowMajor)
  := by
  obtain ⟨hc, hc', hr, hr'⟩ := wf
  cases rowMajor with
  | true =>
    have h : vectorBaseAlignment wide columns = _ := vectorBaseAlignment_eq (by omega) hc'
    simp only [std430MatricesSize, std430VectorsSize, Rules.extent, ↓reduceIte]
    rw [h, unsigned_mul, mul_assoc]
    rfl
  | false =>
    have h : vectorBaseAlignment wide rows = _ := vectorBaseAlignment_eq (by omega) hr'
    simp only [std430MatricesSize, std430VectorsSize, Rules.extent, Bool.false_eq_true, ↓reduceIte]
    rw [h, unsigned_mul, mul_assoc]
    rfl

theorem std430Size_of_withoutArray {type : GlslType} {rowMajor : Bool} (wf : type.WellFormed)
    (h : std430Size type.withoutArray rowMajor =
      unsigned (Rules.extent .std430 type.withoutArray rowMajor)) :
  std430Size type rowMajor = unsigned (Rules.extent .std430 type rowMajor)
  := by
  cases type with
  | vector wide elements => exact h
  | matrix wide columns rows => exact h
  | record fields => exact h
  | array element length =>
    have wf' := wellFormed_withoutArray wf.2
    have flat := withoutArray_ne_array element
    rw [GlslType.withoutArray] at h
    rw [extent_array, std430Size]
    split
    next wide columns rows eq =>
      rw [eq] at wf' ⊢
      rw [std430MatricesSize_eq wf', arraysOfArraysSize_mul]
      rfl
    next fields eq =>
      rw [eq] at h ⊢
      rw [h, unsigned_mul', arraysOfArraysSize_mul]
      rfl
    next unmatrix unrecord =>
      rw [arraysOfArraysSize_mul, std430BaseAlignment_eq _ _ wf']
      cases eq : element.withoutArray with
      | vector wide elements => rfl
      | matrix wide columns rows => exact absurd eq (unmatrix wide columns rows)
      | array element' length' => exact absurd eq (flat element' length')
      | record fields => exact absurd eq (unrecord fields)

mutual

theorem std430Size_withoutArray : ∀ (type : GlslType) (rowMajor : Bool), type.WellFormed →
    std430Size type.withoutArray rowMajor =
      unsigned (Rules.extent .std430 type.withoutArray rowMajor)
  | .vector wide elements, rowMajor, wf => by
    simp only [GlslType.withoutArray, std430Size, Rules.extent]
    rw [unsigned_of_lt (vectorSize_lt wf.2)]
  | .matrix wide columns rows, rowMajor, wf => by
    simp only [GlslType.withoutArray, std430Size]
    rw [std430MatricesSize_eq wf, one_mul]
  | .array element length, rowMajor, wf => std430Size_withoutArray element rowMajor wf.2
  | .record .nil, rowMajor, wf => absurd wf.1 (by simp [Fields.isEmpty])
  | .record (.cons matrixLayout type rest), rowMajor, wf => by
    have h := std430FieldsSize_eq (.cons matrixLayout type rest) rowMajor 0 0 wf.2
      (.inl ⟨rfl, rfl⟩)
    simp only [GlslType.withoutArray, std430Size, Rules.extent, Rules.alignment, Rules.round]
    rw [← max_eq_right (Nat.zero_le (Rules.fieldsAlignment _ _ _))]
    apply h

theorem std430FieldsSize_eq : ∀ (fields : Fields) (rowMajor : Bool) (offset maxAlign : ℕ),
    fields.WellFormed → maxAlign = 0 ∧ fields.isEmpty = false ∨ IsAlignment maxAlign →
    std430FieldsSize fields rowMajor (unsigned offset) maxAlign =
      unsigned (roundUp (Rules.fieldsEnd .std430 fields rowMajor offset)
        (max maxAlign (Rules.fieldsAlignment .std430 fields rowMajor)))
  | .nil, rowMajor, offset, maxAlign, _, isAlignment => by
    have isAlignment : IsAlignment maxAlign := isAlignment.resolve_left (by simp [Fields.isEmpty])
    rw [std430FieldsSize, glslAlign_eq isAlignment rfl, Rules.fieldsEnd, Rules.fieldsAlignment,
      max_eq_left (Nat.zero_le maxAlign)]
  | .cons matrixLayout type rest, rowMajor, offset, maxAlign, wf, isAlignment => by
    rw [std430FieldsSize, Rules.fieldsEnd, Rules.fieldsAlignment]
    generalize fieldRowMajor matrixLayout rowMajor = rowMajor'
    have typeAlignment := isAlignment_alignment .std430 type rowMajor' wf.1
    have size := std430Size_of_withoutArray wf.1 (std430Size_withoutArray type rowMajor' wf.1)
    have largest : IsAlignment (max (Rules.alignment .std430 type rowMajor') maxAlign) := by
      rw [max_comm]
      apply isAlignment_max (isAlignment.imp_left And.left) typeAlignment
    simp only [std430BaseAlignment_eq type rowMajor' wf.1, size]
    rw [glslAlign_eq typeAlignment rfl, unsigned_add,
      std430FieldsSize_eq rest rowMajor _ _ wf.2 (.inr largest),
      max_comm (Rules.alignment _ _ _) maxAlign, max_assoc maxAlign]

end

/-- The size of a type is what it takes under the rules, modulo `2 ^ 32`. -/
theorem size_eq (packing : Packing) {type : GlslType} (rowMajor : Bool) (wf : type.WellFormed) :
  size packing type rowMajor = unsigned (Rules.extent packing type rowMajor)
  := by
  cases packing with
  | std140 => exact std140Size_of_withoutArray wf (std140Size_withoutArray type rowMajor wf)
  | std430 => exact std430Size_of_withoutArray wf (std430Size_withoutArray type rowMajor wf)

/-! ### The visitor -/

/-- A variable with its offset in 32 bits. -/
def UniformBufferVariable.wrap (u : UniformBufferVariable) : UniformBufferVariable :=
  { u with offset := unsigned u.offset }

/-- Some steps of the visitor take the offset from one place to another one, and give offsets to
variables in between. -/
structure Moves (v v' : UboVisitor) (n : ℕ) (uniforms : List UniformBufferVariable) : Prop where
  offset : v'.offset = unsigned n
  uniforms : v'.uniforms = v.uniforms ++ uniforms.map UniformBufferVariable.wrap

theorem Moves.trans {u v w : UboVisitor} {m n : ℕ} {xs ys : List UniformBufferVariable}
    (h : Moves u v m xs) (h' : Moves v w n ys) :
  Moves u w n (xs ++ ys)
  := by
  constructor
  · exact h'.offset
  · rw [h'.uniforms, h.uniforms, List.map_append, List.append_assoc]

/-- Vectors and matrices, and arrays of these, are variables. -/
inductive IsLeaf : GlslType → Prop where
  | vector {wide elements} : IsLeaf (.vector wide elements)
  | matrix {wide columns rows} : IsLeaf (.matrix wide columns rows)
  | vectors {wide elements length} : IsLeaf (.array (.vector wide elements) length)
  | matrices {wide columns rows length} : IsLeaf (.array (.matrix wide columns rows) length)

/-- The layout of matrices does not matter where there are none. -/
theorem alignment_leaf (packing : Packing) {type : GlslType} (leaf : IsLeaf type)
    (rowMajor : Bool) :
  Rules.alignment packing type (type.withoutArray.isMatrix && rowMajor) =
    Rules.alignment packing type rowMajor
  := by
  cases leaf <;> rfl

theorem extent_leaf (packing : Packing) {type : GlslType} (leaf : IsLeaf type)
    (rowMajor : Bool) :
  Rules.extent packing type (type.withoutArray.isMatrix && rowMajor) =
    Rules.extent packing type rowMajor
  := by
  cases leaf <;> rfl

theorem place_leaf (packing : Packing) {type : GlslType} (leaf : IsLeaf type) (rowMajor : Bool)
    (offset : ℕ) :
  Rules.place packing type rowMajor offset =
    [⟨type, type.withoutArray.isMatrix && rowMajor, offset⟩]
  := by
  cases leaf <;> rfl

theorem recursion_leaf (packing : Packing) {type : GlslType} (leaf : IsLeaf type)
    (rowMajor : Bool) (v : UboVisitor) :
  v.recursion packing type rowMajor = v.visitField packing type rowMajor
  := by
  cases leaf <;> rfl

/-- A variable is placed at the next multiple of its base alignment. -/
theorem moves_leaf (packing : Packing) {type : GlslType} (leaf : IsLeaf type)
    (wf : type.WellFormed) (rowMajor : Bool) {v : UboVisitor} {n : ℕ}
    (offset : v.offset = unsigned n) :
  Moves v (v.recursion packing type rowMajor)
    (roundUp n (Rules.alignment packing type rowMajor) + Rules.extent packing type rowMajor)
    (Rules.place packing type rowMajor (roundUp n (Rules.alignment packing type rowMajor)))
  := by
  have isAlignment := isAlignment_alignment packing type rowMajor wf
  have start : glslAlign v.offset
      (baseAlignment packing type (type.withoutArray.isMatrix && rowMajor)) =
      unsigned (roundUp n (Rules.alignment packing type rowMajor)) := by
    rw [baseAlignment_eq packing _ wf, alignment_leaf packing leaf, glslAlign_eq isAlignment offset]
  rw [recursion_leaf packing leaf, place_leaf packing leaf]
  constructor
  · simp only [UboVisitor.visitField, not_isUnsizedArray wf, Bool.false_eq_true, ↓reduceIte]
    rw [start, size_eq packing _ wf, extent_leaf packing leaf, unsigned_add]
  · simp only [UboVisitor.visitField]
    rw [start]
    rfl

theorem moves_enterRecord (packing : Packing) {type : GlslType} (wf : type.WellFormed)
    (rowMajor : Bool) {v : UboVisitor} {n : ℕ} (offset : v.offset = unsigned n) :
  Moves v (v.enterRecord packing type rowMajor)
    (roundUp n (Rules.alignment packing type rowMajor)) []
  := by
  have isAlignment := isAlignment_alignment packing type rowMajor wf
  constructor
  · simp only [UboVisitor.enterRecord]
    rw [baseAlignment_eq packing rowMajor wf, glslAlign_eq isAlignment offset]
  · simp [UboVisitor.enterRecord]

/-- The elements of an array are placed one behind the other. -/
theorem moves_iterate {step : UboVisitor → UboVisitor} {a extent : ℕ}
    {place : ℕ → List UniformBufferVariable} (pos : 0 < a) (h : a ∣ extent)
    (moves : ∀ {v : UboVisitor} {n : ℕ}, v.offset = unsigned n →
      Moves v (step v) (roundUp n a + extent) (place (roundUp n a)))
    {v : UboVisitor} {n : ℕ} (offset : v.offset = unsigned n) (k : ℕ) :
  Moves v (step^[k + 1] v) (roundUp n a + (k + 1) * extent)
    ((List.range (k + 1)).flatMap fun i => place (roundUp n a + i * extent))
  := by
  induction k with
  | zero =>
    have one := moves offset
    simpa using one
  | succ k ih =>
    have aligned : roundUp (roundUp n a + (k + 1) * extent) a = roundUp n a + (k + 1) * extent := by
      apply roundUp_of_dvd pos
      apply Nat.dvd_add (dvd_roundUp n a)
      apply h.trans (Nat.dvd_mul_left _ _)
    have last := moves ih.offset
    rw [aligned] at last
    have both := ih.trans last
    rw [Function.iterate_succ_apply', List.range_succ, List.flatMap_append, List.flatMap_singleton,
      add_mul (k + 1) 1 extent, one_mul, ← add_assoc]
    exact both

theorem stride_nested {packing : Packing} {element : GlslType}
    (h : element.isRecord || element.isArray) (n : ℕ) :
  Rules.stride packing element n = n
  := by
  cases element with
  | vector wide elements => simp [GlslType.isRecord, GlslType.isArray] at h
  | matrix wide columns rows => rfl
  | array element length => rfl
  | record fields => rfl

/-- The rounding of a multiple of an alignment. -/
theorem dvd_round_of_dvd {packing : Packing} {a b : ℕ} (h : Rules.round packing a ∣ b) :
  Rules.round packing (Rules.round packing a) ∣ b
  := by
  rwa [round_round]

/-- The elements of an array are multiples of its alignment apart. -/
theorem dvd_stride (packing : Packing) (element : GlslType) (rowMajor : Bool) :
  Rules.round packing (Rules.alignment packing element rowMajor) ∣
    Rules.stride packing element (Rules.extent packing element rowMajor)
  := by
  cases element with
  | vector wide elements => exact dvd_refl _
  | matrix wide columns rows =>
    apply dvd_round_of_dvd
    cases rowMajor <;> exact Nat.dvd_mul_left _ _
  | array element length =>
    apply dvd_round_of_dvd
    apply Nat.dvd_mul_left_of_dvd
    apply dvd_stride packing element rowMajor
  | record fields =>
    apply dvd_round_of_dvd
    apply dvd_extent_record

theorem round_alignment (packing : Packing) {type : GlslType} {rowMajor : Bool}
    (h : type.isRecord || type.isArray) :
  Rules.round packing (Rules.alignment packing type rowMajor) =
    Rules.alignment packing type rowMajor
  := by
  cases type with
  | vector wide elements => simp [GlslType.isRecord, GlslType.isArray] at h
  | matrix wide columns rows => simp [GlslType.isRecord, GlslType.isArray] at h
  | array element length => exact round_round _ _
  | record fields => exact round_round _ _

/-- What an array or a structure takes is a multiple of its alignment. -/
theorem dvd_extent (packing : Packing) {type : GlslType} (rowMajor : Bool)
    (h : type.isRecord || type.isArray) :
  Rules.alignment packing type rowMajor ∣ Rules.extent packing type rowMajor
  := by
  have apart := dvd_stride packing type rowMajor
  rw [stride_nested h, round_alignment packing h] at apart
  exact apart

/-- The elements of an array, that are structures or arrays, are visited one after the other. -/
theorem recursion_array (packing : Packing) {element : GlslType} {length : ℕ} (rowMajor : Bool)
    (h : element.isRecord || element.isArray) (v : UboVisitor) :
  v.recursion packing (.array element length) rowMajor =
    (fun v => v.recursion packing element rowMajor)^[if length = 0 then 1 else length] v
  := by
  rw [UboVisitor.recursion, if_pos]
  cases element with
  | vector wide elements => simp [GlslType.isRecord, GlslType.isArray] at h
  | matrix wide columns rows => simp [GlslType.isRecord, GlslType.isArray] at h
  | array element' length' => simp [GlslType.isArray]
  | record fields => rfl

/-- The visitor follows the rules in an array of structures or arrays, with one element if it has no
size. -/
theorem moves_array (packing : Packing) {element : GlslType} {length : ℕ} {rowMajor : Bool}
    (h : element.isRecord || element.isArray) (wf : element.WellFormed)
    (moves : ∀ {v : UboVisitor} {n : ℕ}, v.offset = unsigned n →
      Moves v (v.recursion packing element rowMajor)
        (roundUp n (Rules.alignment packing element rowMajor) +
          Rules.extent packing element rowMajor)
        (Rules.place packing element rowMajor
          (roundUp n (Rules.alignment packing element rowMajor))))
    {v : UboVisitor} {n : ℕ} (offset : v.offset = unsigned n) :
  Moves v (v.recursion packing (.array element length) rowMajor)
    (roundUp n (Rules.alignment packing (.array element length) rowMajor) +
      (if length = 0 then 1 else length) * Rules.extent packing element rowMajor)
    (Rules.place packing (.array element length) rowMajor
      (roundUp n (Rules.alignment packing (.array element length) rowMajor)))
  := by
  have isAlignment := isAlignment_alignment packing element rowMajor wf
  rw [recursion_array packing rowMajor h, alignment_array h, Rules.place, if_pos h,
    stride_nested h]
  obtain ⟨k, hk⟩ : ∃ k, (if length = 0 then 1 else length) = k + 1 := by
    cases length with
    | zero => exact ⟨0, rfl⟩
    | succ k => exact ⟨k, if_neg (Nat.succ_ne_zero k)⟩
  rw [hk]
  apply moves_iterate isAlignment.pos (dvd_extent packing rowMajor h) moves offset

theorem moves_sized (packing : Packing) {element : GlslType} {length : ℕ} {rowMajor : Bool}
    (h : element.isRecord || element.isArray) (wf : (GlslType.array element length).WellFormed)
    (moves : ∀ {v : UboVisitor} {n : ℕ}, v.offset = unsigned n →
      Moves v (v.recursion packing element rowMajor)
        (roundUp n (Rules.alignment packing element rowMajor) +
          Rules.extent packing element rowMajor)
        (Rules.place packing element rowMajor
          (roundUp n (Rules.alignment packing element rowMajor))))
    {v : UboVisitor} {n : ℕ} (offset : v.offset = unsigned n) :
  Moves v (v.recursion packing (.array element length) rowMajor)
    (roundUp n (Rules.alignment packing (.array element length) rowMajor) +
      Rules.extent packing (.array element length) rowMajor)
    (Rules.place packing (.array element length) rowMajor
      (roundUp n (Rules.alignment packing (.array element length) rowMajor)))
  := by
  have all : Moves v (v.recursion packing (.array element length) rowMajor) _ _ :=
    moves_array packing h wf.2 moves offset
  rw [if_neg (Nat.ne_of_gt wf.1)] at all
  rw [Rules.extent, stride_nested h]
  exact all

mutual

/-- The visitor follows the rules below a member of an interface block. -/
theorem moves_recursion (packing : Packing) : ∀ (type : GlslType) (rowMajor : Bool),
    type.WellFormed → ∀ {v : UboVisitor} {n : ℕ}, v.offset = unsigned n →
    Moves v (v.recursion packing type rowMajor)
      (roundUp n (Rules.alignment packing type rowMajor) + Rules.extent packing type rowMajor)
      (Rules.place packing type rowMajor (roundUp n (Rules.alignment packing type rowMajor)))
  | .vector wide elements, rowMajor, wf, v, n, offset =>
    moves_leaf packing .vector wf rowMajor offset
  | .matrix wide columns rows, rowMajor, wf, v, n, offset =>
    moves_leaf packing .matrix wf rowMajor offset
  | .array (.vector wide elements) length, rowMajor, wf, v, n, offset =>
    moves_leaf packing .vectors wf rowMajor offset
  | .array (.matrix wide columns rows) length, rowMajor, wf, v, n, offset =>
    moves_leaf packing .matrices wf rowMajor offset
  | .array (.array element length') length, rowMajor, wf, v, n, offset =>
    moves_sized packing rfl wf (moves_recursion packing _ rowMajor wf.2) offset
  | .array (.record fields) length, rowMajor, wf, v, n, offset =>
    moves_sized packing rfl wf (moves_recursion packing _ rowMajor wf.2) offset
  | .record fields, rowMajor, wf, v, n, offset => by
    have isAlignment := isAlignment_alignment packing (.record fields) rowMajor wf
    have enter := moves_enterRecord packing wf rowMajor offset
    have inside := moves_recursionFields packing fields rowMajor wf.2 isAlignment
      (le_round packing _) (dvd_roundUp n _) (n := 0) enter.offset
    have leave := moves_enterRecord packing wf rowMajor inside.offset
    have all := (enter.trans inside).trans leave
    rw [List.append_nil, List.nil_append, roundUp_add isAlignment.pos (dvd_roundUp _ _)] at all
    exact all

theorem moves_recursionFields (packing : Packing) : ∀ (fields : Fields) (rowMajor : Bool),
    fields.WellFormed → ∀ {v : UboVisitor} {a base n : ℕ}, IsAlignment a →
    Rules.fieldsAlignment packing fields rowMajor ≤ a → a ∣ base → v.offset = unsigned (base + n) →
    Moves v (v.recursionFields packing fields rowMajor)
      (base + Rules.fieldsEnd packing fields rowMajor n)
      (Rules.placeFields packing fields rowMajor base n)
  | .nil, rowMajor, _, v, a, base, n, _, _, _, offset => by
    constructor
    · exact offset
    · simp [Rules.placeFields, UboVisitor.recursionFields]
  | .cons matrixLayout type rest, rowMajor, wf, v, a, base, n, isAlignment, le, h, offset => by
    rw [UboVisitor.recursionFields, Rules.fieldsEnd, Rules.placeFields]
    rw [Rules.fieldsAlignment] at le
    generalize fieldRowMajor matrixLayout rowMajor = rowMajor' at le ⊢
    have typeAlignment := isAlignment_alignment packing type rowMajor' wf.1
    have divides : Rules.alignment packing type rowMajor' ∣ base := by
      apply dvd_trans _ h
      apply typeAlignment.dvd_of_le isAlignment (le_trans (le_max_left _ _) le)
    have one := moves_recursion packing type rowMajor' wf.1 offset
    rw [roundUp_add typeAlignment.pos divides, add_assoc] at one
    have others := moves_recursionFields packing rest rowMajor wf.2 isAlignment
      (le_trans (le_max_right _ _) le) h one.offset
    exact one.trans others

end

/-- An array of vectors or matrices without a size is a variable as well. -/
theorem moves_unsizedLeaf (packing : Packing) {element : GlslType} {rowMajor : Bool}
    (leaf : IsLeaf (.array element 0)) (wf : element.WellFormed) {v : UboVisitor} {n : ℕ}
    (offset : v.offset = unsigned n) :
  ∃ m, Moves v (v.recursion packing (.array element 0) rowMajor) m
    (Rules.place packing (.array element 0) rowMajor
      (roundUp n (Rules.alignment packing (.array element 0) rowMajor)))
  := by
  have wf' : (GlslType.array element 1).WellFormed := ⟨Nat.one_pos, wf⟩
  -- the base alignment does not depend on the length
  have same (rowMajor' : Bool) : baseAlignment packing (.array element 0) rowMajor' =
      Rules.alignment packing (.array element 0) rowMajor' := by
    cases packing with
    | std140 =>
      have h := baseAlignment_eq .std140 rowMajor' wf'
      exact h
    | std430 =>
      have h := baseAlignment_eq .std430 rowMajor' wf'
      exact h
  have isAlignment : IsAlignment (Rules.alignment packing (.array element 0) rowMajor) :=
    (isAlignment_alignment packing element rowMajor wf).round
  rw [recursion_leaf packing leaf, place_leaf packing leaf]
  refine ⟨_, rfl, ?_⟩
  simp only [UboVisitor.visitField]
  rw [same, alignment_leaf packing leaf, glslAlign_eq isAlignment offset]
  rfl

/-- The last member of an interface block may be an array without a size. -/
theorem moves_unsized (packing : Packing) {element : GlslType} {rowMajor : Bool}
    (wf : element.WellFormed) {v : UboVisitor} {n : ℕ} (offset : v.offset = unsigned n) :
  ∃ m, Moves v (v.recursion packing (.array element 0) rowMajor) m
    (Rules.place packing (.array element 0) rowMajor
      (roundUp n (Rules.alignment packing (.array element 0) rowMajor)))
  := by
  have nested (h : element.isRecord || element.isArray) :
      ∃ m, Moves v (v.recursion packing (.array element 0) rowMajor) m _ :=
    ⟨_, moves_array packing h wf (moves_recursion packing _ rowMajor wf) offset⟩
  cases element with
  | vector wide elements => exact moves_unsizedLeaf packing .vectors wf offset
  | matrix wide columns rows => exact moves_unsizedLeaf packing .matrices wf offset
  | array element' length' => exact nested rfl
  | record fields => exact nested rfl

theorem moves_members (packing : Packing) : ∀ {members : List Member},
    WellFormedMembers members → (∀ m ∈ members, m.offset = none) →
    ∀ {v : UboVisitor} {n : ℕ}, v.offset = unsigned n →
    (v.recursionMembers packing members).uniforms =
      v.uniforms ++ (Rules.placeMembers packing members n).map UniformBufferVariable.wrap
  | [], _, _, v, n, _ => by
    simp [UboVisitor.recursionMembers, Rules.placeMembers]
  | [m], wf, plain, v, n, offset => by
    have h : ∃ k, Moves v (v.recursion packing m.type (fieldRowMajor m.matrixLayout false)) k
        (Rules.place packing m.type (fieldRowMajor m.matrixLayout false)
          (roundUp n (Rules.alignment packing m.type (fieldRowMajor m.matrixLayout false)))) := by
      rcases wf with sized | ⟨element, unsized, wf⟩
      · exact ⟨_, moves_recursion packing m.type _ sized offset⟩
      · rw [unsized]
        apply moves_unsized packing wf offset
    obtain ⟨k, moves⟩ := h
    simp only [UboVisitor.recursionMembers, Rules.placeMembers, plain m (List.mem_singleton_self m),
      List.append_nil]
    exact moves.uniforms
  | m :: m' :: rest, wf, plain, v, n, offset => by
    have one := moves_recursion packing m.type (fieldRowMajor m.matrixLayout false) wf.1 offset
    have plain' : ∀ x ∈ m' :: rest, x.offset = none := fun x hx => plain x (.tail _ hx)
    have others := moves_members packing wf.2 plain' one.offset
    rw [UboVisitor.recursionMembers, Rules.placeMembers]
    simp only [plain m (.head _)]
    rw [others, one.uniforms, List.map_append, List.append_assoc]

/-! ### Variables do not overlap -/

/-- Variables in a part of a block, one behind the other. -/
structure Tiles (packing : Packing) (uniforms : List UniformBufferVariable) (low high : ℕ) :
    Prop where
  within : ∀ u ∈ uniforms, low ≤ u.offset ∧
    u.offset + Rules.extent packing u.type u.rowMajor ≤ high
  ordered : uniforms.Pairwise fun a b =>
    a.offset + Rules.extent packing a.type a.rowMajor ≤ b.offset

theorem Tiles.append {packing : Packing} {xs ys : List UniformBufferVariable}
    {low middle middle' high : ℕ} (h : Tiles packing xs low middle)
    (h' : Tiles packing ys middle' high) (le : middle ≤ middle') (below : low ≤ middle)
    (above : middle' ≤ high) :
  Tiles packing (xs ++ ys) low high
  := by
  constructor
  · intro u hu
    rcases List.mem_append.mp hu with hu | hu
    · obtain ⟨hl, hh⟩ := h.within u hu
      omega
    · obtain ⟨hl, hh⟩ := h'.within u hu
      omega
  · apply List.pairwise_append.mpr
    refine ⟨h.ordered, h'.ordered, ?_⟩
    intro a ha b hb
    have ends := (h.within a ha).2
    have starts := (h'.within b hb).1
    omega

theorem Tiles.mono {packing : Packing} {xs : List UniformBufferVariable}
    {low low' high high' : ℕ} (h : Tiles packing xs low high) (le : low' ≤ low)
    (le' : high ≤ high') :
  Tiles packing xs low' high'
  := by
  constructor
  · intro u hu
    obtain ⟨hl, hh⟩ := h.within u hu
    omega
  · exact h.ordered

theorem tiles_leaf (packing : Packing) {type : GlslType} (leaf : IsLeaf type) (rowMajor : Bool)
    (offset : ℕ) :
  Tiles packing (Rules.place packing type rowMajor offset) offset
    (offset + Rules.extent packing type rowMajor)
  := by
  rw [place_leaf packing leaf, ← extent_leaf packing leaf]
  constructor
  · intro u hu
    rw [List.mem_singleton.mp hu]
    exact ⟨le_refl _, le_refl _⟩
  · apply List.pairwise_singleton

theorem tiles_elements {packing : Packing} {place : ℕ → List UniformBufferVariable} {extent : ℕ}
    (tiles : ∀ offset, Tiles packing (place offset) offset (offset + extent)) (offset k : ℕ) :
  Tiles packing ((List.range k).flatMap fun i => place (offset + i * extent)) offset
    (offset + k * extent)
  := by
  induction k with
  | zero => exact ⟨by simp, by simp⟩
  | succ k ih =>
    rw [List.range_succ, List.flatMap_append, List.flatMap_singleton, Nat.succ_mul, ← add_assoc]
    apply ih.append (tiles _) (le_refl _) (Nat.le_add_right _ _) (Nat.le_add_right _ _)

theorem tiles_array (packing : Packing) {element : GlslType} {rowMajor : Bool}
    (h : element.isRecord || element.isArray)
    (tiles : ∀ offset, Tiles packing (Rules.place packing element rowMajor offset) offset
      (offset + Rules.extent packing element rowMajor)) (length offset : ℕ) :
  Tiles packing (Rules.place packing (.array element length) rowMajor offset) offset
    (offset + (if length = 0 then 1 else length) * Rules.extent packing element rowMajor)
  := by
  rw [Rules.place, if_pos h, stride_nested h]
  apply tiles_elements tiles

mutual

theorem tiles_place (packing : Packing) : ∀ (type : GlslType) (rowMajor : Bool),
    type.WellFormed → ∀ offset, Tiles packing (Rules.place packing type rowMajor offset) offset
      (offset + Rules.extent packing type rowMajor)
  | .vector _ _, rowMajor, _, offset => tiles_leaf packing .vector rowMajor offset
  | .matrix _ _ _, rowMajor, _, offset => tiles_leaf packing .matrix rowMajor offset
  | .array (.vector _ _) _, rowMajor, _, offset => tiles_leaf packing .vectors rowMajor offset
  | .array (.matrix _ _ _) _, rowMajor, _, offset => tiles_leaf packing .matrices rowMajor offset
  | .array (.array element length') length, rowMajor, wf, offset => by
    have inner := tiles_place packing (.array element length') rowMajor wf.2
    have outer := tiles_array packing rfl inner length offset
    rw [if_neg (Nat.ne_of_gt wf.1)] at outer
    exact outer
  | .array (.record fields) length, rowMajor, wf, offset => by
    have inner := tiles_place packing (.record fields) rowMajor wf.2
    have outer := tiles_array packing rfl inner length offset
    rw [if_neg (Nat.ne_of_gt wf.1)] at outer
    exact outer
  | .record fields, rowMajor, wf, offset => by
    have isAlignment := isAlignment_alignment packing (.record fields) rowMajor wf
    have h := tiles_placeFields packing fields rowMajor wf.2 offset 0
    rw [Rules.place, Rules.extent]
    apply h.1.mono (le_refl _)
    apply Nat.add_le_add_left (le_roundUp isAlignment.pos _)

theorem tiles_placeFields (packing : Packing) : ∀ (fields : Fields) (rowMajor : Bool),
    fields.WellFormed → ∀ base offset,
    Tiles packing (Rules.placeFields packing fields rowMajor base offset) (base + offset)
      (base + Rules.fieldsEnd packing fields rowMajor offset) ∧
    offset ≤ Rules.fieldsEnd packing fields rowMajor offset
  | .nil, rowMajor, _, base, offset =>
    ⟨⟨by simp [Rules.placeFields], by simp [Rules.placeFields]⟩, le_refl _⟩
  | .cons matrixLayout type rest, rowMajor, wf, base, offset => by
    rw [Rules.placeFields, Rules.fieldsEnd]
    generalize fieldRowMajor matrixLayout rowMajor = rowMajor'
    have pos := (isAlignment_alignment packing type rowMajor' wf.1).pos
    have le := le_roundUp pos offset
    have one := tiles_place packing type rowMajor' wf.1
      (base + roundUp offset (Rules.alignment packing type rowMajor'))
    obtain ⟨others, le'⟩ := tiles_placeFields packing rest rowMajor wf.2 base
      (roundUp offset (Rules.alignment packing type rowMajor') +
        Rules.extent packing type rowMajor')
    constructor
    · apply Tiles.mono (one.append others _ _ _) <;> omega
    · omega

end

theorem tiles_unsized (packing : Packing) {element : GlslType} (rowMajor : Bool)
    (wf : element.WellFormed) (offset : ℕ) :
  ∃ high, Tiles packing (Rules.place packing (.array element 0) rowMajor offset) offset high
  := by
  have inner := tiles_place packing element rowMajor wf
  cases element with
  | vector wide elements => exact ⟨_, tiles_leaf packing .vectors rowMajor offset⟩
  | matrix wide columns rows => exact ⟨_, tiles_leaf packing .matrices rowMajor offset⟩
  | array element' length' => exact ⟨_, tiles_array packing rfl inner 0 offset⟩
  | record fields => exact ⟨_, tiles_array packing rfl inner 0 offset⟩

theorem tiles_members (packing : Packing) : ∀ {members : List Member},
    WellFormedMembers members → ∀ offset, ∃ high, offset ≤ high ∧
    Tiles packing (Rules.placeMembers packing members offset) offset high
  | [], _, offset => ⟨offset, le_refl _, by simp [Rules.placeMembers], by simp [Rules.placeMembers]⟩
  | [m], wf, offset => by
    simp only [Rules.placeMembers, List.append_nil]
    generalize fieldRowMajor m.matrixLayout false = rowMajor
    rw [WellFormedMembers] at wf
    generalize m.type = type at wf ⊢
    rcases wf with sized | ⟨element, rfl, wf⟩
    · have pos := (isAlignment_alignment packing type rowMajor sized).pos
      have le := le_roundUp pos offset
      refine ⟨_, ?_, (tiles_place packing type rowMajor sized _).mono le (le_refl _)⟩
      omega
    · have pos : 0 < Rules.alignment packing (.array element 0) rowMajor :=
        (isAlignment_alignment packing element rowMajor wf).round.pos
      have le := le_roundUp pos offset
      obtain ⟨high, tiles⟩ := tiles_unsized packing rowMajor wf
        (roundUp offset (Rules.alignment packing (.array element 0) rowMajor))
      exact ⟨max offset high, le_max_left _ _, tiles.mono le (le_max_right _ _)⟩
  | m :: m' :: rest, wf, offset => by
    rw [Rules.placeMembers]
    generalize fieldRowMajor m.matrixLayout false = rowMajor
    have pos := (isAlignment_alignment packing m.type rowMajor wf.1).pos
    have le := le_roundUp pos offset
    have one := tiles_place packing m.type rowMajor wf.1
      (roundUp offset (Rules.alignment packing m.type rowMajor))
    obtain ⟨high, le', others⟩ := tiles_members packing wf.2
      (roundUp offset (Rules.alignment packing m.type rowMajor) +
        Rules.extent packing m.type rowMajor)
    refine ⟨high, by omega, ?_⟩
    apply Tiles.mono (one.append others _ _ _) <;> omega

/-! ### The interface block -/

/-- The visitor places the variables modulo `2 ^ 32`. -/
theorem process_eq (packing : Packing) {members : List Member} (wf : WellFormedMembers members)
    (plain : ∀ m ∈ members, m.offset = none) :
  (UboVisitor.process packing members).uniforms =
    (Rules.placeMembers packing members 0).map UniformBufferVariable.wrap
  := by
  rw [UboVisitor.process, moves_members packing wf plain (n := 0) rfl, List.nil_append]

theorem wrap_eq_self_iff (u : UniformBufferVariable) :
  u.wrap = u ↔ u.offset < 2 ^ 32
  := by
  constructor
  · intro h
    have offset : unsigned u.offset = u.offset := congrArg UniformBufferVariable.offset h
    rw [← offset]
    apply Nat.mod_lt _ (by decide)
  · intro lt
    rw [UniformBufferVariable.wrap, unsigned_of_lt lt]

/-- A structure takes as much as its size says. -/
theorem advances (packing : Packing) :
  Advances packing
  := by
  intro fields rowMajor v wf word
  have isAlignment := isAlignment_alignment packing (.record fields) rowMajor wf
  have offset : v.offset = unsigned v.offset := (unsigned_of_lt word).symm
  have moves := moves_recursion packing (.record fields) rowMajor wf offset
  rw [moves.offset, baseAlignment_eq packing rowMajor wf, size_eq packing rowMajor wf,
    glslAlign_eq isAlignment offset, unsigned_add]

/-- The variables are placed by the rules exactly when the rules place them below `2 ^ 32`. -/
theorem follows_iff {packing : Packing} {members : List Member} (wf : WellFormedMembers members)
    (plain : ∀ m ∈ members, m.offset = none) :
  Follows packing members ∧ Advances packing ↔
    ∀ u ∈ Rules.placeMembers packing members 0, u.offset < 2 ^ 32
  := by
  obtain ⟨high, -, tiles⟩ := tiles_members packing wf 0
  have eq := process_eq packing wf plain
  have same : (Rules.placeMembers packing members 0).map UniformBufferVariable.wrap =
      Rules.placeMembers packing members 0 ↔
      ∀ u ∈ Rules.placeMembers packing members 0, u.offset < 2 ^ 32 := by
    have h : (Rules.placeMembers packing members 0).map UniformBufferVariable.wrap =
        (Rules.placeMembers packing members 0).map id ↔ _ := List.map_inj_left
    rw [List.map_id] at h
    rw [h]
    apply forall₂_congr
    intro u hu
    apply wrap_eq_self_iff
  constructor
  · rintro ⟨follows, -⟩
    apply same.mp
    rw [← eq]
    exact follows.placed
  · intro small
    have placed := same.mpr small
    refine ⟨⟨?_, ?_⟩, advances packing⟩
    · rw [eq, placed]
    · rw [eq, placed]
      exact tiles.ordered

/-- `struct { float a; layout(row_major) dmat2x3 b; } s[2]; vec3 v; float w[];` -/
theorem follows_iff_nested :
  Follows .std430 [⟨none, .inherited, .array (.record (.cons .inherited (.vector false 1)
      (.cons .rowMajor (.matrix true 2 3) .nil))) 2⟩,
    ⟨none, .inherited, .vector false 3⟩, ⟨none, .inherited, .array (.vector false 1) 0⟩] ∧
  Advances .std430
  := by
  apply (follows_iff _ _).mpr
  · decide
  · simp [WellFormedMembers, GlslType.WellFormed, Fields.WellFormed, Fields.isEmpty]
  · simp

/-- In `vec4 a[268435456]; float b;` the second member begins where the first one does. -/
theorem offset_wraps :
  WellFormedMembers [⟨none, .inherited, .array (.vector false 4) 268435456⟩,
    ⟨none, .inherited, .vector false 1⟩] ∧
  ¬ Follows .std140 [⟨none, .inherited, .array (.vector false 4) 268435456⟩,
    ⟨none, .inherited, .vector false 1⟩]
  := by
  have wf : WellFormedMembers [⟨none, .inherited, .array (.vector false 4) 268435456⟩,
      ⟨none, .inherited, .vector false 1⟩] := by
    simp [WellFormedMembers, GlslType.WellFormed]
  refine ⟨wf, ?_⟩
  intro follows
  have placed := follows.placed
  rw [process_eq .std140 wf (by simp)] at placed
  have offsets := congrArg (List.map UniformBufferVariable.offset) placed
  exact absurd offsets (by decide)

end Glsl.Layout
