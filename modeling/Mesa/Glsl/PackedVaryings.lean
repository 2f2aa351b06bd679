import Mesa.Glsl.Types
import Mathlib.Data.List.Basic

/-!
# Packed varyings

`lower_packed_varyings.cpp` replaces a flat varying by vectors of four integers: the producer packs
the components of the varying into them, and the consumer unpacks these.  A fine location counts
32-bit components of the packed vectors, four to a slot.
-/

namespace Glsl.PackedVaryings

open Layout

/-- Two words for a component of 64 bits. -/
def dmul (wide : Bool) : ℕ := if wide then 2 else 1

mutual

/-- `component_slots`, what the linker reserves for a varying -/
def componentSlots : Layout.GlslType → ℕ
  | .vector wide elements => dmul wide * elements
  | .matrix wide columns rows => dmul wide * (rows * columns)
  | .array element length => length * componentSlots element
  | .record fields => fieldsSlots fields

/-- The loop over the fields of a structure. -/
def fieldsSlots : Fields → ℕ
  | .nil => 0
  | .cons _ type rest => componentSlots type + fieldsSlots rest

end

/-! ### Assignments -/

/-- What leads to a vector in a variable: indices of fields, array elements, and columns. -/
abbrev Path := List ℕ

/-- The bits of the components of a variable.  A component of 32 bits has them in the lower half. -/
abbrev Contents := Path → ℕ → BitVec 64

/-- The words of the packed varyings, for each vertex. -/
abbrev Packed := ℕ → ℕ → BitVec 32

/-- An assignment between some components of a vector and the components of a packed varying from a
fine location on. -/
structure Assignment where
  path : Path
  first : ℕ
  count : ℕ
  wide : Bool
  vertexIndex : ℕ
  fineLocation : ℕ
  deriving DecidableEq

/-- How many words an assignment packs. -/
def Assignment.words (a : Assignment) : ℕ := a.count * dmul a.wide

/-- `unpack_double_2x32`, `unpack_int_2x32` and `unpack_uint_2x32` -/
def unpack2x32 (x : BitVec 64) (i : ℕ) : BitVec 32 := x.extractLsb' (32 * i) 32

/-- `pack_double_2x32`, `pack_int_2x32` and `pack_uint_2x32` -/
def pack2x32 (low high : BitVec 32) : BitVec 64 := high ++ low

/-- The words that an assignment packs.  The conversions between the types of 32 bits keep the
bits. -/
def Assignment.word (a : Assignment) (contents : Contents) (j : ℕ) : BitVec 32 :=
  if a.wide then unpack2x32 (contents a.path (a.first + j / 2)) (j % 2)
  else (contents a.path (a.first + j)).setWidth 32

/-- `bitwise_assign_pack` -/
def Assignment.pack (a : Assignment) (contents : Contents) (packed : Packed) : Packed :=
  fun vertex location =>
    if vertex = a.vertexIndex ∧ a.fineLocation ≤ location ∧
        location < a.fineLocation + a.words then
      a.word contents (location - a.fineLocation)
    else packed vertex location

/-- The components that an assignment unpacks. -/
def Assignment.component (a : Assignment) (packed : Packed) (j : ℕ) : BitVec 64 :=
  if a.wide then
    pack2x32 (packed a.vertexIndex (a.fineLocation + 2 * j))
      (packed a.vertexIndex (a.fineLocation + 2 * j + 1))
  else (packed a.vertexIndex (a.fineLocation + j)).setWidth 64

/-- `bitwise_assign_unpack` -/
def Assignment.unpack (a : Assignment) (packed : Packed) (contents : Contents) : Contents :=
  fun path i =>
    if path = a.path ∧ a.first ≤ i ∧ i < a.first + a.count then a.component packed (i - a.first)
    else contents path i

/-- The assignments of the producer. -/
def packAll (assignments : List Assignment) (contents : Contents) (packed : Packed) : Packed :=
  assignments.foldl (fun packed a => a.pack contents packed) packed

/-- The assignments of the consumer. -/
def unpackAll (assignments : List Assignment) (packed : Packed) (contents : Contents) :
    Contents :=
  assignments.foldl (fun contents a => a.unpack packed contents) contents

/-! ### The lowering -/

/-- How many components of a vector go to the left, when it is split. -/
def leftComponents (wide : Bool) (fineLocation : ℕ) : ℕ :=
  if wide then (4 - fineLocation % 4) / 2 else 4 - fineLocation % 4

theorem leftComponents_lt {wide : Bool} {count fineLocation : ℕ}
    (double : 4 < count * dmul wide + fineLocation % 4) :
  leftComponents wide fineLocation < count
  := by
  cases wide <;> simp only [leftComponents, dmul, Bool.false_eq_true, ↓reduceIte] at double ⊢ <;>
    omega

theorem mod_of_leftComponents {wide : Bool} {fineLocation : ℕ}
    (zero : leftComponents wide fineLocation = 0) :
  fineLocation % 4 = 3
  := by
  cases wide <;> simp only [leftComponents, Bool.false_eq_true, ↓reduceIte] at zero <;> omega

/-- A measure for the splitting of vectors. -/
def remaining (count fineLocation : ℕ) : ℕ :=
  2 * count + if fineLocation % 4 = 3 then 1 else 0

theorem remaining_lt {count count' fineLocation fineLocation' : ℕ} (lt : count' < count) :
  remaining count' fineLocation' < remaining count fineLocation
  := by
  unfold remaining
  split <;> split <;> omega

theorem remaining_succ_lt {count fineLocation : ℕ} (last : fineLocation % 4 = 3) :
  remaining count (fineLocation + 1) < remaining count fineLocation
  := by
  have first : ¬ (fineLocation + 1) % 4 = 3 := by omega
  rw [remaining, remaining, if_pos last, if_neg first]
  omega

/-- `lower_rvalue` at a vector, or some components of it, with the fine location behind it. -/
def lowerVector (path : Path) (wide : Bool) (vertexIndex first count fineLocation : ℕ) :
    List Assignment × ℕ :=
  if _double : 4 < count * dmul wide + fineLocation % 4 then
    let rightComponents := count - leftComponents wide fineLocation
    if _zero : leftComponents wide fineLocation = 0 then
      -- top up the fine location to the next slot
      lowerVector path wide vertexIndex (first + leftComponents wide fineLocation) rightComponents
        (fineLocation + 1)
    else
      let left :=
        lowerVector path wide vertexIndex first (leftComponents wide fineLocation) fineLocation
      let right :=
        lowerVector path wide vertexIndex (first + leftComponents wide fineLocation) rightComponents
          left.2
      (left.1 ++ right.1, right.2)
  else
    ([⟨path, first, count, wide, vertexIndex, fineLocation⟩], fineLocation + count * dmul wide)
termination_by remaining count fineLocation
decreasing_by
  · rw [_zero, Nat.sub_zero]
    apply remaining_succ_lt (mod_of_leftComponents _zero)
  · apply remaining_lt (leftComponents_lt _double)
  · apply remaining_lt
    have lt := leftComponents_lt _double
    omega

/-- `lower_arraylike`, on the first elements, for a varying that is no geometry shader input -/
def lowerArraylike (lower : ℕ → ℕ → List Assignment × ℕ) : ℕ → ℕ → List Assignment × ℕ
  | 0, fineLocation => ([], fineLocation)
  | n + 1, fineLocation =>
    let before := lowerArraylike lower n fineLocation
    let last := lower n before.2
    (before.1 ++ last.1, last.2)

/-- `lower_arraylike` for a geometry shader input: each element is a vertex. -/
def lowerVertices (lower : ℕ → List Assignment × ℕ) (n fineLocation : ℕ) : List Assignment × ℕ :=
  ((List.range n).flatMap fun i => (lower i).1, fineLocation)

mutual

/-- `lower_rvalue` -/
def lowerRvalue : Layout.GlslType → Path → ℕ → Bool → ℕ → List Assignment × ℕ
  | .record fields, path, fineLocation, _, vertexIndex =>
    lowerFields fields path 0 fineLocation vertexIndex
  | .array element length, path, fineLocation, gsInputToplevel, vertexIndex =>
    if gsInputToplevel then
      lowerVertices (fun i => lowerRvalue element (path ++ [i]) fineLocation false i) length
        fineLocation
    else
      lowerArraylike
        (fun i fineLocation => lowerRvalue element (path ++ [i]) fineLocation false vertexIndex)
        length fineLocation
  | .matrix wide columns rows, path, fineLocation, _, vertexIndex =>
    lowerArraylike
      (fun i fineLocation => lowerVector (path ++ [i]) wide vertexIndex 0 rows fineLocation)
      columns fineLocation
  | .vector wide elements, path, fineLocation, _, vertexIndex =>
    lowerVector path wide vertexIndex 0 elements fineLocation

/-- The loop over the fields of a structure. -/
def lowerFields : Fields → Path → ℕ → ℕ → ℕ → List Assignment × ℕ
  | .nil, _, _, fineLocation, _ => ([], fineLocation)
  | .cons _ type rest, path, i, fineLocation, vertexIndex =>
    let field := lowerRvalue type (path ++ [i]) fineLocation false vertexIndex
    let others := lowerFields rest path (i + 1) field.2 vertexIndex
    (field.1 ++ others.1, others.2)

end

/-- The assignments for a varying. -/
def assignments (type : Layout.GlslType) (fineLocation : ℕ) : List Assignment :=
  (lowerRvalue type [] fineLocation false 0).1

/-- The assignments for a geometry shader input with so many vertices. -/
def gsAssignments (type : Layout.GlslType) (vertices fineLocation : ℕ) : List Assignment :=
  (lowerRvalue (.array type vertices) [] fineLocation true 0).1

/-! ### What the lowering is for -/

mutual

/-- A component of a value, with its path and index, and whether it has 64 bits. -/
def Component : Layout.GlslType → Path → ℕ → Bool → Prop
  | .vector wide elements, path, i, wide' => path = [] ∧ i < elements ∧ wide' = wide
  | .matrix wide columns rows, path, i, wide' => ∃ k < columns, path = [k] ∧ i < rows ∧ wide' = wide
  | .array element length, path, i, wide' =>
    ∃ k < length, ∃ rest, path = k :: rest ∧ Component element rest i wide'
  | .record fields, path, i, wide' => FieldComponent fields 0 path i wide'

/-- A component of a field of a structure. -/
def FieldComponent : Fields → ℕ → Path → ℕ → Bool → Prop
  | .nil, _, _, _, _ => False
  | .cons _ type rest, k, path, i, wide' =>
    (∃ path', path = k :: path' ∧ Component type path' i wide') ∨
    FieldComponent rest (k + 1) path i wide'

end

/-- The same bits. -/
def Same (wide : Bool) (x y : BitVec 64) : Prop :=
  if wide then x = y else x.setWidth 32 = y.setWidth 32

/-- The consumer finds what the producer packed. -/
def Restores (type : Layout.GlslType) (fineLocation : ℕ) : Prop :=
  ∀ contents contents' packed path i wide, Component type path i wide →
    Same wide (unpackAll (assignments type fineLocation)
      (packAll (assignments type fineLocation) contents packed) contents' path i) (contents path i)

/-- A geometry shader finds what the producer packed for each vertex. -/
def RestoresVertices (type : Layout.GlslType) (fineLocation : ℕ) : Prop :=
  ∀ (contents : ℕ → Contents) contents' (packed : ℕ → Packed) vertices, ∀ m < vertices,
    ∀ path i wide, Component type path i wide →
    Same wide (unpackAll (gsAssignments type vertices fineLocation)
      (fun m => packAll (assignments type fineLocation) (contents m) (packed m) 0) contents'
      (m :: path) i) (contents m path i)

/-- A varying is packed into the components that are reserved for it, so that the next one does not
overwrite it, and it is unpacked from there. -/
structure Packs (type : Layout.GlslType) (fineLocation : ℕ) : Prop where
  restores : Restores type fineLocation
  restoresVertices : RestoresVertices type fineLocation
  within : ∀ a ∈ assignments type fineLocation, fineLocation ≤ a.fineLocation ∧
    a.fineLocation + a.words ≤ fineLocation + componentSlots type
  apart : ∀ type', ∀ a ∈ assignments type fineLocation,
    ∀ b ∈ assignments type' (fineLocation + componentSlots type),
    a.fineLocation + a.words ≤ b.fineLocation

/-! ### The components that go wrong -/

/-- A vector of 64-bit components does not have to leave a component of a slot free. -/
def AlignedVector (wide : Bool) (elements fineLocation : ℕ) : Prop :=
  wide = true → elements = 0 ∨ fineLocation % 2 = 0 ∨ elements = 1 ∧ fineLocation % 4 = 1

mutual

/-- No vector of 64-bit components in a value has to leave a component of a slot free, when each
follows directly what is before it. -/
def Aligned : Layout.GlslType → ℕ → Prop
  | .vector wide elements, fineLocation => AlignedVector wide elements fineLocation
  | .matrix wide columns rows, fineLocation =>
    ∀ i < columns, AlignedVector wide rows (fineLocation + i * (dmul wide * rows))
  | .array element length, fineLocation =>
    ∀ i < length, Aligned element (fineLocation + i * componentSlots element)
  | .record fields, fineLocation => AlignedFields fields fineLocation

/-- The same for the fields of a structure. -/
def AlignedFields : Fields → ℕ → Prop
  | .nil, _ => True
  | .cons _ type rest, fineLocation =>
    Aligned type fineLocation ∧ AlignedFields rest (fineLocation + componentSlots type)

end

end Glsl.PackedVaryings
