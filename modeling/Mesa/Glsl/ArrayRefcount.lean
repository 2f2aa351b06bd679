import Mathlib.Tactic.Ring
import Mesa.Data.Bitset
import Mesa.Data.MixedRadix
import Mesa.Glsl.Types

/-!
# References to the elements of arrays of arrays

`ir_array_refcount.cpp` keeps a bit for each element of a variable.  An access gives an index for
each dimension, or stands for all of them where the index is not a constant; the bits are those of the
elements that it may be about, in the order of memory.  All arithmetic is modulo `2 ^ 32`.
-/

namespace Glsl.ArrayRefcount

open Layout

/-- `array_deref_range` -/
structure DerefRange where
  index : ℕ
  size : ℕ
deriving DecidableEq

/-- The lengths of the arrays of a type, of which the first is that of the outermost array. -/
def lengths : Layout.GlslType → List ℕ
  | .array element length => length :: lengths element
  | _ => []

/-- `ir_array_refcount_entry` -/
structure Entry where
  numBits : ℕ
  arrayDepth : ℕ
  bits : List (BitVec 32)

/-- The constructor of `ir_array_refcount_entry`. -/
def Entry.create (type : Layout.GlslType) : Entry where
  numBits := max 1 (arraysOfArraysSize type)
  arrayDepth := (lengths type).length
  bits := List.replicate ((max 1 (arraysOfArraysSize type) + 31) / 32) 0

/-- The recursive part of `mark_array_elements_referenced`. -/
def mark : List DerefRange → ℕ → ℕ → List (BitVec 32) → Option (List (BitVec 32))
  | [], _, linearizedIndex, bits => Bitset.set bits linearizedIndex
  | dr :: rest, scale, linearizedIndex, bits =>
    if dr.index < dr.size then
      mark rest (unsigned (scale * dr.size)) (unsigned (linearizedIndex + dr.index * scale)) bits
    else
      -- each element of the array, with the arrays that remain
      (List.range dr.size).foldlM (fun bits j =>
        mark rest (unsigned (scale * dr.size)) (unsigned (linearizedIndex + j * scale)) bits) bits

namespace Entry

/-- `mark_array_elements_referenced`; there is no result when a bit outside the bitset is set. -/
def markArrayElementsReferenced (e : Entry) (drs : List DerefRange) : Option Entry :=
  if drs.length ≠ e.arrayDepth then some e
  else (mark drs 1 0 e.bits).map fun bits => { e with bits := bits }

/-- `is_linearized_index_referenced` -/
def isReferenced (e : Entry) (b : ℕ) : Bool := Bitset.test e.bits b

/-- What becomes of an entry for a variable of this type. -/
inductive For (type : Layout.GlslType) : Entry → Prop where
  | create : For type (.create type)
  | mark {e e' : Entry} {drs : List DerefRange} (old : For type e)
      (marked : e.markArrayElementsReferenced drs = some e') : For type e'

end Entry

/-! ### Dereferences -/

/-- `ir_dereference_array` down to the variable, with the index where it is a constant. -/
inductive Dereference where
  | dereferenceVariable (type : Layout.GlslType)
  | dereferenceArray (array : Dereference) (index : Option ℤ)

namespace Dereference

def variableType : Dereference → Layout.GlslType
  | .dereferenceVariable type => type
  | .dereferenceArray array _ => array.variableType

/-- `type`, of which the elements are those of the array's type. -/
def type : Dereference → Layout.GlslType
  | .dereferenceVariable type => type
  | .dereferenceArray array _ =>
    match array.type with
    | .array element _ => element
    | type => type

/-- Whether the type of what is dereferenced is an array, as is asserted. -/
def WellTyped : Dereference → Prop
  | .dereferenceVariable _ => True
  | .dereferenceArray array _ => array.type.isArray = true ∧ array.WellTyped

/-- `array_size` -/
def arraySize : Layout.GlslType → ℕ
  | .array _ length => length
  | _ => 2 ^ 32 - 1

/-- The loop of `visit_enter`, that begins with the innermost array; an index that is not a constant
into an array without a size ends it. -/
def derefs : Dereference → Option (List DerefRange)
  | .dereferenceVariable _ => some []
  | .dereferenceArray array (some index) =>
    array.derefs.map (⟨(index % 2 ^ 32).toNat, arraySize array.type⟩ :: ·)
  | .dereferenceArray array none =>
    if arraySize array.type = 0 then none
    else array.derefs.map (⟨arraySize array.type, arraySize array.type⟩ :: ·)

/-- `visit_enter`, for a chain that has not been visited as part of another one. -/
def visitEnter (e : Entry) (d : Dereference) : Option Entry :=
  match d.derefs with
  | some drs => e.markArrayElementsReferenced drs
  | none => some e

end Dereference

/-! ### What is marked -/

/-- The coordinates of an element that an access may be about: the index where it is below the size,
and otherwise any one. -/
def Selected : List DerefRange → List ℕ → Prop :=
  List.Forall₂ fun dr c => c < dr.size ∧ (dr.index < dr.size → c = dr.index)

/-- The place of an element. -/
def place (drs : List DerefRange) (coords : List ℕ) : ℕ :=
  MixedRadix.place (drs.map DerefRange.size) coords

/-- The bits of the elements that are selected are set, the others are left alone, and no bit outside
the bitset is set. -/
def MarksExactly (e : Entry) (drs : List DerefRange) : Prop :=
  ∃ e', e.markArrayElementsReferenced drs = some e'
    ∧ ∀ b, e'.isReferenced b = true
      ↔ e.isReferenced b = true ∨ ∃ coords, Selected drs coords ∧ place drs coords = b

/-- The bits that are set, in their order. -/
def addressed : List DerefRange → ℕ → ℕ → List ℕ
  | [], _, linearizedIndex => [linearizedIndex]
  | dr :: rest, scale, linearizedIndex =>
    if dr.index < dr.size then
      addressed rest (unsigned (scale * dr.size)) (unsigned (linearizedIndex + dr.index * scale))
    else
      (List.range dr.size).flatMap fun j =>
        addressed rest (unsigned (scale * dr.size)) (unsigned (linearizedIndex + j * scale))

theorem mark_eq_setAll (drs : List DerefRange) (scale linearizedIndex : ℕ)
    (bits : List (BitVec 32)) :
  mark drs scale linearizedIndex bits = Bitset.setAll bits (addressed drs scale linearizedIndex)
  := by
  induction drs generalizing scale linearizedIndex bits with
  | nil =>
    rw [mark, addressed, Bitset.setAll, List.foldlM_cons]
    cases Bitset.set bits linearizedIndex with
    | none => rfl
    | some bits => rfl
  | cons dr rest ih =>
    rw [mark, addressed]
    split
    · exact ih _ _ _
    · generalize List.range dr.size = js
      induction js generalizing bits with
      | nil => rfl
      | cons j js ihj =>
        rw [List.foldlM_cons, List.flatMap_cons, Bitset.setAll, List.foldlM_append, ih]
        congr 1
        funext bits
        exact ihj bits

/-- The bits that are set are those of the selected elements, modulo `2 ^ 32`. -/
theorem mem_addressed {drs : List DerefRange} {scale linearizedIndex b : ℕ}
    (small : linearizedIndex < 2 ^ 32) :
  b ∈ addressed drs scale linearizedIndex
    ↔ ∃ coords, Selected drs coords ∧ unsigned (linearizedIndex + scale * place drs coords) = b
  := by
  induction drs generalizing scale linearizedIndex with
  | nil =>
    have same : unsigned linearizedIndex = linearizedIndex := Nat.mod_eq_of_lt small
    simp [addressed, Selected, place, MixedRadix.place, same, eq_comm]
  | cons dr rest ih =>
    have step : ∀ j, b ∈ addressed rest (unsigned (scale * dr.size))
          (unsigned (linearizedIndex + j * scale))
        ↔ ∃ coords, Selected rest coords
          ∧ unsigned (linearizedIndex + scale * place (dr :: rest) (j :: coords)) = b := by
      intro j
      have small' : unsigned (linearizedIndex + j * scale) < 2 ^ 32 := Nat.mod_lt _ (by decide)
      rw [ih small']
      apply exists_congr
      intro coords
      apply and_congr_right
      intro _
      have same : unsigned (unsigned (linearizedIndex + j * scale)
            + unsigned (scale * dr.size) * place rest coords)
          = unsigned (linearizedIndex + scale * place (dr :: rest) (j :: coords)) := by
        have congruent := Nat.ModEq.add (Nat.mod_modEq (linearizedIndex + j * scale) (2 ^ 32))
          ((Nat.mod_modEq (scale * dr.size) (2 ^ 32)).mul_right (place rest coords))
        apply congruent.trans
        apply congrArg unsigned
        change _ = linearizedIndex + scale * (j + dr.size * place rest coords)
        ring
      rw [same]
    rw [addressed]
    split
    case isTrue constant =>
      rw [step]
      constructor
      · rintro ⟨coords, selected, eq⟩
        exact ⟨_, .cons ⟨constant, fun _ => rfl⟩ selected, eq⟩
      · rintro ⟨_, _ | ⟨⟨lt, only⟩, selected⟩, eq⟩
        rw [only constant] at eq
        exact ⟨_, selected, eq⟩
    case isFalse whole =>
      rw [List.mem_flatMap]
      constructor
      · rintro ⟨j, mem, here⟩
        obtain ⟨coords, selected, eq⟩ := (step j).1 here
        exact ⟨_, .cons ⟨List.mem_range.1 mem, fun constant => absurd constant whole⟩ selected, eq⟩
      · rintro ⟨_, _ | ⟨⟨lt, only⟩, selected⟩, eq⟩
        exact ⟨_, List.mem_range.2 lt, (step _).2 ⟨_, selected, eq⟩⟩

/-! ### Entries -/

/-- What does not change in an entry. -/
theorem Entry.For.length_bits {type : Layout.GlslType} {e : Entry} (h : e.For type) :
  e.arrayDepth = (lengths type).length
    ∧ e.bits.length = (max 1 (arraysOfArraysSize type) + 31) / 32
  := by
  induction h with
  | create => exact ⟨rfl, List.length_replicate⟩
  | mark old marked ih =>
    rename_i e e' drs
    unfold Entry.markArrayElementsReferenced at marked
    split at marked
    · obtain rfl := Option.some.inj marked
      exact ih
    · obtain ⟨bits, result, rfl⟩ := Option.map_eq_some_iff.1 marked
      rw [mark_eq_setAll] at result
      exact ⟨ih.1, (Bitset.lt_of_setAll (by decide) result).1.trans ih.2⟩

/-- The number of bits of a variable's bitset: as many as it has elements, modulo `2 ^ 32`, in whole
words. -/
def capacity (type : Layout.GlslType) : ℕ := 32 * ((max 1 (arraysOfArraysSize type) + 31) / 32)

/-- The lengths of a type are numbers of the type `unsigned`. -/
def Representable (type : Layout.GlslType) : Prop := ∀ length ∈ lengths type, length < 2 ^ 32

instance (type : Layout.GlslType) : Decidable (Representable type) :=
  inferInstanceAs (Decidable (∀ length ∈ lengths type, length < 2 ^ 32))

theorem dimensions_eq (type : Layout.GlslType) {size : ℕ} (small : size < 2 ^ 32) :
  arraysOfArraysSize.dimensions type size = unsigned (size * (lengths type).prod)
  := by
  unfold unsigned
  induction type using lengths.induct generalizing size with
  | case1 element length ih =>
    have small' : size * length % 2 ^ 32 < 2 ^ 32 := Nat.mod_lt _ (by decide)
    rw [arraysOfArraysSize.dimensions, lengths, List.prod_cons, unsigned, ih small', Nat.mod_mul_mod,
      Nat.mul_assoc]
  | case2 type noArray =>
    have none : lengths type = [] := by
      cases type with
      | array element length => exact absurd rfl (noArray element length)
      | _ => rfl
    rw [none, List.prod_nil, Nat.mul_one, Nat.mod_eq_of_lt small]
    cases type with
    | array element length => exact absurd rfl (noArray element length)
    | _ => rfl

/-- The size of an array of arrays is the product of the lengths, modulo `2 ^ 32`. -/
theorem arraysOfArraysSize_array {element : Layout.GlslType} {length : ℕ} (small : length < 2 ^ 32) :
  arraysOfArraysSize (.array element length)
    = unsigned (lengths (.array element length)).prod
  := by
  rw [arraysOfArraysSize, dimensions_eq element small, lengths, List.prod_cons]

theorem max_arraysOfArraysSize {type : Layout.GlslType} (h : Representable type) :
  max 1 (arraysOfArraysSize type) = max 1 (unsigned (lengths type).prod)
  := by
  cases type with
  | array element length => rw [arraysOfArraysSize_array (h length List.mem_cons_self)]
  | _ => rfl

theorem capacity_le {type : Layout.GlslType} (h : Representable type) :
  capacity type ≤ 2 ^ 32
  := by
  have bound : unsigned (lengths type).prod < 2 ^ 32 := Nat.mod_lt _ (by decide)
  rw [capacity, max_arraysOfArraysSize h]
  omega

/-- The ranges are those of an access to a variable: there is one for each dimension, with its
length. -/
def Matches (type : Layout.GlslType) (drs : List DerefRange) : Prop :=
  drs.map DerefRange.size = (lengths type).reverse

theorem Matches.length {type : Layout.GlslType} {drs : List DerefRange} (fits : Matches type drs) :
  drs.length = (lengths type).length
  := by
  rw [← List.length_map DerefRange.size, fits, List.length_reverse]

/-- An access is recorded exactly, if and only if the bitset has room for all the elements that it
may be about. -/
theorem marksExactly_iff {type : Layout.GlslType} (representable : Representable type) {e : Entry}
    (h : e.For type) {drs : List DerefRange} (fits : Matches type drs) :
  MarksExactly e drs ↔ ∀ coords, Selected drs coords → place drs coords < capacity type
  := by
  obtain ⟨depth, length⟩ := h.length_bits
  have size : 32 * e.bits.length = capacity type := by rw [length, capacity]
  have dimensions : ¬ drs.length ≠ e.arrayDepth := by
    rw [depth, fits.length]
    exact not_not.2 rfl
  unfold MarksExactly Entry.markArrayElementsReferenced
  rw [if_neg dimensions, mark_eq_setAll]
  constructor
  · rintro ⟨e', result, exact'⟩ coords selected
    obtain ⟨bits, set, rfl⟩ := Option.map_eq_some_iff.1 result
    have marked := (exact' (place drs coords)).2 (Or.inr ⟨coords, selected, rfl⟩)
    rw [← size, ← (Bitset.lt_of_setAll (by decide) set).1]
    exact Bitset.lt_of_test (by decide) marked
  · intro room
    have members : ∀ b, b ∈ addressed drs 1 0
        ↔ ∃ coords, Selected drs coords ∧ place drs coords = b := by
      intro b
      rw [mem_addressed (by decide)]
      apply exists_congr
      intro coords
      apply and_congr_right
      intro selected
      have small := (room coords selected).trans_le (capacity_le representable)
      rw [Nat.one_mul, Nat.zero_add, unsigned, Nat.mod_eq_of_lt small]
    have inside : ∀ b ∈ addressed drs 1 0, b < 32 * e.bits.length := by
      intro b mem
      obtain ⟨coords, selected, rfl⟩ := (members b).1 mem
      rw [size]
      exact room coords selected
    obtain ⟨bits, set⟩ := Bitset.exists_setAll (by decide) inside
    refine ⟨{ e with bits := bits }, by rw [set]; rfl, ?_⟩
    intro b
    rw [← members]
    exact Bitset.test_setAll (by decide) set b

theorem Selected.within {drs : List DerefRange} {coords : List ℕ} (selected : Selected drs coords) :
  MixedRadix.Within (drs.map DerefRange.size) coords
  := by
  apply List.forall₂_map_left_iff.2
  exact selected.imp fun _ _ h => h.1

/-- There is room for all elements of a variable with less than `2 ^ 32` of them. -/
theorem marksExactly_of_prod_lt {type : Layout.GlslType} (representable : Representable type)
    (small : (lengths type).prod < 2 ^ 32) {e : Entry} (h : e.For type) {drs : List DerefRange}
    (fits : Matches type drs) :
  MarksExactly e drs
  := by
  apply (marksExactly_iff representable h fits).2
  intro coords selected
  have lt := MixedRadix.place_lt selected.within
  rw [fits, List.prod_reverse] at lt
  rw [capacity, max_arraysOfArraysSize representable, unsigned, Nat.mod_eq_of_lt small]
  rw [place, fits]
  omega

/-- The ranges of a chain have the lengths of the arrays that it goes through. -/
theorem Dereference.lengths_derefs {d : Dereference} (wellTyped : d.WellTyped)
    {drs : List DerefRange} (h : d.derefs = some drs) :
  lengths d.variableType = (drs.map DerefRange.size).reverse ++ lengths d.type
  := by
  induction d generalizing drs with
  | dereferenceVariable type =>
    obtain rfl := Option.some.inj h
    rfl
  | dereferenceArray array index ih =>
    obtain ⟨isArray, wellTyped⟩ := wellTyped
    obtain ⟨rest, dr, inner, size, rfl⟩ : ∃ rest dr, array.derefs = some rest
        ∧ dr.size = arraySize array.type ∧ dr :: rest = drs := by
      cases index with
      | some index =>
        obtain ⟨rest, inner, rfl⟩ := Option.map_eq_some_iff.1 h
        exact ⟨rest, _, inner, rfl, rfl⟩
      | none =>
        rw [derefs] at h
        split at h
        · cases h
        · obtain ⟨rest, inner, rfl⟩ := Option.map_eq_some_iff.1 h
          exact ⟨rest, _, inner, rfl, rfl⟩
    have whole := ih wellTyped inner
    cases type : array.type with
    | array element length =>
      rw [type] at whole size
      rw [variableType, whole, List.map_cons, size, List.reverse_cons, List.append_assoc,
        Dereference.type, type]
      rfl
    | _ =>
      rw [type] at isArray
      cases isArray

/-- A chain down to a single element gives an access to its variable. -/
theorem Dereference.matches_derefs {d : Dereference} (wellTyped : d.WellTyped)
    (element : lengths d.type = []) {drs : List DerefRange} (h : d.derefs = some drs) :
  Matches d.variableType drs
  := by
  rw [Matches, d.lengths_derefs wellTyped h, element, List.append_nil, List.reverse_reverse]

/-- An array of two arrays of three arrays of four. -/
def nested : Layout.GlslType := .array (.array (.array (.vector false 1) 4) 3) 2

/-- `x[1][i][3]` -/
def middleWhole : Dereference :=
  .dereferenceArray
    (.dereferenceArray (.dereferenceArray (.dereferenceVariable nested) (some 1)) none) (some 3)

theorem marksExactly_iff_nested :
  middleWhole.derefs = some [⟨3, 4⟩, ⟨3, 3⟩, ⟨1, 2⟩]
    ∧ MarksExactly (.create nested) [⟨3, 4⟩, ⟨3, 3⟩, ⟨1, 2⟩]
  := by
  have representable : Representable nested := by decide
  have fits : Matches nested [⟨3, 4⟩, ⟨3, 3⟩, ⟨1, 2⟩] := rfl
  refine ⟨by decide, (marksExactly_iff representable .create fits).2 ?_⟩
  intro coords selected
  have lt := MixedRadix.place_lt selected.within
  apply lt.trans
  decide

/-- As many elements as there are numbers: the bitset has one word. -/
def huge : Layout.GlslType := .array (.array (.vector false 1) (2 ^ 16)) (2 ^ 16)

/-- The last element of the variable has no bit. -/
theorem huge_not_marked :
  Representable huge ∧ Matches huge [⟨2 ^ 16 - 1, 2 ^ 16⟩, ⟨2 ^ 16 - 1, 2 ^ 16⟩]
    ∧ (Entry.create huge).numBits = 1
    ∧ (Entry.create huge).markArrayElementsReferenced
        [⟨2 ^ 16 - 1, 2 ^ 16⟩, ⟨2 ^ 16 - 1, 2 ^ 16⟩] = none
    ∧ ¬ MarksExactly (.create huge) [⟨2 ^ 16 - 1, 2 ^ 16⟩, ⟨2 ^ 16 - 1, 2 ^ 16⟩]
  := by
  have outside : (Entry.create huge).markArrayElementsReferenced
      [⟨2 ^ 16 - 1, 2 ^ 16⟩, ⟨2 ^ 16 - 1, 2 ^ 16⟩] = none := by
    decide
  refine ⟨by decide, rfl, by decide, outside, ?_⟩
  rintro ⟨e', result, -⟩
  rw [outside] at result
  cases result

end Glsl.ArrayRefcount
