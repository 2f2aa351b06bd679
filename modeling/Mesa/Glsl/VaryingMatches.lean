import Mathlib.Data.List.Basic
import Mathlib.Algebra.Group.Nat.Defs

/-!
# Matches of varyings

`varying_matches` of `link_varyings.cpp` records the pairs of an output and an input that need a
location, and assigns the locations.  These count components, four to a slot; those of patch
varyings follow those of the others.  Numbers are `unsigned`.
-/

namespace Glsl.Varyings

/-! ### Types -/

/-- `glsl_base_type`, of what a varying may contain -/
inductive BaseType where
  | uint
  | int
  | float
  | bool
  | double
  | uint64
  | int64
  | sampler
  | image
  deriving DecidableEq

mutual

/-- `glsl_type`, as far as locations depend on it. -/
inductive GlslType where
  | vector (base : BaseType) (matrixColumns vectorElements : ℕ)
  | array (element : GlslType) (length : ℕ)
  | record (fields : Fields)

/-- The types of the fields of a structure. -/
inductive Fields where
  | nil
  | cons (type : GlslType) (rest : Fields)

end

/-- A number in 32 bits. -/
def unsigned (n : ℕ) : ℕ := n % 2 ^ 32

mutual

/-- `component_slots` -/
def componentSlots : GlslType → ℕ
  | .vector base matrixColumns vectorElements =>
    match base with
    | .uint | .int | .float | .bool => vectorElements * matrixColumns
    | .double | .uint64 | .int64 => 2 * (vectorElements * matrixColumns)
    | .sampler | .image => 2
  | .array element length => unsigned (length * componentSlots element)
  | .record fields => fieldsSlots fields 0

def fieldsSlots : Fields → ℕ → ℕ
  | .nil, size => size
  | .cons type rest, size => fieldsSlots rest (unsigned (size + componentSlots type))

end

mutual

/-- `count_attribute_slots` -/
def countAttributeSlots (isVertexInput : Bool) : GlslType → ℕ
  | .vector base matrixColumns vectorElements =>
    match base with
    | .uint | .int | .float | .bool | .sampler | .image => matrixColumns
    | .double | .uint64 | .int64 =>
      if vectorElements > 2 ∧ !isVertexInput then matrixColumns * 2 else matrixColumns
  | .array element length => unsigned (length * countAttributeSlots isVertexInput element)
  | .record fields => fieldsAttributeSlots isVertexInput fields 0

def fieldsAttributeSlots (isVertexInput : Bool) : Fields → ℕ → ℕ
  | .nil, size => size
  | .cons type rest, size =>
    fieldsAttributeSlots isVertexInput rest
      (unsigned (size + countAttributeSlots isVertexInput type))

end

mutual

/-- `contains_integer` and `contains_double`: a type contains a base type of a kind. -/
def containsBase (kind : BaseType → Bool) : GlslType → Bool
  | .vector base _ _ => kind base
  | .array element _ => containsBase kind element
  | .record fields => fieldsContainBase kind fields

def fieldsContainBase (kind : BaseType → Bool) : Fields → Bool
  | .nil => false
  | .cons type rest => containsBase kind type || fieldsContainBase kind rest

end

def containsInteger : GlslType → Bool :=
  containsBase fun base => base = .uint ∨ base = .int

def containsDouble : GlslType → Bool :=
  containsBase fun base => base = .double

/-- `is_array() || is_record() || is_matrix()` -/
def isArrayRecordOrMatrix : GlslType → Bool
  | .vector base matrixColumns _ => matrixColumns > 1 ∧ (base = .float ∨ base = .double)
  | .array _ _ => true
  | .record _ => true

/-- The element type within all arrays. -/
def withoutArray : GlslType → GlslType
  | .array element _ => withoutArray element
  | type => type

/-! ### Variables -/

/-- `gl_shader_stage` -/
inductive Stage where
  | none
  | vertex
  | tessCtrl
  | tessEval
  | geometry
  | fragment
  | compute
  deriving DecidableEq

/-- `glsl_interp_mode` -/
inductive InterpMode where
  | none
  | smooth
  | flat
  | noperspective
  deriving DecidableEq

def InterpMode.toNat : InterpMode → ℕ
  | .none => 0
  | .smooth => 1
  | .flat => 2
  | .noperspective => 3

/-- `ir_variable_mode`, of a varying -/
inductive VariableMode where
  | shaderIn
  | shaderOut
  deriving DecidableEq

/-- `ir_variable` -/
structure Variable where
  type : GlslType
  mode : VariableMode
  centroid : Bool
  sample : Bool
  patch : Bool
  mustBeShaderInput : Bool
  interpolation : InterpMode
  isXfbOnly : Bool
  isUnmatchedGenericInout : Bool
  explicitLocation : Bool

/-- `is_interpolation_flat` -/
def Variable.isInterpolationFlat (var : Variable) : Bool :=
  var.interpolation = .flat ∨ containsInteger var.type ∨ containsDouble var.type

/-- `get_varying_type`: the inputs and outputs of some stages are arrays over the vertices. -/
def getVaryingType (var : Variable) (stage : Stage) : GlslType :=
  if !var.patch ∧ (var.mode = .shaderOut ∧ stage = .tessCtrl ∨
      var.mode = .shaderIn ∧ (stage = .tessCtrl ∨ stage = .tessEval ∨ stage = .geometry)) then
    match var.type with
    | .array element _ => element
    | type => type
  else var.type

/-! ### Recording -/

/-- A producer variable, a consumer variable or both, by their names. -/
inductive Pairing where
  | producer (producerVar : ℕ)
  | consumer (consumerVar : ℕ)
  | both (producerVar consumerVar : ℕ)
  deriving DecidableEq

def Pairing.producerVar : Pairing → Option ℕ
  | .producer producerVar => some producerVar
  | .consumer _ => none
  | .both producerVar _ => some producerVar

def Pairing.consumerVar : Pairing → Option ℕ
  | .producer _ => none
  | .consumer consumerVar => some consumerVar
  | .both _ consumerVar => some consumerVar

/-- The variable that decides: that of the consumer if there is one. -/
def Pairing.var : Pairing → ℕ
  | .producer producerVar => producerVar
  | .consumer consumerVar => consumerVar
  | .both _ consumerVar => consumerVar

def Pairing.vars (pairing : Pairing) : List ℕ :=
  pairing.producerVar.toList ++ pairing.consumerVar.toList

/-- What a `varying_matches` is constructed with. -/
structure Settings where
  disableVaryingPacking : Bool
  xfbEnabled : Bool
  producerStage : Stage
  consumerStage : Stage

/-- The stage of the variable that decides. -/
def Settings.stage (settings : Settings) (pairing : Pairing) : Stage :=
  if pairing.consumerVar.isSome then settings.consumerStage else settings.producerStage

/-- `match` -/
structure Match where
  packingClass : ℕ
  packingOrder : ℕ
  numComponents : ℕ
  pairing : Pairing
  deriving DecidableEq

/-- `compute_packing_class` -/
def computePackingClass (var : Variable) : ℕ :=
  (var.centroid.toNat + 2 * var.sample.toNat + 4 * var.patch.toNat +
      8 * var.mustBeShaderInput.toNat) * 8 +
    if var.isInterpolationFlat then InterpMode.flat.toNat else var.interpolation.toNat

/-- `compute_packing_order`, of vectors of four, two, one and three components -/
def computePackingOrder (var : Variable) : ℕ :=
  match componentSlots (withoutArray var.type) % 4 with
  | 1 => 2
  | 2 => 1
  | 3 => 3
  | _ => 0

/-- `is_varying_packing_safe` -/
def Settings.isVaryingPackingSafe (settings : Settings) (type : GlslType) (var : Variable) : Bool :=
  if settings.consumerStage = .tessEval ∨ settings.consumerStage = .tessCtrl ∨
      settings.producerStage = .tessCtrl then false
  else settings.xfbEnabled && (isArrayRecordOrMatrix type || var.isXfbOnly)

/-- The variables of the shaders, and the matches so far. -/
structure State where
  vars : ℕ → Variable
  matched : List Match

/-- A change of some variables. -/
def updateAll (vars : ℕ → Variable) (names : List ℕ) (change : Variable → Variable) :
    ℕ → Variable :=
  fun v => if v ∈ names then change (vars v) else vars v

/-- Whether a varying has no location yet and has not been recorded. -/
def Variable.isNew (var : Variable) : Bool :=
  var.isUnmatchedGenericInout && !var.explicitLocation

/-- The interpolation of a varying is made flat. -/
def Variable.makeFlat (var : Variable) : Variable :=
  { var with centroid := false, sample := false, interpolation := .flat }

/-- Whether the interpolation of a pair cannot affect rendering. -/
def Settings.flattens (settings : Settings) (vars : ℕ → Variable) (pairing : Pairing) : Bool :=
  let needsFlatQualifier := match pairing with
    | .producer producerVar =>
      containsInteger (vars producerVar).type || containsDouble (vars producerVar).type
    | _ => false
  !settings.disableVaryingPacking && (needsFlatQualifier ||
    settings.consumerStage != .none && settings.consumerStage != .fragment)

/-- The variables after `record` changed their qualifiers. -/
def Settings.qualify (settings : Settings) (vars : ℕ → Variable) (pairing : Pairing) :
    ℕ → Variable :=
  let vars := if settings.flattens vars pairing then updateAll vars pairing.vars Variable.makeFlat
    else vars
  match pairing with
  | .both producerVar consumerVar =>
    if (vars consumerVar).mustBeShaderInput then
      updateAll vars [producerVar] fun var => { var with mustBeShaderInput := true }
    else vars
  | _ => vars

/-- The match that `record` makes of a pair. -/
def Settings.makeMatch (settings : Settings) (vars : ℕ → Variable) (pairing : Pairing) : Match :=
  let var := vars pairing.var
  let type := getVaryingType var (settings.stage pairing)
  ⟨computePackingClass var, computePackingOrder var,
    if settings.disableVaryingPacking ∧ !settings.isVaryingPackingSafe type var ∨
        var.mustBeShaderInput then
      unsigned (countAttributeSlots false type * 4)
    else componentSlots type,
    pairing⟩

/-- `record` -/
def Settings.record (settings : Settings) (state : State) (pairing : Pairing) : State :=
  if pairing.vars.all fun v => (state.vars v).isNew then
    let vars := settings.qualify state.vars pairing
    ⟨updateAll vars pairing.vars fun var => { var with isUnmatchedGenericInout := false },
      state.matched ++ [settings.makeMatch vars pairing]⟩
  else state

/-! ### Assigning -/

def maxVarying : ℕ := 32
def maxVaryingsInclPatch : ℕ := 64

/-- `match_comparator` -/
def matchComparator (x y : Match) : ℤ :=
  if x.packingClass ≠ y.packingClass then x.packingClass - y.packingClass
  else x.packingOrder - y.packingOrder

/-- `xfb_comparator` -/
def xfbComparator (vars : ℕ → Variable) (x y : Match) : ℤ :=
  match x.pairing.producerVar with
  | some producerVar => if (vars producerVar).isXfbOnly then matchComparator x y else 0
  | none => 0

/-- `ALIGN`, to a slot -/
def alignSlot (location : ℕ) : ℕ :=
  unsigned ((location + 3) / 4 * 4)

/-- The last component of a varying. -/
def slotEnd (location numComponents : ℕ) : ℕ :=
  unsigned (location + numComponents + (2 ^ 32 - 1))

/-- The slots that a varying would take, as a mask.  Shifts by too much are those of the
processor. -/
def slotMask (location numComponents : ℕ) : ℕ :=
  let slots := unsigned (slotEnd location numComponents / 4 + 2 ^ 32 - location / 4 + 1)
  (((1 <<< (slots % 64)) - 1) <<< (location / 4 % 64)) % 2 ^ 64

/-- The loop over locations that touch reserved slots. -/
def skipReserved (reservedSlots numComponents : ℕ) : ℕ → ℕ → ℕ
  | 0, location => location
  | fuel + 1, location =>
    if slotEnd location numComponents < maxVarying * 4 ∧
        reservedSlots &&& slotMask location numComponents ≠ 0 then
      skipReserved reservedSlots numComponents fuel (alignSlot (unsigned (location + 1)))
    else location

/-- A match with its location. -/
structure Placed where
  matched : Match
  patch : Bool
  location : ℕ
  numComponents : ℕ

/-- The variables of `assign_locations`, and the matches that have a location. -/
structure Assigning where
  genericLocation : ℕ
  genericPatchLocation : ℕ
  previousVarXfbOnly : Bool
  components : ℕ → ℕ
  error : Bool
  placed : List Placed

def Assigning.location (state : Assigning) (patch : Bool) : ℕ :=
  if patch then state.genericPatchLocation else state.genericLocation

def Assigning.setLocation (state : Assigning) (patch : Bool) (location : ℕ) : Assigning :=
  if patch then { state with genericPatchLocation := location }
  else { state with genericLocation := location }

/-- The components of the slots that a varying takes are counted. -/
def writeComponents (components : ℕ → ℕ) (location slotEnd : ℕ) : ℕ → ℕ :=
  if slotEnd < maxVaryingsInclPatch * 4 then
    fun j =>
      if j = slotEnd / 4 then slotEnd % 4 + 1
      else if location / 4 ≤ j ∧ j < slotEnd / 4 then 4
      else components j
  else components

/-- How many components a varying takes: those of vertex inputs are counted differently. -/
def Settings.componentsOf (settings : Settings) (vars : ℕ → Variable) (m : Match) : ℕ :=
  if m.pairing.consumerVar.isSome ∧ settings.consumerStage = .vertex then
    unsigned (countAttributeSlots true
      (getVaryingType (vars m.pairing.var) settings.consumerStage) * 4)
  else m.numComponents

/-- Whether a match starts at a slot. -/
def Settings.startsSlot (settings : Settings) (vars : ℕ → Variable) (state : Assigning)
    (m : Match) : Bool :=
  let var := vars m.pairing.var
  var.mustBeShaderInput ||
    settings.disableVaryingPacking && !(state.previousVarXfbOnly && var.isXfbOnly) ||
    match state.placed.getLast? with
    | some previous => previous.matched.packingClass != m.packingClass
    | none => false

/-- One match. -/
def Settings.assign (settings : Settings) (vars : ℕ → Variable) (reservedSlots : ℕ)
    (state : Assigning) (m : Match) : Assigning :=
  let var := vars m.pairing.var
  let location :=
    if settings.startsSlot vars state m then alignSlot (state.location var.patch)
    else state.location var.patch
  let numComponents := settings.componentsOf vars m
  let location := skipReserved reservedSlots numComponents (maxVarying * 4) location
  let slotEnd := slotEnd location numComponents
  { state.setLocation var.patch (unsigned (slotEnd + 1)) with
    previousVarXfbOnly := var.isXfbOnly
    error := state.error || !var.patch && slotEnd ≥ maxVarying * 4
    components := writeComponents state.components location slotEnd
    placed := state.placed ++ [⟨m, var.patch, location, numComponents⟩] }

/-- `assign_locations`, with the library's `qsort`.  The components are counted from zero. -/
def Settings.assignLocations (settings : Settings)
    (qsort : (Match → Match → ℤ) → List Match → List Match) (state : State) (reservedSlots : ℕ) :
    Assigning :=
  let sorted := if settings.disableVaryingPacking then qsort (xfbComparator state.vars) state.matched
    else qsort matchComparator state.matched
  sorted.foldl (settings.assign state.vars reservedSlots)
    ⟨0, maxVarying * 4, false, fun _ => 0, false, []⟩

end Glsl.Varyings
