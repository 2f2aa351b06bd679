import Mesa.Data.Window

/-!
# Pruning of minima and maxima

`opt_minmax.cpp` drops operands from a tree of min and max expressions when the constants of the
tree show that they do not contribute to its value.  The scalars are those of the integer types: a
linear order.
-/

namespace Glsl.MinMax

/-! ### Rvalues -/

/-- `ir_constant`: how many components its type has, and the entries of its array. -/
structure Constant (α : Type) where
  size : ℕ
  value : ℕ → α

/-- `ir_rvalue`, as far as the pass looks at it: anything but a constant and a min or max expression
is some other rvalue, with the number of components of its type. -/
inductive Rvalue (α : Type) where
  | constant (c : Constant α)
  | other (id size : ℕ)
  | minMax (ismin : Bool) (size : ℕ) (operand₀ operand₁ : Rvalue α)
  /-- `swizzle(rval, SWIZZLE_XXXX, size)` -/
  | swizzle (rval : Rvalue α) (size : ℕ)

variable {α : Type}

def Rvalue.size : Rvalue α → ℕ
  | .constant c => c.size
  | .other _ size => size
  | .minMax _ size _ _ => size
  | .swizzle _ size => size

/-- `as_constant()` -/
def Rvalue.asConstant : Rvalue α → Option (Constant α)
  | .constant c => some c
  | _ => none

/-- How far the index into a constant moves from one component to the next. -/
def Constant.inc (c : Constant α) : ℕ := if c.size = 1 then 0 else 1

variable [LinearOrder α]

/-- The components of an rvalue, when the others have these; a scalar is the same in every
component. -/
def Rvalue.components (env : ℕ → ℕ → α) : Rvalue α → ℕ → α
  | .constant c, k => c.value (k * c.inc)
  | .other id size, k => env id (if size = 1 then 0 else k)
  | .minMax ismin _ a b, k =>
    if ismin then min (a.components env k) (b.components env k)
    else max (a.components env k) (b.components env k)
  | .swizzle rval _, _ => rval.components env 0

/-! ### Constants -/

/-- `compare_components_result` -/
inductive CompareComponentsResult where
  | less
  | lessOrEqual
  | equal
  | greaterOrEqual
  | greater
  | mixed
  deriving DecidableEq

/-- The number that the enumeration gives a result. -/
def CompareComponentsResult.toNat : CompareComponentsResult → ℕ
  | less => 0
  | lessOrEqual => 1
  | equal => 2
  | greaterOrEqual => 3
  | greater => 4
  | mixed => 5

/-- `compare_components` -/
def compareComponents (a b : Constant α) : CompareComponentsResult :=
  let components := max a.size b.size
  let foundless := (List.range components).any fun i => a.value (i * a.inc) < b.value (i * b.inc)
  let foundgreater := (List.range components).any fun i =>
    ¬ a.value (i * a.inc) < b.value (i * b.inc) ∧ b.value (i * b.inc) < a.value (i * a.inc)
  let foundequal := (List.range components).any fun i =>
    ¬ a.value (i * a.inc) < b.value (i * b.inc) ∧ ¬ b.value (i * b.inc) < a.value (i * a.inc)
  if foundless && foundgreater then .mixed
  else if foundequal then
    if foundless then .lessOrEqual
    else if foundgreater then .greaterOrEqual
    else .equal
  else if foundless then .less
  else .greater

/-- `combine_constant` -/
def combineConstant (ismin : Bool) (a b : Constant α) : Constant α :=
  { a with
    value := fun i =>
      if i < a.size ∧ (ismin ∧ b.value i < a.value i ∨ ¬ ismin ∧ a.value i < b.value i) then
        b.value i
      else a.value i }

/-- `smaller_constant` -/
def smallerConstant (a b : Constant α) : Constant α :=
  let ret := compareComponents a b
  if ret = .mixed then combineConstant true a b
  else if ret.toNat < CompareComponentsResult.equal.toNat then a
  else b

/-- `larger_constant` -/
def largerConstant (a b : Constant α) : Constant α :=
  let ret := compareComponents a b
  if ret = .mixed then combineConstant false a b
  else if ret.toNat < CompareComponentsResult.equal.toNat then b
  else a

/-! ### Ranges -/

/-- `minmax_range`, where nothing stands for `NULL`. -/
structure MinmaxRange (α : Type) where
  low : Option (Constant α)
  high : Option (Constant α)

/-- `combine_range` -/
def combineRange (r₀ r₁ : MinmaxRange α) (ismin : Bool) : MinmaxRange α where
  low :=
    match r₀.low, r₁.low with
    | none, low₁ => if ismin then none else low₁
    | some low₀, none => if ismin then none else some low₀
    | some low₀, some low₁ =>
      some (if ismin then smallerConstant low₀ low₁ else largerConstant low₀ low₁)
  high :=
    match r₀.high, r₁.high with
    | none, high₁ => if ismin then high₁ else none
    | some high₀, none => if ismin then some high₀ else none
    | some high₀, some high₁ =>
      some (if ismin then smallerConstant high₀ high₁ else largerConstant high₀ high₁)

/-- `range_intersection` -/
def rangeIntersection (r₀ r₁ : MinmaxRange α) : MinmaxRange α where
  low :=
    match r₀.low, r₁.low with
    | none, low₁ => low₁
    | some low₀, none => some low₀
    | some low₀, some low₁ => some (largerConstant low₀ low₁)
  high :=
    match r₀.high, r₁.high with
    | none, high₁ => high₁
    | some high₀, none => some high₀
    | some high₀, some high₁ => some (smallerConstant high₀ high₁)

/-- `get_range` -/
def getRange : Rvalue α → MinmaxRange α
  | .minMax ismin _ a b => combineRange (getRange a) (getRange b) ismin
  | .constant c => ⟨some c, some c⟩
  | _ => ⟨none, none⟩

/-! ### The pruning -/

/-- What the loop finds out about an operand: it is redundant because of the other one, or because
of the base range, or it is kept after the last comparison gave this result. -/
inductive Examined where
  | byOther
  | byBase
  | kept (cr : CompareComponentsResult)
  deriving DecidableEq

/-- An iteration of the loop over the operands, up to the question whether the operand is
redundant, given its limits, those of the other operand, and the base range. -/
def examine (ismin : Bool) (own other base : MinmaxRange α) : Examined :=
  let equal := CompareComponentsResult.equal.toNat
  if ismin then
    let cr : CompareComponentsResult :=
      match own.low, other.high with
      | some low, some high => compareComponents low high
      | _, _ => .less
    if equal ≤ cr.toNat ∧ cr ≠ .mixed then .byOther
    else
      match own.low, base.high with
      | some low, some high =>
        let cr := compareComponents low high
        if equal < cr.toNat ∧ cr ≠ .mixed then .byBase else .kept cr
      | _, _ => .kept cr
  else
    match own.high, other.low with
    | some high, some low =>
      let cr := compareComponents high low
      if cr.toNat ≤ equal then .byOther else examineBase own base cr
    | _, _ => examineBase own base .less
where
  /-- The second test for a maximum. -/
  examineBase (own base : MinmaxRange α) (cr : CompareComponentsResult) : Examined :=
    match own.high, base.low with
    | some high, some low =>
      let cr := compareComponents high low
      if cr.toNat < CompareComponentsResult.equal.toNat then .byBase else .kept cr
    | _, _ => .kept cr

/-- The base range of an operand: what the other one and the base range leave. -/
def operandBase (ismin : Bool) (other base : MinmaxRange α) : MinmaxRange α :=
  rangeIntersection (if ismin then { other with low := none } else { other with high := none }) base

/-- Both operands as constants. -/
def asConstants (a b : Rvalue α) : Option (Constant α × Constant α) := do
  let a ← a.asConstant
  let b ← b.asConstant
  pure (a, b)

/-- What the loop that examines the operands comes to: the first or the second one is dropped,
because of the base range or not, or both are constants that are combined, or nothing is found. -/
inductive Plan (α : Type) where
  | drop₀ (byBase : Bool)
  | drop₁ (byBase : Bool)
  | combine (c d : Constant α)
  | descend

/-- The loop that examines the operands. -/
def plan (ismin : Bool) (a b : Rvalue α) (base : MinmaxRange α) : Plan α :=
  match examine ismin (getRange a) (getRange b) base with
  | .byOther => .drop₀ false
  | .byBase => .drop₀ true
  | .kept cr₀ =>
    match if cr₀ = .mixed then asConstants a b else none with
    | some (c, d) => .combine c d
    | none =>
      match examine ismin (getRange b) (getRange a) base with
      | .byOther => .drop₁ false
      | .byBase => .drop₁ true
      | .kept cr₁ =>
        match if cr₁ = .mixed then asConstants a b else none with
        | some (c, d) => .combine c d
        | none => .descend

/-- `prune_expression`, which leaves alone what is not a min or max expression. -/
@[simp]
def pruneExpression : Rvalue α → MinmaxRange α → Rvalue α
  | .minMax ismin size a b, base =>
    match plan ismin a b base with
    | .drop₀ _ => pruneExpression b base
    | .drop₁ _ => pruneExpression a base
    | .combine c d => .constant (combineConstant ismin c d)
    | .descend =>
      let a' := pruneExpression a (operandBase ismin (getRange b) base)
      let b' := pruneExpression b (operandBase ismin (getRange a) base)
      match asConstants a' b' with
      | some (c, d) => .constant (combineConstant ismin c d)
      | none => .minMax ismin size a' b'
  | rval, _ => rval

/-- `swizzle_if_required` -/
def swizzleIfRequired (expr rval : Rvalue α) : Rvalue α :=
  if 1 < expr.size ∧ rval.size = 1 then .swizzle rval expr.size else rval

/-- `handle_rvalue` at a min or max expression. -/
def handleRvalue (expr : Rvalue α) : Rvalue α :=
  swizzleIfRequired expr (pruneExpression expr ⟨none, none⟩)

/-! ### What the pruning is for -/

/-- An expression of the integer types: the operands have the same number of components, or one of
them is a scalar. -/
def Typed : Rvalue α → Prop
  | .minMax _ size a b =>
    Typed a ∧ Typed b ∧ size = max a.size b.size ∧ (a.size = b.size ∨ a.size = 1 ∨ b.size = 1)
  | .constant c => 0 < c.size
  | .other _ size => 0 < size
  | .swizzle _ size => 0 < size

/-- The expression that replaces another one has its type, and its value in each component. -/
def Preserves (expr : Rvalue α) : Prop :=
  (handleRvalue expr).size = expr.size ∧
  ∀ env, ∀ k < expr.size, (handleRvalue expr).components env k = expr.components env k

/-! ### The branches that go wrong -/

/-- The component of a constant, when the others have this one. -/
def Constant.at (c : Constant α) (k : ℕ) : α := c.value (k * c.inc)

/-- Where constants are combined component by component, they have the same number of
components. -/
def Combinable (c d : Option (Constant α)) : Prop :=
  ∀ a ∈ c, ∀ b ∈ d, compareComponents a b = .mixed → a.size = b.size

/-- The constants that are combined for the range of an expression. -/
def RangeCombinable : Rvalue α → Prop
  | .minMax _ _ a b =>
    RangeCombinable a ∧ RangeCombinable b ∧ Combinable (getRange a).low (getRange b).low ∧
    Combinable (getRange a).high (getRange b).high
  | _ => True

/-- The limit of an operand that is dropped because of the base range is not beyond this range in a
component. -/
def Reaches (ismin : Bool) (own base : MinmaxRange α) (k : ℕ) : Prop :=
  if ismin then ∃ c ∈ own.low, ∃ d ∈ base.high, c.at k = d.at k
  else ∃ c ∈ own.high, ∃ d ∈ base.low, c.at k = d.at k

/-- Somewhere in an expression an operand of a minimum, or of a maximum, is dropped because of a
base range that its limit reaches in a component. -/
def Drops (ismin : Bool) : Rvalue α → MinmaxRange α → ℕ → Prop
  | .minMax ismin' _ a b, base, k =>
    match plan ismin' a b base with
    | .drop₀ byBase =>
      (ismin' = ismin ∧ byBase ∧ Reaches ismin (getRange a) base k) ∨ Drops ismin b base k
    | .drop₁ byBase =>
      (ismin' = ismin ∧ byBase ∧ Reaches ismin (getRange b) base k) ∨ Drops ismin a base k
    | .combine _ _ => False
    | .descend =>
      Drops ismin a (operandBase ismin' (getRange b) base) k ∨
      Drops ismin b (operandBase ismin' (getRange a) base) k
  | _, _, _ => False

/-- The pruning does not combine constants with different numbers of components, and the two
operands of a minimum, or of a maximum, do not both drop something because of a base range that is
only reached in one of so many components. -/
def Careful (components : ℕ) : Rvalue α → MinmaxRange α → Prop
  | .minMax ismin _ a b, base =>
    match plan ismin a b base with
    | .drop₀ _ => Careful components b base
    | .drop₁ _ => Careful components a base
    | .combine c d => c.size = d.size
    | .descend =>
      let base₀ := operandBase ismin (getRange b) base
      let base₁ := operandBase ismin (getRange a) base
      Careful components a base₀ ∧ Careful components b base₁ ∧
      (if ismin then
        Combinable (getRange b).high base.high ∧ Combinable (getRange a).high base.high
      else Combinable (getRange b).low base.low ∧ Combinable (getRange a).low base.low) ∧
      (∀ c d, asConstants (pruneExpression a base₀) (pruneExpression b base₁) = some (c, d) →
        c.size = d.size) ∧
      ∀ k < components, ¬ (Drops ismin a base₀ k ∧ Drops ismin b base₁ k)
  | _, _ => True

end Glsl.MinMax
