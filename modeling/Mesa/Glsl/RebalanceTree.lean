import Mathlib.Tactic.Common

/-!
# Rebalancing of expression trees

`opt_rebalance_tree.cpp` takes a tree of expressions of one associative operation apart into a vine
and folds the vine up again.  The code changes the expressions in place; here each function gives
back what the tree has become.  A cast to `ir_expression *` fails on anything but an expression with
two operands, and so does then the function that does the cast: in the trees that are rebalanced
there are no other expressions.
-/

namespace Glsl.Rebalance

/-! ### Types and operations -/

/-- `glsl_base_type` -/
inductive BaseType where
  | uint | int | float | double | uint64 | int64 | bool
  /-- Any other base type. -/
  | other (id : ℕ)
deriving DecidableEq

/-- `glsl_type`, of which there is one for each set of values of its fields. -/
structure GlslType where
  baseType : BaseType
  vectorElements : ℕ
  matrixColumns : ℕ := 1
deriving DecidableEq

/-- `is_matrix` -/
def GlslType.isMatrix (t : GlslType) : Bool :=
  decide (1 < t.matrixColumns ∧ (t.baseType = .float ∨ t.baseType = .double))

/-- `ir_expression_operation` of an expression with two operands. -/
inductive Operation where
  | add | mul | bitAnd | bitXor | bitOr | logicAnd | logicXor | logicOr | min | max
  /-- Any other binary operation. -/
  | other (id : ℕ)
deriving DecidableEq

/-- `is_reduction_operation` -/
def isReductionOperation : Operation → Bool
  | .other _ => false
  | _ => true

/-! ### Rvalues -/

/-- `ir_rvalue`.  An expression with two operands has an address. -/
inductive Rvalue where
  /-- `ir_constant` -/
  | constant (type : GlslType) (value : ℕ)
  /-- `ir_dereference_variable` -/
  | derefVar (type : GlslType) (var : ℕ)
  /-- `ir_dereference_array` -/
  | derefArray (type : GlslType) (array index : Rvalue)
  /-- `ir_dereference_record` -/
  | derefRecord (type : GlslType) (record : Rvalue) (field : ℕ)
  /-- `ir_swizzle` -/
  | swizzle (type : GlslType) (val : Rvalue) (mask : ℕ)
  /-- `ir_texture`, whose operands are the coordinate and those of the rest that are there. -/
  | texture (type : GlslType) (op : ℕ) (sampler : Rvalue) (numOperands : ℕ)
      (operands : Fin numOperands → Rvalue)
  /-- `ir_expression` with two operands -/
  | binop (addr : ℕ) (type : GlslType) (operation : Operation) (operand₀ operand₁ : Rvalue)
  /-- `ir_expression` with one operand, or with three or four -/
  | expression (type : GlslType) (operation numOperands : ℕ) (operands : Fin numOperands → Rvalue)

/-- The type of an rvalue. -/
def Rvalue.type : Rvalue → GlslType
  | constant type _ | derefVar type _ | derefArray type _ _ | derefRecord type _ _
  | swizzle type _ _ | texture type _ _ _ _ | binop _ type _ _ _ | expression type _ _ _ => type

/-- An expression with two operands. -/
structure Expression where
  addr : ℕ
  type : GlslType
  operation : Operation
  operand₀ : Rvalue
  operand₁ : Rvalue

/-- An expression is an rvalue. -/
def Expression.toRvalue (e : Expression) : Rvalue :=
  .binop e.addr e.type e.operation e.operand₀ e.operand₁

/-- `as_expression`, and the cast to `ir_expression *`. -/
def Rvalue.asExpression : Rvalue → Option Expression
  | binop addr type operation operand₀ operand₁ => some ⟨addr, type, operation, operand₀, operand₁⟩
  | _ => none

/-! ### The vine -/

/-- How much of an rvalue is still to be taken apart. -/
def Rvalue.weight : Rvalue → ℕ
  | binop _ _ _ operand₀ operand₁ => 2 * operand₀.weight + operand₁.weight + 1
  | _ => 1

theorem Rvalue.weight_pos (e : Rvalue) :
  0 < e.weight
  := by
  cases e with
  | binop addr type operation operand₀ operand₁ => exact Nat.succ_pos _
  | _ => exact Nat.one_pos

/-- The loop of `tree_to_vine`: what `vine_tail->operands[1]`, which is `remainder`, becomes, and
how often `vine_tail` moves down. -/
def vineLoop (vineTail remainder : Rvalue) : Option (Rvalue × ℕ) :=
  match remainder with
  | .binop addr type operation (.binop addr' type' operation' a b) c => do
      -- rotate
      let _ ← vineTail.asExpression
      vineLoop vineTail (.binop addr' type' operation' a (.binop addr type operation b c))
  | .binop addr type operation operand₀ operand₁ => do
      -- move `vine_tail` down one
      let (vine, size) ← vineLoop remainder operand₁
      some (.binop addr type operation operand₀ vine, size + 1)
  | _ => some (remainder, 1)
termination_by remainder.weight
decreasing_by
  · have := a.weight_pos
    simp only [Rvalue.weight]
    omega
  · simp only [Rvalue.weight]
    omega

/-- `tree_to_vine` -/
def treeToVine (root : Expression) : Option (Expression × ℕ) := do
  let (vine, size) ← vineLoop root.toRvalue root.operand₁
  some ({ root with operand₁ := vine }, size)

/-- `compression` -/
def compression (root : Expression) : ℕ → Option Expression
  | 0 => some root
  | count + 1 => do
      let child ← root.operand₁.asExpression
      let scanner ← child.operand₁.asExpression
      let child := { child with operand₁ := scanner.operand₀ }
      let scanner := { scanner with operand₀ := child.toRvalue }
      let scanner ← compression scanner count
      some { root with operand₁ := scanner.toRvalue }

/-- The loop of `vine_to_tree`. -/
def treeLoop (root : Expression) (n : ℕ) : Option Expression :=
  if n / 2 = 0 then some root
  else do
    let root ← compression root (n / 2)
    treeLoop root (n - (n / 2 + 1))
termination_by n
decreasing_by omega

/-- `vine_to_tree` -/
def vineToTree (root : Expression) (size : ℕ) : Option Expression := treeLoop root (size - 1)

/-! ### Reductions -/

/-- `is_reduction_data`, where nothing stands for the operation 0, which is a unary one, and for
the type `NULL`. -/
structure IsReductionData where
  operation : Option Operation
  type : Option GlslType
  numExpr : ℕ
  isReduction : Bool
  containsConstant : Bool

/-- `is_reduction` on an expression, whose operation is given if it has two operands, with the
types of its first two operands. -/
def IsReductionData.expression (type : GlslType) (operation : Option Operation)
    (operandTypes : List GlslType) (d : IsReductionData) : IsReductionData :=
  if d.isReduction = false then d
  else if type.isMatrix || operandTypes.any GlslType.isMatrix then { d with isReduction := false }
  else if d.type ≠ none ∧ d.type ≠ some type then { d with isReduction := false }
  else
    let d := { d with type := some type, numExpr := d.numExpr + 1 }
    match operation with
    | some operation =>
        if isReductionOperation operation then
          { d with
            isReduction := decide (d.operation = none ∨ d.operation = some operation)
            operation := some operation }
        else { d with isReduction := false }
    | none => { d with isReduction := false }

/-- `is_reduction` on a constant. -/
def IsReductionData.constant (d : IsReductionData) : IsReductionData :=
  if d.isReduction = false then d
  else { d with isReduction := !d.containsConstant, containsConstant := true }

/-- `is_reduction` on a dereference of an array or of a record. -/
def IsReductionData.reject (d : IsReductionData) : IsReductionData := { d with isReduction := false }

/-- `visit_tree` with `is_reduction`. -/
def Rvalue.isReduction : Rvalue → IsReductionData → IsReductionData
  | constant _ _, d => d.constant
  | derefVar _ _, d => d
  | derefArray _ array index, d => array.isReduction (index.isReduction d.reject)
  | derefRecord _ record _, d => record.isReduction d.reject
  | swizzle _ val _, d => val.isReduction d
  | texture _ _ sampler numOperands operands, d =>
      (List.finRange numOperands).foldl (fun d k => (operands k).isReduction d)
        (sampler.isReduction d)
  | binop _ type operation operand₀ operand₁, d =>
      operand₁.isReduction (operand₀.isReduction
        (d.expression type (some operation) [operand₀.type, operand₁.type]))
  | expression type _ numOperands operands, d =>
      (List.finRange numOperands).foldl (fun d k => (operands k).isReduction d)
        (d.expression type none (((List.finRange numOperands).take 2).map fun k => (operands k).type))

/-- What `handle_expression` starts the visit with. -/
def IsReductionData.start : IsReductionData := ⟨none, none, 0, true, false⟩

/-- Whether `handle_expression` takes an expression for a reduction with something to rebalance. -/
def Expression.accepted (expr : Expression) : Bool :=
  let ird := expr.toRvalue.isReduction .start
  ird.isReduction && decide (2 < ird.numExpr)

/-- `handle_expression` -/
def handleExpression (expr : Expression) : Option Expression :=
  if expr.accepted then do
    let z := Rvalue.constant ⟨.float, 1, 1⟩ 0
    let pseudoRoot : Expression := ⟨0, expr.type, .add, z, expr.toRvalue⟩
    let (pseudoRoot, size) ← treeToVine pseudoRoot
    let pseudoRoot ← vineToTree pseudoRoot size
    pseudoRoot.operand₁.asExpression
  else some expr

/-! ### Types -/

/-- `visit_tree` with `update_types`, which is called on what has been accepted: there all
expressions have two operands. -/
def Rvalue.updateTypes : Rvalue → Rvalue
  | constant type value => .constant type value
  | derefVar type var => .derefVar type var
  | derefArray type array index => .derefArray type array.updateTypes index.updateTypes
  | derefRecord type record field => .derefRecord type record.updateTypes field
  | swizzle type val mask => .swizzle type val.updateTypes mask
  | texture type op sampler numOperands operands =>
      .texture type op sampler.updateTypes numOperands fun k => (operands k).updateTypes
  | binop addr type operation operand₀ operand₁ =>
      .binop addr
        ⟨type.baseType, Nat.max operand₀.updateTypes.type.vectorElements
          operand₁.updateTypes.type.vectorElements, 1⟩
        operation operand₀.updateTypes operand₁.updateTypes
  | expression type operation numOperands operands =>
      .expression type operation numOperands fun k => (operands k).updateTypes

/-- `ir_rebalance_visitor::handle_rvalue`: what the rvalue becomes. -/
def handleRvalue (rvalue : Rvalue) : Option Rvalue :=
  match rvalue.asExpression with
  | none => some rvalue
  | some expr =>
      if isReductionOperation expr.operation then do
        let newRvalue ← handleExpression expr
        if newRvalue.addr = expr.addr then some newRvalue.toRvalue
        else some newRvalue.toRvalue.updateTypes
      else some rvalue

/-! ### What a tree means -/

/-- What the expressions with two operands have below them, from left to right. -/
def Rvalue.leaves : Rvalue → List Rvalue
  | binop _ _ _ operand₀ operand₁ => operand₀.leaves ++ operand₁.leaves
  | e => [e]

def Rvalue.height : Rvalue → ℕ
  | binop _ _ _ operand₀ operand₁ => Nat.max operand₀.height operand₁.height + 1
  | _ => 0

/-- `float` or `double` -/
def BaseType.isFloating : BaseType → Bool
  | .float | .double => true
  | _ => false

def BaseType.isSigned : BaseType → Bool
  | .int | .int64 => true
  | _ => false

/-- Whether a number is at most another one. -/
def le {w : ℕ} (signed : Bool) (x y : BitVec w) : Bool :=
  if signed then decide (x.toInt ≤ y.toInt) else decide (x.toNat ≤ y.toNat)

/-- How a Boolean is stored. -/
def ofBool {w : ℕ} (b : Bool) : BitVec w := if b then 1 else 0

/-- An operation on numbers that are not floating ones, where the meaning of the operations that
are not reductions is given. -/
def Operation.eval {w : ℕ} (other : ℕ → BitVec w → BitVec w → BitVec w) (signed : Bool)
    (x y : BitVec w) : Operation → BitVec w
  | add => x + y
  | mul => x * y
  | bitAnd => x &&& y
  | bitXor => x ^^^ y
  | bitOr => x ||| y
  | logicAnd => ofBool (x != 0 && y != 0)
  | logicXor => ofBool (x != 0 ^^ y != 0)
  | logicOr => ofBool (x != 0 || y != 0)
  | min => if le signed x y then x else y
  | max => if le signed x y then y else x
  | .other id => other id x y

/-- The channels of a tree for given values of the leaves.  A scalar is the same in every
channel. -/
def Rvalue.channels {w : ℕ} (other : ℕ → BitVec w → BitVec w → BitVec w)
    (env : Rvalue → ℕ → BitVec w) : Rvalue → ℕ → BitVec w
  | binop _ type operation operand₀ operand₁ => fun c =>
      operation.eval other type.baseType.isSigned (operand₀.channels other env c)
        (operand₁.channels other env c)
  | e => fun c => env e (if e.type.vectorElements = 1 then 0 else c)

end Glsl.Rebalance
