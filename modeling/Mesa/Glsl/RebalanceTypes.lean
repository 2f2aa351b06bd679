import Mathlib.Algebra.BigOperators.Fin
import Mathlib.Algebra.Order.BigOperators.Group.Finset
import Mesa.Glsl.RebalanceBalanced

/-!
# Types of rebalanced trees

When a tree has been rebalanced, its types are computed anew, unless the root is the old one.  The
types then stay right exactly if no two scalar leaves get under one node of a tree of vectors; and
which leaves get under one node is known from their places.
-/

namespace Glsl.Rebalance

open Data.Rebalancing (BinTree)

/-! ### The visitor -/

/-- `handle_rvalue` ends, and no cast fails. -/
theorem handleRvalue_isSome (e : Rvalue) :
  (handleRvalue e).isSome
  := by
  rw [handleRvalue]
  cases e.asExpression with
  | none => rfl
  | some expr =>
      simp only
      split
      · cases h : expr.accepted with
        | false =>
            rw [handleExpression, if_neg (by rw [h]; exact Bool.false_ne_true)]
            simp only [Option.bind_eq_bind, Option.bind_some]
            split <;> rfl
        | true =>
            obtain ⟨t, ht, -⟩ := handleExpression_eq h
            rw [ht]
            simp only [Option.bind_eq_bind, Option.bind_some]
            split <;> rfl
      · rfl

/-- What `handle_rvalue` makes of an rvalue. -/
def Rvalue.handled (e : Rvalue) : Rvalue := (handleRvalue e).get (handleRvalue_isSome e)

/-- The number of nodes of an rvalue. -/
def Rvalue.size : Rvalue → ℕ
  | constant _ _ => 1
  | derefVar _ _ => 1
  | derefArray _ array index => array.size + index.size + 1
  | derefRecord _ record _ => record.size + 1
  | swizzle _ val _ => val.size + 1
  | texture _ _ sampler numOperands operands =>
      sampler.size + (∑ k : Fin numOperands, (operands k).size) + 1
  | binop _ _ _ operand₀ operand₁ => operand₀.size + operand₁.size + 1
  | expression _ _ numOperands operands => (∑ k : Fin numOperands, (operands k).size) + 1

theorem size_eq (e : Rvalue) :
  e.size = (e.toTree.leaves.map Rvalue.size).sum + e.toTree.nodes.length
  := by
  induction e with
  | binop addr type operation operand₀ operand₁ h₀ h₁ =>
      rw [Rvalue.size, Rvalue.toTree, BinTree.leaves, BinTree.nodes, List.map_append, List.sum_append,
        List.length_append, List.length_cons, h₀, h₁]
      omega
  | _ => rfl

theorem size_updateTypes (e : Rvalue) :
  e.updateTypes.size = e.size
  := by
  induction e with
  | constant type value => rfl
  | derefVar type var => rfl
  | derefArray type array index harray hindex =>
      rw [Rvalue.updateTypes, Rvalue.size, Rvalue.size, harray, hindex]
  | derefRecord type record field hrecord => rw [Rvalue.updateTypes, Rvalue.size, Rvalue.size, hrecord]
  | swizzle type val mask hval => rw [Rvalue.updateTypes, Rvalue.size, Rvalue.size, hval]
  | texture type op sampler numOperands operands hsampler hoperands =>
      simp only [Rvalue.updateTypes, Rvalue.size, hsampler, hoperands]
  | binop addr type operation operand₀ operand₁ h₀ h₁ =>
      rw [Rvalue.updateTypes, Rvalue.size, Rvalue.size, h₀, h₁]
  | expression type operation numOperands operands hoperands =>
      simp only [Rvalue.updateTypes, Rvalue.size, hoperands]

/-- Whether `handle_rvalue` rebalances an rvalue. -/
def Rvalue.rebalances (e : Rvalue) : Bool :=
  match e.asExpression with
  | none => false
  | some expr => isReductionOperation expr.operation && expr.accepted

theorem handled_eq_self {e : Rvalue} (h : e.rebalances = false) :
  e.handled = e
  := by
  apply Option.get_of_eq_some
  cases e with
  | binop addr type operation operand₀ operand₁ =>
      rw [Rvalue.rebalances, Rvalue.asExpression, Bool.and_eq_false_iff] at h
      rw [handleRvalue, Rvalue.asExpression]
      simp only
      split
      next hred =>
        have hnot := (or_iff_right (by rw [hred]; decide)).mp h
        rw [handleExpression, if_neg (by rw [hnot]; exact Bool.false_ne_true)]
        simp only [Option.bind_eq_bind, Option.bind_some, if_true]
        rfl
      next => rfl
  | _ => rfl

/-- What `handle_rvalue` makes of a reduction. -/
theorem handled_of_rebalances {expr : Expression} (h : expr.toRvalue.rebalances = true) :
  ∃ t : Expression, t.toRvalue.toTree = expr.toRvalue.toTree.rebalance ∧
    expr.toRvalue.handled = if t.addr = expr.addr then t.toRvalue else t.toRvalue.updateTypes
  := by
  rw [Rvalue.rebalances, Expression.toRvalue, Rvalue.asExpression, Bool.and_eq_true] at h
  obtain ⟨t, ht, htree⟩ := handleExpression_eq h.2
  use t, htree
  apply Option.get_of_eq_some
  rw [handleRvalue, Expression.toRvalue, Rvalue.asExpression]
  simp only
  rw [if_pos h.1, ht, Option.bind_eq_bind, Option.bind_some, apply_ite some]

theorem size_handled (e : Rvalue) :
  e.handled.size = e.size
  := by
  cases h : e.rebalances with
  | false => rw [handled_eq_self h]
  | true =>
      obtain ⟨expr, rfl⟩ : ∃ expr : Expression, expr.toRvalue = e := by
        cases e with
        | binop addr type operation operand₀ operand₁ =>
            use ⟨addr, type, operation, operand₀, operand₁⟩
            rfl
        | _ => exact absurd h Bool.false_ne_true
      obtain ⟨t, htree, hhandled⟩ := handled_of_rebalances h
      have hsize : t.toRvalue.size = expr.toRvalue.size := by
        rw [size_eq, htree, BinTree.rebalance_leaves, BinTree.rebalance_nodes, ← size_eq]
      rw [hhandled]
      split
      · exact hsize
      · rw [size_updateTypes, hsize]

theorem size_operand {numOperands : ℕ} (operands : Fin numOperands → Rvalue) (k : Fin numOperands) :
  (operands k).size ≤ ∑ k, (operands k).size
  := by
  apply Finset.single_le_sum (f := fun k => (operands k).size)
  · intro k _
    exact Nat.zero_le _
  · exact Finset.mem_univ k

/-- `accept` with an `ir_rebalance_visitor`: what an rvalue becomes when it is visited, where all
that is in it is handled before it is visited itself. -/
def Rvalue.visit : Rvalue → Rvalue
  | constant type value => .constant type value
  | derefVar type var => .derefVar type var
  | derefArray type array index => .derefArray type array.handled.visit index.handled.visit
  | derefRecord type record field => .derefRecord type record.handled.visit field
  | swizzle type val mask => .swizzle type val.handled.visit mask
  | texture type op sampler numOperands operands =>
      .texture type op sampler.visit numOperands fun k => (operands k).handled.visit
  | binop addr type operation operand₀ operand₁ =>
      .binop addr type operation operand₀.handled.visit operand₁.handled.visit
  | expression type operation numOperands operands =>
      .expression type operation numOperands fun k => (operands k).handled.visit
termination_by e => e.size
decreasing_by
  all_goals simp only [size_handled, Rvalue.size]
  any_goals omega
  all_goals
    have hk := size_operand operands k
    omega

/-- The instructions without instructions inside. -/
inductive Instr where
  /-- `ir_assignment`, and whether the assigned variable is invariant or precise. -/
  | assignment (exact : Bool) (lhs rhs : Rvalue) (condition : Option Rvalue)
  /-- `ir_call` -/
  | call (returnDeref : Option Rvalue) (actualParameters : List Rvalue)
  /-- `ir_return` -/
  | ret (value : Option Rvalue)
  /-- `ir_discard` -/
  | discard (condition : Option Rvalue)
  /-- `ir_emit_vertex` -/
  | emitVertex (stream : Rvalue)
  /-- `ir_end_primitive` -/
  | endPrimitive (stream : Rvalue)
  /-- An instruction without rvalues. -/
  | other (id : ℕ)

/-- A list of instructions. -/
inductive Block where
  | nil
  | instr (i : Instr) (rest : Block)
  /-- `ir_if` -/
  | cond (condition : Rvalue) (thenInstructions elseInstructions rest : Block)
  /-- `ir_loop` -/
  | loop (body rest : Block)
  /-- `ir_function_signature` -/
  | function (body rest : Block)

/-- The right-hand side and the condition of an assignment are not handled: the visitor has a
`visit_enter` of its own for assignments. -/
def Instr.visit : Instr → Instr
  | assignment exact lhs rhs condition =>
      if exact then .assignment exact lhs rhs condition
      else .assignment exact lhs.visit rhs.visit (condition.map Rvalue.visit)
  | call returnDeref actualParameters =>
      .call (returnDeref.map Rvalue.visit) (actualParameters.map fun e => e.handled.visit)
  | ret value => .ret (value.map fun e => e.handled.visit)
  | discard condition => .discard (condition.map fun e => e.handled.visit)
  | emitVertex stream => .emitVertex stream.handled.visit
  | endPrimitive stream => .endPrimitive stream.handled.visit
  | other id => .other id

/-- `do_rebalance_tree` -/
def doRebalanceTree : Block → Block
  | .nil => .nil
  | .instr i rest => .instr i.visit (doRebalanceTree rest)
  | .cond condition thenInstructions elseInstructions rest =>
      .cond condition.handled.visit (doRebalanceTree thenInstructions)
        (doRebalanceTree elseInstructions) (doRebalanceTree rest)
  | .loop body rest => .loop (doRebalanceTree body) (doRebalanceTree rest)
  | .function body rest => .function (doRebalanceTree body) (doRebalanceTree rest)

/-! ### Well-typed lists -/

/-- The scalar type with the base type of a type. -/
def GlslType.scalar (t : GlslType) : GlslType := ⟨t.baseType, 1, 1⟩

/-- A type is that of a scalar or of a vector. -/
def GlslType.IsVector (t : GlslType) : Prop := t.matrixColumns = 1 ∧ 1 ≤ t.vectorElements

/-- A type is the wider one of two, where a scalar goes with any vector. -/
def Wider (t₀ t₁ t : GlslType) : Prop :=
  t.IsVector ∧ (t₀ = t ∧ (t₁ = t ∨ t₁ = t.scalar) ∨ t₁ = t ∧ t₀ = t.scalar)

section Typing

/- When another expression has a type: one with two operands, or one with another number of them. -/
variable (typing₂ : Operation → GlslType → GlslType → GlslType → Prop)
variable (typing : ℕ → List GlslType → GlslType → Prop)

/-- An expression with two operands is well typed. -/
def BinopTyped (operation : Operation) (t₀ t₁ type : GlslType) : Prop :=
  if isReductionOperation operation && !(type.isMatrix || t₀.isMatrix || t₁.isMatrix) then
    Wider t₀ t₁ type
  else typing₂ operation t₀ t₁ type

/-- Every expression in an rvalue is well typed. -/
def Rvalue.WellTyped : Rvalue → Prop
  | constant _ _ => True
  | derefVar _ _ => True
  | derefArray _ array index => array.WellTyped ∧ index.WellTyped
  | derefRecord _ record _ => record.WellTyped
  | swizzle _ val _ => val.WellTyped
  | texture _ _ sampler numOperands operands =>
      sampler.WellTyped ∧ ∀ k : Fin numOperands, (operands k).WellTyped
  | binop _ type operation operand₀ operand₁ =>
      BinopTyped typing₂ operation operand₀.type operand₁.type type ∧
        operand₀.WellTyped ∧ operand₁.WellTyped
  | expression type operation numOperands operands =>
      typing operation (List.ofFn fun k => (operands k).type) type ∧
        ∀ k : Fin numOperands, (operands k).WellTyped

/-- Every expression in an instruction is well typed. -/
def Instr.WellTyped : Instr → Prop
  | assignment _ lhs rhs condition =>
      lhs.WellTyped typing₂ typing ∧ rhs.WellTyped typing₂ typing ∧
        ∀ e ∈ condition, e.WellTyped typing₂ typing
  | call returnDeref actualParameters =>
      (∀ e ∈ returnDeref, e.WellTyped typing₂ typing) ∧
        ∀ e ∈ actualParameters, e.WellTyped typing₂ typing
  | ret value => ∀ e ∈ value, e.WellTyped typing₂ typing
  | discard condition => ∀ e ∈ condition, e.WellTyped typing₂ typing
  | emitVertex stream => stream.WellTyped typing₂ typing
  | endPrimitive stream => stream.WellTyped typing₂ typing
  | other _ => True

/-- Every expression in a list of instructions is well typed. -/
def Block.WellTyped : Block → Prop
  | nil => True
  | instr i rest => i.WellTyped typing₂ typing ∧ rest.WellTyped
  | cond condition thenInstructions elseInstructions rest =>
      condition.WellTyped typing₂ typing ∧ thenInstructions.WellTyped ∧
        elseInstructions.WellTyped ∧ rest.WellTyped
  | loop body rest => body.WellTyped ∧ rest.WellTyped
  | function body rest => body.WellTyped ∧ rest.WellTyped

end Typing

/-! ### Where types stay right -/

/-- The expressions of a tree have different addresses, and so on in what is below them. -/
def Rvalue.Distinct : Rvalue → Prop
  | constant _ _ => True
  | derefVar _ _ => True
  | derefArray _ array index => array.Distinct ∧ index.Distinct
  | derefRecord _ record _ => record.Distinct
  | swizzle _ val _ => val.Distinct
  | texture _ _ sampler numOperands operands =>
      sampler.Distinct ∧ ∀ k : Fin numOperands, (operands k).Distinct
  | binop addr _ _ operand₀ operand₁ =>
      (operand₀.toTree.nodes.map Header.addr ++ addr :: operand₁.toTree.nodes.map Header.addr).Nodup ∧
        operand₀.Distinct ∧ operand₁.Distinct
  | expression _ _ numOperands operands => ∀ k : Fin numOperands, (operands k).Distinct

/-- `Distinct`, in an instruction. -/
def Instr.Distinct : Instr → Prop
  | assignment _ lhs rhs condition =>
      lhs.Distinct ∧ rhs.Distinct ∧ ∀ e ∈ condition, e.Distinct
  | call returnDeref actualParameters =>
      (∀ e ∈ returnDeref, e.Distinct) ∧ ∀ e ∈ actualParameters, e.Distinct
  | ret value => ∀ e ∈ value, e.Distinct
  | discard condition => ∀ e ∈ condition, e.Distinct
  | emitVertex stream => stream.Distinct
  | endPrimitive stream => stream.Distinct
  | other _ => True

/-- `Distinct`, in a list of instructions. -/
def Block.Distinct : Block → Prop
  | nil => True
  | instr i rest => i.Distinct ∧ rest.Distinct
  | cond condition thenInstructions elseInstructions rest =>
      condition.Distinct ∧ thenInstructions.Distinct ∧ elseInstructions.Distinct ∧ rest.Distinct
  | loop body rest => body.Distinct ∧ rest.Distinct
  | function body rest => body.Distinct ∧ rest.Distinct

/-- The numbers of leaves of the two operands are those of the balanced tree: the root will be the
old one. -/
def KeepsRoot (operand₀ operand₁ : Rvalue) : Prop :=
  ∃ i, operand₀.leaves.length = 2 ^ i ∧ 2 ^ i ≤ 2 * operand₁.leaves.length ∧
    operand₁.leaves.length < 2 ^ (i + 1)

/-- Of the first and the second leaf one is as wide as the tree, of the third and the fourth one,
and so on. -/
def PairsWide (type : GlslType) (leaves : List Rvalue) : Prop :=
  ∀ p ∈ BinTree.pairs leaves, p.1.type = type ∨ p.2.type = type

/-- What the visitor does with an rvalue. -/
inductive Role where
  /-- It is handled, and then what has become of it is visited. -/
  | handled
  /-- It is visited only. -/
  | visited
  /-- It is an operand in a tree that is rebalanced. -/
  | operand

/-- The types in an rvalue stay right. -/
def Rvalue.Safe : Rvalue → Role → Prop
  | constant _ _, _ => True
  | derefVar _ _, _ => True
  | derefArray _ array index, _ => array.Safe .handled ∧ index.Safe .handled
  | derefRecord _ record _, _ => record.Safe .handled
  | swizzle _ val _, _ => val.Safe .handled
  | texture _ _ sampler numOperands operands, _ =>
      sampler.Safe .visited ∧ ∀ k : Fin numOperands, (operands k).Safe .handled
  | binop addr type operation operand₀ operand₁, role =>
      match role with
      | .handled =>
          if (Rvalue.binop addr type operation operand₀ operand₁).rebalances then
            (KeepsRoot operand₀ operand₁ → PairsWide type (operand₀.leaves ++ operand₁.leaves)) ∧
              operand₀.Safe .operand ∧ operand₁.Safe .operand
          else operand₀.Safe .handled ∧ operand₁.Safe .handled
      | .visited => operand₀.Safe .handled ∧ operand₁.Safe .handled
      | .operand => operand₀.Safe .operand ∧ operand₁.Safe .operand
  | expression _ _ numOperands operands, _ => ∀ k : Fin numOperands, (operands k).Safe .handled

/-- The types in an instruction stay right. -/
def Instr.Safe : Instr → Prop
  | assignment exact lhs rhs condition =>
      exact = true ∨ lhs.Safe .visited ∧ rhs.Safe .visited ∧ ∀ e ∈ condition, e.Safe .visited
  | call returnDeref actualParameters =>
      (∀ e ∈ returnDeref, e.Safe .visited) ∧ ∀ e ∈ actualParameters, e.Safe .handled
  | ret value => ∀ e ∈ value, e.Safe .handled
  | discard condition => ∀ e ∈ condition, e.Safe .handled
  | emitVertex stream => stream.Safe .handled
  | endPrimitive stream => stream.Safe .handled
  | other _ => True

/-- The types in a list of instructions stay right: in every tree that is rebalanced, if its root
keeps its place, then of any two leaves that get under one node one is as wide as the tree. -/
def Block.Safe : Block → Prop
  | nil => True
  | instr i rest => i.Safe ∧ rest.Safe
  | cond condition thenInstructions elseInstructions rest =>
      condition.Safe .handled ∧ thenInstructions.Safe ∧ elseInstructions.Safe ∧ rest.Safe
  | loop body rest => body.Safe ∧ rest.Safe
  | function body rest => body.Safe ∧ rest.Safe

/-! ### Balanced trees are left alone -/

/-- Put other rvalues for the leaves. -/
def Rvalue.mapLeaves (f : Rvalue → Rvalue) : Rvalue → Rvalue
  | binop addr type operation operand₀ operand₁ =>
      .binop addr type operation (operand₀.mapLeaves f) (operand₁.mapLeaves f)
  | e => f e

theorem exists_toRvalue_of_rebalances {e : Rvalue} (h : e.rebalances = true) :
  ∃ expr : Expression, expr.toRvalue = e
  := by
  cases e with
  | binop addr type operation operand₀ operand₁ =>
      use ⟨addr, type, operation, operand₀, operand₁⟩
      rfl
  | _ => exact absurd h Bool.false_ne_true

theorem toTree_injective :
  Function.Injective Rvalue.toTree
  := Function.LeftInverse.injective ofTree_toTree

/-- A balanced tree is not changed when it is handled. -/
theorem handled_of_balanced {e : Rvalue} (h : e.toTree.Balanced) :
  e.handled = e
  := by
  cases hr : e.rebalances with
  | false => exact handled_eq_self hr
  | true =>
      obtain ⟨expr, rfl⟩ := exists_toRvalue_of_rebalances hr
      obtain ⟨t, htree, hhandled⟩ := handled_of_rebalances hr
      rw [h.rebalance_eq] at htree
      have heq := toTree_injective htree
      rw [hhandled, if_pos, heq]
      rw [Expression.toRvalue, Expression.toRvalue] at heq
      exact (Rvalue.binop.inj heq).1

/-- Below a balanced tree only the leaves are changed. -/
theorem visit_of_balanced {e : Rvalue} (h : e.toTree.Balanced) :
  e.visit = e.mapLeaves Rvalue.visit
  := by
  induction e with
  | binop addr type operation operand₀ operand₁ h₀ h₁ =>
      rw [Rvalue.visit, handled_of_balanced h.left, handled_of_balanced h.right, h₀ h.left,
        h₁ h.right, Rvalue.mapLeaves]
  | _ => rfl

theorem shape_updateTypes (e : Rvalue) :
  e.updateTypes.toTree.shape = e.toTree.shape
  := by
  induction e with
  | binop addr type operation operand₀ operand₁ h₀ h₁ =>
      rw [Rvalue.updateTypes, Rvalue.toTree, Rvalue.toTree, BinTree.shape, BinTree.shape, h₀, h₁]
  | _ => rfl

theorem leaves_updateTypes (e : Rvalue) :
  e.updateTypes.leaves = e.leaves.map Rvalue.updateTypes
  := by
  induction e with
  | binop addr type operation operand₀ operand₁ h₀ h₁ =>
      rw [Rvalue.updateTypes, Rvalue.leaves, Rvalue.leaves, List.map_append, h₀, h₁]
  | _ => rfl

/-! ### The root of the rebalanced tree -/

/-- An element stands at one place of a list of different ones. -/
theorem length_eq_of_nodup {α β : Type} {f : α → β} {l m l' m' : List α} {x y : α}
    (hnodup : (l.map f ++ f x :: m.map f).Nodup) (heq : l ++ x :: m = l' ++ y :: m')
    (hf : f y = f x) :
  l.length = l'.length
  := by
  have hmap := congrArg (List.map f) heq
  rw [List.map_append, List.map_append, List.map_cons, List.map_cons, hf] at hmap
  rw [List.nodup_middle, List.nodup_cons, List.mem_append, not_or] at hnodup
  obtain ⟨hl, -, -⟩ := (List.append_cons_inj_of_notMem hnodup.1.1 hnodup.1.2).mp hmap
  have hlen := congrArg List.length hl
  rwa [List.length_map, List.length_map] at hlen

/-- The root of the rebalanced tree is the old one exactly if the operands have the right sizes. -/
theorem addr_eq_iff {expr t : Expression} (hd : expr.toRvalue.Distinct)
    (htree : t.toRvalue.toTree = expr.toRvalue.toTree.rebalance) :
  t.addr = expr.addr ↔ KeepsRoot expr.operand₀ expr.operand₁
  := by
  have hnodes := expr.toRvalue.toTree.rebalance_nodes
  have hleaves := congrArg List.length expr.toRvalue.toTree.rebalance_leaves
  have hbal := expr.toRvalue.toTree.rebalance_balanced
  rw [← htree] at hnodes hleaves hbal
  rw [Expression.toRvalue, Expression.toRvalue, Rvalue.toTree, Rvalue.toTree, BinTree.nodes,
    BinTree.nodes] at hnodes
  rw [Expression.toRvalue, Expression.toRvalue, Rvalue.toTree, Rvalue.toTree, BinTree.leaves,
    BinTree.leaves, List.length_append, List.length_append] at hleaves
  obtain ⟨i, hlen, hle, hlt⟩ := hbal.sizes
  have h₀ := expr.operand₀.toTree.nodes_length
  have ht₀ := t.operand₀.toTree.nodes_length
  rw [KeepsRoot, ← leaves_toTree, ← leaves_toTree]
  constructor
  · intro haddr
    have hplace := length_eq_of_nodup (f := Header.addr) hd.1 hnodes.symm haddr
    use i
    refine ⟨?_, ?_, ?_⟩ <;> omega
  · rintro ⟨j, hlen', hle', hlt'⟩
    rw [hlen, hlen'] at hleaves
    obtain rfl := BinTree.exponent_unique hleaves hle hlt hle' hlt'
    obtain ⟨-, htail⟩ := List.append_inj hnodes (by omega)
    have hhead := (List.cons_eq_cons.mp htail).1
    exact congrArg Header.addr hhead

/-! ### Types in trees -/

section Typing

variable (typing₂ : Operation → GlslType → GlslType → GlslType → Prop)
variable (typing : ℕ → List GlslType → GlslType → Prop)

/-- The expressions of a tree are well typed; those below the tree need not be. -/
def Rvalue.TreeTyped : Rvalue → Prop
  | binop _ type operation operand₀ operand₁ =>
      BinopTyped typing₂ operation operand₀.type operand₁.type type ∧
        operand₀.TreeTyped ∧ operand₁.TreeTyped
  | _ => True

variable {typing₂} {typing}

theorem type_mapLeaves {f : Rvalue → Rvalue} {e : Rvalue}
    (hf : ∀ x ∈ e.leaves, (f x).type = x.type) :
  (e.mapLeaves f).type = e.type
  := by
  cases e with
  | binop addr type operation operand₀ operand₁ => rfl
  | _ => exact hf _ List.mem_cons_self

/-- An rvalue is well typed if its tree is, and what is below the tree. -/
theorem wellTyped_mapLeaves_iff {f : Rvalue → Rvalue} {e : Rvalue}
    (hf : ∀ x ∈ e.leaves, (f x).type = x.type) :
  (e.mapLeaves f).WellTyped typing₂ typing ↔
    e.TreeTyped typing₂ ∧ ∀ x ∈ e.leaves, (f x).WellTyped typing₂ typing
  := by
  induction e with
  | binop addr type operation operand₀ operand₁ h₀ h₁ =>
      have hf₀ : ∀ x ∈ operand₀.leaves, (f x).type = x.type := fun x hx =>
        hf x (List.mem_append_left _ hx)
      have hf₁ : ∀ x ∈ operand₁.leaves, (f x).type = x.type := fun x hx =>
        hf x (List.mem_append_right _ hx)
      rw [Rvalue.mapLeaves, Rvalue.WellTyped, Rvalue.TreeTyped, Rvalue.leaves, type_mapLeaves hf₀,
        type_mapLeaves hf₁, h₀ hf₀, h₁ hf₁, List.forall_mem_append]
      tauto
  | _ =>
      constructor
      · intro h
        refine ⟨trivial, ?_⟩
        intro x hx
        obtain rfl := List.mem_singleton.mp hx
        exact h
      · intro h
        exact h.2 _ List.mem_cons_self

/-- A type of an operand in a tree of some type: this type, or that of its scalars. -/
def GlslType.Fits (type t : GlslType) : Prop := t = type ∨ t = type.scalar

theorem not_isMatrix {t : GlslType} (h : t.matrixColumns = 1) :
  t.isMatrix = false
  := by
  rw [GlslType.isMatrix, h, decide_eq_false_iff_not]
  omega

theorem GlslType.Fits.matrixColumns {type t : GlslType} (htype : type.IsVector) (h : type.Fits t) :
  t.matrixColumns = 1
  := by
  rcases h with rfl | rfl
  · exact htype.1
  · rfl

/-- An expression of a reduction with operands that fit its type is well typed if one of them is as
wide as it. -/
theorem binopTyped_iff {operation : Operation} (hop : isReductionOperation operation = true)
    {type t₀ t₁ : GlslType} (htype : type.IsVector) (h₀ : type.Fits t₀) (h₁ : type.Fits t₁) :
  BinopTyped typing₂ operation t₀ t₁ type ↔ t₀ = type ∨ t₁ = type
  := by
  rw [BinopTyped, hop, not_isMatrix htype.1, not_isMatrix (h₀.matrixColumns htype),
    not_isMatrix (h₁.matrixColumns htype), if_pos (by rfl), Wider]
  constructor
  · rintro ⟨-, ⟨h, -⟩ | ⟨h, -⟩⟩
    · exact Or.inl h
    · exact Or.inr h
  · rintro (h | h)
    · exact ⟨htype, Or.inl ⟨h, h₁⟩⟩
    · rcases h₀ with h₀ | h₀
      · exact ⟨htype, Or.inl ⟨h₀, Or.inl h⟩⟩
      · exact ⟨htype, Or.inr ⟨h, h₀⟩⟩

/-- What a well-typed expression of a reduction that is no matrix tells. -/
theorem wider_of_binopTyped {operation : Operation} (hop : isReductionOperation operation = true)
    {type t₀ t₁ : GlslType} (hmatrix : type.isMatrix = false) (h₀ : t₀.isMatrix = false)
    (h₁ : t₁.isMatrix = false) (h : BinopTyped typing₂ operation t₀ t₁ type) :
  type.IsVector ∧ type.Fits t₀ ∧ type.Fits t₁ ∧ (t₀ = type ∨ t₁ = type)
  := by
  rw [BinopTyped, hop, hmatrix, h₀, h₁, if_pos (by rfl)] at h
  obtain ⟨htype, ⟨h₀, h₁⟩ | ⟨h₁, h₀⟩⟩ := h
  · exact ⟨htype, Or.inl h₀, h₁, Or.inl h₀⟩
  · exact ⟨htype, Or.inr h₀, Or.inl h₁, Or.inr h₁⟩

/-- The type that `update_types` computes from operands that fit, one of which is wide. -/
theorem newType_eq {type t₀ t₁ : GlslType} (htype : type.IsVector) (h₀ : type.Fits t₀)
    (h₁ : type.Fits t₁) (hwide : t₀ = type ∨ t₁ = type) :
  GlslType.mk type.baseType (Nat.max t₀.vectorElements t₁.vectorElements) 1 = type
  := by
  obtain ⟨base, elements, columns⟩ := type
  obtain ⟨rfl, hpos⟩ := htype
  have hmax : Nat.max t₀.vectorElements t₁.vectorElements = elements := by
    rcases h₀ with rfl | rfl <;> rcases h₁ with rfl | rfl
    · exact Nat.max_self elements
    · exact Nat.max_eq_left hpos
    · exact Nat.max_eq_right hpos
    · rcases hwide with h | h
      · exact (congrArg GlslType.vectorElements h)
      · exact (congrArg GlslType.vectorElements h)
  rw [hmax]

/-! ### Reductions that are well typed -/

/-- An rvalue of which it is known that it is in a tree of the given type that is accepted. -/
structure Rvalue.InTree (typing₂ : Operation → GlslType → GlslType → GlslType → Prop)
    (typing : ℕ → List GlslType → GlslType → Prop) (type : GlslType) (operation : Operation)
    (e : Rvalue) : Prop where
  wellTyped : e.WellTyped typing₂ typing
  uniform : e.Uniform type operation
  fits : type.Fits e.type

variable {type : GlslType} {operation : Operation}

/-- The operands of an expression in an accepted tree. -/
theorem Rvalue.InTree.operands (hop : isReductionOperation operation = true) {addr : ℕ}
    {type' : GlslType} {operation' : Operation} {operand₀ operand₁ : Rvalue}
    (h : (Rvalue.binop addr type' operation' operand₀ operand₁).InTree typing₂ typing type operation) :
  type' = type ∧ operation' = operation ∧ type.IsVector ∧
    operand₀.InTree typing₂ typing type operation ∧ operand₁.InTree typing₂ typing type operation ∧
    (operand₀.type = type ∨ operand₁.type = type)
  := by
  obtain ⟨⟨hbinop, hw₀, hw₁⟩, ⟨rfl, rfl, hmatrix, hmatrix₀, hmatrix₁, hu₀, hu₁⟩, hfits⟩ := h
  obtain ⟨htype, hf₀, hf₁, hwide⟩ := wider_of_binopTyped hop hmatrix hmatrix₀ hmatrix₁ hbinop
  exact ⟨rfl, rfl, htype, ⟨hw₀, hu₀, hf₀⟩, ⟨hw₁, hu₁, hf₁⟩, hwide⟩

/-- The leaves of an accepted tree are in it. -/
theorem Rvalue.InTree.leaves (hop : isReductionOperation operation = true) {e : Rvalue}
    (h : e.InTree typing₂ typing type operation) :
  ∀ x ∈ e.leaves, x.InTree typing₂ typing type operation
  := by
  induction e with
  | binop addr type' operation' operand₀ operand₁ h₀ h₁ =>
      obtain ⟨-, -, -, ht₀, ht₁, -⟩ := h.operands hop
      exact List.forall_mem_append.mpr ⟨h₀ ht₀, h₁ ht₁⟩
  | _ =>
      intro x hx
      obtain rfl := List.mem_singleton.mp hx
      exact h

/-- A tree has a leaf that is as wide as it. -/
theorem Rvalue.InTree.exists_wide (hop : isReductionOperation operation = true) {e : Rvalue}
    (h : e.InTree typing₂ typing type operation) (htype : e.type = type) :
  ∃ x ∈ e.leaves, x.type = type
  := by
  induction e with
  | binop addr type' operation' operand₀ operand₁ h₀ h₁ =>
      obtain ⟨-, -, -, ht₀, ht₁, hwide | hwide⟩ := h.operands hop
      · obtain ⟨x, hx, hxt⟩ := h₀ ht₀ hwide
        use x, List.mem_append_left _ hx
      · obtain ⟨x, hx, hxt⟩ := h₁ ht₁ hwide
        use x, List.mem_append_right _ hx
  | _ => exact ⟨_, List.mem_cons_self, htype⟩

/-- In a reduction that is well typed the types are what they would be computed to be. -/
theorem Rvalue.updateTypes_eq_self (hop : isReductionOperation operation = true) {e : Rvalue}
    (hw : e.WellTyped typing₂ typing) (hu : e.Uniform type operation) :
  e.updateTypes = e
  := by
  induction e with
  | constant type' value => rfl
  | derefVar type' var => rfl
  | derefArray type' array index harray hindex => exact hu.elim
  | derefRecord type' record field hrecord => exact hu.elim
  | swizzle type' val mask hval => rw [Rvalue.updateTypes, hval hw hu]
  | texture type' op sampler numOperands operands hsampler hoperands =>
      rw [Rvalue.updateTypes, hsampler hw.1 hu.1,
        funext fun k => hoperands k (hw.2 k) (hu.2 k)]
  | binop addr type' operation' operand₀ operand₁ h₀ h₁ =>
      obtain ⟨hbinop, hw₀, hw₁⟩ := hw
      obtain ⟨rfl, rfl, hmatrix, hmatrix₀, hmatrix₁, hu₀, hu₁⟩ := hu
      obtain ⟨htype, hf₀, hf₁, hwide⟩ := wider_of_binopTyped hop hmatrix hmatrix₀ hmatrix₁ hbinop
      rw [Rvalue.updateTypes, h₀ hw₀ hu₀, h₁ hw₁ hu₁, newType_eq htype hf₀ hf₁ hwide]
  | expression type' operation' numOperands operands hoperands => exact hu.elim

/-- Once the types are computed anew, the expressions of a tree are well typed. -/
theorem treeTyped_updateTypes (hop : isReductionOperation operation = true) (htype : type.IsVector)
    {e : Rvalue} (hnodes : ∀ h ∈ e.toTree.nodes, h.type = type ∧ h.operation = operation)
    (hleaves : ∀ x ∈ e.leaves, x.updateTypes = x ∧ type.Fits x.type) :
  e.updateTypes.TreeTyped typing₂ ∧ type.Fits e.updateTypes.type ∧
    ((∃ x ∈ e.leaves, x.type = type) → e.updateTypes.type = type)
  := by
  induction e with
  | binop addr type' operation' operand₀ operand₁ h₀ h₁ =>
      obtain ⟨rfl, rfl⟩ := hnodes ⟨addr, type', operation'⟩
        (List.mem_append_right _ List.mem_cons_self)
      obtain ⟨ht₀, hf₀, hw₀⟩ := h₀ (fun h hh => hnodes h (List.mem_append_left _ hh))
        (fun x hx => hleaves x (List.mem_append_left _ hx))
      obtain ⟨ht₁, hf₁, hw₁⟩ := h₁
        (fun h hh => hnodes h (List.mem_append_right _ (List.mem_cons_of_mem _ hh)))
        (fun x hx => hleaves x (List.mem_append_right _ hx))
      rw [Rvalue.updateTypes, Rvalue.TreeTyped]
      by_cases hwide : operand₀.updateTypes.type = type' ∨ operand₁.updateTypes.type = type'
      · rw [newType_eq htype hf₀ hf₁ hwide, binopTyped_iff hop htype hf₀ hf₁]
        exact ⟨⟨hwide, ht₀, ht₁⟩, Or.inl rfl, fun _ => rfl⟩
      · -- both operands are scalars, and so are all leaves
        rw [not_or] at hwide
        have hs₀ := hf₀.resolve_left hwide.1
        have hs₁ := hf₁.resolve_left hwide.2
        have hnew : GlslType.mk type'.baseType
            (Nat.max operand₀.updateTypes.type.vectorElements
              operand₁.updateTypes.type.vectorElements) 1 = type'.scalar := by
          rw [hs₀, hs₁]
          rfl
        rw [hnew, binopTyped_iff hop ⟨rfl, le_rfl⟩ (Or.inl hs₀) (Or.inl hs₁)]
        refine ⟨⟨Or.inl hs₀, ht₀, ht₁⟩, Or.inr rfl, ?_⟩
        rintro ⟨x, hx, hxt⟩
        rcases List.mem_append.mp hx with hx | hx
        · exact (hwide.1 (hw₀ ⟨x, hx, hxt⟩)).elim
        · exact (hwide.2 (hw₁ ⟨x, hx, hxt⟩)).elim
  | _ =>
      obtain ⟨hself, hfits⟩ := hleaves _ List.mem_cons_self
      rw [hself]
      refine ⟨trivial, hfits, ?_⟩
      rintro ⟨x, hx, hxt⟩
      obtain rfl := List.mem_singleton.mp hx
      exact hxt

/-- The types of the operands of an expression of a tree. -/
theorem fits_type {e : Rvalue}
    (hnodes : ∀ h ∈ e.toTree.nodes, h.type = type ∧ h.operation = operation)
    (hleaves : ∀ x ∈ e.leaves, type.Fits x.type) :
  type.Fits e.type ∧ (¬e.IsLeaf → e.type = type)
  := by
  cases e with
  | binop addr type' operation' operand₀ operand₁ =>
      have htype := (hnodes ⟨addr, type', operation'⟩ (List.mem_append_right _ List.mem_cons_self)).1
      exact ⟨Or.inl htype, fun _ => htype⟩
  | _ => exact ⟨hleaves _ List.mem_cons_self, fun h => absurd rfl h⟩

theorem one_lt_leaves {e : Rvalue} (h : ¬e.IsLeaf) :
  1 < e.toTree.leaves.length
  := by
  cases e with
  | binop addr type operation operand₀ operand₁ =>
      have h₀ := operand₀.toTree.leaves_length_pos
      have h₁ := operand₁.toTree.leaves_length_pos
      rw [Rvalue.toTree, BinTree.leaves, List.length_append]
      omega
  | _ => exact absurd rfl h

/-- Where the types are not computed anew, the expressions of a tree are well typed if of any two
leaves under one node one is as wide as the tree. -/
theorem treeTyped_iff (hop : isReductionOperation operation = true) (htype : type.IsVector)
    {e : Rvalue} (hnodes : ∀ h ∈ e.toTree.nodes, h.type = type ∧ h.operation = operation)
    (hleaves : ∀ x ∈ e.leaves, type.Fits x.type) :
  e.TreeTyped typing₂ ↔ ∀ p ∈ e.toTree.leafPairs, p.1.type = type ∨ p.2.type = type
  := by
  induction e with
  | binop addr type' operation' operand₀ operand₁ h₀ h₁ =>
      obtain ⟨rfl, rfl⟩ := hnodes ⟨addr, type', operation'⟩
        (List.mem_append_right _ List.mem_cons_self)
      have hn₀ : ∀ h ∈ operand₀.toTree.nodes, h.type = type' ∧ h.operation = operation' :=
        fun h hh => hnodes h (List.mem_append_left _ hh)
      have hn₁ : ∀ h ∈ operand₁.toTree.nodes, h.type = type' ∧ h.operation = operation' :=
        fun h hh => hnodes h (List.mem_append_right _ (List.mem_cons_of_mem _ hh))
      have hl₀ : ∀ x ∈ operand₀.leaves, type'.Fits x.type := fun x hx =>
        hleaves x (List.mem_append_left _ hx)
      have hl₁ : ∀ x ∈ operand₁.leaves, type'.Fits x.type := fun x hx =>
        hleaves x (List.mem_append_right _ hx)
      obtain ⟨hf₀, hnode₀⟩ := fits_type hn₀ hl₀
      obtain ⟨hf₁, hnode₁⟩ := fits_type hn₁ hl₁
      rw [Rvalue.TreeTyped, binopTyped_iff hop htype hf₀ hf₁, h₀ hn₀ hl₀, h₁ hn₁ hl₁]
      by_cases hleaf : operand₀.IsLeaf ∧ operand₁.IsLeaf
      · rw [Rvalue.toTree, toTree_of_isLeaf hleaf.1, toTree_of_isLeaf hleaf.2]
        simp only [BinTree.leafPairs, List.not_mem_nil, List.mem_singleton, forall_eq, false_imp_iff,
          implies_true, and_true]
      · -- the type of an expression is the one of the tree
        have hwide : operand₀.type = type' ∨ operand₁.type = type' := by
          rcases not_and_or.mp hleaf with h | h
          · exact Or.inl (hnode₀ h)
          · exact Or.inr (hnode₁ h)
        have hlen : 2 < operand₀.toTree.leaves.length + operand₁.toTree.leaves.length := by
          have hpos₀ := operand₀.toTree.leaves_length_pos
          have hpos₁ := operand₁.toTree.leaves_length_pos
          rcases not_and_or.mp hleaf with h | h
          · have := one_lt_leaves h
            omega
          · have := one_lt_leaves h
            omega
        rw [Rvalue.toTree, BinTree.leafPairs_node hlen, List.forall_mem_append, and_iff_right hwide]
  | _ =>
      constructor
      · intro _ p hp
        exact absurd hp List.not_mem_nil
      · intro _
        trivial

/-! ### The pass -/

/-- What becomes of a well-typed reduction: its tree is well typed where it is safe, it has the same
leaves, and only they are changed when it is visited. -/
theorem handled_spec {expr : Expression} (hr : expr.toRvalue.rebalances = true)
    (hw : expr.toRvalue.WellTyped typing₂ typing) (hd : expr.toRvalue.Distinct) :
  expr.toRvalue.handled.toTree.Balanced ∧ expr.toRvalue.handled.leaves = expr.toRvalue.leaves ∧
    expr.toRvalue.handled.type = expr.type ∧
    (expr.toRvalue.handled.TreeTyped typing₂ ↔
      (KeepsRoot expr.operand₀ expr.operand₁ → PairsWide expr.type expr.toRvalue.leaves))
  := by
  obtain ⟨hop, haccepted⟩ := Bool.and_eq_true_iff.mp hr
  obtain ⟨huniform, -⟩ := expr.uniform_of_accepted haccepted
  have htree : expr.toRvalue.InTree typing₂ typing expr.type expr.operation :=
    ⟨hw, huniform, Or.inl rfl⟩
  obtain ⟨-, -, htype, -⟩ := htree.operands hop
  have hin := htree.leaves hop
  obtain ⟨t, ht, hhandled⟩ := handled_of_rebalances hr
  have hbal := expr.toRvalue.toTree.rebalance_balanced
  rw [← ht] at hbal
  have hnodes := huniform.nodes
  rw [← BinTree.rebalance_nodes, ← ht] at hnodes
  have hleaves : t.toRvalue.leaves = expr.toRvalue.leaves := by
    rw [← leaves_toTree, ht, BinTree.rebalance_leaves, leaves_toTree]
  by_cases haddr : t.addr = expr.addr
  · rw [hhandled, if_pos haddr]
    have hfits : ∀ x ∈ t.toRvalue.leaves, expr.type.Fits x.type := by
      rw [hleaves]
      exact fun x hx => (hin x hx).fits
    refine ⟨hbal, hleaves, ?_, ?_⟩
    · exact (fits_type hnodes hfits).2 nofun
    · rw [treeTyped_iff hop htype hnodes hfits, hbal.leafPairs_eq, leaves_toTree, hleaves,
        ← addr_eq_iff hd ht]
      exact ⟨fun h _ => h, fun h => h haddr⟩
  · rw [hhandled, if_neg haddr]
    have hself : ∀ x ∈ expr.toRvalue.leaves, x.updateTypes = x := fun x hx =>
      Rvalue.updateTypes_eq_self hop (hin x hx).wellTyped (hin x hx).uniform
    have hfits : ∀ x ∈ t.toRvalue.leaves, x.updateTypes = x ∧ expr.type.Fits x.type := by
      rw [hleaves]
      exact fun x hx => ⟨hself x hx, (hin x hx).fits⟩
    obtain ⟨htyped, -, hwide⟩ := treeTyped_updateTypes hop htype hnodes hfits
    refine ⟨?_, ?_, ?_, ?_⟩
    · rw [← BinTree.balanced_shape_iff, shape_updateTypes, BinTree.balanced_shape_iff]
      exact hbal
    · rw [leaves_updateTypes, hleaves]
      exact (List.map_congr_left hself).trans (List.map_id _)
    · apply hwide
      rw [hleaves]
      exact htree.exists_wide hop rfl
    · rw [← addr_eq_iff hd ht]
      exact iff_of_true htyped fun h => absurd h haddr

theorem type_handled {e : Rvalue} (hw : e.WellTyped typing₂ typing) (hd : e.Distinct) :
  e.handled.type = e.type
  := by
  cases hr : e.rebalances with
  | false => rw [handled_eq_self hr]
  | true =>
      obtain ⟨expr, rfl⟩ := exists_toRvalue_of_rebalances hr
      exact (handled_spec hr hw hd).2.2.1

theorem type_visit (e : Rvalue) :
  e.visit.type = e.type
  := by
  cases e with
  | _ => simp only [Rvalue.visit, Rvalue.type]

/-- What is no expression with two operands is not changed when it is handled. -/
theorem rvalue_iff_of_isLeaf {e : Rvalue} {P : Prop} (hleaf : e.IsLeaf)
    (hsafe : ∀ role, e.Safe role ↔ P) (hvisit : e.visit.WellTyped typing₂ typing ↔ P) :
  (e.handled.visit.WellTyped typing₂ typing ↔ e.Safe .handled) ∧
    (e.visit.WellTyped typing₂ typing ↔ e.Safe .visited) ∧
    ((∀ x ∈ e.leaves, x.visit.WellTyped typing₂ typing) ↔ e.Safe .operand)
  := by
  have hr : e.rebalances = false := by
    rw [Rvalue.rebalances, hleaf]
  have hleaves : e.leaves = [e] := by
    rw [← leaves_toTree, toTree_of_isLeaf hleaf]
    rfl
  rw [handled_eq_self hr, hleaves, List.forall_mem_singleton, hsafe, hsafe, hsafe]
  exact ⟨hvisit, hvisit, hvisit⟩

/-- The types in a well-typed rvalue stay right exactly where it is safe. -/
theorem rvalue_wellTyped_iff {e : Rvalue} (hw : e.WellTyped typing₂ typing) (hd : e.Distinct) :
  (e.handled.visit.WellTyped typing₂ typing ↔ e.Safe .handled) ∧
    (e.visit.WellTyped typing₂ typing ↔ e.Safe .visited) ∧
    ((∀ x ∈ e.leaves, x.visit.WellTyped typing₂ typing) ↔ e.Safe .operand)
  := by
  induction e with
  | binop addr type operation operand₀ operand₁ h₀ h₁ =>
      obtain ⟨hbinop, hw₀, hw₁⟩ := hw
      obtain ⟨hnodup, hd₀, hd₁⟩ := hd
      obtain ⟨hh₀, hv₀, ho₀⟩ := h₀ hw₀ hd₀
      obtain ⟨hh₁, hv₁, ho₁⟩ := h₁ hw₁ hd₁
      have hvisit : (Rvalue.binop addr type operation operand₀ operand₁).visit.WellTyped
          typing₂ typing ↔ operand₀.Safe .handled ∧ operand₁.Safe .handled := by
        rw [Rvalue.visit, Rvalue.WellTyped, type_visit, type_visit, type_handled hw₀ hd₀,
          type_handled hw₁ hd₁, hh₀, hh₁, and_iff_right hbinop]
      have hleaves : (∀ x ∈ (Rvalue.binop addr type operation operand₀ operand₁).leaves,
          x.visit.WellTyped typing₂ typing) ↔
            operand₀.Safe .operand ∧ operand₁.Safe .operand := by
        rw [Rvalue.leaves, List.forall_mem_append, ho₀, ho₁]
      refine ⟨?_, hvisit, hleaves⟩
      cases hr : (Rvalue.binop addr type operation operand₀ operand₁).rebalances with
      | false =>
          rw [handled_eq_self hr, hvisit, Rvalue.Safe]
          simp only [hr, Bool.false_eq_true, if_false]
      | true =>
          have hr' : (Expression.toRvalue ⟨addr, type, operation, operand₀, operand₁⟩).rebalances =
              true := hr
          obtain ⟨hbal, hsame, -, htyped⟩ := handled_spec hr' ⟨hbinop, hw₀, hw₁⟩
            ⟨hnodup, hd₀, hd₁⟩
          rw [Expression.toRvalue] at hbal hsame htyped
          rw [visit_of_balanced hbal, wellTyped_mapLeaves_iff fun x _ => type_visit x, htyped, hsame,
            hleaves, Rvalue.Safe]
          simp only [hr, if_true]
          rfl
  | constant type value =>
      refine rvalue_iff_of_isLeaf rfl (fun _ => Iff.rfl) ?_
      rw [Rvalue.visit]
      rfl
  | derefVar type var =>
      refine rvalue_iff_of_isLeaf rfl (fun _ => Iff.rfl) ?_
      rw [Rvalue.visit]
      rfl
  | derefArray type array index harray hindex =>
      refine rvalue_iff_of_isLeaf rfl (fun _ => Iff.rfl) ?_
      rw [Rvalue.visit, Rvalue.WellTyped, (harray hw.1 hd.1).1, (hindex hw.2 hd.2).1]
  | derefRecord type record field hrecord =>
      refine rvalue_iff_of_isLeaf rfl (fun _ => Iff.rfl) ?_
      rw [Rvalue.visit, Rvalue.WellTyped, (hrecord hw hd).1]
  | swizzle type val mask hval =>
      refine rvalue_iff_of_isLeaf rfl (fun _ => Iff.rfl) ?_
      rw [Rvalue.visit, Rvalue.WellTyped, (hval hw hd).1]
  | texture type op sampler numOperands operands hsampler hoperands =>
      refine rvalue_iff_of_isLeaf rfl (fun _ => Iff.rfl) ?_
      rw [Rvalue.visit, Rvalue.WellTyped, (hsampler hw.1 hd.1).2.1]
      exact and_congr_right fun _ => forall_congr' fun k => (hoperands k (hw.2 k) (hd.2 k)).1
  | expression type operation numOperands operands hoperands =>
      refine rvalue_iff_of_isLeaf rfl (fun _ => Iff.rfl) ?_
      have htypes : (List.ofFn fun k => (operands k).handled.visit.type) =
          List.ofFn fun k => (operands k).type := by
        congr 1
        funext k
        rw [type_visit, type_handled (hw.2 k) (hd k)]
      rw [Rvalue.visit, Rvalue.WellTyped, htypes, and_iff_right hw.1]
      exact forall_congr' fun k => (hoperands k (hw.2 k) (hd k)).1

/-- What may be missing stays well typed exactly where it is safe. -/
theorem option_wellTyped_iff {f : Rvalue → Rvalue} {role : Role}
    (hf : ∀ {e : Rvalue}, e.WellTyped typing₂ typing → e.Distinct →
      ((f e).WellTyped typing₂ typing ↔ e.Safe role))
    {o : Option Rvalue} (hw : ∀ e ∈ o, e.WellTyped typing₂ typing) (hd : ∀ e ∈ o, e.Distinct) :
  (∀ e ∈ o.map f, e.WellTyped typing₂ typing) ↔ ∀ e ∈ o, e.Safe role
  := by
  cases o with
  | none => exact iff_of_true nofun nofun
  | some e =>
      simp only [Option.map_some, Option.mem_some_iff, forall_eq'] at *
      exact hf hw hd

theorem visited_wellTyped_iff {e : Rvalue} (hw : e.WellTyped typing₂ typing) (hd : e.Distinct) :
  e.visit.WellTyped typing₂ typing ↔ e.Safe .visited
  := (rvalue_wellTyped_iff hw hd).2.1

theorem handled_wellTyped_iff {e : Rvalue} (hw : e.WellTyped typing₂ typing) (hd : e.Distinct) :
  e.handled.visit.WellTyped typing₂ typing ↔ e.Safe .handled
  := (rvalue_wellTyped_iff hw hd).1

theorem instr_wellTyped_iff {i : Instr} (hw : i.WellTyped typing₂ typing) (hd : i.Distinct) :
  i.visit.WellTyped typing₂ typing ↔ i.Safe
  := by
  cases i with
  | assignment exact lhs rhs condition =>
      obtain ⟨hwl, hwr, hwc⟩ := hw
      obtain ⟨hdl, hdr, hdc⟩ := hd
      rw [Instr.visit, Instr.Safe]
      cases exact with
      | true => exact iff_of_true ⟨hwl, hwr, hwc⟩ (Or.inl rfl)
      | false =>
          rw [if_neg Bool.false_ne_true, or_iff_right Bool.false_ne_true]
          exact and_congr (visited_wellTyped_iff hwl hdl) (and_congr (visited_wellTyped_iff hwr hdr)
            (option_wellTyped_iff visited_wellTyped_iff hwc hdc))
  | call returnDeref actualParameters =>
      apply and_congr (option_wellTyped_iff visited_wellTyped_iff hw.1 hd.1)
      rw [List.forall_mem_map]
      exact forall₂_congr fun e he => handled_wellTyped_iff (hw.2 e he) (hd.2 e he)
  | ret value => exact option_wellTyped_iff handled_wellTyped_iff hw hd
  | discard condition => exact option_wellTyped_iff handled_wellTyped_iff hw hd
  | emitVertex stream => exact handled_wellTyped_iff hw hd
  | endPrimitive stream => exact handled_wellTyped_iff hw hd
  | other id => exact Iff.rfl

theorem block_wellTyped_iff {b : Block} (hw : b.WellTyped typing₂ typing) (hd : b.Distinct) :
  (doRebalanceTree b).WellTyped typing₂ typing ↔ b.Safe
  := by
  induction b with
  | nil => exact Iff.rfl
  | instr i rest ih => exact and_congr (instr_wellTyped_iff hw.1 hd.1) (ih hw.2 hd.2)
  | cond condition thenInstructions elseInstructions rest hthen helse hrest =>
      obtain ⟨hwc, hwt, hwe, hwr⟩ := hw
      obtain ⟨hdc, hdt, hde, hdr⟩ := hd
      exact and_congr (handled_wellTyped_iff hwc hdc)
        (and_congr (hthen hwt hdt) (and_congr (helse hwe hde) (hrest hwr hdr)))
  | loop body rest hbody hrest => exact and_congr (hbody hw.1 hd.1) (hrest hw.2 hd.2)
  | function body rest hbody hrest => exact and_congr (hbody hw.1 hd.1) (hrest hw.2 hd.2)

end Typing

/-- A well-typed list of instructions is well typed after the pass exactly if it is safe. -/
theorem doRebalanceTree_wellTyped_iff (typing₂ : Operation → GlslType → GlslType → GlslType → Prop)
    (typing : ℕ → List GlslType → GlslType → Prop) (b : Block)
    (hw : b.WellTyped typing₂ typing) (hd : b.Distinct) :
  (doRebalanceTree b).WellTyped typing₂ typing ↔ b.Safe
  := block_wellTyped_iff hw hd

/-- A sum of scalars is safe. -/
theorem doRebalanceTree_wellTyped_sumOfFour :
  (doRebalanceTree (.instr (.ret (some sumOfFour.toRvalue)) .nil)).WellTyped
    (fun _ _ _ _ => False) (fun _ _ _ => False)
  := by
  have htype : Wider ⟨.uint, 1, 1⟩ ⟨.uint, 1, 1⟩ ⟨.uint, 1, 1⟩ :=
    ⟨⟨rfl, le_rfl⟩, Or.inl ⟨rfl, Or.inl rfl⟩⟩
  apply (doRebalanceTree_wellTyped_iff _ _ _ ?_ ?_).mpr
  · refine ⟨?_, trivial⟩
    rintro e ⟨⟩
    refine ⟨?_, ⟨⟨trivial, trivial⟩, trivial⟩, trivial⟩
    intro _ p hp
    change p ∈ [(uintVar 0, uintVar 1), (uintVar 2, uintVar 3)] at hp
    rcases List.mem_cons.mp hp with rfl | hp
    · exact Or.inl rfl
    · obtain rfl := List.mem_singleton.mp hp
      exact Or.inl rfl
  · refine ⟨?_, trivial⟩
    rintro e ⟨⟩
    exact ⟨htype, ⟨htype, ⟨htype, trivial, trivial⟩, trivial⟩, trivial⟩
  · refine ⟨?_, trivial⟩
    rintro e ⟨⟩
    exact ⟨by decide, ⟨by decide, ⟨by decide, trivial, trivial⟩, trivial⟩, trivial⟩

/-- `return (a + b) + (x + (y + z))`, with vectors `a`, `b` and `z` and scalars `x` and `y`. -/
def sumOfFive : Expression :=
  ⟨2, ⟨.float, 4, 1⟩, .add,
    .binop 1 ⟨.float, 4, 1⟩ .add (.derefVar ⟨.float, 4, 1⟩ 0) (.derefVar ⟨.float, 4, 1⟩ 1),
    .binop 3 ⟨.float, 4, 1⟩ .add (.derefVar ⟨.float, 1, 1⟩ 2)
      (.binop 4 ⟨.float, 4, 1⟩ .add (.derefVar ⟨.float, 1, 1⟩ 3) (.derefVar ⟨.float, 4, 1⟩ 4))⟩

/-- The root of this sum keeps its place, and `x` and `y` get under one node. -/
theorem doRebalanceTree_not_wellTyped :
  ¬∀ (typing₂ : Operation → GlslType → GlslType → GlslType → Prop)
      (typing : ℕ → List GlslType → GlslType → Prop) (b : Block),
    b.WellTyped typing₂ typing → b.Distinct → (doRebalanceTree b).WellTyped typing₂ typing
  := by
  intro h
  have hvectors : Wider ⟨.float, 4, 1⟩ ⟨.float, 4, 1⟩ ⟨.float, 4, 1⟩ :=
    ⟨⟨rfl, by decide⟩, Or.inl ⟨rfl, Or.inl rfl⟩⟩
  have hmixed : Wider ⟨.float, 1, 1⟩ ⟨.float, 4, 1⟩ ⟨.float, 4, 1⟩ :=
    ⟨⟨rfl, by decide⟩, Or.inr ⟨rfl, rfl⟩⟩
  have hw : (Block.instr (.ret (some sumOfFive.toRvalue)) .nil).WellTyped
      (fun _ _ _ _ => False) (fun _ _ _ => False) := by
    refine ⟨?_, trivial⟩
    rintro e ⟨⟩
    exact ⟨hvectors, ⟨hvectors, trivial, trivial⟩, hmixed, trivial, hmixed, trivial, trivial⟩
  have hd : (Block.instr (.ret (some sumOfFive.toRvalue)) .nil).Distinct := by
    refine ⟨?_, trivial⟩
    rintro e ⟨⟩
    exact ⟨by decide, ⟨by decide, trivial, trivial⟩, by decide, trivial, by decide, trivial, trivial⟩
  obtain ⟨hsafe, -⟩ := (block_wellTyped_iff hw hd).mp (h _ _ _ hw hd)
  obtain ⟨hpairs, -⟩ := hsafe _ rfl
  rcases hpairs ⟨1, rfl, by decide, by decide⟩ _ (List.mem_cons_of_mem _ List.mem_cons_self) with h | h
  · exact absurd h (by decide)
  · exact absurd h (by decide)

end Glsl.Rebalance
