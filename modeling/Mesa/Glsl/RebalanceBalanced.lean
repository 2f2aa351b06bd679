import Mesa.Data.Rebalancing
import Mesa.Glsl.RebalanceTree

/-!
# Rebalanced trees are balanced

The expressions with two operands are the nodes of a tree.  On it `tree_to_vine` and `vine_to_tree`
do what the rounds do: no cast fails, the leaves stay where they are, and the tree gets as low as it
can be.
-/

namespace Glsl.Rebalance

open Data.Rebalancing (BinTree)
open Data.Rebalancing.BinTree (ofSpine compress rounds)

/-! ### Expressions as trees -/

/-- What an expression with two operands has besides its operands. -/
structure Header where
  addr : ℕ
  type : GlslType
  operation : Operation

def Rvalue.toTree : Rvalue → BinTree Header Rvalue
  | binop addr type operation operand₀ operand₁ =>
      .node ⟨addr, type, operation⟩ operand₀.toTree operand₁.toTree
  | e => .leaf e

def ofTree : BinTree Header Rvalue → Rvalue
  | .leaf e => e
  | .node h s t => .binop h.addr h.type h.operation (ofTree s) (ofTree t)

theorem ofTree_toTree (e : Rvalue) :
  ofTree e.toTree = e
  := by
  induction e with
  | binop addr type operation operand₀ operand₁ h₀ h₁ => rw [Rvalue.toTree, ofTree, h₀, h₁]
  | _ => rfl

/-- Not an expression with two operands. -/
def Rvalue.IsLeaf (e : Rvalue) : Prop := e.asExpression = none

theorem toTree_of_isLeaf {e : Rvalue} (h : e.IsLeaf) :
  e.toTree = .leaf e
  := by
  cases e with
  | binop addr type operation operand₀ operand₁ => cases h
  | _ => rfl

theorem isLeaf_of_mem_leaves {e x : Rvalue} (h : x ∈ e.toTree.leaves) :
  x.IsLeaf
  := by
  induction e with
  | binop addr type operation operand₀ operand₁ h₀ h₁ =>
      rcases List.mem_append.mp h with h | h
      · exact h₀ h
      · exact h₁ h
  | _ =>
      obtain rfl := List.mem_singleton.mp h
      rfl

theorem toTree_ofTree {t : BinTree Header Rvalue} (h : ∀ x ∈ t.leaves, x.IsLeaf) :
  (ofTree t).toTree = t
  := by
  induction t with
  | leaf x => exact toTree_of_isLeaf (h x List.mem_cons_self)
  | node a s t hs ht =>
      rw [ofTree, Rvalue.toTree, hs fun x hx => h x (List.mem_append_left _ hx),
        ht fun x hx => h x (List.mem_append_right _ hx)]

theorem leaves_toTree (e : Rvalue) :
  e.toTree.leaves = e.leaves
  := by
  induction e with
  | binop addr type operation operand₀ operand₁ h₀ h₁ =>
      rw [Rvalue.toTree, BinTree.leaves, Rvalue.leaves, h₀, h₁]
  | _ => rfl

theorem height_toTree (e : Rvalue) :
  e.toTree.height = e.height
  := by
  induction e with
  | binop addr type operation operand₀ operand₁ h₀ h₁ =>
      rw [Rvalue.toTree, BinTree.height, Rvalue.height, h₀, h₁]
  | _ => rfl

/-! ### The vine -/

/-- The loop makes the vine and counts the leaves. -/
theorem vineLoop_eq {vineTail : Rvalue} (htail : vineTail.asExpression.isSome) (e : Rvalue) :
  vineLoop vineTail e =
    some (ofTree (ofSpine e.toTree.vine (.leaf e.toTree.last)), e.toTree.leaves.length)
  := by
  induction vineTail, e using vineLoop.induct with
  | case1 vineTail addr type operation addr' type' operation' a b c ih =>
      obtain ⟨tail, ht⟩ := Option.isSome_iff_exists.mp htail
      rw [vineLoop, ht, Option.bind_eq_bind, Option.bind_some, ih htail]
      simp only [Rvalue.toTree, BinTree.vine, BinTree.last, BinTree.leaves, List.append_assoc,
        List.cons_append]
  | case2 vineTail addr type operation operand₀ operand₁ hleaf ih =>
      have h₀ : operand₀.IsLeaf := by
        cases operand₀ with
        | binop addr' type' operation' a b => exact (hleaf _ _ _ _ _ rfl).elim
        | _ => rfl
      rw [vineLoop, ih rfl]
      · simp only [Rvalue.toTree, toTree_of_isLeaf h₀, BinTree.vine, BinTree.last, BinTree.leaves,
          List.nil_append, List.singleton_append, List.length_cons, BinTree.ofSpine_cons, ofTree,
          Option.bind_eq_bind, Option.bind_some]
      · exact hleaf
  | case3 vineTail e hrotate hbinop =>
      have h : e.IsLeaf := by
        cases e with
        | binop addr type operation a b => exact (hbinop _ _ _ _ _ rfl).elim
        | _ => rfl
      rw [toTree_of_isLeaf h, vineLoop]
      · rfl
      · exact hrotate
      · exact hbinop

/-! ### The rounds -/

theorem compression_eq {count : ℕ} {root : Expression} {l : List (Header × BinTree Header Rvalue)}
    {e : BinTree Header Rvalue} (hroot : root.operand₁ = ofTree (ofSpine l e))
    (hcount : 2 * count ≤ l.length) :
  compression root count = some { root with operand₁ := ofTree (ofSpine (compress count l) e) }
  := by
  induction count generalizing root l with
  | zero =>
      rw [compression, BinTree.compress_zero, ← hroot]
  | succ count ih =>
      match l, hcount, hroot with
      | p :: q :: l, hcount, hroot =>
          simp only [List.length_cons] at hcount
          rw [compression, hroot]
          simp only [BinTree.ofSpine_cons, ofTree, Rvalue.asExpression, Option.bind_eq_bind,
            Option.bind_some]
          rw [ih (l := l) rfl (by omega)]
          rfl

theorem treeLoop_eq {n : ℕ} {root : Expression} {l : List (Header × BinTree Header Rvalue)}
    {e : BinTree Header Rvalue} (hroot : root.operand₁ = ofTree (ofSpine l e)) (hn : n ≤ l.length) :
  treeLoop root n = some { root with operand₁ := ofTree (ofSpine (rounds n l) e) }
  := by
  induction n, l using BinTree.rounds_induction generalizing root with
  | stop n l h => rw [treeLoop, if_pos h, rounds, if_pos h, ← hroot]
  | round n l h ih =>
      have hlen := BinTree.compress_length (m := n / 2) (l := l) (by omega)
      rw [treeLoop, if_neg h, compression_eq hroot (by omega), rounds, if_neg h]
      exact ih rfl (by omega)

theorem treeToVine_eq (root : Expression) :
  treeToVine root =
    some ({ root with
        operand₁ := ofTree (ofSpine root.operand₁.toTree.vine (.leaf root.operand₁.toTree.last)) },
      root.operand₁.toTree.leaves.length)
  := by
  rw [treeToVine, vineLoop_eq rfl]
  rfl

theorem vineToTree_eq {root : Expression} {t : BinTree Header Rvalue}
    (hroot : root.operand₁ = ofTree (ofSpine t.vine (.leaf t.last))) :
  vineToTree root t.leaves.length = some { root with operand₁ := ofTree t.rebalance }
  := by
  rw [vineToTree, ← t.vine_length, Nat.add_sub_cancel, treeLoop_eq hroot le_rfl, BinTree.rebalance]

/-- The tree that is rebalanced has nodes. -/
theorem exists_expression (expr : Expression) :
  ∃ t : Expression, t.toRvalue = ofTree expr.toRvalue.toTree.rebalance
  := by
  have hleaves := expr.toRvalue.toTree.rebalance_leaves
  cases h : expr.toRvalue.toTree.rebalance with
  | leaf x =>
      have h₀ := expr.operand₀.toTree.leaves_length_pos
      have h₁ := expr.operand₁.toTree.leaves_length_pos
      have hlen := congrArg List.length hleaves
      rw [h, Expression.toRvalue, Rvalue.toTree, BinTree.leaves, BinTree.leaves, List.length_append,
        List.length_singleton] at hlen
      omega
  | node a s t =>
      use ⟨a.addr, a.type, a.operation, ofTree s, ofTree t⟩
      rfl

/-- The tree of `handle_expression` is rebalanced. -/
theorem handleExpression_eq {expr : Expression} (h : expr.accepted = true) :
  ∃ t : Expression, handleExpression expr = some t ∧
    t.toRvalue.toTree = expr.toRvalue.toTree.rebalance
  := by
  obtain ⟨t, ht⟩ := exists_expression expr
  use t
  constructor
  · rw [handleExpression, if_pos h]
    simp only [treeToVine_eq, Option.bind_eq_bind, Option.bind_some]
    rw [vineToTree_eq rfl, Option.bind_some, ← ht]
    rfl
  · rw [ht, toTree_ofTree]
    intro x hx
    rw [BinTree.rebalance_leaves] at hx
    exact isLeaf_of_mem_leaves hx

/-! ### Reductions -/

/-- All expressions in an rvalue have two operands, the given operation and the given type, and no
operand that is a matrix; and nothing in it is an element of an array or of a record. -/
def Rvalue.Uniform (type : GlslType) (operation : Operation) : Rvalue → Prop
  | constant _ _ => True
  | derefVar _ _ => True
  | derefArray _ _ _ => False
  | derefRecord _ _ _ => False
  | swizzle _ val _ => val.Uniform type operation
  | texture _ _ sampler numOperands operands =>
      sampler.Uniform type operation ∧ ∀ k : Fin numOperands, (operands k).Uniform type operation
  | binop _ type' operation' operand₀ operand₁ =>
      type' = type ∧ operation' = operation ∧ type'.isMatrix = false ∧
        operand₀.type.isMatrix = false ∧ operand₁.type.isMatrix = false ∧
        operand₀.Uniform type operation ∧ operand₁.Uniform type operation
  | expression _ _ _ _ => False

/-- What `is_reduction` finds on an expression that it lets pass. -/
theorem IsReductionData.expression_spec {type : GlslType} {operation : Option Operation}
    {operandTypes : List GlslType} {d : IsReductionData}
    (h : (d.expression type operation operandTypes).isReduction = true) :
  d.isReduction = true ∧ type.isMatrix = false ∧ operandTypes.any GlslType.isMatrix = false ∧
    (d.type = none ∨ d.type = some type) ∧
    ∃ op, operation = some op ∧ isReductionOperation op = true ∧
      (d.operation = none ∨ d.operation = some op) ∧
      (d.expression type operation operandTypes).type = some type ∧
      (d.expression type operation operandTypes).operation = some op
  := by
  by_cases hd : d.isReduction = false
  · rw [IsReductionData.expression, if_pos hd, hd] at h
    exact absurd h Bool.false_ne_true
  by_cases hmatrix : (type.isMatrix || operandTypes.any GlslType.isMatrix) = true
  · rw [IsReductionData.expression, if_neg hd, if_pos hmatrix] at h
    exact absurd h Bool.false_ne_true
  by_cases htype : d.type ≠ none ∧ d.type ≠ some type
  · rw [IsReductionData.expression, if_neg hd, if_neg hmatrix, if_pos htype] at h
    exact absurd h Bool.false_ne_true
  rw [IsReductionData.expression, if_neg hd, if_neg hmatrix, if_neg htype] at h ⊢
  rw [Bool.or_eq_true, not_or, Bool.not_eq_true, Bool.not_eq_true] at hmatrix
  rw [not_and_or, not_not, not_not] at htype
  rw [Bool.not_eq_false] at hd
  cases operation with
  | none => exact absurd h Bool.false_ne_true
  | some op =>
      by_cases hop : isReductionOperation op = true
      · simp only [if_pos hop, decide_eq_true_eq] at h
        use hd, hmatrix.1, hmatrix.2, htype, op, rfl, hop, h
        simp only [if_pos hop, and_self]
      · simp only [if_neg hop] at h
        exact absurd h Bool.false_ne_true

theorem foldl_isReduction {ι : Type} {f : IsReductionData → ι → IsReductionData}
    (hf : ∀ d k, (f d k).isReduction = true → d.isReduction = true) {l : List ι}
    {d : IsReductionData} (h : (l.foldl f d).isReduction = true) :
  d.isReduction = true
  := by
  induction l generalizing d with
  | nil => exact h
  | cons k l ih => exact hf d k (ih h)

/-- What is no reduction stays none. -/
theorem isReduction_of_visited {e : Rvalue} {d : IsReductionData}
    (h : (e.isReduction d).isReduction = true) :
  d.isReduction = true
  := by
  induction e generalizing d with
  | constant type value =>
      rw [Rvalue.isReduction, IsReductionData.constant] at h
      split at h
      next hd => exact h
      next hd => exact Bool.not_eq_false _ ▸ hd
  | derefVar type var => exact h
  | derefArray type array index harray hindex =>
      exact absurd (hindex (harray h)) Bool.false_ne_true
  | derefRecord type record field hrecord => exact absurd (hrecord h) Bool.false_ne_true
  | swizzle type val mask hval => exact hval h
  | texture type op sampler numOperands operands hsampler hoperands =>
      apply hsampler
      apply foldl_isReduction _ h
      intro d k hk
      exact hoperands k hk
  | binop addr type operation operand₀ operand₁ h₀ h₁ =>
      exact (IsReductionData.expression_spec (h₀ (h₁ h))).1
  | expression type operation numOperands operands hoperands =>
      apply And.left
      apply IsReductionData.expression_spec
      apply foldl_isReduction _ h
      intro d k hk
      exact hoperands k hk

/-- The type and the operation of the expressions are known. -/
def IsReductionData.Known (type : GlslType) (operation : Operation) (d : IsReductionData) : Prop :=
  d.type = some type ∧ d.operation = some operation

theorem foldl_known {ι : Type} {type : GlslType} {operation : Operation}
    {f : IsReductionData → ι → IsReductionData} {P : ι → Prop}
    (hf : ∀ d k, (f d k).isReduction = true → d.isReduction = true)
    (hP : ∀ d k, d.Known type operation → (f d k).isReduction = true →
      P k ∧ (f d k).Known type operation)
    {l : List ι} {d : IsReductionData} (hd : d.Known type operation)
    (h : (l.foldl f d).isReduction = true) :
  (∀ k ∈ l, P k) ∧ (l.foldl f d).Known type operation
  := by
  induction l generalizing d with
  | nil => exact ⟨fun k hk => absurd hk List.not_mem_nil, hd⟩
  | cons k l ih =>
      obtain ⟨hk, hknown⟩ := hP d k hd (foldl_isReduction hf h)
      obtain ⟨hl, hknown⟩ := ih hknown h
      refine ⟨?_, hknown⟩
      intro k' hk'
      rcases List.mem_cons.mp hk' with rfl | hk'
      · exact hk
      · exact hl k' hk'

/-- Once a type and an operation are known, `is_reduction` lets uniform rvalues pass only. -/
theorem uniform_of_isReduction {type : GlslType} {operation : Operation} {e : Rvalue}
    {d : IsReductionData} (hd : d.Known type operation)
    (h : (e.isReduction d).isReduction = true) :
  e.Uniform type operation ∧ (e.isReduction d).Known type operation
  := by
  induction e generalizing d with
  | constant type' value =>
      refine ⟨trivial, ?_⟩
      rw [Rvalue.isReduction, IsReductionData.constant]
      split
      next => exact hd
      next => exact hd
  | derefVar type' var => exact ⟨trivial, hd⟩
  | derefArray type' array index harray hindex =>
      have hreject : d.reject.isReduction = true := isReduction_of_visited (isReduction_of_visited h)
      exact absurd hreject Bool.false_ne_true
  | derefRecord type' record field hrecord =>
      have hreject : d.reject.isReduction = true := isReduction_of_visited h
      exact absurd hreject Bool.false_ne_true
  | swizzle type' val mask hval => exact hval hd h
  | texture type' op sampler numOperands operands hsampler hoperands =>
      have hmono : ∀ (d : IsReductionData) (k : Fin numOperands),
          ((operands k).isReduction d).isReduction = true → d.isReduction = true :=
        fun d k hk => isReduction_of_visited hk
      obtain ⟨hs, hknown⟩ := hsampler hd (foldl_isReduction hmono h)
      obtain ⟨hall, hknown⟩ := foldl_known hmono (fun d k hd hk => hoperands k hd hk) hknown h
      exact ⟨⟨hs, fun k => hall k (List.mem_finRange k)⟩, hknown⟩
  | binop addr type' operation' operand₀ operand₁ h₀ h₁ =>
      have hexpr := isReduction_of_visited (isReduction_of_visited h)
      obtain ⟨-, hmatrix, hmatrices, htype, op, hop, -, hop', hknown⟩ :=
        IsReductionData.expression_spec hexpr
      obtain rfl := Option.some.inj hop
      rw [hd.1, or_iff_right (Option.some_ne_none _), Option.some_inj] at htype
      rw [hd.2, or_iff_right (Option.some_ne_none _), Option.some_inj] at hop'
      subst htype hop'
      obtain ⟨hu₀, hknown⟩ := h₀ hknown (isReduction_of_visited h)
      obtain ⟨hu₁, hknown⟩ := h₁ hknown h
      simp only [List.any_cons, List.any_nil, Bool.or_false, Bool.or_eq_false_iff] at hmatrices
      exact ⟨⟨rfl, rfl, hmatrix, hmatrices.1, hmatrices.2, hu₀, hu₁⟩, hknown⟩
  | expression type' operation' numOperands operands hoperands =>
      have hmono : ∀ (d : IsReductionData) (k : Fin numOperands),
          ((operands k).isReduction d).isReduction = true → d.isReduction = true :=
        fun d k hk => isReduction_of_visited hk
      obtain ⟨-, -, -, -, op, hop, -⟩ :=
        IsReductionData.expression_spec (foldl_isReduction hmono h)
      exact absurd hop.symm (Option.some_ne_none op)

/-- An accepted expression is uniform. -/
theorem Expression.uniform_of_accepted {expr : Expression} (h : expr.accepted = true) :
  expr.toRvalue.Uniform expr.type expr.operation ∧ isReductionOperation expr.operation = true
  := by
  rw [Expression.accepted, Bool.and_eq_true] at h
  have hred := h.1
  rw [Expression.toRvalue, Rvalue.isReduction] at hred
  have hexpr := isReduction_of_visited (isReduction_of_visited hred)
  obtain ⟨-, hmatrix, hmatrices, -, op, hop, hred', -, hknown⟩ :=
    IsReductionData.expression_spec hexpr
  obtain rfl := Option.some.inj hop
  obtain ⟨hu₀, hknown⟩ := uniform_of_isReduction hknown (isReduction_of_visited hred)
  obtain ⟨hu₁, -⟩ := uniform_of_isReduction hknown hred
  simp only [List.any_cons, List.any_nil, Bool.or_false, Bool.or_eq_false_iff] at hmatrices
  exact ⟨⟨rfl, rfl, hmatrix, hmatrices.1, hmatrices.2, hu₀, hu₁⟩, hred'⟩

/-! ### Values -/

theorem bne_ofBool {w : ℕ} (hw : w ≠ 0) (b : Bool) :
  ((ofBool b : BitVec w) != 0) = b
  := by
  cases b with
  | false => exact bne_self_eq_false _
  | true =>
      rw [bne_iff_ne]
      intro h
      have hone : (1#w).toNat = (0#w).toNat := congrArg BitVec.toNat h
      rw [BitVec.toNat_one (Nat.pos_of_ne_zero hw), BitVec.toNat_zero] at hone
      exact Nat.one_ne_zero hone

theorem le_of_not_le {w : ℕ} {signed : Bool} {x y : BitVec w} (h : ¬le signed x y = true) :
  le signed y x = true
  := by
  rw [le] at h ⊢
  cases signed with
  | false =>
      simp only [Bool.false_eq_true, if_false, decide_eq_true_eq] at h ⊢
      omega
  | true =>
      simp only [if_true, decide_eq_true_eq] at h ⊢
      omega

theorem le_trans {w : ℕ} {signed : Bool} {x y z : BitVec w} (hxy : le signed x y = true)
    (hyz : le signed y z = true) :
  le signed x z = true
  := by
  rw [le] at *
  cases signed with
  | false =>
      simp only [Bool.false_eq_true, if_false, decide_eq_true_eq] at *
      omega
  | true =>
      simp only [if_true, decide_eq_true_eq] at *
      omega

/-- The lesser one of two elements, and the first one where both are, is taken associatively. -/
theorem lesser_assoc {α : Type} {r : α → α → Prop} [DecidableRel r]
    (htotal : ∀ {x y}, ¬r x y → r y x) (htrans : ∀ {x y z}, r x y → r y z → r x z) (x y z : α) :
  (if r (if r x y then x else y) z then (if r x y then x else y) else z) =
    if r x (if r y z then y else z) then x else if r y z then y else z
  := by
  by_cases hxy : r x y
  · by_cases hyz : r y z
    · simp only [hxy, hyz, htrans hxy hyz, if_true]
    · simp only [hxy, hyz, if_true, if_false]
  · by_cases hyz : r y z
    · simp only [hxy, hyz, if_true, if_false]
    · have hxz : ¬r x z := fun h => hxy (htrans h (htotal hyz))
      simp only [hxy, hyz, hxz, if_false]

/-- A reduction is associative. -/
theorem Operation.eval_assoc {w : ℕ} (other : ℕ → BitVec w → BitVec w → BitVec w) (signed : Bool)
    {op : Operation} (h : isReductionOperation op = true) (x y z : BitVec w) :
  op.eval other signed (op.eval other signed x y) z =
    op.eval other signed x (op.eval other signed y z)
  := by
  rcases Nat.eq_zero_or_pos w with rfl | hw
  · exact Subsingleton.elim _ _
  have hbool := bne_ofBool (w := w) hw.ne'
  cases op with
  | add => apply BitVec.add_assoc
  | mul => apply BitVec.mul_assoc
  | bitAnd => apply BitVec.and_assoc
  | bitXor => apply BitVec.xor_assoc
  | bitOr => apply BitVec.or_assoc
  | logicAnd => simp only [eval, hbool, Bool.and_assoc]
  | logicXor => simp only [eval, hbool, Bool.xor_assoc]
  | logicOr => simp only [eval, hbool, Bool.or_assoc]
  | min => exact lesser_assoc (r := fun x y => le signed x y = true) le_of_not_le le_trans x y z
  | max =>
      -- the greater one is the lesser one the other way round, of the operands the other way round
      exact (lesser_assoc (r := fun x y => le signed y x = true) le_of_not_le
        (fun hxy hyz => le_trans hyz hxy) z y x).symm
  | other id => exact absurd h Bool.false_ne_true

/-- The value of a uniform tree is that of its leaves under its operation. -/
theorem channels_eq_fold {w : ℕ} (other : ℕ → BitVec w → BitVec w → BitVec w)
    (env : Rvalue → ℕ → BitVec w) {type : GlslType} {operation : Operation} {e : Rvalue}
    (hnodes : ∀ h ∈ e.toTree.nodes, h.type = type ∧ h.operation = operation) (c : ℕ) :
  e.channels other env c =
    e.toTree.fold (operation.eval other type.baseType.isSigned) (fun e => e.channels other env c)
  := by
  induction e with
  | binop addr type' operation' operand₀ operand₁ h₀ h₁ =>
      obtain ⟨rfl, rfl⟩ := hnodes ⟨addr, type', operation'⟩
        (List.mem_append_right _ List.mem_cons_self)
      rw [Rvalue.toTree, BinTree.fold, ← h₀ fun h hh => hnodes h (List.mem_append_left _ hh),
        ← h₁ fun h hh => hnodes h (List.mem_append_right _ (List.mem_cons_of_mem _ hh))]
      rfl
  | _ => rfl

/-- The nodes of a uniform rvalue. -/
theorem Rvalue.Uniform.nodes {type : GlslType} {operation : Operation} {e : Rvalue}
    (he : e.Uniform type operation) :
  ∀ h ∈ e.toTree.nodes, h.type = type ∧ h.operation = operation
  := by
  induction e with
  | binop addr type' operation' operand₀ operand₁ h₀ h₁ =>
      obtain ⟨htype, hop, -, -, -, hu₀, hu₁⟩ := he
      intro h hh
      rcases List.mem_append.mp hh with hh | hh
      · exact h₀ hu₀ h hh
      · rcases List.mem_cons.mp hh with rfl | hh
        · use htype, hop
        · exact h₁ hu₁ h hh
  | _ =>
      intro h hh
      exact absurd hh List.not_mem_nil

/-- Every accepted expression is rebalanced: no cast meets a leaf, the leaves keep their order, the
tree is as low as a tree with its leaves can be, and unless it is one of floating numbers its value
is the same for all values of the leaves. -/
theorem handleExpression_balanced (expr : Expression) (h : expr.accepted = true) :
  ∃ t : Expression, handleExpression expr = some t ∧
    t.toRvalue.leaves = expr.toRvalue.leaves ∧
    t.toRvalue.height = Nat.clog 2 expr.toRvalue.leaves.length ∧
    (expr.type.baseType.isFloating = false →
      ∀ (w : ℕ) (other : ℕ → BitVec w → BitVec w → BitVec w) (env : Rvalue → ℕ → BitVec w),
        t.toRvalue.channels other env = expr.toRvalue.channels other env)
  := by
  obtain ⟨huniform, hred⟩ := expr.uniform_of_accepted h
  obtain ⟨t, ht, htree⟩ := handleExpression_eq h
  use t, ht
  refine ⟨?_, ?_, ?_⟩
  · rw [← leaves_toTree, htree, BinTree.rebalance_leaves, leaves_toTree]
  · rw [← height_toTree, htree, (BinTree.rebalance_balanced _).height_eq, BinTree.rebalance_leaves,
      leaves_toTree]
  · intro _ w other env
    funext c
    have hnodes := huniform.nodes
    have hnodes' := hnodes
    rw [← BinTree.rebalance_nodes, ← htree] at hnodes'
    rw [channels_eq_fold other env hnodes, channels_eq_fold other env hnodes']
    apply BinTree.fold_eq_of_inorder_eq
    · exact Operation.eval_assoc other _ hred
    · rw [htree, BinTree.rebalance_inorder]

/-- A variable of type `uint`. -/
def uintVar (var : ℕ) : Rvalue := .derefVar ⟨.uint, 1, 1⟩ var

/-- `((x + y) + z) + w` -/
def sumOfFour : Expression :=
  ⟨3, ⟨.uint, 1, 1⟩, .add,
    .binop 2 ⟨.uint, 1, 1⟩ .add (.binop 1 ⟨.uint, 1, 1⟩ .add (uintVar 0) (uintVar 1)) (uintVar 2),
    uintVar 3⟩

theorem handleExpression_balanced_sumOfFour :
  ∃ t : Expression, handleExpression sumOfFour = some t ∧
    t.toRvalue.leaves = [uintVar 0, uintVar 1, uintVar 2, uintVar 3] ∧
    t.toRvalue.height = 2 ∧
    ∀ (w : ℕ) (other : ℕ → BitVec w → BitVec w → BitVec w) (env : Rvalue → ℕ → BitVec w),
      t.toRvalue.channels other env = sumOfFour.toRvalue.channels other env
  := by
  obtain ⟨t, ht, hleaves, hheight, hvalue⟩ := handleExpression_balanced sumOfFour (by decide)
  use t, ht, hleaves
  constructor
  · rw [hheight]
    apply BinTree.clog_eq_succ
    · decide
    · decide
  · exact hvalue rfl

end Glsl.Rebalance
