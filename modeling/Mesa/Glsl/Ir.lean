import Mesa.Flow.Behaviour
import Mathlib.Algebra.GroupWithZero.Nat

/-!
# Function bodies of the GLSL intermediate representation

The instructions of a function body and what they do.  An rvalue denotes its channels, a function
from numbers: the first ones, as many as its type has components, are its value.  What an
operation, an access to an aggregate or a call computes is left open, and so is the type of the
scalars the channels hold.

Each instruction carries a note, and so does the end of each list of instructions.  A note names
the program point before what it stands at: `Block.Reaches` says at which points, and in which
states, an execution of a block arrives.
-/

namespace Glsl

open Flow

/-! ### Types, variables and masks -/

/-- A type, as far as the passes look at it. -/
inductive GlslType where
  /-- A scalar, or a vector, of so many components. -/
  | vector (components : ℕ)
  /-- A matrix, an array or a structure, of so many scalar components in all. -/
  | aggregate (components : ℕ)
deriving DecidableEq, Repr

/-- The number of scalar components. -/
def GlslType.components : GlslType → ℕ
  | .vector n => n
  | .aggregate n => n

/-- `is_scalar() || is_vector()` -/
def GlslType.isVector : GlslType → Bool
  | .vector _ => true
  | .aggregate _ => false

/-- Where a variable lives, as far as the passes look at it. -/
inductive VarMode where
  | shaderStorage
  | shaderShared
  | other
deriving DecidableEq, Repr

/-- `ir_variable` -/
structure Var where
  /-- Which variable it is. -/
  id : ℕ
  type : GlslType
  mode : VarMode := .other
  precise : Bool := false
deriving DecidableEq, Repr

/-- A set of channels.  The code keeps it in an `unsigned` of which it uses four bits. -/
abbrev Mask : Type := BitVec 4

/-- The number of channels of a mask below a given one: the channels of a mask take the components
of the value that is written one after the other. -/
def Mask.rank (m : Mask) (c : ℕ) : ℕ := (List.range c).countP m.getLsbD

/-- The components of a swizzle, `mask.x` to `mask.w`, and how many of them count. -/
structure SwizzleMask where
  chan : ℕ → ℕ
  numComponents : ℕ

/-! ### Rvalues -/

/-- `ir_rvalue`, over scalars `α`. -/
inductive Rvalue (α : Type) where
  /-- `ir_constant` -/
  | constant (type : GlslType) (value : List α)
  /-- `ir_dereference_variable` -/
  | derefVar (var : Var)
  /-- `ir_dereference_array` -/
  | derefArray (type : GlslType) (array index : Rvalue α)
  /-- `ir_dereference_record` -/
  | derefRecord (type : GlslType) (record : Rvalue α) (field : ℕ)
  /-- `ir_swizzle` -/
  | swizzle (val : Rvalue α) (mask : SwizzleMask)
  /-- `ir_expression` -/
  | expression (type : GlslType) (operation numOperands : ℕ) (operands : Fin numOperands → Rvalue α)
  /-- `ir_texture`, whose operands are the coordinate and those of the rest that are there. -/
  | texture (type : GlslType) (op : ℕ) (sampler : Rvalue α) (numOperands : ℕ)
      (operands : Fin numOperands → Rvalue α)

/-- The type of an rvalue. -/
def Rvalue.type {α : Type} : Rvalue α → GlslType
  | constant type _ => type
  | derefVar v => v.type
  | derefArray type _ _ => type
  | derefRecord type _ _ => type
  | swizzle _ mask => .vector mask.numComponents
  | expression type _ _ _ => type
  | texture type _ _ _ _ => type

/-- What is assigned to: an `ir_dereference`. -/
inductive Lhs (α : Type) where
  | var (var : Var)
  | array (base : Lhs α) (index : Rvalue α)
  | record (base : Lhs α) (field : ℕ)

/-- `variable_referenced` -/
def Lhs.variableReferenced {α : Type} : Lhs α → Var
  | var v => v
  | array base _ => base.variableReferenced
  | record base _ => base.variableReferenced

/-- `as_dereference_variable` -/
def Lhs.asVar {α : Type} : Lhs α → Option Var
  | var v => some v
  | _ => none

/-- `as_dereference_array() != NULL` -/
def Lhs.isArray {α : Type} : Lhs α → Bool
  | array _ _ => true
  | _ => false

/-! ### Instructions -/

/-- An actual parameter of a call. -/
structure Param (α : Type) where
  /-- Whether the formal parameter is `out` or `inout`. -/
  out : Bool
  actual : Rvalue α

/-- The instructions without instructions inside. -/
inductive Instr (α : Type) where
  /-- `ir_assignment` -/
  | assignment (lhs : Lhs α) (rhs : Rvalue α) (condition : Option (Rvalue α)) (writeMask : Mask)
  /-- `ir_call` -/
  | call (callee : ℕ) (returnDeref : Option (Lhs α)) (params : List (Param α))
  /-- `ir_return` -/
  | ret (value : Option (Rvalue α))
  /-- `ir_discard` -/
  | discard (condition : Option (Rvalue α))
  /-- `ir_emit_vertex` -/
  | emitVertex (stream : Rvalue α)
  /-- `ir_end_primitive` -/
  | endPrimitive (stream : Rvalue α)
  /-- `ir_loop_jump` -/
  | loopJump (isBreak : Bool)

/-- A list of instructions, with a note at every instruction and at the end. -/
inductive Block (α ν : Type) where
  | nil (note : ν)
  | instr (note : ν) (i : Instr α) (rest : Block α ν)
  /-- `ir_if` -/
  | cond (note : ν) (condition : Rvalue α) (thenInstructions elseInstructions rest : Block α ν)
  /-- `ir_loop` -/
  | loop (note : ν) (body rest : Block α ν)

/-- The note at the start of a block. -/
def Block.note {α ν : Type} : Block α ν → ν
  | nil note => note
  | instr note _ _ => note
  | cond note _ _ _ _ => note
  | loop note _ _ => note

/-- All instructions of a block, with those inside, satisfy a predicate. -/
def Block.All {α ν : Type} (P : Instr α → Prop) : Block α ν → Prop
  | nil _ => True
  | instr _ i rest => P i ∧ rest.All P
  | cond _ _ a b rest => a.All P ∧ b.All P ∧ rest.All P
  | loop _ body rest => body.All P ∧ rest.All P

/-! ### States and meanings -/

/-- The channels of the variables, and everything else that an instruction may touch. -/
structure State (α Mem : Type) where
  vars : Var → ℕ → α
  mem : Mem

/-- Replace the channels of a variable. -/
def State.set {α Mem : Type} (s : State α Mem) (v : Var) (f : ℕ → α) : State α Mem :=
  { s with vars := Function.update s.vars v f }

@[simp]
theorem State.set_self {α Mem : Type} (s : State α Mem) (v : Var) (f : ℕ → α) :
  (s.set v f).vars v = f
  := by
  simp only [State.set, Function.update_self]

@[simp]
theorem State.set_of_ne {α Mem : Type} (s : State α Mem) {v w : Var} (h : w ≠ v) (f : ℕ → α) :
  (s.set v f).vars w = s.vars w
  := by
  simp only [State.set, Function.update_of_ne h]

/-- A step from an aggregate, or a vector, to a part of it. -/
inductive Access (α : Type) where
  | index (value : List α)
  | field (field : ℕ)

/-- The meaning of what the instructions name. -/
structure Meaning (α Mem : Type) where
  /-- A channel of the result of an operation. -/
  operation : ℕ → List (List α) → ℕ → α
  /-- A channel of the result of a texture instruction with a sampler and operands. -/
  texture : ℕ → List α → List (List α) → ℕ → α
  /-- A channel of the element, of so many components, at an index of a value. -/
  index : ℕ → List α → List α → ℕ → α
  /-- A channel of the field, of so many components, of a value. -/
  field : ℕ → ℕ → List α → ℕ → α
  /-- The channel of the assigned value that is written to a channel of a variable, if one is, when
  the part of the variable at the end of the accesses is assigned to. -/
  place : Var → List (Access α) → ℕ → Option ℕ
  /-- Whether a condition holds. -/
  truth : List α → Bool
  /-- What a call does, given its results and what its parameters are: the value of an `in`
  parameter, the expression that another one is.  The first component says that the invocation is
  discarded. -/
  call : ℕ → Option (Lhs α) → List (Rvalue α ⊕ List α) → State α Mem → Bool × State α Mem
  /-- How a return is observed. -/
  ret : Option (List α) → State α Mem → Mem
  /-- How a discard is observed. -/
  discard : State α Mem → Mem
  /-- How an emitted vertex is observed. -/
  emitVertex : List α → State α Mem → Mem
  /-- How the end of a primitive is observed. -/
  endPrimitive : List α → State α Mem → Mem

/-- A meaning over numbers: operations add, and an index selects a channel. -/
def sumMeaning : Meaning ℕ Unit where
  operation _ args c := (args.map fun a => a.getD c 0).sum
  texture _ _ _ _ := 0
  index _ value index _ := value.getD (index.getD 0 0) 0
  field f _ value c := value.getD (f + c) 0
  place _ accesses c :=
    match accesses with
    | [.index i] => if c = i.getD 0 0 then some 0 else none
    | _ => none
  truth value := value.getD 0 0 != 0
  call _ _ _ s := (false, s)
  ret _ _ := ()
  discard _ := ()
  emitVertex _ _ := ()
  endPrimitive _ _ := ()

/-- A vector of four components. -/
def vec4 (id : ℕ) : Var := { id, type := .vector 4 }

/-- The first `n` channels. -/
def channels {α : Type} (n : ℕ) (f : ℕ → α) : List α := (List.range n).map f

theorem channels_congr {α : Type} {n : ℕ} {f g : ℕ → α} (h : ∀ c < n, f c = g c) :
  channels n f = channels n g
  := by
  apply List.map_congr_left
  intro c hc
  apply h c (List.mem_range.mp hc)

section Semantics

variable {α Mem ν : Type} [Inhabited α] (M : Meaning α Mem)

/-- The channels of an rvalue. -/
def Rvalue.eval (s : State α Mem) : Rvalue α → ℕ → α
  | constant _ value => fun c => value.getD c default
  | derefVar v => s.vars v
  | derefArray type array index => M.index type.components
      (channels array.type.components (array.eval s)) (channels index.type.components (index.eval s))
  | derefRecord type record field =>
      M.field field type.components (channels record.type.components (record.eval s))
  | swizzle val mask => fun c => val.eval s (mask.chan c)
  | expression _ operation _ operands => M.operation operation
      (List.ofFn fun k => channels (operands k).type.components ((operands k).eval s))
  | texture _ op sampler _ operands => M.texture op
      (channels sampler.type.components (sampler.eval s))
      (List.ofFn fun k => channels (operands k).type.components ((operands k).eval s))

/-- The value of an rvalue: as many channels as its type has components. -/
def Rvalue.value (s : State α Mem) (e : Rvalue α) : List α :=
  channels e.type.components (e.eval M s)

/-- The accesses that lead from the variable to what is assigned to. -/
def Lhs.accesses (s : State α Mem) : Lhs α → List (Access α)
  | var _ => []
  | array base index => base.accesses s ++ [.index (index.value M s)]
  | record base field => base.accesses s ++ [.field field]

/-- The channels of the assigned variable after the assignment of the channels `rhs`, of which
there are `components`. -/
def Lhs.assign (s : State α Mem) (writeMask : Mask) (components : ℕ) (rhs : ℕ → α) : Lhs α → ℕ → α
  | var v => fun c =>
      if v.type.isVector then
        if writeMask.getLsbD c then rhs (writeMask.rank c) else s.vars v c
      else (channels components rhs).getD c default
  | lhs => fun c =>
      match M.place lhs.variableReferenced (lhs.accesses M s) c with
      | some k => (channels components rhs).getD k default
      | none => s.vars lhs.variableReferenced c

/-- Whether a condition that may be missing holds. -/
def holds (s : State α Mem) : Option (Rvalue α) → Bool
  | none => true
  | some condition => M.truth (condition.value M s)

/-- What a parameter of a call passes. -/
def Param.pass (s : State α Mem) (p : Param α) : Rvalue α ⊕ List α :=
  if p.out then .inl p.actual else .inr (p.actual.value M s)

/-- The behaviour of an instruction. -/
def Instr.exec : Instr α → Beh (State α Mem)
  | assignment lhs rhs condition writeMask => .act fun s =>
      if holds M s condition then
        s.set lhs.variableReferenced (lhs.assign M s writeMask rhs.type.components
          (rhs.eval M s))
      else s
  | call callee returnDeref params => fun s =>
      let r := M.call callee returnDeref (params.map (Param.pass M s)) s
      (if r.1 then .ret else .fall, r.2)
  | ret value => fun s => (.ret, { s with mem := M.ret (value.map (Rvalue.value M s)) s })
  | discard condition => fun s =>
      if holds M s condition then (.ret, { s with mem := M.discard s }) else (.fall, s)
  | emitVertex stream => .act fun s => { s with mem := M.emitVertex (stream.value M s) s }
  | endPrimitive stream => .act fun s => { s with mem := M.endPrimitive (stream.value M s) s }
  | loopJump isBreak => .leave (if isBreak then .brk else .cont)

/-- The behaviour of a block whose loops make at most `n` passes. -/
def Block.run (n : ℕ) : Block α ν → Beh (State α Mem)
  | nil _ => .skip
  | instr _ i rest => (i.exec M).seq (rest.run n)
  | cond _ condition thenInstructions elseInstructions rest =>
      (Beh.branch (fun s => M.truth (condition.value M s)) (thenInstructions.run n)
        (elseInstructions.run n)).seq (rest.run n)
  | loop _ body rest => (Beh.loop n (body.run n)).seq (rest.run n)

/-- An execution of a block from a state arrives at the point with a note in a state. -/
inductive Block.Reaches (n : ℕ) : Block α ν → State α Mem → ν → State α Mem → Prop where
  | start {b s} : Reaches n b s b.note s
  | instr {note i rest s s' p t} (h : Instr.exec M i s = (.fall, s'))
      (hrest : Reaches n rest s' p t) : Reaches n (.instr note i rest) s p t
  | thenInstructions {note c a b rest s p t} (h : M.truth (c.value M s) = true)
      (ha : Reaches n a s p t) : Reaches n (.cond note c a b rest) s p t
  | elseInstructions {note c a b rest s p t} (h : M.truth (c.value M s) = false)
      (hb : Reaches n b s p t) : Reaches n (.cond note c a b rest) s p t
  | afterIf {note c a b rest s s' p t}
      (h : Beh.branch (fun s => M.truth (c.value M s)) (a.run M n) (b.run M n) s = (.fall, s'))
      (hrest : Reaches n rest s' p t) : Reaches n (.cond note c a b rest) s p t
  | body {note a rest s s' p t} (h : Beh.Passes (a.run M n) s s') (ha : Reaches n a s' p t) :
      Reaches n (.loop note a rest) s p t
  | afterLoop {note a rest s s' p t} (h : Beh.loop n (a.run M n) s = (.fall, s'))
      (hrest : Reaches n rest s' p t) : Reaches n (.loop note a rest) s p t

end Semantics

/-! ### Validity -/

section Valid

variable {α ν : Type}

/-- Swizzles choose channels of vectors that are there. -/
def Rvalue.Valid : Rvalue α → Prop
  | constant _ _ => True
  | derefVar _ => True
  | derefArray _ array index => array.Valid ∧ index.Valid
  | derefRecord _ record _ => record.Valid
  | swizzle val mask => val.Valid ∧ val.type.isVector = true ∧
      ∀ c < mask.numComponents, mask.chan c < val.type.components
  | expression _ _ _ operands => ∀ k, (operands k).Valid
  | texture _ _ sampler _ operands => sampler.Valid ∧ ∀ k, (operands k).Valid

/-- Fields are fields of structures. -/
def Lhs.Valid : Lhs α → Prop
  | var _ => True
  | array base index => base.Valid ∧ index.Valid
  | record base _ => base.Valid ∧ base.variableReferenced.type.isVector = false

/-- An assignment to a vector assigns a vector, and has a channel in its mask for every component of
the value. -/
def Instr.Valid : Instr α → Prop
  | assignment lhs rhs condition writeMask =>
      lhs.Valid ∧ rhs.Valid ∧ (∀ e ∈ condition, e.Valid) ∧
        ∀ v, lhs = .var v → v.type.isVector = true →
          rhs.type.isVector = true ∧ writeMask.rank 4 = rhs.type.components
  | call _ _ params => ∀ p ∈ params, p.actual.Valid
  | ret value => ∀ e ∈ value, e.Valid
  | discard condition => ∀ e ∈ condition, e.Valid
  | emitVertex stream => stream.Valid
  | endPrimitive stream => stream.Valid
  | loopJump _ => True

/-- What `ir_validate` checks of the instructions of a block, as far as it is needed. -/
def Block.Valid : Block α ν → Prop
  | nil _ => True
  | instr _ i rest => i.Valid ∧ rest.Valid
  | cond _ condition a b rest => condition.Valid ∧ a.Valid ∧ b.Valid ∧ rest.Valid
  | loop _ body rest => body.Valid ∧ rest.Valid

end Valid

/-- The components of an assigned value are numbered by the channels of the mask. -/
theorem Mask.rank_lt {m : Mask} {c : ℕ} (h : m.getLsbD c = true) :
  m.rank c < m.rank 4
  := by
  have hc : c < 4 := BitVec.lt_of_getLsbD h
  obtain ⟨k, hk⟩ := Nat.exists_eq_add_of_lt hc
  have hrange : List.range 4 = List.range c ++ (c :: (List.range k).map (fun x => c + 1 + x)) := by
    rw [hk, Nat.add_right_comm, List.range_add, List.range_succ]
    simp
  rw [rank, rank, hrange, List.countP_append, List.countP_cons, h]
  simp

/-! ### What a block writes -/

/-- The channels of a vector that an instruction other than a call may write. -/
def Instr.writes {α : Type} : Instr α → List (Var × Mask)
  | assignment lhs _ _ writeMask =>
      if lhs.variableReferenced.type.isVector then
        [(lhs.variableReferenced, if lhs.asVar.isSome then writeMask else BitVec.allOnes 4)]
      else []
  | _ => []

/-- Whether an instruction is a call. -/
def Instr.isCall {α : Type} : Instr α → Bool
  | call _ _ _ => true
  | _ => false

/-- The channels of vectors that the instructions of a block may write, calls apart. -/
def Block.writes {α ν : Type} : Block α ν → List (Var × Mask)
  | nil _ => []
  | instr _ i rest => i.writes ++ rest.writes
  | cond _ _ a b rest => a.writes ++ (b.writes ++ rest.writes)
  | loop _ body rest => body.writes ++ rest.writes

/-- Whether there is a call in a block. -/
def Block.hasCall {α ν : Type} : Block α ν → Bool
  | nil _ => false
  | instr _ i rest => i.isCall || rest.hasCall
  | cond _ _ a b rest => a.hasCall || (b.hasCall || rest.hasCall)
  | loop _ body rest => body.hasCall || rest.hasCall

/-- A channel is in a mask.  Channels that no vector has count as if they were. -/
def Mask.Covers (m : Mask) (c : ℕ) : Prop := m.getLsbD c = true ∨ 4 ≤ c

theorem Mask.covers_allOnes (c : ℕ) :
  Mask.Covers (BitVec.allOnes 4) c
  := by
  rw [Covers, BitVec.getLsbD_allOnes, decide_eq_true_iff]
  omega

/-- A channel of a variable is among some masked variables. -/
def Has (l : List (Var × Mask)) (v : Var) (c : ℕ) : Prop := ∃ k ∈ l, k.1 = v ∧ k.2.Covers c

@[simp]
theorem has_nil (v : Var) (c : ℕ) :
  ¬Has [] v c
  := by
  simp [Has]

@[simp]
theorem has_cons (k : Var × Mask) (l : List (Var × Mask)) (v : Var) (c : ℕ) :
  Has (k :: l) v c ↔ (k.1 = v ∧ k.2.Covers c) ∨ Has l v c
  := by
  simp [Has]

@[simp]
theorem has_append (l l' : List (Var × Mask)) (v : Var) (c : ℕ) :
  Has (l ++ l') v c ↔ Has l v c ∨ Has l' v c
  := by
  simp [Has, or_and_right, exists_or]

section Frame

variable {α Mem ν : Type}

/-- Two states agree on the channels of vectors that are not among some masked variables. -/
def Agree (l : List (Var × Mask)) (s s' : State α Mem) : Prop :=
  ∀ v c, v.type.isVector = true → ¬Has l v c → s'.vars v c = s.vars v c

theorem Agree.refl (l : List (Var × Mask)) (s : State α Mem) :
  Agree l s s
  := by
  intro v c _ _
  rfl

theorem Agree.trans {l : List (Var × Mask)} {s s' s'' : State α Mem} (h : Agree l s s')
    (h' : Agree l s' s'') :
  Agree l s s''
  := by
  intro v c hv hl
  rw [h' v c hv hl, h v c hv hl]

theorem Agree.mono {l l' : List (Var × Mask)} {s s' : State α Mem} (h : Agree l s s')
    (hl : ∀ v c, Has l v c → Has l' v c) :
  Agree l' s s'
  := by
  intro v c hv hl'
  apply h v c hv
  intro hhas
  exact hl' (hl v c hhas)

variable [Inhabited α] (M : Meaning α Mem)

/-- An instruction other than a call leaves the channels it does not write alone. -/
theorem Instr.agree_exec {i : Instr α} (h : i.isCall = false) (s : State α Mem) :
  Agree i.writes s (i.exec M s).2
  := by
  intro v c hv hnot
  cases i with
  | assignment lhs rhs condition writeMask =>
      simp only [exec, Beh.act_apply]
      split
      · by_cases heq : v = lhs.variableReferenced
        · subst heq
          simp only [writes, hv, if_true, has_cons, has_nil, or_false, true_and] at hnot
          rw [State.set_self]
          cases lhs with
          | var v =>
              simp only [Lhs.variableReferenced] at hv
              simp only [Lhs.asVar, Option.isSome_some, if_true, Mask.Covers, not_or] at hnot
              simp [Lhs.assign, Lhs.variableReferenced, hv, hnot.1]
          | array base index =>
              simp only [Lhs.asVar, Option.isSome_none, Bool.false_eq_true, if_false] at hnot
              exact absurd (Mask.covers_allOnes c) hnot
          | record base field =>
              simp only [Lhs.asVar, Option.isSome_none, Bool.false_eq_true, if_false] at hnot
              exact absurd (Mask.covers_allOnes c) hnot
        · rw [State.set_of_ne s heq]
      · rfl
  | call callee returnDeref params => simp [isCall] at h
  | ret value => rfl
  | discard condition =>
      simp only [exec]
      split <;> rfl
  | emitVertex stream => rfl
  | endPrimitive stream => rfl
  | loopJump isBreak => rfl

/-- A block without calls leaves the channels it does not write alone. -/
theorem Block.agree_run {b : Block α ν} (h : b.hasCall = false) (n : ℕ) :
  (b.run M n).Keeps (Agree b.writes)
  := by
  have hrefl : ∀ (l : List (Var × Mask)) (s : State α Mem), Agree l s s := Agree.refl
  have htrans : ∀ (l : List (Var × Mask)) (s s' s'' : State α Mem),
      Agree l s s' → Agree l s' s'' → Agree l s s'' := fun _ _ _ _ => Agree.trans
  induction b with
  | nil note => exact fun s => hrefl _ s
  | instr note i rest ih =>
      simp only [hasCall, Bool.or_eq_false_iff] at h
      apply Beh.Keeps.seq (htrans _)
      · intro s
        apply (i.agree_exec M h.1 s).mono
        intro v c hvc
        exact (has_append _ _ _ _).mpr (Or.inl hvc)
      · intro s
        apply (ih h.2 s).mono
        intro v c hvc
        exact (has_append _ _ _ _).mpr (Or.inr hvc)
  | cond note condition a b rest iha ihb ih =>
      simp only [hasCall, Bool.or_eq_false_iff] at h
      apply Beh.Keeps.seq (htrans _)
      · apply Beh.Keeps.branch
        · intro s
          apply (iha h.1 s).mono
          intro v c hvc
          simp [writes, hvc]
        · intro s
          apply (ihb h.2.1 s).mono
          intro v c hvc
          simp [writes, hvc]
      · intro s
        apply (ih h.2.2 s).mono
        intro v c hvc
        simp [writes, hvc]
  | loop note body rest ihb ih =>
      simp only [hasCall, Bool.or_eq_false_iff] at h
      apply Beh.Keeps.seq (htrans _)
      · apply Beh.Keeps.loop (hrefl _) (htrans _)
        intro s
        apply (ihb h.1 s).mono
        intro v c hvc
        simp [writes, hvc]
      · intro s
        apply (ih h.2 s).mono
        intro v c hvc
        simp [writes, hvc]

end Frame

/-! ### Instructions that do the same -/

section Same

variable {α Mem ν : Type} [Inhabited α] (M : Meaning α Mem)

/-- Two rvalues have the same type and the same value. -/
def SameValue (s : State α Mem) (e' e : Rvalue α) : Prop :=
  e'.type = e.type ∧ ∀ c < e.type.components, e'.eval M s c = e.eval M s c

theorem sameValue_refl (s : State α Mem) (e : Rvalue α) :
  SameValue M s e e
  := ⟨rfl, fun _ _ => rfl⟩

/-- What is assigned to is the same, up to the values of the indices. -/
inductive Lhs.Same (s : State α Mem) : Lhs α → Lhs α → Prop where
  | var (v : Var) : Same s (.var v) (.var v)
  | array {base' base : Lhs α} {index' index : Rvalue α} (hbase : Same s base' base)
      (hindex : SameValue M s index' index) : Same s (.array base' index') (.array base index)
  | record {base' base : Lhs α} (field : ℕ) (hbase : Same s base' base) :
      Same s (.record base' field) (.record base field)

/-- Parameters that are passed on as expressions are equal, others have the same value. -/
def Param.Same (s : State α Mem) (p' p : Param α) : Prop :=
  p'.out = p.out ∧ if p.out then p'.actual = p.actual else SameValue M s p'.actual p.actual

/-- Two instructions are the same, up to the values of rvalues.  Of an assigned value those channels
count that are written. -/
inductive Instr.Same (s : State α Mem) : Instr α → Instr α → Prop where
  | assignment {lhs' lhs : Lhs α} {rhs' rhs : Rvalue α} {condition' condition : Option (Rvalue α)}
      {writeMask : Mask} (hlhs : Lhs.Same M s lhs' lhs) (hrhs : SameValue M s rhs' rhs)
      (hmask : ∀ v c, lhs = .var v → v.type.isVector = true → writeMask.getLsbD c = true →
        rhs'.eval M s (writeMask.rank c) = rhs.eval M s (writeMask.rank c))
      (hcondition : Option.Rel (SameValue M s) condition' condition) :
      Same s (.assignment lhs' rhs' condition' writeMask) (.assignment lhs rhs condition writeMask)
  | call (callee : ℕ) (returnDeref : Option (Lhs α)) {params' params : List (Param α)}
      (hparams : List.Forall₂ (Param.Same M s) params' params) :
      Same s (.call callee returnDeref params') (.call callee returnDeref params)
  | ret {value' value : Option (Rvalue α)} (h : Option.Rel (SameValue M s) value' value) :
      Same s (.ret value') (.ret value)
  | discard {condition' condition : Option (Rvalue α)}
      (h : Option.Rel (SameValue M s) condition' condition) :
      Same s (.discard condition') (.discard condition)
  | emitVertex {stream' stream : Rvalue α} (h : SameValue M s stream' stream) :
      Same s (.emitVertex stream') (.emitVertex stream)
  | endPrimitive {stream' stream : Rvalue α} (h : SameValue M s stream' stream) :
      Same s (.endPrimitive stream') (.endPrimitive stream)
  | loopJump (isBreak : Bool) : Same s (.loopJump isBreak) (.loopJump isBreak)

variable {M}

theorem SameValue.trans {s : State α Mem} {e e' e'' : Rvalue α} (h : SameValue M s e'' e')
    (h' : SameValue M s e' e) :
  SameValue M s e'' e
  := by
  refine ⟨h.1.trans h'.1, ?_⟩
  intro c hc
  rw [h.2 c (h'.1 ▸ hc), h'.2 c hc]

theorem SameValue.channels_eq {s : State α Mem} {e e' : Rvalue α} (h : SameValue M s e' e) :
  channels e'.type.components (e'.eval M s) = channels e.type.components (e.eval M s)
  := by
  rw [h.1]
  apply channels_congr h.2

theorem SameValue.value_eq {s : State α Mem} {e e' : Rvalue α} (h : SameValue M s e' e) :
  e'.value M s = e.value M s
  := h.channels_eq

theorem Lhs.Same.variableReferenced_eq {s : State α Mem} {lhs lhs' : Lhs α}
    (h : Lhs.Same M s lhs' lhs) :
  lhs'.variableReferenced = lhs.variableReferenced
  := by
  induction h with
  | var v => rfl
  | array hbase hindex ih => exact ih
  | record field hbase ih => exact ih

theorem Lhs.Same.accesses_eq {s : State α Mem} {lhs lhs' : Lhs α} (h : Lhs.Same M s lhs' lhs) :
  lhs'.accesses M s = lhs.accesses M s
  := by
  induction h with
  | var v => rfl
  | array hbase hindex ih => rw [accesses, accesses, ih, hindex.value_eq]
  | record field hbase ih => rw [accesses, accesses, ih]

/-- The effect of an assignment depends on the values alone. -/
theorem Lhs.Same.assign_eq {s : State α Mem} {lhs lhs' : Lhs α} (h : Lhs.Same M s lhs' lhs)
    {rhs rhs' : Rvalue α} (hrhs : SameValue M s rhs' rhs) {writeMask : Mask}
    (hmask : ∀ v c, lhs = .var v → v.type.isVector = true → writeMask.getLsbD c = true →
      rhs'.eval M s (writeMask.rank c) = rhs.eval M s (writeMask.rank c)) :
  lhs'.assign M s writeMask rhs'.type.components (rhs'.eval M s) =
    lhs.assign M s writeMask rhs.type.components (rhs.eval M s)
  := by
  have haccesses := h.accesses_eq
  have hvar := h.variableReferenced_eq
  funext c
  cases h with
  | var v =>
      simp only [assign, hrhs.channels_eq]
      split_ifs with hv hc
      · exact hmask v c rfl hv hc
      · rfl
      · rfl
  | array hbase hindex => simp only [assign, hrhs.channels_eq, haccesses, hvar]
  | record field hbase => simp only [assign, hrhs.channels_eq, haccesses, hvar]

theorem holds_congr {s : State α Mem} {condition condition' : Option (Rvalue α)}
    (h : Option.Rel (SameValue M s) condition' condition) :
  holds M s condition' = holds M s condition
  := by
  cases h with
  | some h => rw [holds, holds, h.value_eq]
  | none => rfl

theorem Param.Same.pass_eq {s : State α Mem} {p p' : Param α} (h : Param.Same M s p' p) :
  p'.pass M s = p.pass M s
  := by
  obtain ⟨hout, hactual⟩ := h
  rw [pass, pass, hout]
  split_ifs at hactual ⊢
  · rw [hactual]
  · rw [hactual.value_eq]

/-- Instructions that are the same up to values have the same effect. -/
theorem Instr.Same.exec_eq {s : State α Mem} {i i' : Instr α} (h : Instr.Same M s i' i) :
  i'.exec M s = i.exec M s
  := by
  cases h with
  | assignment hlhs hrhs hmask hcondition =>
      simp only [exec, Beh.act_apply]
      rw [hlhs.variableReferenced_eq, hlhs.assign_eq hrhs hmask, holds_congr hcondition]
  | @call callee returnDeref params' params hparams =>
      have hpass : params'.map (Param.pass M s) = params.map (Param.pass M s) := by
        induction hparams with
        | nil => rfl
        | cons hp hparams ih => rw [List.map_cons, List.map_cons, hp.pass_eq, ih]
      simp only [exec, hpass]
  | ret h =>
      cases h with
      | some h => simp only [exec, Option.map_some, h.value_eq]
      | none => rfl
  | discard h => simp only [exec, holds_congr h]
  | emitVertex h => simp only [exec, Beh.act_apply, h.value_eq]
  | endPrimitive h => simp only [exec, Beh.act_apply, h.value_eq]
  | loopJump isBreak => rfl

end Same

/-! ### Blocks that do the same -/

section Sim

variable {α Mem ν ν' ν'' : Type} [Inhabited α] (M : Meaning α Mem) (n : ℕ)

/-- Executions of two blocks from a state go alike: they arrive at corresponding points in the same
states, where `R` relates what is noted there, and leave alike.  A state in which they fall off the
end satisfies `After`. -/
structure Block.Sim (R : ν → ν' → State α Mem → Prop) (After : State α Mem → Prop) (b : Block α ν)
    (b' : Block α ν') (s : State α Mem) : Prop where
  run_eq : b'.run M n s = b.run M n s
  after : ∀ s', b.run M n s = (.fall, s') → After s'
  forth : ∀ p t, b.Reaches M n s p t → ∃ p', b'.Reaches M n s p' t ∧ R p p' t
  back : ∀ p' t, b'.Reaches M n s p' t → ∃ p, b.Reaches M n s p t ∧ R p p' t

variable {M n} {R : ν → ν' → State α Mem → Prop} {After : State α Mem → Prop} {s : State α Mem}
  {note : ν} {note' : ν'}

namespace Block.Sim

theorem with_after {After' : State α Mem → Prop} {b : Block α ν} {b' : Block α ν'}
    (h : Sim M n R After b b' s) (hafter : ∀ s', b.run M n s = (.fall, s') → After' s') :
  Sim M n R After' b b' s
  := ⟨h.run_eq, hafter, h.forth, h.back⟩

theorem trans {R' : ν' → ν'' → State α Mem → Prop} {After' : State α Mem → Prop} {b : Block α ν}
    {b' : Block α ν'} {b'' : Block α ν''} (h : Sim M n R After b b' s)
    (h' : Sim M n R' After' b' b'' s) :
  Sim M n (fun p p'' t => ∃ p', R p p' t ∧ R' p' p'' t) After b b'' s
  := by
  constructor
  · rw [h'.run_eq, h.run_eq]
  · exact h.after
  · intro p t hp
    obtain ⟨p', hp', hR⟩ := h.forth p t hp
    obtain ⟨p'', hp'', hR'⟩ := h'.forth p' t hp'
    exact ⟨p'', hp'', p', hR, hR'⟩
  · intro p'' t hp''
    obtain ⟨p', hp', hR'⟩ := h'.back p'' t hp''
    obtain ⟨p, hp, hR⟩ := h.back p' t hp'
    exact ⟨p, hp, p', hR, hR'⟩

theorem nil (hR : R note note' s) (hafter : After s) :
  Sim M n R After (.nil note) (.nil note') s
  := by
  constructor
  · rfl
  · intro s' hs'
    cases hs'
    exact hafter
  · intro p t hp
    cases hp
    exact ⟨note', .start, hR⟩
  · intro p' t hp'
    cases hp'
    exact ⟨note, .start, hR⟩

/-- Two instructions do the same, and the blocks after them go alike. -/
theorem instr {i i' : Instr α} {rest : Block α ν} {rest' : Block α ν'} (hR : R note note' s)
    (hexec : i'.exec M s = i.exec M s)
    (hrest : ∀ s', i.exec M s = (.fall, s') → Sim M n R After rest rest' s') :
  Sim M n R After (.instr note i rest) (.instr note' i' rest') s
  := by
  constructor
  · simp only [run]
    rw [Beh.seq_congr_left hexec, Beh.seq_eq_seq_iff]
    intro s' hs'
    exact (hrest s' hs').run_eq
  · intro s' hs'
    obtain ⟨t, ht, hs'⟩ := Beh.seq_eq_fall_iff.mp hs'
    exact (hrest t ht).after s' hs'
  · intro p t hp
    cases hp with
    | start => exact ⟨note', .start, hR⟩
    | instr hs' hp =>
        obtain ⟨p', hp', hR'⟩ := (hrest _ hs').forth p t hp
        exact ⟨p', .instr (hexec.trans hs') hp', hR'⟩
  · intro p' t hp'
    cases hp' with
    | start => exact ⟨note, .start, hR⟩
    | instr hs' hp' =>
        have hs := hexec.symm.trans hs'
        obtain ⟨p, hp, hR'⟩ := (hrest _ hs).back p' t hp'
        exact ⟨p, .instr hs hp, hR'⟩

/-- The conditions have the same value, the branches that are taken go alike, and so do the blocks
after them. -/
theorem cond {c c' : Rvalue α} {a b rest : Block α ν} {a' b' rest' : Block α ν'}
    {A : State α Mem → Prop} (hR : R note note' s) (hc : SameValue M s c' c)
    (ha : M.truth (c.value M s) = true → Sim M n R A a a' s)
    (hb : M.truth (c.value M s) = false → Sim M n R A b b' s)
    (hrest : ∀ s', Beh.branch (fun s => M.truth (c.value M s)) (a.run M n) (b.run M n) s =
      (.fall, s') → A s' → Sim M n R After rest rest' s') :
  Sim M n R After (.cond note c a b rest) (.cond note' c' a' b' rest') s
  := by
  have hbranch : Beh.branch (fun s => M.truth (c'.value M s)) (a'.run M n) (b'.run M n) s =
      Beh.branch (fun s => M.truth (c.value M s)) (a.run M n) (b.run M n) s := by
    rw [Beh.branch_apply, Beh.branch_apply, hc.value_eq]
    split_ifs with htruth
    · exact (ha htruth).run_eq
    · exact (hb (Bool.not_eq_true _ ▸ htruth)).run_eq
  have hafter : ∀ s', Beh.branch (fun s => M.truth (c.value M s)) (a.run M n) (b.run M n) s =
      (.fall, s') → Sim M n R After rest rest' s' := by
    intro s' hs'
    apply hrest s' hs'
    rw [Beh.branch_apply] at hs'
    split_ifs at hs' with htruth
    · exact (ha htruth).after s' hs'
    · exact (hb (Bool.not_eq_true _ ▸ htruth)).after s' hs'
  constructor
  · simp only [run]
    rw [Beh.seq_congr_left hbranch, Beh.seq_eq_seq_iff]
    intro s' hs'
    exact (hafter s' hs').run_eq
  · intro s' hs'
    obtain ⟨t, ht, hs'⟩ := Beh.seq_eq_fall_iff.mp hs'
    exact (hafter t ht).after s' hs'
  · intro p t hp
    cases hp with
    | start => exact ⟨note', .start, hR⟩
    | thenInstructions htruth hp =>
        obtain ⟨p', hp', hR'⟩ := (ha htruth).forth p t hp
        exact ⟨p', .thenInstructions (hc.value_eq.symm ▸ htruth) hp', hR'⟩
    | elseInstructions htruth hp =>
        obtain ⟨p', hp', hR'⟩ := (hb htruth).forth p t hp
        exact ⟨p', .elseInstructions (hc.value_eq.symm ▸ htruth) hp', hR'⟩
    | afterIf hs' hp =>
        obtain ⟨p', hp', hR'⟩ := (hafter _ hs').forth p t hp
        exact ⟨p', .afterIf (hbranch.trans hs') hp', hR'⟩
  · intro p' t hp'
    cases hp' with
    | start => exact ⟨note, .start, hR⟩
    | thenInstructions htruth hp' =>
        rw [hc.value_eq] at htruth
        obtain ⟨p, hp, hR'⟩ := (ha htruth).back p' t hp'
        exact ⟨p, .thenInstructions htruth hp, hR'⟩
    | elseInstructions htruth hp' =>
        rw [hc.value_eq] at htruth
        obtain ⟨p, hp, hR'⟩ := (hb htruth).back p' t hp'
        exact ⟨p, .elseInstructions htruth hp, hR'⟩
    | afterIf hs' hp' =>
        have hs := hbranch.symm.trans hs'
        obtain ⟨p, hp, hR'⟩ := (hafter _ hs).back p' t hp'
        exact ⟨p, .afterIf hs hp, hR'⟩

/-- The bodies go alike wherever a pass starts, and so do the blocks after the loops. -/
theorem loop {body rest : Block α ν} {body' rest' : Block α ν'}
    {A : State α Mem → Prop} (hR : R note note' s)
    (hbody : ∀ s', Beh.Passes (body.run M n) s s' → Sim M n R A body body' s')
    (hrest : ∀ s', Beh.loop n (body.run M n) s = (.fall, s') → Sim M n R After rest rest' s') :
  Sim M n R After (.loop note body rest) (.loop note' body' rest') s
  := by
  have heq : ∀ t, Beh.Passes (body.run M n) s t → body.run M n t = body'.run M n t := by
    intro t ht
    exact (hbody t ht).run_eq.symm
  have hloop : Beh.loop n (body'.run M n) s = Beh.loop n (body.run M n) s :=
    (Beh.loop_eq_of_passes n heq).symm
  have hpasses : ∀ {t}, Beh.Passes (body.run M n) s t → Beh.Passes (body'.run M n) s t := by
    intro t ht
    induction ht with
    | first => exact .first
    | next ht hstep ih =>
        rw [heq _ ht] at hstep
        exact ih.next hstep
  constructor
  · simp only [run]
    rw [Beh.seq_congr_left hloop, Beh.seq_eq_seq_iff]
    intro s' hs'
    exact (hrest s' hs').run_eq
  · intro s' hs'
    obtain ⟨t, ht, hs'⟩ := Beh.seq_eq_fall_iff.mp hs'
    exact (hrest t ht).after s' hs'
  · intro p t hp
    cases hp with
    | start => exact ⟨note', .start, hR⟩
    | body hs' hp =>
        obtain ⟨p', hp', hR'⟩ := (hbody _ hs').forth p t hp
        exact ⟨p', .body (hpasses hs') hp', hR'⟩
    | afterLoop hs' hp =>
        obtain ⟨p', hp', hR'⟩ := (hrest _ hs').forth p t hp
        exact ⟨p', .afterLoop (hloop.trans hs') hp', hR'⟩
  · intro p' t hp'
    cases hp' with
    | start => exact ⟨note, .start, hR⟩
    | body hs' hp' =>
        have hs := Beh.Passes.congr heq hs'
        obtain ⟨p, hp, hR'⟩ := (hbody _ hs).back p' t hp'
        exact ⟨p, .body hs hp, hR'⟩
    | afterLoop hs' hp' =>
        have hs := hloop.symm.trans hs'
        obtain ⟨p, hp, hR'⟩ := (hrest _ hs).back p' t hp'
        exact ⟨p, .afterLoop hs hp, hR'⟩

end Block.Sim

end Sim

end Glsl
