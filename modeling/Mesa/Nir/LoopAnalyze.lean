import Mesa.Flow.Counter

/-!
# Trip counts of loops

The part of the loop analysis that recognises basic induction variables and derives from
them after how many passes a loop terminator breaks out of the loop
(`compute_induction_information` and everything below `find_trip_count`).

The analysis looks at the SSA definitions of a function through a table of the instructions
defining them.  Constants are kept as the 64 bits of the first component of a
`nir_const_value`; its `i32[0]` and `u32[0]` are the low half.  Integers the source computes
in `int32_t` are 32-bit vectors.  Where the source aborts, by a failed assertion or a
trapping division, the model gives `none`.
-/

namespace Nir

/-! ### Instructions -/

/-- The base types of ALU values. -/
inductive AluType where
  | int | uint | float | bool
deriving DecidableEq, Repr

/-- The ALU opcodes the analysis tells apart; the others by their number of inputs and the
base types of their output and of their inputs. -/
inductive AluOp where
  | iadd | isub | imul | fadd | fmul
  | ige | ilt | ieq | ine | uge | ult
  | fge | flt | feq | fne
  | other (numInputs : ℕ) (output : AluType) (input : AluType)
deriving DecidableEq, Repr

/-- `nir_op_infos[op].num_inputs`. -/
def AluOp.numInputs : AluOp → ℕ
  | .other n _ _ => n
  | _ => 2

/-- The base type of `nir_op_infos[op].output_type`. -/
def AluOp.outputType : AluOp → AluType
  | .iadd | .isub | .imul => .int
  | .fadd | .fmul => .float
  | .other _ t _ => t
  | _ => .bool

/-- The base type of the inputs, `nir_op_infos[op].input_types`. -/
def AluOp.inputType : AluOp → AluType
  | .iadd | .isub | .imul | .ige | .ilt | .ieq | .ine => .int
  | .uge | .ult => .uint
  | .fadd | .fmul | .fge | .flt | .feq | .fne => .float
  | .other _ _ t => t

/-- The first component of a `nir_const_value`. -/
abbrev ConstValue := BitVec 64

/-- `i32[0]`, or `u32[0]`. -/
def ConstValue.i32 (v : ConstValue) : BitVec 32 := v.setWidth 32

/-- A constant with the given `i32[0]`, the other bits being zero. -/
def ConstValue.ofI32 (x : BitVec 32) : ConstValue := x.setWidth 64

/-- A source of a phi: the value it takes when control comes from inside the loop
(`fromLoop`), respectively from outside. -/
structure PhiSrc where
  fromLoop : Bool
  src : ℕ
deriving DecidableEq, Repr

/-- An instruction that defines an SSA value. -/
inductive Instr where
  | loadConst (value : ConstValue)
  | alu (op : AluOp) (src : List ℕ)
  | phi (srcs : List PhiSrc)
  | other
deriving DecidableEq, Repr

/-- The floating-point arithmetic of the constant folder, and of `get_iteration`.  The
analysis of integer loops does not depend on it. -/
structure FloatArith where
  /-- `(int32_t) ((limit - initial) / step)`. -/
  iteration : (initial step limit : ConstValue) → BitVec 32
  /-- `(float) iter`. -/
  ofInt : BitVec 32 → ConstValue
  /-- The opcodes on floats at a given bit size. -/
  eval : AluOp → ℕ → ConstValue → ConstValue → ConstValue

/-- The 32-bit booleans `NIR_TRUE` and `NIR_FALSE`. -/
def nirBool (b : Bool) : ConstValue := if b then 0xffffffff#64 else 0#64

/-- `nir_eval_const_opcode` on scalars. -/
def evalConstOpcode (F : FloatArith) (op : AluOp) (bitSize : ℕ) (a b : ConstValue) : ConstValue :=
  let x := a.setWidth bitSize
  let y := b.setWidth bitSize
  match op with
  | .iadd => (x + y).setWidth 64
  | .isub => (x - y).setWidth 64
  | .imul => (x * y).setWidth 64
  | .ige => nirBool (y.sle x)
  | .ilt => nirBool (x.slt y)
  | .ieq => nirBool (x == y)
  | .ine => nirBool (x != y)
  | .uge => nirBool (y.ule x)
  | .ult => nirBool (x.ult y)
  | op => F.eval op bitSize a b

/-! ### Functions and loops -/

/-- The SSA definitions of a function, together with the loop being analysed: `outermost`
lists the definitions in the outermost part of the loop in order, `nested` those inside its
ifs and inner loops. -/
structure LoopFn where
  parent : ℕ → Instr
  bitSize : ℕ → ℕ
  outermost : List ℕ
  nested : List ℕ

namespace LoopFn

variable (L : LoopFn)

/-- `nir_loop_variable::in_control_flow`. -/
def inControlFlow (d : ℕ) : Bool := L.nested.contains d

/-- `nir_loop_variable::in_loop`. -/
def inLoop (d : ℕ) : Bool := L.outermost.contains d || L.nested.contains d

/-- The value of a definition that `is_var_constant`. -/
def constant? (d : ℕ) : Option ConstValue :=
  match L.parent d with
  | .loadConst v => some v
  | _ => none

end LoopFn

/-! ### Induction variables -/

/-- `nir_basic_induction_var`. -/
structure BasicInductionVar where
  aluOp : AluOp
  aluDef : ℕ
  invariant : ℕ
  defOutsideLoop : ℕ
deriving DecidableEq, Repr

/-- A `nir_basic_induction_var` some of whose fields may still be `NULL`. -/
structure PartialBiv where
  alu : Option (AluOp × ℕ) := none
  invariant : Option ℕ := none
  defOutsideLoop : Option ℕ := none

namespace LoopFn

variable (L : LoopFn)

/-- The operand of a two-input ALU instruction that is constant while the other operand is
the phi, or `old` when there is none. -/
def invariantOperand (phi x y : ℕ) (old : Option ℕ) : Option ℕ :=
  let first := if (L.constant? x).isSome && y == phi then some x else old
  if (L.constant? y).isSome && x == phi then some y else first

/-- The walk of `compute_induction_information` over the sources of a phi.  It stops at a
source defined in nested control flow, keeping what has been found so far. -/
def scanPhiSrcs (phi : ℕ) : List PhiSrc → PartialBiv → PartialBiv
  | [], biv => biv
  | s :: rest, biv =>
      if L.inControlFlow s.src then biv
      else if !L.inLoop s.src then
        scanPhiSrcs phi rest { biv with defOutsideLoop := some s.src }
      else
        match L.parent s.src with
        | .alu op [x, y] =>
            if op.numInputs = 2 then
              scanPhiSrcs phi rest
                { biv with
                  alu := some (op, s.src)
                  invariant := L.invariantOperand phi x y biv.invariant }
            else scanPhiSrcs phi rest biv
        | _ => scanPhiSrcs phi rest biv

/-- The basic induction variable a phi gives rise to, if any. -/
def phiInduction (phi : ℕ) : Option BasicInductionVar :=
  match L.parent phi with
  | .phi srcs =>
      let biv := L.scanPhiSrcs phi srcs {}
      match biv.alu, biv.defOutsideLoop, biv.invariant with
      | some (op, alu), some outside, some inv =>
          if (L.constant? outside).isSome then
            some { aluOp := op, aluDef := alu, invariant := inv, defOutsideLoop := outside }
          else none
      | _, _, _ => none
  | _ => none

/-- `compute_induction_information`: the induction variable recorded for each definition of
type `basic_induction`, which are the phi and the ALU instruction incrementing it.  A later
phi overwrites what an earlier one recorded. -/
def computeInductionInformation : List ℕ → (ℕ → Option BasicInductionVar) → ℕ →
    Option BasicInductionVar
  | [], ind => ind
  | var :: rest, ind =>
      match L.phiInduction var with
      | some biv =>
          computeInductionInformation rest
            (Function.update (Function.update ind biv.aluDef (some biv)) var (some biv))
      | none => computeInductionInformation rest ind

/-- The induction variable recorded for a definition, `none` when its type is not
`basic_induction`. -/
def ind (d : ℕ) : Option BasicInductionVar :=
  L.computeInductionInformation L.outermost (fun _ => none) d

end LoopFn

/-! ### Iteration counts -/

/-- The arguments of `calculate_iterations`. -/
structure Counter where
  initial : ConstValue
  step : ConstValue
  limit : ConstValue
  /-- The opcode of the incrementing instruction. -/
  aluOp : AluOp
  /-- The bit size of its sources. -/
  bitSize : ℕ
  condOp : AluOp
  /-- Whether the condition reads the incremented value. -/
  readsAluDef : Bool
  limitRhs : Bool
  invertCond : Bool
deriving DecidableEq, Repr

namespace Counter

variable (F : FloatArith) (c : Counter)

/-- `get_iteration`.  A division by zero and the division of the least integer by `-1`
trap. -/
def getIteration : Option (BitVec 32) :=
  match c.condOp with
  | .ige | .ilt | .ieq | .ine =>
      let span := c.limit.i32 - c.initial.i32
      if c.step.i32 = 0#32 then none
      else if span = BitVec.intMin 32 ∧ c.step.i32 = -1#32 then none
      else some (span.sdiv c.step.i32)
  | .uge | .ult =>
      let span := c.limit.i32 - c.initial.i32
      if c.step.i32 = 0#32 then none else some (span / c.step.i32)
  | .fge | .flt | .feq | .fne => some (F.iteration c.initial c.step c.limit)
  | _ => some (-1#32)

/-- `test_iterations`: whether the exit condition holds after `iter` steps. -/
def testIterations (iter : BitVec 32) : Bool :=
  let float := c.aluOp.outputType = .float
  let iterSrc := if float then F.ofInt iter else ConstValue.ofI32 iter
  let mulOp : AluOp := if float then .fmul else .imul
  let addOp : AluOp := if float then .fadd else .iadd
  let mulResult := evalConstOpcode F mulOp c.bitSize iterSrc c.step
  let addResult := evalConstOpcode F addOp c.bitSize mulResult c.initial
  let result :=
    if c.limitRhs then evalConstOpcode F c.condOp c.bitSize addResult c.limit
    else evalConstOpcode F c.condOp c.bitSize c.limit addResult
  if c.invertCond then result.i32 == 0#32 else result.i32 != 0#32

/-- `trip_offset`. -/
def tripOffset : BitVec 32 := if c.readsAluDef then 1#32 else 0#32

/-- The assertions of `calculate_iterations`: subtractions have been lowered, and the
condition compares values of the type of the induction variable. -/
def typesAgree : Bool :=
  c.aluOp != .isub &&
    (if c.aluOp.outputType = .int ∨ c.aluOp.outputType = .uint then
      c.condOp.inputType = .int ∨ c.condOp.inputType = .uint
    else c.condOp.inputType = c.aluOp.outputType)

/-- The bias search of `calculate_iterations`. -/
def searchBias (iter : BitVec 32) : List (BitVec 32) → BitVec 32
  | [] => -1#32
  | bias :: rest =>
      let iterBias := iter + bias
      if c.testIterations F iterBias then
        if (0#32).slt iterBias then iterBias - c.tripOffset else iterBias
      else searchBias iter rest

/-- `calculate_iterations`. -/
def calculateIterations : Option (BitVec 32) := do
  if !c.typesAgree then none
  else if c.aluOp ≠ .iadd ∧ c.aluOp ≠ .fadd then some (-1#32)
  else
    let iter ← c.getIteration F
    if iter.slt 0#32 then some (-1#32)
    else some (c.searchBias F iter [-1#32, 0#32, 1#32])

end Counter

/-! ### The trip count of a loop -/

/-- A loop terminator: the condition of its `if`, and the branch from which the loop
continues. -/
structure Terminator where
  cond : ℕ
  continueFromThen : Bool
deriving DecidableEq, Repr

/-- What `find_trip_count` stores in the loop info, for terminators of type `τ`. -/
structure LoopInfo (τ : Type) where
  isTripCountKnown : Bool
  tripCount : ℕ
  limitingTerminator : Option τ
deriving DecidableEq, Repr

/-- The variables of `find_trip_count`. -/
structure Search (τ : Type) where
  tripCountKnown : Bool := true
  limitingTerminator : Option τ := none
  minTripCount : BitVec 32 := -1#32

/-- What `find_trip_count` does with the number of iterations of a terminator. -/
def Search.record {τ : Type} (st : Search τ) (t : τ) (iterations : BitVec 32) : Search τ :=
  if iterations = -1#32 then { st with tripCountKnown := false }
  else if st.minTripCount = -1#32 ∨ iterations.slt st.minTripCount then
    { st with minTripCount := iterations, limitingTerminator := some t }
  else st

/-- The loop of `find_trip_count` over the terminators, for a given computation of the
number of iterations of each. -/
def searchTerminators {τ : Type} (iterations : τ → Option (BitVec 32)) :
    List τ → Search τ → Option (Search τ)
  | [], st => some st
  | t :: rest, st => do
      let n ← iterations t
      searchTerminators iterations rest (st.record t n)

/-- `find_trip_count`, for a given computation of the number of iterations of each
terminator.  The loop info was allocated zeroed. -/
def findTripCount {τ : Type} (iterations : τ → Option (BitVec 32)) (terminators : List τ) :
    Option (LoopInfo τ) := do
  let st ← searchTerminators iterations terminators {}
  some
    { isTripCountKnown := st.tripCountKnown
      tripCount := if (-1#32).slt st.minTripCount then st.minTripCount.toNat else 0
      limitingTerminator := st.limitingTerminator }

/-- What the search knows once it has looked at the terminators `done`: the limiting one has
the least count, and those before it have greater ones. -/
structure Search.Spec {τ : Type} (iterations : τ → Option (BitVec 32)) (done : List τ)
    (st : Search τ) : Prop where
  known : st.tripCountKnown = true → ∀ t ∈ done, iterations t ≠ some (-1#32)
  found : st.minTripCount ≠ -1#32 → st.limitingTerminator.isSome
  limiting : ∀ t, st.limitingTerminator = some t →
    st.minTripCount ≠ -1#32 ∧ iterations t = some st.minTripCount ∧
      ∃ before after, done = before ++ t :: after ∧
        ∀ u ∈ before, ∀ n, iterations u = some n → n ≠ -1#32 → st.minTripCount.slt n
  least : ∀ t ∈ done, ∀ n, iterations t = some n → n ≠ -1#32 →
    st.minTripCount ≠ -1#32 ∧ ¬ n.slt st.minTripCount

theorem Search.Spec.record {τ : Type} {iterations : τ → Option (BitVec 32)} {done : List τ}
    {st : Search τ} (h : st.Spec iterations done) {t : τ} {n : BitVec 32}
    (hn : iterations t = some n) :
  (st.record t n).Spec iterations (done ++ [t])
  := by
  have hold : ∀ u, st.limitingTerminator = some u →
      ∃ before after, done ++ [t] = before ++ u :: after ∧
        ∀ v ∈ before, ∀ m, iterations v = some m → m ≠ -1#32 → st.minTripCount.slt m := by
    intro u hu
    obtain ⟨-, -, before, after, rfl, hbefore⟩ := h.limiting u hu
    exact ⟨before, after ++ [t], by simp, hbefore⟩
  unfold Search.record
  split_ifs with h₁ h₂
  · constructor
    · simp
    · apply h.found
    · intro u hu
      exact ⟨(h.limiting u hu).1, (h.limiting u hu).2.1, hold u hu⟩
    · intro u hu m hm hne
      rcases List.mem_append.mp hu with hu | hu
      · apply h.least u hu m hm hne
      · cases List.mem_singleton.mp hu
        cases hn.symm.trans hm
        contradiction
  · -- every count recorded so far is at least the old minimum, which is above the new one
    have habove : ∀ u ∈ done, ∀ m, iterations u = some m → m ≠ -1#32 → n.slt m := by
      intro u hu m hm hne
      obtain ⟨hmin, hleast⟩ := h.least u hu m hm hne
      rw [BitVec.slt_iff_toInt_lt] at hleast ⊢
      have hlt := BitVec.slt_iff_toInt_lt.mp (h₂.resolve_left hmin)
      omega
    constructor
    · intro hk u hu
      rcases List.mem_append.mp hu with hu | hu
      · apply h.known hk u hu
      · cases List.mem_singleton.mp hu
        simpa [hn] using h₁
    · simp
    · intro u hu
      cases hu
      exact ⟨h₁, hn, done, [], rfl, habove⟩
    · intro u hu m hm hne
      refine ⟨h₁, ?_⟩
      show ¬ m.slt n
      rw [BitVec.slt_iff_toInt_lt]
      rcases List.mem_append.mp hu with hu | hu
      · have := BitVec.slt_iff_toInt_lt.mp (habove u hu m hm hne)
        omega
      · cases List.mem_singleton.mp hu
        cases hn.symm.trans hm
        omega
  · push Not at h₂
    constructor
    · intro hk u hu
      rcases List.mem_append.mp hu with hu | hu
      · apply h.known hk u hu
      · cases List.mem_singleton.mp hu
        simpa [hn] using h₁
    · apply h.found
    · intro u hu
      exact ⟨(h.limiting u hu).1, (h.limiting u hu).2.1, hold u hu⟩
    · intro u hu m hm hne
      rcases List.mem_append.mp hu with hu | hu
      · apply h.least u hu m hm hne
      · cases List.mem_singleton.mp hu
        cases hn.symm.trans hm
        exact ⟨h₂.1, by simpa using h₂.2⟩

theorem searchTerminators_spec {τ : Type} {iterations : τ → Option (BitVec 32)}
    {done rest : List τ} {st st' : Search τ} (h : st.Spec iterations done)
    (hst' : searchTerminators iterations rest st = some st') :
  st'.Spec iterations (done ++ rest)
  := by
  induction rest generalizing done st with
  | nil =>
      cases hst'
      simpa using h
  | cons t rest ih =>
      obtain ⟨n, hn, hst'⟩ := Option.bind_eq_some_iff.mp hst'
      simpa using ih (h.record hn) hst'

/-- What `find_trip_count` returns: where there is a limiting terminator, the trip count is
its number of iterations, no terminator has a smaller one, and those before it in the list
have greater ones. -/
theorem findTripCount_spec {τ : Type} {iterations : τ → Option (BitVec 32)}
    {terminators : List τ} {info : LoopInfo τ}
    (h : findTripCount iterations terminators = some info) :
  ∃ st : Search τ, st.Spec iterations terminators ∧
    info = ⟨st.tripCountKnown,
      if (-1#32).slt st.minTripCount then st.minTripCount.toNat else 0, st.limitingTerminator⟩
  := by
  obtain ⟨st, hst, hinfo⟩ := Option.bind_eq_some_iff.mp h
  refine ⟨st, ?_, (Option.some.inj hinfo).symm⟩
  have hstart : Search.Spec iterations [] {} := by
    constructor <;> simp
  simpa using searchTerminators_spec hstart hst

/-- The comparisons whose trip count `find_trip_count` looks for. -/
def AluOp.isComparison : AluOp → Bool
  | .fge | .ige | .uge | .flt | .ilt | .ult | .feq | .ieq | .fne | .ine => true
  | _ => false

namespace LoopFn

variable (F : FloatArith) (L : LoopFn)

/-- The arguments `find_trip_count` passes to `calculate_iterations` for a terminator, when
its condition compares a basic induction variable with a constant. -/
def counter (t : Terminator) : Option Counter :=
  match L.parent t.cond with
  | .alu op [x, y] =>
      if op.isComparison then
        -- the limit is assumed to be the right operand; if the left one is not an induction
        -- variable the two are flipped
        let limitRhs := (L.ind x).isSome
        let basicInd := if limitRhs then x else y
        let limit := if limitRhs then y else x
        match L.ind basicInd, L.constant? limit with
        | some biv, some limitVal =>
            match L.constant? biv.defOutsideLoop, L.constant? biv.invariant with
            | some initialVal, some stepVal =>
                match L.parent biv.aluDef with
                | .alu aluOp (a :: _) =>
                    some
                      { initial := initialVal
                        step := stepVal
                        limit := limitVal
                        aluOp := aluOp
                        bitSize := L.bitSize a
                        condOp := op
                        readsAluDef := x == biv.aluDef || y == biv.aluDef
                        limitRhs := limitRhs
                        invertCond := t.continueFromThen }
                | _ => none
            | _, _ => none
        | _, _ => none
      else none
  | _ => none

/-- The number of iterations of a terminator, `-1` where it has no counter. -/
def iterations (t : Terminator) : Option (BitVec 32) :=
  match L.counter t with
  | none => some (-1#32)
  | some c => c.calculateIterations F

/-- `find_trip_count` of the loop. -/
def findTripCount (terminators : List Terminator) : Option (LoopInfo Terminator) :=
  Nir.findTripCount (L.iterations F) terminators

end LoopFn

end Nir
