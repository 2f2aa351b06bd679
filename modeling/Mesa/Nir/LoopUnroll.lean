import Mesa.Nir.ControlFlow
import Mesa.Nir.LoopAnalyze

/-!
# Loop unrolling

A model of `nir_opt_loop_unroll.c` and of `find_loop_terminators` in `nir_loop_analyze.c`.  A
loop is unrolled after the phis at its top and after it have been lowered to registers, so
that cloning a list of nodes amounts to running it again on the state the registers hold.

The computation of the number of iterations of a terminator is a parameter here, see
`Nir.LoopFn.iterations` for the one of the loop analysis.
-/

namespace Nir

variable {ι κ : Type}

/-! ### Terminators -/

/-- A loop terminator: which node of the loop body its `if` is, the condition, and the branch
from which the loop continues. -/
structure LoopTerminator (κ : Type) where
  index : ℕ
  cond : κ
  continueFromThen : Bool
deriving DecidableEq, Repr

/-- What is known about a loop besides its control flow: whether a phi computes a condition,
after how many iterations a terminator with that condition leaves the loop, where `-1` stands
for not knowing, and the numbers that say whether the loop is worth unrolling. -/
structure Analysis (κ : Type) where
  isPhi : κ → Bool
  iterations : κ → Bool → Option (BitVec 32)
  numInstructions : ℕ
  forceUnroll : Bool
  maxUnrollIterations : ℕ

/-- The number of iterations found for a terminator. -/
def Analysis.count (A : Analysis κ) (u : LoopTerminator κ) : Option (BitVec 32) :=
  A.iterations u.cond u.continueFromThen

/-- `LOOP_UNROLL_LIMIT`. -/
def loopUnrollLimit : ℕ := 96

/-- `is_loop_small_enough_to_unroll`. -/
def Analysis.isLoopSmallEnoughToUnroll (A : Analysis κ) (tripCount : ℕ) : Bool :=
  if tripCount > A.maxUnrollIterations then false
  else if A.forceUnroll then true
  else A.numInstructions * tripCount % 2 ^ 32 ≤ A.maxUnrollIterations * loopUnrollLimit % 2 ^ 32

/-- `ends_in_break`. -/
def Block.endsInBreak (b : Block ι) : Bool := b.jump == some .brk

namespace CfList

/-- Whether a list contains a jump other than the one at its end. -/
def containsOtherJump (l : CfList ι κ) : Bool := (l.setLastJump none).containsJump

/-- The branch of an `if` that continues, when the other one ends in a break: whether it is
the `then` branch. -/
def continueFromThen (t e : CfList ι κ) : Option Bool :=
  if t.lastBlock.endsInBreak then some false
  else if e.lastBlock.endsInBreak then some true
  else none

/-- `nir_is_trivial_loop_if`: an `if` contains no jump but the break that makes it a
terminator. -/
def isTrivialLoopIf (t e : CfList ι κ) : Bool :=
  match continueFromThen t e with
  | none => !t.containsJump && !e.containsJump
  | some true => !t.containsJump && !e.containsOtherJump
  | some false => !t.containsOtherJump && !e.containsJump

/-- The loop of `find_loop_terminators` over the nodes of the loop body.  `list_add` puts a
terminator in front of those found before. -/
def scanTerminators (A : Analysis κ) :
    ℕ → CfList ι κ → List (LoopTerminator κ) → Option (List (LoopTerminator κ))
  | _, .block _, found => some found
  | i, .nif _ c t e rest, found =>
      if !isTrivialLoopIf t e then none
      else
        match continueFromThen t e with
        | none => scanTerminators A (i + 1) rest found
        | some cft =>
            if A.isPhi c then none else scanTerminators A (i + 1) rest (⟨i, c, cft⟩ :: found)
  | i, .loop _ _ rest, found => scanTerminators A (i + 1) rest found

/-- `find_loop_terminators`. -/
def findLoopTerminators (A : Analysis κ) (body : CfList ι κ) :
    Option (List (LoopTerminator κ)) := do
  let found ← scanTerminators A 0 body []
  if found.isEmpty then none else some found

/-- The terminators and the trip count the analysis stores for a loop, if it finds them. -/
def loopInfo (A : Analysis κ) (body : CfList ι κ) :
    Option (List (LoopTerminator κ) × LoopInfo (LoopTerminator κ)) := do
  let terminators ← findLoopTerminators A body
  let info ← findTripCount A.count terminators
  some (terminators, info)

/-! ### Pieces of a loop body -/

/-- A list taken apart at one of its `if`s. -/
structure AtIf (ι κ : Type) where
  /-- The nodes before the `if`. -/
  header : CfList ι κ
  cond : κ
  thenList : CfList ι κ
  elseList : CfList ι κ
  /-- The nodes after the `if`. -/
  rest : CfList ι κ

/-- Take a list apart at its `if` number `i`, counting all the nodes that are not blocks. -/
def splitIf : ℕ → CfList ι κ → Option (AtIf ι κ)
  | 0, .nif b c t e rest => some ⟨.block b, c, t, e, rest⟩
  | i + 1, .nif b c t e rest => do
      let p ← rest.splitIf i
      some { p with header := .nif b c t e p.header }
  | i + 1, .loop b body rest => do
      let p ← rest.splitIf i
      some { p with header := .loop b body p.header }
  | _, _ => none

/-- The branch of the `if` from which the loop continues. -/
def AtIf.continueList (p : AtIf ι κ) (cft : Bool) : CfList ι κ :=
  if cft then p.thenList else p.elseList

/-- The branch of the `if` that ends in a break, without the break. -/
def AtIf.breakList (p : AtIf ι κ) (cft : Bool) : CfList ι κ :=
  (if cft then p.elseList else p.thenList).setLastJump none

/-- `loop_prepare_for_unroll` deletes a `continue` at the end of the loop. -/
def loopPrepareForUnroll (body : CfList ι κ) : CfList ι κ :=
  if body.lastBlock.jump = some .cont then body.setLastJump none else body

/-- Replace every terminator by its continue branch. -/
def removeTerminators : CfList ι κ → Option (CfList ι κ)
  | .block b => some (.block b)
  | .nif b c t e rest => do
      let rest' ← rest.removeTerminators
      match continueFromThen t e with
      | none => some (.nif b c t e rest')
      | some cft => do
          let l ← (CfList.block b).append (if cft then t else e)
          l.append rest'
  | .loop b body rest => do
      let rest' ← rest.removeTerminators
      some (.loop b body rest')

/-! ### Unrolling -/

/-- Insert `n` clones of the loop body and the header, in turn, at the end of a list. -/
def cloneTimes (loopBody header : CfList ι κ) : ℕ → CfList ι κ → Option (CfList ι κ)
  | 0, l => some l
  | n + 1, l => do
      let l ← l.append loopBody
      let l ← l.append header
      cloneTimes loopBody header n l

/-- `simple_unroll` of a loop with the block `b` before it and the nodes `rest` after it. -/
def simpleUnroll (limiting : LoopTerminator κ) (tripCount : ℕ) (b : Block ι)
    (body rest : CfList ι κ) : Option (CfList ι κ) := do
  let p ← (loopPrepareForUnroll body).splitIf limiting.index
  -- all but the limiting terminator are removed
  let header ← p.header.removeTerminators
  let after ← p.rest.removeTerminators
  let loopBody ← (p.continueList limiting.continueFromThen).append after
  let l ← (CfList.block b).append header
  let l ← cloneTimes loopBody header tripCount l
  let l ← l.append (p.breakList limiting.continueFromThen)
  l.append rest

/-- An `if` with the given continue branch and break branch, alone in a list. -/
def terminatorIf (c : κ) (cft : Bool) (continueList breakList : CfList ι κ) : CfList ι κ :=
  if cft then .nif {} c continueList breakList (.block {})
  else .nif {} c breakList continueList (.block {})

/-- The clones `complex_unroll` makes: `n` times the header and the loop body, each inserted
at the end of the continue branch of the terminator in the one before, and `last` inserted in
the innermost one.  The loop body is `start`, followed by the terminator. -/
def nestClones (header start : CfList ι κ) (c : κ) (cft : Bool)
    (continueList breakList last : CfList ι κ) : ℕ → Option (CfList ι κ)
  | 0 => some last
  | n + 1 => do
      let inner ← nestClones header start c cft continueList breakList last n
      let branch ← continueList.append inner
      let l ← header.append start
      l.append (terminatorIf c cft branch breakList)

/-- `complex_unroll` of a loop with the block `b` before it and the nodes `rest` after it,
when the terminator without a trip count comes first. -/
def complexUnrollSecond (limiting unlimit : LoopTerminator κ) (tripCount : ℕ) (b : Block ι)
    (body rest : CfList ι κ) : Option (CfList ι κ) := do
  let p ← (loopPrepareForUnroll body).splitIf unlimit.index
  let q ← p.rest.splitIf (limiting.index - unlimit.index - 1)
  -- the rest of the loop moves into the continue branch of the limiting terminator
  let branch ← (q.continueList limiting.continueFromThen).append q.rest
  let loopEnd ← q.header.append
    (terminatorIf q.cond limiting.continueFromThen branch
      (q.breakList limiting.continueFromThen))
  let continueList ← (p.continueList unlimit.continueFromThen).append loopEnd
  let l ← nestClones p.header (.block {}) p.cond unlimit.continueFromThen continueList
    (p.breakList unlimit.continueFromThen) (.block {}) (tripCount + 1)
  let l ← (CfList.block b).append l
  l.append rest

/-- `complex_unroll` when the limiting terminator comes first. -/
def complexUnrollFirst (limiting unlimit : LoopTerminator κ) (tripCount : ℕ) (b : Block ι)
    (body rest : CfList ι κ) : Option (CfList ι κ) := do
  let p ← (loopPrepareForUnroll body).splitIf limiting.index
  let q ← p.rest.splitIf (unlimit.index - limiting.index - 1)
  let start ← (p.continueList limiting.continueFromThen).append q.header
  let continueList ← (q.continueList unlimit.continueFromThen).append q.rest
  -- the code of the limiting break goes to the innermost continue branch
  let last ← p.header.append (p.breakList limiting.continueFromThen)
  let l ← nestClones p.header start q.cond unlimit.continueFromThen continueList
    (q.breakList unlimit.continueFromThen) last tripCount
  let l ← (CfList.block b).append l
  l.append rest

/-- `complex_unroll`. -/
def complexUnroll (limiting unlimit : LoopTerminator κ) (limitingTermSecond : Bool)
    (tripCount : ℕ) (b : Block ι) (body rest : CfList ι κ) : Option (CfList ι κ) :=
  if limitingTermSecond then complexUnrollSecond limiting unlimit tripCount b body rest
  else complexUnrollFirst limiting unlimit tripCount b body rest

/-- What `process_loops` does with the innermost loop it meets: `none` where the loop stays as
it is, and `some` of the result of unrolling it otherwise. -/
def processLoop (A : Analysis κ) (b : Block ι) (body rest : CfList ι κ) :
    Option (Option (CfList ι κ)) := do
  let (terminators, info) ← loopInfo A body
  let limiting ← info.limitingTerminator
  if !A.isLoopSmallEnoughToUnroll info.tripCount then none
  else if info.isTripCountKnown then some (simpleUnroll limiting info.tripCount b body rest)
  else
    match terminators with
    | [first, last] =>
        -- the list starts with the terminator found last
        let limitingTermSecond := last.index ≠ limiting.index
        let terminator := if limitingTermSecond then last else first
        if info.tripCount = 0 ∧ ¬ limitingTermSecond then
          some (simpleUnroll limiting info.tripCount b body rest)
        else
          some (complexUnroll limiting terminator limitingTermSecond info.tripCount b body rest)
    | _ => none

end CfList

end Nir
