import Mesa.Nir.ControlFlow

/-!
# Lowering of returns

A model of `nir_lower_returns.c`.  The pass replaces returns by stores to a flag and, inside a
loop, by breaks, and makes the code that follows depend on the flag.  It walks a list
backwards, so that what follows a node has been lowered when the node is.

A block without predecessors is deleted, together with everything after it in its list.
Whether the first block of a list has predecessors depends on where the list stands, and is an
argument here.  The function returns `none` where an assertion of the source fails.

The functions modelled have no phis, as is the case before variables are lowered to SSA form.
-/

namespace Nir

variable {ι κ S : Type}

/-! ### The return flag -/

/-- Instructions, and stores to the return flag. -/
inductive FlagInstr (ι : Type) where
  | instr (i : ι)
  | storeFlag (v : Bool)
deriving DecidableEq, Repr

/-- Conditions, and the return flag. -/
inductive FlagCond (κ : Type) where
  | cond (c : κ)
  | flag
deriving DecidableEq, Repr

/-- The state with the return flag. -/
def Interp.withFlag (I : Interp ι κ S) : Interp (FlagInstr ι) (FlagCond κ) (S × Bool) where
  exec
    | .instr i, (s, f) => (I.exec i s, f)
    | .storeFlag v, (s, _) => (s, v)
  test
    | .cond c, (s, _) => I.test c s
    | .flag, (_, f) => f

/-- The block in a function with a return flag. -/
def Block.withFlag (b : Block ι) : Block (FlagInstr ι) := ⟨b.instrs.map .instr, b.jump⟩

/-! ### Edges of the control-flow graph -/

namespace CfList

/-- Whether control can go from the end of a list to what follows it. -/
def hasNextEdge (l : CfList ι κ) : Bool := l.lastBlock.jump.isNone

/-- Whether a block of the list, outside the loops in it, ends in the jump `j`. -/
def hasJump (j : Jump) : CfList ι κ → Bool
  | .block b => b.jump == some j
  | .nif b _ t e rest => b.jump == some j || t.hasJump j || e.hasJump j || rest.hasJump j
  | .loop b _ rest => b.jump == some j || rest.hasJump j

/-- Whether control can go from the body of a loop back to its start. -/
def hasBackEdge (body : CfList ι κ) : Bool := body.hasNextEdge || body.hasJump .cont

/-! ### The pass -/

/-- The state of the pass: whether the flag variable has been created, and
`has_predicated_return`. -/
structure ReturnsState where
  returnFlag : Bool
  hasPredicatedReturn : Bool
deriving DecidableEq, Repr

/-- A lowered list, whether there has been progress, and the state. -/
abbrev Lowered (ι κ : Type) : Type := CfList (FlagInstr ι) (FlagCond κ) × Bool × ReturnsState

/-- `predicate_following`, for the code that follows a node. -/
def predicateFollowing (inLoop returnFlag : Bool)
    (following : CfList (FlagInstr ι) (FlagCond κ)) :
    Option (CfList (FlagInstr ι) (FlagCond κ)) :=
  if following.isEmpty then some following
  else if !returnFlag then none
  else if inLoop then some (.nif {} .flag (.block ⟨[], some .brk⟩) (.block {}) following)
  else some (.nif {} .flag (.block {}) following (.block {}))

/-- `lower_returns_in_block`, for the first block of a list.  The second argument says whether
the block has predecessors, which may depend on the list. -/
def lowerReturnsInBlock (inLoop : Bool)
    (hasPredecessors : CfList (FlagInstr ι) (FlagCond κ) → Bool)
    (l : CfList (FlagInstr ι) (FlagCond κ)) (st : ReturnsState) : Option (Lowered ι κ) :=
  if !hasPredecessors l then
    if l.isEmpty then some (l, false, st) else some (.block {}, true, st)
  else if l.firstBlock.jump = some .ret then
    let instrs := l.firstBlock.instrs ++ [.storeFlag true]
    let st := { st with returnFlag := true }
    if inLoop then some (l.setFirstBlock ⟨instrs, some .brk⟩, true, st)
    else
      match l with
      | .block _ => some (.block ⟨instrs, none⟩, true, st)
      | _ => none
  else some (l, false, st)

/-- What `lower_returns_in_if` does with what follows an `if`, once its branches have been
lowered.  The arguments are those of the `if`, whether there has been progress in either
branch, and the code that follows. -/
def finishIf (inLoop : Bool) (st : ReturnsState) (b : Block ι) (c : κ)
    (t : CfList (FlagInstr ι) (FlagCond κ)) (thenProgress : Bool)
    (e : CfList (FlagInstr ι) (FlagCond κ)) (elseProgress : Bool)
    (following : CfList (FlagInstr ι) (FlagCond κ)) :
    Option (CfList (FlagInstr ι) (FlagCond κ)) :=
  if (thenProgress || elseProgress) && !inLoop then
    if st.hasPredicatedReturn then do
      let following ← predicateFollowing inLoop st.returnFlag following
      some (.nif b.withFlag (.cond c) t e following)
    else if thenProgress && elseProgress then
      some (.nif b.withFlag (.cond c) t e (.block {}))
    else if thenProgress then do
      let e ← e.append following
      some (.nif b.withFlag (.cond c) t e (.block {}))
    else do
      let t ← t.append following
      some (.nif b.withFlag (.cond c) t e (.block {}))
  else some (.nif b.withFlag (.cond c) t e following)

/-- What `lower_returns_in_loop` does with what follows a loop, once its body has been
lowered. -/
def finishLoop (inLoop : Bool) (st : ReturnsState) (loopProgress : Bool)
    (following : CfList (FlagInstr ι) (FlagCond κ)) :
    Option (CfList (FlagInstr ι) (FlagCond κ)) :=
  if loopProgress then predicateFollowing inLoop st.returnFlag following else some following

/-- `lower_returns_in_cf_list`, with `lower_returns_in_if` and `lower_returns_in_loop`. -/
def lowerReturns (inLoop : Bool) (hasPredecessors : CfList (FlagInstr ι) (FlagCond κ) → Bool) :
    CfList ι κ → ReturnsState → Option (Lowered ι κ)
  | .block b, st => lowerReturnsInBlock inLoop hasPredecessors (.block b.withFlag) st
  | .nif b c t e rest, st => do
      let (following, progress, st) ←
        lowerReturns inLoop (fun _ => t.hasNextEdge || e.hasNextEdge) rest st
      let hasPredicatedReturn := st.hasPredicatedReturn
      let (t, thenProgress, st) ← lowerReturns inLoop (fun _ => b.jump.isNone) t
        { st with hasPredicatedReturn := false }
      let (e, elseProgress, st) ← lowerReturns inLoop (fun _ => b.jump.isNone) e st
      let l ← finishIf inLoop st b c t thenProgress e elseProgress following
      let ifProgress := thenProgress || elseProgress
      let (l, blockProgress, st) ← lowerReturnsInBlock inLoop hasPredecessors l
        { st with hasPredicatedReturn := ifProgress || hasPredicatedReturn }
      some (l, progress || ifProgress || blockProgress, st)
  | .loop b body rest, st => do
      let (following, progress, st) ← lowerReturns inLoop (fun _ => body.hasJump .brk) rest st
      let (body, loopProgress, st) ←
        lowerReturns true (fun body => b.jump.isNone || body.hasBackEdge) body st
      let following ← finishLoop inLoop st loopProgress following
      let (l, blockProgress, st) ← lowerReturnsInBlock inLoop hasPredecessors
        (.loop b.withFlag body following)
        { st with hasPredicatedReturn := loopProgress || st.hasPredicatedReturn }
      some (l, progress || loopProgress || blockProgress, st)

/-- `nir_lower_returns_impl`.  The flag is cleared at the start of the function. -/
def lowerReturnsImpl (body : CfList ι κ) : Option (CfList (FlagInstr ι) (FlagCond κ)) := do
  let (l, _, st) ← lowerReturns false (fun _ => true) body ⟨false, false⟩
  if st.returnFlag then
    some (l.setFirstBlock { l.firstBlock with instrs := .storeFlag false :: l.firstBlock.instrs })
  else some l

end CfList

end Nir
