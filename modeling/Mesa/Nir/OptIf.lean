import Mesa.Nir.ControlFlow

/-!
# Peeling the first `if` of a loop

A model of `nir_opt_if.c`.  If the first `if` of a loop tests a phi of the loop header that is
one constant on entry and another one after each pass, then one half of the `if` is moved above
the loop, and the other half to the end of the loop.

The code is modelled in the form it has once phis are lowered to registers: a phi is an
instruction that copies its register, and the blocks it has sources from end by writing the
register.  What the pass reads of the instructions is given by an `InstrInfo`.

The functions return `none` where an assertion of the source fails or a null pointer is
dereferenced.
-/

namespace Nir

variable {ι δ S : Type}

/-- The source of a condition: an SSA value, or the register that took its place. -/
structure Src (δ : Type) where
  value : δ
  isSsa : Bool := true
deriving DecidableEq, Repr

/-- A register holds the value it took the place of. -/
def Interp.onSrcs (I : Interp ι δ S) : Interp ι (Src δ) S where
  exec := I.exec
  test c := I.test c.value

/-- What the pass reads of an instruction: the value it defines, and, if it is a phi with two
constant sources, the constants from the block before the loop and from the continue block. -/
structure InstrInfo (ι δ : Type) where
  def? : ι → Option δ
  phi? : ι → Option (UInt32 × UInt32)

/-- The constants of a value, if it is defined by a phi of the block with constant sources. -/
def InstrInfo.headerPhi [DecidableEq δ] (T : InstrInfo ι δ) (header : Block ι) (d : δ) :
    Option (UInt32 × UInt32) :=
  header.instrs.findSome? fun i => if T.def? i = some d then T.phi? i else none

namespace CfList

variable {κ : Type}

/-! ### Continue blocks -/

/-- The blocks of a list, outside the loops in it, that end in a `continue`. -/
def continueJumps : CfList ι κ → List (Block ι)
  | .block b => [b].filter (·.jump = some .cont)
  | .nif b _ t e rest =>
      [b].filter (·.jump = some .cont) ++ t.continueJumps ++ e.continueJumps ++ rest.continueJumps
  | .loop b _ rest => [b].filter (·.jump = some .cont) ++ rest.continueJumps

/-- The predecessors of the header of a loop inside the loop: the blocks that end in a
`continue`, and the last block unless it ends in a jump. -/
def continueBlocks (body : CfList ι κ) : List (Block ι) :=
  body.continueJumps ++ [body.lastBlock].filter (·.jump = none)

/-- Whether a block of the list, at any depth, ends in a jump. -/
def endsInJump : CfList ι κ → Bool
  | .block b => b.jump.isSome
  | .nif b _ t e rest => b.jump.isSome || t.endsInJump || e.endsInJump || rest.endsInJump
  | .loop b body rest => b.jump.isSome || body.endsInJump || rest.endsInJump

/-! ### Insertion -/

/-- `nir_cf_reinsert` at `nir_after_block_before_jump` of the last block. -/
def insertBeforeLastJump (l k : CfList ι κ) : Option (CfList ι κ) := do
  let l' ← (l.setLastJump none).append k
  l'.append (.block ⟨[], l.lastBlock.jump⟩)

/-- `nir_cf_reinsert` of a block before the jump of a block that ends in a `continue`. -/
def insertIntoBlock (h b : Block ι) : Option (Block ι) :=
  if b.jump = some .cont then do
    let b' ← Block.stitch ⟨b.instrs, none⟩ h
    b'.stitch ⟨[], some .cont⟩
  else some b

/-- `nir_cf_reinsert` of a block at `nir_after_block_before_jump` of the blocks that end in a
`continue`. -/
def insertBeforeContinue (h : Block ι) : CfList ι κ → Option (CfList ι κ)
  | .block b => (insertIntoBlock h b).map .block
  | .nif b c t e rest => do
      let b ← insertIntoBlock h b
      let t ← t.insertBeforeContinue h
      let e ← e.insertBeforeContinue h
      let rest ← rest.insertBeforeContinue h
      some (.nif b c t e rest)
  | .loop b body rest => do
      let b ← insertIntoBlock h b
      let rest ← rest.insertBeforeContinue h
      some (.loop b body rest)

/-- A loop, and what follows it, after the last block of a list. -/
def appendLoop : CfList ι κ → CfList ι κ → CfList ι κ → CfList ι κ
  | .block b, body, rest => .loop b body rest
  | .nif b c t e l, body, rest => .nif b c t e (l.appendLoop body rest)
  | .loop b body' l, body, rest => .loop b body' (l.appendLoop body rest)

/-! ### The pass -/

variable [DecidableEq δ]

/-- The values defined in a list. -/
def defs (T : InstrInfo ι δ) : CfList ι κ → List δ
  | .block b => b.instrs.filterMap T.def?
  | .nif b _ t e rest => b.instrs.filterMap T.def? ++ t.defs T ++ e.defs T ++ rest.defs T
  | .loop b body rest => b.instrs.filterMap T.def? ++ body.defs T ++ rest.defs T

/-- `nir_lower_ssa_defs_to_regs_block`, as far as conditions are concerned: those in `ds` are
read from registers. -/
def lowerDefs (ds : List δ) : CfList ι (Src δ) → CfList ι (Src δ)
  | .block b => .block b
  | .nif b c t e rest =>
      .nif b ⟨c.value, c.isSsa && c.value ∉ ds⟩ (t.lowerDefs ds) (e.lowerDefs ds)
        (rest.lowerDefs ds)
  | .loop b body rest => .loop b (body.lowerDefs ds) (rest.lowerDefs ds)

/-- The insertion of the header and then of the continue list into the continue block.

Where the continue block ends in a `continue`, the first insertion splits the block before the
jump and merges what is left of it into the block before it.  The second insertion, unless there
is nothing to insert, then asks for the node after a block that is no longer in any list. -/
def insertAtContinue (header : Block ι) (continueList afterIf : CfList ι κ) :
    Option (CfList ι κ) :=
  if afterIf.lastBlock.jump.isNone then do
    let body ← afterIf.insertBeforeLastJump (.block header)
    body.insertBeforeLastJump continueList
  else if continueList.isEmpty then afterIf.insertBeforeContinue header
  else none

/-- The second half of `opt_peel_loop_initial_if`, for a loop with body
`header; if … ; afterIf`.  The header and the entry list are put above the loop, and the header
and the continue list into the continue block. -/
def peel (b header : Block ι) (entryList continueList afterIf rest : CfList ι κ) :
    Option (CfList ι κ) := do
  let before ← (CfList.block b).append (.block header)
  let before ← before.append entryList
  let body ← insertAtContinue header continueList afterIf
  some (before.appendLoop body rest)

/-- The list of an `if` that is run when the condition is `v`. -/
def half (v : Bool) (t e : CfList ι κ) : CfList ι κ := bif v then t else e

/-- `opt_peel_loop_initial_if`, for a loop between the block `b` and the list `rest`. -/
def optPeelLoopInitialIf (T : InstrInfo ι δ) (b : Block ι) (body rest : CfList ι (Src δ)) :
    Option (CfList ι (Src δ)) :=
  if b.jump.isSome then none
  else if body.continueBlocks.length ≠ 1 then some (.loop b body rest)
  else
    match body with
    | .nif header c t e afterIf =>
        if !c.isSsa then none
        else
          match T.headerPhi header c.value with
          | none => some (.loop b body rest)
          | some (entryVal, continueVal) =>
              if (entryVal != 0) = (continueVal != 0) then some (.loop b body rest)
              else
                let continueList := half (continueVal != 0) t e
                let entryList := half (continueVal == 0) t e
                let ds := (CfList.nif header c t e (.block {})).defs T
                if entryList.endsInJump then some (.loop b body rest)
                else
                  peel b header (entryList.lowerDefs ds) (continueList.lowerDefs ds)
                    (afterIf.lowerDefs ds) rest
    | _ => some (.loop b body rest)

/-- `opt_if_cf_list`, for the body of a function. -/
def optIfCfList (T : InstrInfo ι δ) : CfList ι (Src δ) → Option (CfList ι (Src δ))
  | .block b => some (.block b)
  | .nif b c t e rest => do
      let t ← t.optIfCfList T
      let e ← e.optIfCfList T
      let rest ← rest.optIfCfList T
      some (.nif b c t e rest)
  | .loop b body rest => do
      let body ← body.optIfCfList T
      let rest ← rest.optIfCfList T
      optPeelLoopInitialIf T b body rest

end CfList

end Nir
