import Mesa.Flow.Worklist

/-!
# Liveness of SSA defs

The function of `nir_liveness.c`: the defs of a function get their `live_index`, the sets of those
that are live at the starts and ends of blocks are found with a worklist, and two defs interfere if
the earlier one is live at the later one.
-/

namespace Nir.Liveness

open Flow.Worklist (Problem State pushHead)

/-! ### Functions -/

/-- A source of an instruction. -/
inductive Src where
  | ssa (d : ℕ)
  | reg (r : ℕ)
deriving DecidableEq

/-- A source of a phi, and the predecessor it is for. -/
structure PhiSrc where
  pred : ℕ
  src : Src

/-- A phi node. -/
structure Phi where
  dest : ℕ
  srcs : List PhiSrc

/-- An instruction, by the SSA defs it has and its sources. -/
structure Instr where
  isUndef : Bool
  defs : List ℕ
  srcs : List Src

/-- A block: the phis come first, and the condition is that of the if that follows. -/
structure Block where
  phis : List Phi
  instrs : List Instr
  successors : List ℕ
  predecessors : List ℕ
  condition : Option Src

/-- The blocks of a `nir_function_impl` in their order. -/
structure Function where
  blocks : List Block

/-- A phi as an instruction. -/
def Phi.instr (phi : Phi) : Instr := ⟨false, [phi.dest], phi.srcs.map PhiSrc.src⟩

/-- The source of a phi for a predecessor is the first one that is found. -/
def Phi.srcFrom (phi : Phi) (pred : ℕ) : Option Src :=
  (phi.srcs.find? (fun src => src.pred = pred)).map PhiSrc.src

/-- All instructions of a block. -/
def Block.all (block : Block) : List Instr := block.phis.map Phi.instr ++ block.instrs

/-- The defs of a list of instructions that are no `ssa_undef`, in order. -/
def indexed (l : List Instr) : List ℕ := l.flatMap (fun i => if i.isUndef then [] else i.defs)

namespace Function

variable (F : Function)

/-- The block with an index. -/
def block (b : ℕ) : Block := F.blocks.getD b ⟨[], [], [], [], none⟩

/-- The instruction at a position. -/
def At (p : ℕ × ℕ) (i : Instr) : Prop := (F.block p.1).all[p.2]? = some i

/-- The defs that get an index, in the order of `index_ssa_def`. -/
def indexedDefs : List ℕ := indexed (F.blocks.flatMap Block.all)

/-- The number of indices, of which 0 is for `ssa_undef`. -/
def numSsaDefs : ℕ := F.indexedDefs.length + 1

/-- The `live_index` of a def. -/
def liveIndex (d : ℕ) : ℕ := if d ∈ F.indexedDefs then F.indexedDefs.idxOf d + 1 else 0

/-! ### Live sets -/

/-- `set_src_live`: undefined variables are never live. -/
def setSrcLive (live : Finset ℕ) : Src → Finset ℕ
  | .reg _ => live
  | .ssa d => if F.liveIndex d = 0 then live else insert (F.liveIndex d) live

/-- `set_ssa_def_dead`. -/
def setSsaDefDead (live : Finset ℕ) (d : ℕ) : Finset ℕ := live.erase (F.liveIndex d)

/-- One instruction backwards. -/
def instrLive (i : Instr) (live : Finset ℕ) : Finset ℕ :=
  i.srcs.foldl F.setSrcLive (i.defs.foldl F.setSsaDefDead live)

/-- The set at the start of a block from the one at its end, which the condition of the following
if is live at as well. -/
def blockLive (b : ℕ) (liveOut : Finset ℕ) : Finset ℕ :=
  (F.block b).instrs.foldr F.instrLive
    ((F.block b).condition.toList.foldl F.setSrcLive liveOut)

/-- `propagate_across_edge`: the defs of the phis are dead, and then their sources are live. -/
def acrossEdge (pred succ : ℕ) (liveIn : Finset ℕ) : Finset ℕ :=
  ((F.block succ).phis.filterMap (fun phi => phi.srcFrom pred)).foldl F.setSrcLive
    (((F.block succ).phis.map Phi.dest).foldl F.setSsaDefDead liveIn)

/-- Liveness as data flow. -/
def problem : Problem ℕ ℕ where
  preds b := (F.block b).predecessors
  transfer := F.blockLive
  across := F.acrossEdge

/-- Every block is pushed at the head of the worklist, in order. -/
def initialWorklist : List ℕ := (List.range F.blocks.length).foldl pushHead []

/-- The live sets as `nir_live_ssa_defs_impl` leaves them: so many steps empty the worklist. -/
def liveSsaDefsImpl : State ℕ ℕ :=
  F.problem.step^[F.blocks.length * (F.numSsaDefs + 1)] (Problem.init F.initialWorklist)

/-! ### Interference -/

/-- A def with its instruction, which is at an index of a block. -/
structure SsaDef where
  name : ℕ
  block : ℕ
  instr : ℕ
deriving DecidableEq

/-- `search_for_use_after_instr`: a source of a later instruction of the block. -/
def searchForUseAfterInstr (start : ℕ × ℕ) (d : ℕ) : Bool :=
  ((F.block start.1).all.drop (start.2 + 1)).any (fun i => Src.ssa d ∈ i.srcs)

/-- `nir_ssa_def_is_live_at`. -/
def ssaDefIsLiveAt (live : State ℕ ℕ) (d : SsaDef) (instr : ℕ × ℕ) : Bool :=
  if F.liveIndex d.name ∈ live.stop instr.1 then
    true
  else if F.liveIndex d.name ∈ live.start instr.1 ∨ d.block = instr.1 then
    F.searchForUseAfterInstr instr d.name
  else
    false

/-- `nir_ssa_defs_interfere`. -/
def ssaDefsInterfere (live : State ℕ ℕ) (a b : SsaDef) : Bool :=
  if a.block = b.block ∧ a.instr = b.instr then
    true
  else if F.liveIndex a.name = 0 ∨ F.liveIndex b.name = 0 then
    false
  else if F.liveIndex a.name < F.liveIndex b.name then
    F.ssaDefIsLiveAt live a (b.block, b.instr)
  else
    F.ssaDefIsLiveAt live b (a.block, a.instr)

/-! ### Uses -/

/-- From a place in the block `b` with the given instructions behind it, control can get to a use of
`d` before `d` is defined again: a use by an instruction, by the condition of the if that follows
the block, or by a phi on an edge that leaves it. -/
inductive UsedFrom (d : ℕ) : ℕ → List Instr → Prop where
  | here {b : ℕ} {i : Instr} {rest : List Instr} : Src.ssa d ∈ i.srcs → UsedFrom d b (i :: rest)
  | next {b : ℕ} {i : Instr} {rest : List Instr} : d ∉ i.defs → UsedFrom d b rest →
      UsedFrom d b (i :: rest)
  | condition {b : ℕ} : (F.block b).condition = some (.ssa d) → UsedFrom d b []
  | phi {b c : ℕ} {phi : Phi} : c ∈ (F.block b).successors → phi ∈ (F.block c).phis →
      phi.srcFrom b = some (.ssa d) → UsedFrom d b []
  | edge {b c : ℕ} : c ∈ (F.block b).successors → (∀ phi ∈ (F.block c).phis, phi.dest ≠ d) →
      UsedFrom d c (F.block c).instrs → UsedFrom d b []

/-- A use of `d` beyond the block `b`. -/
def UsedOut (d b : ℕ) : Prop :=
  ∃ c ∈ (F.block b).successors,
    (∃ phi ∈ (F.block c).phis, phi.srcFrom b = some (.ssa d)) ∨
    ((∀ phi ∈ (F.block c).phis, phi.dest ≠ d) ∧ F.UsedFrom d c (F.block c).instrs)

/-- The instructions behind a position.  The phis of a block are assigned together, so that all
other instructions are behind each of them. -/
def behind (p : ℕ × ℕ) : List Instr :=
  (F.block p.1).instrs.drop (p.2 + 1 - (F.block p.1).phis.length)

/-- The def `a` has a use that control can get to from the instruction of `b`. -/
def UsedAfter (a b : SsaDef) : Prop := F.UsedFrom a.name b.block (F.behind (b.block, b.instr))

/-- The edges go both ways, and no def has two instructions. -/
structure Valid : Prop where
  edges : ∀ b c, b ∈ (F.block c).predecessors ↔ c ∈ (F.block b).successors
  unique : ∀ {p q i j d}, F.At p i → F.At q j → d ∈ i.defs → d ∈ j.defs → p = q

/-- The def is one of its instruction, which is no `ssa_undef`. -/
def IsDef (d : SsaDef) : Prop :=
  ∃ i, F.At (d.block, d.instr) i ∧ i.isUndef = false ∧ d.name ∈ i.defs

end Function

end Nir.Liveness
