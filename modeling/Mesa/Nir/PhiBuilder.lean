import Mathlib.Data.List.Sort
import Mesa.Nir.Dominance

/-!
# The phi builder

The functions of `nir_phi_builder.c`: a value is added with the blocks that define it, its
definitions are set and its defs are asked for, and at the end the phis that this has made get their
sources.

A loop gets fuel, and a function without a result has used it up.
-/

namespace Nir

/-- A function with dominance metadata, which `nir_calc_dominance_impl` has found with enough fuel,
and the order of `set_foreach` on the dominance frontiers. -/
structure DomFunction (ι κ : Type) extends FunctionImpl ι κ where
  dom : DomInfo
  valid : ∃ s₀ fuel, 2 * toFunctionImpl.numBlocks < fuel ∧
    toFunctionImpl.calcDominanceImpl fuel s₀ = some dom
  frontier : ℕ → List ℕ
  mem_frontier : ∀ {b x}, x ∈ frontier b ↔ x ∈ dom.domFrontier b

namespace PhiBuilder

/-- A `nir_ssa_def`: one of the user of the builder, or the `n`th that the builder has created for
the value `v`. -/
inductive SsaDef (δ : Type) where
  | user (d : δ)
  | undef (v n : ℕ)
  | phi (v n : ℕ)
deriving DecidableEq

/-- An entry of the array `defs` of a value. -/
inductive Slot (δ : Type) where
  | null
  | needsPhi
  | ssa (x : SsaDef δ)

/-- A comparison with `NULL`. -/
def Slot.isNull {δ : Type} : Slot δ → Bool
  | null => true
  | _ => false

/-- A `nir_phi_instr` with its destination, its block and its sources. -/
structure PhiInstr (δ : Type) where
  dest : SsaDef δ
  block : ℕ
  srcs : List (ℕ × SsaDef δ)

/-- A `nir_phi_builder_value`, with the number of instructions created for it. -/
structure Value (δ : Type) where
  defs : ℕ → Slot δ
  phis : List (PhiInstr δ)
  created : ℕ

/-- A `nir_phi_builder`: its values, and the stamps of the worklist. -/
structure Builder (δ : Type) where
  iterCount : ℕ
  work : ℕ → ℕ
  values : List (Value δ)

variable {ι κ δ : Type}

/-- `nir_phi_builder_create`. -/
def create : Builder δ := ⟨0, fun _ => 0, []⟩

/-! ### Adding a value -/

/-- The state while the phis of a value are placed: the worklist `W` from `w_start` to `w_end`, with
its stamps, and the array `defs`. -/
structure Placing (δ : Type) where
  defs : ℕ → Slot δ
  work : ℕ → ℕ
  queue : List ℕ

/-- A block that defines the value goes to the worklist. -/
def pushDef (iterCount : ℕ) (s : Placing δ) (i : ℕ) : Placing δ :=
  { s with
    queue := if s.work i < iterCount then s.queue ++ [i] else s.queue
    work := Function.update s.work i iterCount }

/-- A block of a dominance frontier needs a phi, and goes to the worklist. -/
def pushNext (endBlock iterCount : ℕ) (s : Placing δ) (next : ℕ) : Placing δ :=
  if next = endBlock then s
  else if (s.defs next).isNull then
    let defs := Function.update s.defs next .needsPhi
    if s.work next < iterCount then
      ⟨defs, Function.update s.work next iterCount, s.queue ++ [next]⟩
    else { s with defs := defs }
  else s

namespace Builder

variable (F : DomFunction ι κ)

/-- The worklist until it is empty. -/
def place (iterCount : ℕ) : ℕ → Placing δ → Option (Placing δ)
  | 0, _ => none
  | fuel + 1, s =>
      match s.queue with
      | [] => some s
      | cur :: queue =>
          place iterCount fuel
            ((F.frontier cur).foldl (pushNext F.numBlocks iterCount) { s with queue := queue })

/-- `nir_phi_builder_add_value`, with the bits of `defs` that are set. -/
def addValue (fuel : ℕ) (pb : Builder δ) (defs : Finset ℕ) : Option (Builder δ) := do
  let iterCount := pb.iterCount + 1
  let start := ((List.range F.numBlocks).filter (· ∈ defs)).foldl (pushDef iterCount)
    ⟨fun _ => .null, pb.work, []⟩
  let s ← place F iterCount fuel start
  some ⟨iterCount, s.work, pb.values ++ [⟨s.defs, [], 0⟩]⟩

end Builder

/-! ### Definitions of blocks -/

namespace Value

/-- `nir_phi_builder_value_set_block_def`. -/
def setBlockDef (val : Value δ) (block : ℕ) (x : SsaDef δ) : Value δ :=
  { val with defs := Function.update val.defs block (.ssa x) }

/-- The first loop of `nir_phi_builder_value_get_block_def`: up the tree to a block with an entry
that is not `NULL`. -/
def crawl (immDom : ℕ → Option ℕ) (defs : ℕ → Slot δ) : ℕ → Option ℕ → Option (Option ℕ)
  | 0, _ => none
  | _ + 1, none => some none
  | fuel + 1, some dom =>
      if (defs dom).isNull then crawl immDom defs fuel (immDom dom) else some (some dom)

/-- The def of the block where the crawl has ended, which is new if there is none yet. -/
def defAt (v : ℕ) (val : Value δ) : Option ℕ → SsaDef δ × Value δ
  | none => (.undef v val.created, { val with created := val.created + 1 })
  | some dom =>
      match val.defs dom with
      | .ssa x => (x, val)
      | _ =>
          let x := .phi v val.created
          (x, { defs := Function.update val.defs dom (.ssa x)
                phis := val.phis ++ [⟨x, dom, []⟩]
                created := val.created + 1 })

/-- The last loop of `nir_phi_builder_value_get_block_def`. -/
def stash (immDom : ℕ → Option ℕ) (x : SsaDef δ) :
    ℕ → Option ℕ → (ℕ → Slot δ) → Option (ℕ → Slot δ)
  | 0, _, _ => none
  | _ + 1, none, defs => some defs
  | fuel + 1, some dom, defs =>
      if (defs dom).isNull then
        stash immDom x fuel (immDom dom) (Function.update defs dom (.ssa x))
      else some defs

variable (F : DomFunction ι κ)

/-- `nir_phi_builder_value_get_block_def`, of the value `v`. -/
def getBlockDef (fuel v : ℕ) (val : Value δ) (block : ℕ) : Option (SsaDef δ × Value δ) := do
  let dom ← crawl F.dom.immDom val.defs fuel (some block)
  let r := defAt v val dom
  let defs ← stash F.dom.immDom r.1 fuel (some block) r.2.defs
  some (r.1, { r.2 with defs := defs })

/-! ### Sources of the phis -/

/-- The predecessors of a block, sorted by `compare_blocks`. -/
def sortedPreds (block : ℕ) : List ℕ := (F.predecessors block).mergeSort (· ≤ ·)

/-- One more source of a phi. -/
def addSrc (fuel v : ℕ) (r : List (ℕ × SsaDef δ) × Value δ) (pred : ℕ) :
  Option (List (ℕ × SsaDef δ) × Value δ)
  := do
  let r' ← r.2.getBlockDef F fuel v pred
  some (r.1 ++ [(pred, r'.1)], r'.2)

/-- The phis of a value get their sources until the list is empty, and are inserted in front of
those that have been inserted. -/
def finish (fuel v : ℕ) : ℕ → Value δ × List (PhiInstr δ) → Option (Value δ × List (PhiInstr δ))
  | 0, _ => none
  | n + 1, (val, inserted) =>
      match val.phis with
      | [] => some (val, inserted)
      | phi :: phis => do
          let r ← (sortedPreds F phi.block).foldlM (addSrc F fuel v) ([], { val with phis := phis })
          finish fuel v n (r.2, { phi with srcs := r.1 } :: inserted)

end Value

/-! ### Using a builder -/

/-- A call of one of the functions, with the index of the value. -/
inductive Call (δ : Type) where
  | addValue (defs : Finset ℕ)
  | setBlockDef (v block : ℕ) (d : δ)
  | getBlockDef (v block : ℕ)

/-- The blocks that define the value that a call adds. -/
def Call.added : Call δ → Option (Finset ℕ)
  | .addValue defs => some defs
  | _ => none

/-- The blocks that define the values that some calls have added. -/
def addedValues (calls : List (Call δ)) : List (Finset ℕ) := calls.filterMap Call.added

/-- How the builder is meant to be used: the definitions of a value are in its blocks, an SSA def is
in one block, and when a def is asked for in a block, the definitions in the blocks that strictly
dominate it have been set, as in a walk of the blocks in dominance order. -/
structure Usage (F : DomFunction ι κ) (δ : Type) where
  calls : List (Call δ)
  set : ∀ {before after v b d}, calls = before ++ .setBlockDef v b d :: after →
    ∃ defs, (addedValues before)[v]? = some defs ∧ b ∈ defs ∧ b < F.numBlocks
  get : ∀ {before after v b}, calls = before ++ .getBlockDef v b :: after →
    v < (addedValues before).length ∧ b < F.numBlocks
  block : ∀ {v b v' b' d}, .setBlockDef v b d ∈ calls → .setBlockDef v' b' d ∈ calls → b = b'
  ordered : ∀ {before after v b}, calls = before ++ .getBlockDef v b :: after → F.Reachable b →
    ∀ {c d}, .setBlockDef v c d ∈ after → c ≠ b → ¬F.Dom c b

namespace Builder

variable (F : DomFunction ι κ)

/-- A def of a value is asked for. -/
def getBlockDef (fuel : ℕ) (pb : Builder δ) (v block : ℕ) : Option (SsaDef δ × Builder δ) := do
  let val ← pb.values[v]?
  let r ← val.getBlockDef F fuel v block
  some (r.1, { pb with values := pb.values.set v r.2 })

/-- The effect of a call. -/
def call (fuel : ℕ) (pb : Builder δ) : Call δ → Option (Builder δ)
  | .addValue defs => pb.addValue F fuel defs
  | .setBlockDef v block d => do
      let val ← pb.values[v]?
      some { pb with values := pb.values.set v (val.setBlockDef block (.user d)) }
  | .getBlockDef v block => do
      let r ← pb.getBlockDef F fuel v block
      some r.2

/-- The effect of some calls. -/
def run (fuel : ℕ) (pb : Builder δ) (calls : List (Call δ)) : Option (Builder δ) :=
  calls.foldlM (call F fuel) pb

/-- `nir_phi_builder_finish`: the phis that are inserted, value by value. -/
def finish (fuel : ℕ) (pb : Builder δ) : Option (List (PhiInstr δ)) :=
  pb.values.zipIdx.foldlM
    (fun inserted p => do
      let r ← Value.finish F fuel p.2 fuel (p.1, inserted)
      some r.2)
    []

end Builder

/-! ### Execution -/

/-- The visit of a block in which a def was executed, counted from the start, and the definition that
was executed; nothing for an undefined value. -/
abbrev Instance (δ : Type) := Option (ℕ × δ)

/-- What the SSA defs hold. -/
abbrev Env (δ : Type) := SsaDef δ → Instance δ

variable [DecidableEq δ]

/-- The definition a call sets in a block. -/
def Call.defIn (block : ℕ) : Call δ → Option δ
  | .setBlockDef _ b d => if b = block then some d else none
  | _ => none

/-- The definition of a value that a call sets in a block. -/
def Call.defOf (v block : ℕ) : Call δ → Option δ
  | .setBlockDef w b d => if w = v ∧ b = block then some d else none
  | _ => none

/-- The definitions among some calls that are in a block. -/
def defsIn (calls : List (Call δ)) (block : ℕ) : List δ := calls.filterMap (Call.defIn block)

/-- The last definition of a value in a block among some calls. -/
def lastDef (calls : List (Call δ)) (v block : ℕ) : Option δ :=
  (calls.filterMap (Call.defOf v block)).getLast?

/-- Definitions are executed in a visit. -/
def execDefs (visit : ℕ) (ds : List δ) (E : Env δ) : Env δ :=
  ds.foldl (fun E d => Function.update E (.user d) (some (visit, d))) E

/-- The source of a phi for a predecessor. -/
def PhiInstr.srcFrom (phi : PhiInstr δ) (pred : ℕ) : Option (SsaDef δ) :=
  (phi.srcs.find? (fun src => src.1 = pred)).map Prod.snd

/-- The phis of a block are executed at once, when it is entered from the last block of a path. -/
def enter (phis : List (PhiInstr δ)) (block : ℕ) (l : List ℕ) (E : Env δ) : Env δ :=
  fun x =>
    match phis.find? (fun phi => phi.block = block ∧ phi.dest = x), l with
    | some phi, pred :: _ => ((phi.srcFrom pred).map E).getD none
    | _, _ => E x

/-- What the defs hold at the end of a path, the blocks of which come the last one first. -/
def runPath (phis : List (PhiInstr δ)) (calls : List (Call δ)) : List ℕ → Env δ
  | [] => fun _ => none
  | b :: l => execDefs l.length (defsIn calls b) (enter phis b l (runPath phis calls l))

/-- What the defs hold in the last block of a path, after those of its definitions that belong to the
calls `before`. -/
def runTo (phis : List (PhiInstr δ)) (calls before : List (Call δ)) (b : ℕ) (l : List ℕ) : Env δ :=
  execDefs l.length (defsIn before b) (enter phis b l (runPath phis calls l))

/-- The definition of a value that was executed most recently on a path. -/
def mostRecent (calls : List (Call δ)) (v : ℕ) : List ℕ → Instance δ
  | [] => none
  | b :: l =>
      match lastDef calls v b with
      | some d => some (l.length, d)
      | none => mostRecent calls v l

/-- The same in the last block of a path, after the calls `before`. -/
def mostRecentTo (calls before : List (Call δ)) (v b : ℕ) (l : List ℕ) : Instance δ :=
  match lastDef before v b with
  | some d => some (l.length, d)
  | none => mostRecent calls v l

end PhiBuilder

end Nir
