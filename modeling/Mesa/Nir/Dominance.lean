import Mathlib.Data.Finset.Insert
import Mesa.Nir.BlockGraph

/-!
# The dominance tree

The functions of `nir_dominance.c`: the immediate dominators of the blocks are found by passes over
the blocks until nothing changes, then come the dominance frontiers, the children in the dominance
tree, and the indices of the blocks in a walk of the tree.

A loop or a recursion gets fuel, and a function without a result has used up its fuel or has
followed a `NULL` pointer.
-/

namespace Nir

/-- The fields of the blocks of a function that are about dominance. -/
structure DomInfo where
  immDom : ℕ → Option ℕ
  domFrontier : ℕ → Finset ℕ
  domChildren : ℕ → List ℕ
  domPreIndex : ℕ → ℕ
  domPostIndex : ℕ → ℕ

/-- `init_block`, where the start block is the block 0. -/
def initBlock (s : DomInfo) (block : ℕ) : DomInfo :=
  { s with
    immDom := Function.update s.immDom block (if block = 0 then some block else none)
    domFrontier := Function.update s.domFrontier block ∅ }

/-! ### Immediate dominators -/

/-- The inner loops of `intersect`: go up the tree from `b1` until its index is not greater than
that of `b2`. -/
def climb (immDom : ℕ → Option ℕ) : ℕ → ℕ → ℕ → Option ℕ
  | 0, _, _ => none
  | fuel + 1, b1, b2 =>
      if b1 > b2 then do
        let d ← immDom b1
        climb immDom fuel d b2
      else some b1

/-- `intersect`. -/
def intersect (immDom : ℕ → Option ℕ) : ℕ → ℕ → ℕ → Option ℕ
  | 0, _, _ => none
  | fuel + 1, b1, b2 =>
      if b1 = b2 then some b1
      else do
        let b1' ← climb immDom fuel b1 b2
        let b2' ← climb immDom fuel b2 b1'
        intersect immDom fuel b1' b2'

/-- The `new_idom` of `calc_dominance` after one more predecessor. -/
def joinIdom (fuel : ℕ) (immDom : ℕ → Option ℕ) (newIdom : Option ℕ) (pred : ℕ) :
  Option (Option ℕ)
  :=
  if (immDom pred).isSome then
    match newIdom with
    | some d => do
        let d' ← intersect immDom fuel pred d
        some (some d')
    | none => some (some pred)
  else some newIdom

namespace FunctionImpl

variable {ι κ : Type} (impl : FunctionImpl ι κ)

/-- `calc_dominance`, for the blocks other than the start block, and `progress`. -/
def calcDominance (fuel : ℕ) (r : (ℕ → Option ℕ) × Bool) (block : ℕ) :
  Option ((ℕ → Option ℕ) × Bool)
  := do
  let newIdom ← (impl.predecessors block).foldlM (joinIdom fuel r.1) none
  if r.1 block ≠ newIdom then some (Function.update r.1 block newIdom, true) else some r

/-- The indices of the blocks other than the start block. -/
def otherBlocks : List ℕ := List.range' 1 (impl.numBlocks - 1)

/-- The passes while there is progress. -/
def calcPasses (fuel : ℕ) : ℕ → (ℕ → Option ℕ) → Option (ℕ → Option ℕ)
  | 0, _ => none
  | n + 1, immDom => do
      let r ← impl.otherBlocks.foldlM (impl.calcDominance fuel) (immDom, false)
      if r.2 then calcPasses fuel n r.1 else some r.1

/-! ### Dominance frontiers -/

/-- The inner loop of `calc_dom_frontier`. -/
def walkFrontier (immDom : ℕ → Option ℕ) (block : ℕ) :
    ℕ → ℕ → (ℕ → Finset ℕ) → Option (ℕ → Finset ℕ)
  | 0, _, _ => none
  | fuel + 1, runner, front =>
      if some runner ≠ immDom block then do
        let front' := Function.update front runner (insert block (front runner))
        let d ← immDom runner
        walkFrontier immDom block fuel d front'
      else some front

/-- `calc_dom_frontier`, which skips unreachable predecessors. -/
def calcDomFrontier (fuel : ℕ) (immDom : ℕ → Option ℕ) (front : ℕ → Finset ℕ) (block : ℕ) :
  Option (ℕ → Finset ℕ)
  :=
  if (impl.predecessors block).length > 1 then
    (impl.predecessors block).foldlM
      (fun front runner =>
        if (immDom runner).isNone then some front
        else walkFrontier immDom block fuel runner front)
      front
  else some front

/-! ### The walk of the tree -/

/-- A block is added to the children of its immediate dominator. -/
def addChild (immDom : ℕ → Option ℕ) (children : ℕ → List ℕ) (block : ℕ) : ℕ → List ℕ :=
  match immDom block with
  | none => children
  | some d => Function.update children d (children d ++ [block])

/-- `calc_dom_children`: the arrays are set up as empty, and then the blocks are added. -/
def calcDomChildren (s : DomInfo) : DomInfo :=
  let empty := (List.range impl.numBlocks).foldl
    (fun children b => Function.update children b []) s.domChildren
  { s with domChildren := (List.range impl.numBlocks).foldl (addChild s.immDom) empty }

end FunctionImpl

/-- `calc_dfs_indicies`, where the `index` comes with the blocks. -/
def calcDfsIndicies : ℕ → DomInfo × ℕ → ℕ → Option (DomInfo × ℕ)
  | 0, _, _ => none
  | fuel + 1, (s, index), block => do
      let pre := { s with domPreIndex := Function.update s.domPreIndex block index }
      let r ← (s.domChildren block).foldlM (calcDfsIndicies fuel) (pre, index + 1)
      some ({ r.1 with domPostIndex := Function.update r.1.domPostIndex block r.2 }, r.2 + 1)

namespace FunctionImpl

variable {ι κ : Type} (impl : FunctionImpl ι κ)

/-- `nir_calc_dominance_impl`, from blocks with any fields. -/
def calcDominanceImpl (fuel : ℕ) (s₀ : DomInfo) : Option DomInfo := do
  let s := (List.range impl.numBlocks).foldl initBlock s₀
  let immDom ← impl.calcPasses fuel fuel s.immDom
  let front ← (List.range impl.numBlocks).foldlM (impl.calcDomFrontier fuel immDom) s.domFrontier
  let s := { s with immDom := Function.update immDom 0 none, domFrontier := front }
  let r ← calcDfsIndicies fuel (impl.calcDomChildren s, 0) 0
  some r.1

end FunctionImpl

/-- `nir_block_dominates`. -/
def nirBlockDominates (s : DomInfo) (parent child : ℕ) : Bool :=
  s.domPreIndex child ≥ s.domPreIndex parent && s.domPostIndex child ≤ s.domPostIndex parent

end Nir
