import Mathlib.Tactic.Common

/-!
# The register allocator

The graph-colouring register allocator of `register_allocate.c`.  A bit set is a function to `Bool`;
a set and the list of its elements that are kept side by side in the source are the list.  `NO_REG`
and `~0` are `none`, and sums of q values are taken to fit into the integers that hold them.  Spill
costs are left out.
-/

namespace Util

namespace RegisterAllocate

/-! ### Register sets -/

/-- `struct ra_class`, without its q values. -/
structure RaClass where
  regs : ℕ → Bool := fun _ => false
  p : ℕ := 0

/-- `struct ra_regs`. -/
structure Regs where
  count : ℕ
  /-- whether `conflict_list` is kept -/
  needConflictLists : Bool
  conflicts : ℕ → ℕ → Bool
  conflictList : ℕ → List ℕ
  classCount : ℕ := 0
  classes : ℕ → RaClass := fun _ => {}
  /-- the q values of all classes -/
  q : ℕ → ℕ → ℕ := fun _ _ => 0
  roundRobin : Bool := false

/-- `ra_alloc_reg_set`. -/
def allocRegSet (count : ℕ) (needConflictLists : Bool) : Regs where
  count := count
  needConflictLists := needConflictLists
  conflicts r r' := r < count ∧ r' = r
  conflictList r := if needConflictLists ∧ r < count then [r] else []

namespace Regs

/-- `ra_add_conflict_list`. -/
def addConflictList (regs : Regs) (r1 r2 : ℕ) : Regs :=
  { regs with
    conflictList :=
      if regs.needConflictLists then
        Function.update regs.conflictList r1 (regs.conflictList r1 ++ [r2])
      else regs.conflictList
    conflicts := Function.update regs.conflicts r1 (Function.update (regs.conflicts r1) r2 true) }

/-- `ra_add_reg_conflict`. -/
def addRegConflict (regs : Regs) (r1 r2 : ℕ) : Regs :=
  if regs.conflicts r1 r2 then regs else (regs.addConflictList r1 r2).addConflictList r2 r1

/-- The loop of `ra_add_transitive_reg_conflict`, which reads a list that it may add to. -/
def transitiveLoop (baseReg reg : ℕ) : ℕ → ℕ → Regs → Regs
  | 0, _, regs => regs
  | fuel + 1, i, regs =>
    match (regs.conflictList baseReg)[i]? with
    | some r => transitiveLoop baseReg reg fuel (i + 1) (regs.addRegConflict reg r)
    | none => regs

/-- `ra_add_transitive_reg_conflict`. -/
def addTransitiveRegConflict (regs : Regs) (baseReg reg : ℕ) : Regs :=
  transitiveLoop baseReg reg (regs.count + 1) 0 (regs.addRegConflict reg baseReg)

/-- `ra_alloc_reg_class`. -/
def allocRegClass (regs : Regs) : Regs :=
  { regs with
    classCount := regs.classCount + 1
    classes := Function.update regs.classes regs.classCount {} }

/-- `ra_class_add_reg`. -/
def classAddReg (regs : Regs) (c r : ℕ) : Regs :=
  { regs with
    classes := Function.update regs.classes c
      { regs := Function.update (regs.classes c).regs r true, p := (regs.classes c).p + 1 } }

/-- `reg_belongs_to_class`. -/
def regBelongsToClass (regs : Regs) (r c : ℕ) : Bool := (regs.classes c).regs r

/-- The number of registers of the class `b` that conflict with a register. -/
def numConflicts (regs : Regs) (b rc : ℕ) : ℕ :=
  (regs.conflictList rc).countP (regs.regBelongsToClass · b)

/-- The q value that `ra_set_finalize` computes. -/
def worstConflicts (regs : Regs) (b c : ℕ) : ℕ :=
  (List.range regs.count).foldl (fun maxConflicts rc =>
    if regs.regBelongsToClass rc c then max maxConflicts (regs.numConflicts b rc)
    else maxConflicts) 0

/-- `ra_set_finalize`. -/
def setFinalize (regs : Regs) (qValues : Option (ℕ → ℕ → ℕ)) : Regs :=
  { regs with
    q :=
      match qValues with
      | some q => q
      | none => regs.worstConflicts }

end Regs

/-- The calls with which a register set is built. -/
inductive RegOp where
  | setAllocateRoundRobin
  | addRegConflict (r1 r2 : ℕ)
  | addTransitiveRegConflict (baseReg reg : ℕ)
  | allocRegClass
  | classAddReg (c r : ℕ)
deriving DecidableEq

namespace RegOp

/-- The arguments of a call are in range. -/
def Valid (regs : Regs) : RegOp → Prop
  | setAllocateRoundRobin => True
  | addRegConflict r1 r2 => r1 < regs.count ∧ r2 < regs.count
  | addTransitiveRegConflict baseReg reg =>
    baseReg < regs.count ∧ reg < regs.count ∧ regs.needConflictLists = true
  | allocRegClass => True
  | classAddReg c r => c < regs.classCount ∧ r < regs.count

instance (regs : Regs) : (op : RegOp) → Decidable (op.Valid regs)
  | setAllocateRoundRobin => inferInstanceAs (Decidable True)
  | addRegConflict _ _ => inferInstanceAs (Decidable (_ ∧ _))
  | addTransitiveRegConflict _ _ => inferInstanceAs (Decidable (_ ∧ _))
  | allocRegClass => inferInstanceAs (Decidable True)
  | classAddReg _ _ => inferInstanceAs (Decidable (_ ∧ _))

def apply (regs : Regs) : RegOp → Regs
  | setAllocateRoundRobin => { regs with roundRobin := true }
  | addRegConflict r1 r2 => regs.addRegConflict r1 r2
  | addTransitiveRegConflict baseReg reg => regs.addTransitiveRegConflict baseReg reg
  | allocRegClass => regs.allocRegClass
  | classAddReg c r => regs.classAddReg c r

end RegOp

/-- The register sets that are built by calls with arguments in range. -/
inductive Regs.Built : List RegOp → Regs → Prop where
  | alloc (count : ℕ) (needConflictLists : Bool) : Built [] (allocRegSet count needConflictLists)
  | apply {ops : List RegOp} {regs : Regs} (op : RegOp) (built : Built ops regs)
    (valid : op.Valid regs) : Built (op :: ops) (op.apply regs)

/-- The register set that calls build, if their arguments are in range; the last call comes first. -/
def Regs.build (count : ℕ) (needConflictLists : Bool) : List RegOp → Option Regs
  | [] => some (allocRegSet count needConflictLists)
  | op :: ops =>
    (Regs.build count needConflictLists ops).bind fun regs =>
      if op.Valid regs then some (op.apply regs) else none

/-! ### Interference graphs -/

/-- `struct ra_graph` with its nodes; the last node of the stack comes first. -/
structure Graph where
  regs : Regs
  count : ℕ
  nodeClass : ℕ → ℕ := fun _ => 0
  adjacencyList : ℕ → List ℕ := fun _ => []
  qTotal : ℕ → ℕ := fun _ => 0
  reg : ℕ → Option ℕ := fun _ => none
  inStack : ℕ → Bool := fun _ => false
  stack : List ℕ := []
  stackOptimisticStart : Option ℕ := none
  /-- the assertion of `decrement_q` held so far; the source does not go on when it fails -/
  asserts : Bool := true

/-- `ra_alloc_interference_graph`. -/
def allocInterferenceGraph (regs : Regs) (count : ℕ) : Graph where
  regs := regs
  count := count

/-- A policy that is given by `ra_set_select_reg_callback`. -/
abbrev SelectReg : Type := Graph → (ℕ → Bool) → ℕ

namespace Graph

/-- The q value of the classes of two nodes. -/
def q (g : Graph) (n1 n2 : ℕ) : ℕ := g.regs.q (g.nodeClass n1) (g.nodeClass n2)

/-- `ra_set_node_class`. -/
def setNodeClass (g : Graph) (n c : ℕ) : Graph :=
  { g with nodeClass := Function.update g.nodeClass n c }

/-- `ra_add_node_adjacency`. -/
def addNodeAdjacency (g : Graph) (n1 n2 : ℕ) : Graph :=
  { g with
    qTotal := Function.update g.qTotal n1 (g.qTotal n1 + g.q n1 n2)
    adjacencyList := Function.update g.adjacencyList n1 (g.adjacencyList n1 ++ [n2]) }

/-- `ra_add_node_interference`. -/
def addNodeInterference (g : Graph) (n1 n2 : ℕ) : Graph :=
  if n1 ≠ n2 ∧ n2 ∉ g.adjacencyList n1 then (g.addNodeAdjacency n1 n2).addNodeAdjacency n2 n1
  else g

/-- `ra_set_node_reg`. -/
def setNodeReg (g : Graph) (n r : ℕ) : Graph :=
  { g with
    reg := Function.update g.reg n (some r)
    inStack := Function.update g.inStack n false }

end Graph

/-- The calls with which an interference graph is built. -/
inductive GraphOp where
  | setNodeClass (n c : ℕ)
  | addNodeInterference (n1 n2 : ℕ)
  | setNodeReg (n r : ℕ)
deriving DecidableEq

namespace GraphOp

/-- The arguments of a call are in range. -/
def Valid (g : Graph) : GraphOp → Prop
  | setNodeClass n c => n < g.count ∧ c < g.regs.classCount
  | addNodeInterference n1 n2 => n1 < g.count ∧ n2 < g.count
  | setNodeReg n r => n < g.count ∧ r < g.regs.count

instance (g : Graph) : (op : GraphOp) → Decidable (op.Valid g)
  | setNodeClass _ _ => inferInstanceAs (Decidable (_ ∧ _))
  | addNodeInterference _ _ => inferInstanceAs (Decidable (_ ∧ _))
  | setNodeReg _ _ => inferInstanceAs (Decidable (_ ∧ _))

def apply (g : Graph) : GraphOp → Graph
  | setNodeClass n c => g.setNodeClass n c
  | addNodeInterference n1 n2 => g.addNodeInterference n1 n2
  | setNodeReg n r => g.setNodeReg n r

end GraphOp

/-- The graphs that are built over a register set by calls with arguments in range. -/
inductive Graph.Built (regs : Regs) : List GraphOp → Graph → Prop where
  | alloc (count : ℕ) : Built regs [] (allocInterferenceGraph regs count)
  | apply {ops : List GraphOp} {g : Graph} (op : GraphOp) (built : Built regs ops g)
    (valid : op.Valid g) : Built regs (op :: ops) (op.apply g)

/-- The graph that calls build, if their arguments are in range; the last call comes first. -/
def Graph.build (regs : Regs) (count : ℕ) : List GraphOp → Option Graph
  | [] => some (allocInterferenceGraph regs count)
  | op :: ops =>
    (Graph.build regs count ops).bind fun g => if op.Valid g then some (op.apply g) else none

/-! ### Simplification -/

namespace Graph

/-- `pq_test`. -/
def pqTest (g : Graph) (n : ℕ) : Bool := g.qTotal n < (g.regs.classes (g.nodeClass n)).p

/-- `decrement_q`. -/
def decrementQ (g : Graph) (n : ℕ) : Graph :=
  { g with
    qTotal := (g.adjacencyList n).foldl (fun qTotal n2 =>
      if g.inStack n2 then qTotal
      else Function.update qTotal n2 (qTotal n2 - g.q n2 n)) g.qTotal
    -- each neighbour is in the list once
    asserts := g.asserts && (g.adjacencyList n).all fun n2 =>
      g.inStack n2 || g.q n2 n ≤ g.qTotal n2 }

/-- A node is put on the stack. -/
def push (g : Graph) (n : ℕ) : Graph :=
  let g := g.decrementQ n
  { g with
    stack := n :: g.stack
    inStack := Function.update g.inStack n true }

end Graph

/-- The variables of one round of `ra_simplify`. -/
structure Round where
  graph : Graph
  progress : Bool := false
  /-- `best_optimistic_node` with `lowest_q_total` -/
  best : Option (ℕ × ℕ) := none

/-- The loop body of one round of `ra_simplify`. -/
def Round.visit (s : Round) (i : ℕ) : Round :=
  if s.graph.inStack i ∨ s.graph.reg i ≠ none then s
  else if s.graph.pqTest i then { s with graph := s.graph.push i, progress := true }
  else if s.best.all fun best => s.graph.qTotal i < best.2 then
    { s with best := some (i, s.graph.qTotal i) }
  else s

namespace Graph

/-- One round of `ra_simplify`, with whether it made progress. -/
def simplifyRound (g : Graph) : Graph × Bool :=
  let s := (List.range g.count).reverse.foldl Round.visit { graph := g }
  match s.progress, s.best with
  | false, some best =>
    let g := s.graph
    ({ g.push best.1 with
      stackOptimisticStart := g.stackOptimisticStart.or (some g.stack.length) }, true)
  | progress, _ => (s.graph, progress)

/-- `ra_simplify`; each round but the last one puts a node on the stack. -/
def simplifyLoop : ℕ → Graph → Graph
  | 0, g => g
  | fuel + 1, g =>
    match g.simplifyRound with
    | (g, true) => simplifyLoop fuel g
    | (g, false) => g

def simplify (g : Graph) : Graph := simplifyLoop (g.count + 1) g

/-! ### Selection -/

/-- A register conflicts with that of a node. -/
def conflictsWith (g : Graph) (n2 r : ℕ) : Bool := (g.reg n2).any (g.regs.conflicts r)

/-- `ra_any_neighbors_conflict`. -/
def anyNeighborsConflict (g : Graph) (n r : ℕ) : Bool :=
  (g.adjacencyList n).any fun n2 => !g.inStack n2 && g.conflictsWith n2 r

/-- The registers that `ra_compute_available_regs` computes. -/
def availableRegs (g : Graph) (n r : ℕ) : Bool :=
  g.regs.regBelongsToClass r (g.nodeClass n) &&
    (g.adjacencyList n).all fun n2 =>
      g.inStack n2 || !(g.reg n2).any fun r2 => g.regs.conflicts r2 r

/-- The register that `ra_select` finds for a node. -/
def chooseReg (g : Graph) (callback : Option SelectReg) (start n : ℕ) : Option ℕ :=
  match callback with
  | some select =>
    if (List.range g.regs.count).any (g.availableRegs n) then some (select g (g.availableRegs n))
    else none
  | none =>
    ((List.range g.regs.count).map fun ri => (start + ri) % g.regs.count).find? fun r =>
      g.regs.regBelongsToClass r (g.nodeClass n) && !g.anyNeighborsConflict n r

/-- `g->stack_count - 1 <= g->stack_optimistic_start`, for unsigned numbers. -/
def belowOptimistic (g : Graph) : Bool :=
  match g.stackOptimisticStart with
  | none => true
  | some start => g.stack.length ≠ 0 ∧ g.stack.length - 1 ≤ start

/-- `ra_select`, for the nodes of the stack. -/
def selectLoop (callback : Option SelectReg) : List ℕ → ℕ → Graph → Bool × Graph
  | [], _, g => (true, g)
  | n :: stack, start, g =>
    let g := { g with inStack := Function.update g.inStack n false }
    match g.chooseReg callback start n with
    | none => (false, g)
    | some r =>
      let g := { g with reg := Function.update g.reg n (some r), stack := stack }
      selectLoop callback stack (if g.regs.roundRobin ∧ g.belowOptimistic then r + 1 else start) g

def select (callback : Option SelectReg) (g : Graph) : Bool × Graph :=
  selectLoop callback g.stack 0 g

/-- `ra_allocate`. -/
def allocate (callback : Option SelectReg) (g : Graph) : Bool × Graph :=
  g.simplify.select callback

end Graph

end RegisterAllocate

end Util
