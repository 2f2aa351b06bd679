import Mesa.Glcpp.DefinedOperators

/-!
# Replacing `defined` before expanding

In a conditional, all `defined` operators of a list should be replaced before its macros are
expanded.  The walk of `_glcpp_parser_expand_token_list` starts at the node that was the first one
before the operators were replaced, so that operators at the beginning are walked over.  That makes
no difference exactly when it expands none of their tokens, nor the one behind them.
-/

open scoped List
open Descent

namespace Glcpp

variable {defines : List Macro} {mode : Mode}

/-! ### What is meant -/

/-- `_glcpp_parser_expand_token_list` with a walk over the list whose operators are replaced. -/
def expandReplaced (defines : List Macro) (fuel : ℕ) (list : TokenList) (s : ExpandState) :
    Option (TokenList × ExpandState) := do
  let initial := s.active.head?.map ActiveNode.id
  let (list, _, s) := evaluateDefinedInList defines (trimTrailingSpace list) s
  let start : Walk := { done := [], rest := list.nodes, tail := list.tail, state := s }
  let w ← walk (expandTokenList defines .evaluateDefined fuel) defines .evaluateDefined fuel start
  some ({ nodes := w.done, tail := w.tail, nonSpaceTail := w.tail },
    { w.state with active := popUntil w.state.active initial })

/-- What `_glcpp_parser_expand_node` does in the end, for sufficiently large depths of calls, with
the first node that a walk has still to go over. -/
def ExpandsNode (defines : List Macro) (w : Walk) (node : Node) (nodes : List Node)
    (r : Option NodeExpansion × ExpandState) : Prop :=
  Settles (fun fuel => expandNode (expandTokenList defines .evaluateDefined fuel) defines node nodes
    { w.state with active := popMarker w.state.active node }) (· = r)

/-- The states of the walk in a call of `_glcpp_parser_expand_token_list`. -/
inductive Visits (defines : List Macro) (list : TokenList) (s : ExpandState) : Walk → Prop
  | start : Visits defines list s (startWalk defines .evaluateDefined list s).2
  | keep {w : Walk} {node : Node} {nodes : List Node} {s' : ExpandState}
    (visited : Visits defines list s w) (rest : w.rest = node :: nodes)
    (kept : ExpandsNode defines w node nodes (none, s')) :
    Visits defines list s { w with done := w.done ++ [node], rest := nodes, state := s' }
  | replace {w : Walk} {node : Node} {nodes : List Node} {e : NodeExpansion} {s' : ExpandState}
    (visited : Visits defines list s w) (rest : w.rest = node :: nodes)
    (expanded : ExpandsNode defines w node nodes (e, s')) :
    Visits defines list s (splice defines .evaluateDefined w node e s')

/-- All operators are replaced before macros are expanded: the list that is returned is the
expansion of the list with the operators replaced, and no node that was replaced is expanded or
leads to an error. -/
structure ReplacesFirst (defines : List Macro) (list : TokenList) (s : ExpandState) : Prop where
  result : ∃ r,
    Settles (fun fuel => expandTokenList defines .evaluateDefined fuel list s) (· = r) ∧
    Settles (fun fuel => expandReplaced defines fuel list s) (· = r)
  operands : ∀ w node nodes, Visits defines list s w → w.rest = node :: nodes →
    node ∈ (trimTrailingSpace list).nodes →
    node ∉ (evaluateDefinedInList defines (trimTrailingSpace list) s).1.nodes →
    ∃ s', s'.infoLog = w.state.infoLog ∧ ExpandsNode defines w node nodes (none, s')

/-- When a list begins with operators, no token of these is a macro that is expanded or invoked in a
wrong way, and the token behind them is not expanded. -/
def LeavesOperators (defines : List Macro) (list : TokenList) (s : ExpandState) : Prop :=
  let list := trimTrailingSpace list
  let (replaced, old, _) := evaluateDefinedInList defines list s
  let operators := old.takeWhile (· ∉ replaced.nodes)
  let rest := old.dropWhile (· ∉ replaced.nodes)
  BeginsWithDefined list.nodes → AllKept defines operators rest ∧
    ∀ node nodes, rest = node :: nodes → outcome defines node nodes ≠ .expanded

/-! ### Results that settle -/

theorem settles_unique {α : Type} {f : ℕ → Option α} {P : α → Prop} {a : α}
    (h : Settles f (· = a)) (h' : Settles f P) :
  P a
  := by
  obtain ⟨_, bound, rfl, run⟩ := h
  obtain ⟨b, bound', property, run'⟩ := h'
  have first := run (max bound bound') (le_max_left _ _)
  have second := run' (max bound bound') (le_max_right _ _)
  rw [Option.some.inj (first.symm.trans second)]
  exact property

theorem settles_eq {α : Type} {f : ℕ → Option α} {a b : α}
    (h : Settles f (· = a)) (h' : Settles f (· = b)) :
  a = b
  := by
  have mem : a ∈ {x | x = b} := settles_unique h h'
  exact mem

/-- A walk ends with this result, for all sufficiently large numbers of steps and depths of
calls. -/
def EndsWith (defines : List Macro) (mode : Mode) (w w' : Walk) : Prop :=
  Ends defines mode w (· = w')

/-- A walk with nodes in front that are kept ends as the walk without them. -/
theorem EndsWith.front
    {front rest : List Node} {tail : Option ℕ} {s : ExpandState} {w : Walk}
    (idle : s.active = []) (kept : AllKept defines front rest)
    (ends : EndsWith defines mode ⟨[], rest, tail, s⟩ w) :
  EndsWith defines mode ⟨[], front ++ rest, tail, s⟩ { w with done := front ++ w.done }
  := by
  obtain ⟨_, bound, rfl, run⟩ := ends
  refine ⟨_, bound + front.length, rfl, ?_⟩
  intro fuel steps hfuel hsteps
  obtain ⟨steps, rfl⟩ : ∃ k, steps = k + front.length := ⟨steps - front.length, by omega⟩
  rw [walk_kept idle tail rest steps front [] kept]
  have moved := @walk_done defines mode (expandTokenList defines mode fuel)
    front steps ⟨[], rest, tail, s⟩
  rw [run fuel steps (by omega) (by omega), List.append_nil] at moved
  exact moved

theorem expandTokenList_endsWith
    {list : TokenList} {s : ExpandState} {w : Walk}
    (ends : EndsWith defines mode (startWalk defines mode list s).2 w) :
  Settles (fun fuel => expandTokenList defines mode fuel list s)
    (· = (endWalk (startWalk defines mode list s).1 (startWalk defines mode list s).2 w,
      { w.state with active := popUntil w.state.active (s.active.head?.map ActiveNode.id) }))
  := by
  obtain ⟨_, bound, rfl, run⟩ := ends
  refine ⟨_, bound + 1, rfl, ?_⟩
  intro fuel le
  obtain ⟨fuel, rfl⟩ : ∃ k, fuel = k + 1 := ⟨fuel - 1, by omega⟩
  simp only [expandTokenList]
  change (walk _ defines mode fuel (startWalk defines mode list s).2).bind _ = _
  rw [run fuel fuel (by omega) (by omega)]
  rfl

/-- The list without spaces at the end, with its operators evaluated. -/
abbrev evaluatedList (defines : List Macro) (list : TokenList) (s : ExpandState) : Evaluated :=
  evaluateDefinedLoop defines (trimTrailingSpace list).nodes (trimTrailingSpace list).tail s

theorem expandReplaced_endsWith
    {list : TokenList} {s : ExpandState} {w : Walk}
    (ends : EndsWith defines .evaluateDefined
      ⟨[], (evaluatedList defines list s).nodes, (evaluatedList defines list s).tail,
        (evaluatedList defines list s).state⟩ w) :
  Settles (fun fuel => expandReplaced defines fuel list s)
    (· = ({ nodes := w.done, tail := w.tail, nonSpaceTail := w.tail },
      { w.state with active := popUntil w.state.active (s.active.head?.map ActiveNode.id) }))
  := by
  obtain ⟨_, bound, rfl, run⟩ := ends
  refine ⟨_, bound, rfl, ?_⟩
  intro fuel le
  change (walk (expandTokenList defines .evaluateDefined fuel) defines .evaluateDefined fuel
    ⟨[], (evaluatedList defines list s).nodes, (evaluatedList defines list s).tail,
      (evaluatedList defines list s).state⟩).bind _ = _
  rw [run fuel fuel le le]
  rfl

/-! ### The nodes that are reached in the end -/

theorem reached_of_apart {front nodes walked : List Node}
    (apart : ∀ n ∈ front, n.id ∉ walked.map Node.id) :
  reached (front ++ nodes) walked = front ++ reached nodes walked
  := by
  induction front with
  | nil => rfl
  | cons n front ih =>
    have gone : walked.dropWhile (·.id ≠ n.id) = [] := by
      rw [List.dropWhile_eq_nil_iff]
      intro m hm
      have differs : m.id ≠ n.id :=
        fun eq => apart n List.mem_cons_self (eq ▸ List.mem_map_of_mem hm)
      simpa using differs
    rw [List.cons_append, reached, gone, List.cons_append]
    dsimp only
    rw [ih (fun m hm => apart m (List.mem_cons_of_mem _ hm))]

theorem reached_of_done {node : Node} {nodes front done : List Node}
    (apart : node.id ∉ front.map Node.id) :
  reached (node :: nodes) (front ++ node :: done) = node :: done
  := by
  have stops : (front ++ node :: done).dropWhile (·.id ≠ node.id) = node :: done := by
    rw [List.dropWhile_append_of_pos, List.dropWhile_cons_of_neg]
    · simp
    · intro m hm
      have differs : m.id ≠ node.id := fun eq => apart (eq ▸ List.mem_map_of_mem hm)
      simpa using differs
  rw [reached, stops]

/-! ### Both walks -/

/-- The nodes of a list have been allocated and are different, and no macro is active. -/
structure Separate (list : TokenList) (s : ExpandState) : Prop where
  idle : s.active = []
  below : ∀ n ∈ (trimTrailingSpace list).nodes, n.id < s.fresh
  nodup : ((trimTrailingSpace list).nodes.map Node.id).Nodup

section Both

variable {list : TokenList} {s : ExpandState} {operators integers rest : List Node}

theorem Separate.state_idle (h : Separate list s) (defines : List Macro) :
  (evaluatedList defines list s).state.active = []
  := by
  have grows := (evaluateDefinedLoop_spec defines (trimTrailingSpace list).nodes
    (trimTrailingSpace list).tail s).grows
  rw [← h.idle]
  exact grows.active

theorem Separate.nodes_below (h : Separate list s) {node : Node}
    (mem : node ∈ (evaluatedList defines list s).nodes) :
  node.id < (evaluatedList defines list s).state.fresh
  := by
  have spec := evaluateDefinedLoop_spec defines (trimTrailingSpace list).nodes
    (trimTrailingSpace list).tail s
  rcases spec.nodes_mem node mem with old | ⟨-, upper, -⟩
  · exact (h.below node old).trans_le spec.grows.fresh
  · exact upper

/-- A node that was replaced is not one of those that are left, and no other node has its
address. -/
theorem Separate.replaced (h : Separate list s) {node : Node}
    (mem : node ∈ (trimTrailingSpace list).nodes)
    (replaced : node ∉ (evaluatedList defines list s).nodes) :
  node.id ∉ (evaluatedList defines list s).nodes.map Node.id
  := by
  intro same
  obtain ⟨n, hn, eq⟩ := List.mem_map.mp same
  have spec := evaluateDefinedLoop_spec defines (trimTrailingSpace list).nodes
    (trimTrailingSpace list).tail s
  rcases spec.nodes_mem n hn with old | ⟨new, -⟩
  · have both : n = node := List.inj_on_of_nodup_map h.nodup old mem eq
    rw [both] at hn
    exact replaced hn
  · have := h.below node mem
    omega

theorem allKept_of_integers {nodes : List Node}
    (integers : ∀ n ∈ nodes, ∃ value, n.token.lexeme = .integer value) (rest : List Node) :
  AllKept defines nodes rest
  := by
  induction nodes with
  | nil => trivial
  | cons node nodes ih =>
    obtain ⟨value, lexeme⟩ := integers node List.mem_cons_self
    refine ⟨?_, ih (fun n hn => integers n (List.mem_cons_of_mem _ hn))⟩
    rw [outcome, lexeme]

variable (chains : Chains (trimTrailingSpace list).nodes s (evaluatedList defines list s)
  operators integers rest)

include chains

theorem Chains.rest_nodes : ∀ n ∈ rest, n ∈ (evaluatedList defines list s).nodes := by
  intro n hn
  rw [chains.new]
  exact List.mem_append_right _ hn

/-- The walk over what both chains go on with. -/
theorem Chains.rest_ends (h : Separate list s) :
  ∃ w, EndsWith defines .evaluateDefined
      ⟨[], rest, (evaluatedList defines list s).tail, (evaluatedList defines list s).state⟩ w ∧
    Owned (evaluatedList defines list s).state.fresh (rest.map Node.id) w.state w.done
  := by
  have below : ∀ n ∈ rest, n.id < (evaluatedList defines list s).state.fresh :=
    fun n hn => h.nodes_below (chains.rest_nodes n hn)
  obtain ⟨w, bound, walked, run⟩ := walk_ends defines .evaluateDefined
    ⟨[], rest, (evaluatedList defines list s).tail, (evaluatedList defines list s).state⟩
    (held_idle (h.state_idle defines)) (outside_nil _ (rest.map Node.id)) (owned_self below)
  exact ⟨w, ⟨w, bound, rfl, run⟩, walked.owned⟩

/-- Where one chain has operators and the other one integers, they start with different nodes. -/
theorem Chains.heads (h : Separate list s) (some : operators ≠ []) :
  (evaluatedList defines list s).nodes.head? ≠ (evaluatedList defines list s).old.head?
  := by
  have some' : integers ≠ [] := fun nil => some (chains.nil_iff.mpr nil)
  obtain ⟨operator, operators', rfl⟩ := List.exists_cons_of_ne_nil some
  obtain ⟨integer, integers', rfl⟩ := List.exists_cons_of_ne_nil some'
  rw [chains.new, chains.old, List.cons_append, List.cons_append, List.head?_cons, List.head?_cons]
  intro eq
  have same : integer = operator := Option.some.inj eq
  have low := (chains.integers_new integer List.mem_cons_self).1
  have high := h.below operator (chains.operators_sublist.subset List.mem_cons_self)
  rw [same] at low
  omega

/-- What is reached from the new integers after the walk over the old chain. -/
theorem Chains.reached_integers (h : Separate list s) {w : Walk}
    (owned : Owned (evaluatedList defines list s).state.fresh (rest.map Node.id) w.state w.done) :
  reached (evaluatedList defines list s).nodes (operators ++ w.done) =
    integers ++ reached rest (operators ++ w.done)
  := by
  rw [chains.new]
  apply reached_of_apart
  intro n hn mem
  obtain ⟨low, high, -⟩ := chains.integers_new n hn
  rw [List.map_append, List.mem_append] at mem
  rcases mem with front | walked
  · obtain ⟨m, hm, eq⟩ := List.mem_map.mp front
    have := h.below m (chains.operators_sublist.subset hm)
    omega
  · obtain ⟨m, hm, eq⟩ := List.mem_map.mp walked
    rcases (owned m hm).2 with old | new
    · have separate := chains.nodup
      rw [chains.new, List.map_append, List.nodup_append] at separate
      exact separate.2.2 n.id (List.mem_map_of_mem hn) m.id old eq.symm
    · omega

/-- What is reached behind the integers is what was walked over when the first node of it was
not expanded. -/
theorem Chains.reached_rest (h : Separate list s) {w : Walk}
    (ends : EndsWith defines .evaluateDefined
      ⟨[], rest, (evaluatedList defines list s).tail, (evaluatedList defines list s).state⟩ w) :
  reached rest (operators ++ w.done) = w.done ↔
    ∀ node nodes, rest = node :: nodes → outcome defines node nodes ≠ .expanded
  := by
  obtain ⟨w, bound, rfl, run⟩ := ends
  cases rest with
  | nil =>
    have stops := run bound (bound + 1) (Nat.le_refl _) (Nat.le_succ _)
    simp only [walk] at stops
    rw [← Option.some.inj stops]
    refine ⟨fun _ node nodes eq => ?_, fun _ => rfl⟩
    cases eq
  | cons node nodes =>
    have below : ∀ n ∈ node :: nodes, n.id < (evaluatedList defines list s).state.fresh :=
      fun n hn => h.nodes_below (chains.rest_nodes n hn)
    have nodup : ((node :: nodes).map Node.id).Nodup := by
      have all := chains.nodup
      rw [chains.new, List.map_append, List.nodup_append] at all
      exact all.2.1
    have apart : node.id ∉ operators.map Node.id := by
      intro mem
      obtain ⟨n, hn, eq⟩ := List.mem_map.mp mem
      apply chains.apart n hn
      rw [eq]
      exact List.mem_map_of_mem List.mem_cons_self
    have first := walk_first (h.state_idle defines) below nodup run
    by_cases expanded : outcome defines node nodes = .expanded
    case pos =>
      rw [if_pos expanded] at first
      have lost : ∀ n ∈ [node], n.id ∉ (operators ++ w.done).map Node.id := by
        intro n hn mem
        rw [List.mem_singleton.mp hn, List.map_append, List.mem_append] at mem
        exact mem.elim apart first
      have kept := @reached_of_apart _ nodes _ lost
      rw [List.singleton_append] at kept
      refine ⟨fun eq => ?_, fun not => absurd expanded (not node nodes rfl)⟩
      rw [kept] at eq
      apply absurd _ first
      rw [← eq]
      exact List.mem_map_of_mem List.mem_cons_self
    case neg =>
      rw [if_neg expanded] at first
      obtain ⟨done, eq⟩ := first
      rw [eq]
      refine ⟨fun _ node' nodes' eq' => ?_, fun _ => reached_of_done apart⟩
      obtain ⟨rfl, rfl⟩ := List.cons.inj eq'
      exact expanded

/-- When the operators at the beginning are kept, both walks give the same result exactly when the
node behind the operators is not expanded. -/
theorem Chains.result_iff (h : Separate list s) (some : operators ≠ [])
    (kept : AllKept defines operators rest) :
  (∃ r, Settles (fun fuel => expandTokenList defines .evaluateDefined fuel list s) (· = r) ∧
    Settles (fun fuel => expandReplaced defines fuel list s) (· = r)) ↔
  ∀ node nodes, rest = node :: nodes → outcome defines node nodes ≠ .expanded
  := by
  obtain ⟨w, ends, owned⟩ := chains.rest_ends h
  have idle := h.state_idle defines
  have old := ends.front idle kept
  have new := ends.front idle
    (allKept_of_integers (fun n hn => (chains.integers_new n hn).2.2) rest)
  rw [← chains.old] at old
  rw [← chains.new] at new
  have code := @expandTokenList_endsWith _ _ list s _ old
  have meant := expandReplaced_endsWith new
  have nodes : (endWalk (startWalk defines .evaluateDefined list s).1
      (startWalk defines .evaluateDefined list s).2 { w with done := operators ++ w.done }).nodes =
      integers ++ reached rest (operators ++ w.done) := by
    change (if (evaluatedList defines list s).nodes.head? =
      (evaluatedList defines list s).old.head? then _ else _) = _
    rw [if_neg (chains.heads h some)]
    exact chains.reached_integers h owned
  rw [← chains.reached_rest h ends]
  constructor
  · rintro ⟨r, hcode, hmeant⟩
    have walked := congrArg (fun r : TokenList × ExpandState => r.1.nodes)
      (settles_eq hcode code)
    have walked' := congrArg (fun r : TokenList × ExpandState => r.1.nodes)
      (settles_eq hmeant meant)
    have same := walked.symm.trans walked'
    dsimp only at same
    rw [nodes] at same
    exact List.append_cancel_left same
  · intro eq
    refine ⟨_, code, meant.imp ?_⟩
    rintro _ rfl
    have lists : endWalk (startWalk defines .evaluateDefined list s).1
        (startWalk defines .evaluateDefined list s).2 { w with done := operators ++ w.done } =
        { nodes := integers ++ w.done, tail := w.tail, nonSpaceTail := w.tail } := by
      rw [eq] at nodes
      rw [← nodes]
      rfl
    rw [lists]

end Both

/-! ### The nodes that are visited -/

section Visited

variable {w : Walk} {node : Node} {nodes : List Node}

/-- A node that no marker points to. -/
theorem popMarker_idle {s : ExpandState} (idle : s.active = []) (node : Node) :
  { s with active := popMarker s.active node } = s
  := by
  obtain ⟨active, fresh, infoLog⟩ := s
  obtain rfl : active = [] := idle
  rfl

theorem expandsNode_kept (idle : w.state.active = []) (kept : outcome defines node nodes = .kept) :
  ExpandsNode defines w node nodes (none, w.state)
  := by
  refine ⟨_, 0, rfl, fun fuel _ => ?_⟩
  dsimp only
  rw [popMarker_idle idle]
  exact expandNode_kept idle kept

/-- While no macro is active, a node is left without an error exactly when its outcome says so. -/
theorem outcome_eq_kept_iff (idle : w.state.active = []) :
  outcome defines node nodes = .kept ↔
    ∃ s', s'.infoLog = w.state.infoLog ∧ ExpandsNode defines w node nodes (none, s')
  := by
  constructor
  · exact fun kept => ⟨w.state, rfl, expandsNode_kept idle kept⟩
  · rintro ⟨s', log, r, bound, rfl, run⟩
    have run := run bound (Nat.le_refl _)
    dsimp only at run
    rw [popMarker_idle idle] at run
    have spec := @expandNode_outcome defines
      (expandTokenList defines .evaluateDefined bound) node nodes _ idle
    cases result : outcome defines node nodes
    case kept => rfl
    case rejected =>
      rw [result] at spec
      obtain ⟨message, spec⟩ := spec
      rw [run] at spec
      have state : s' = w.state.error message := (Prod.mk.inj (Option.some.inj spec)).2
      rw [state] at log
      have longer := congrArg List.length log
      simp [ExpandState.error] at longer
    case expanded =>
      rw [result] at spec
      exact absurd run (spec s')

theorem AllKept.behind
    {front nodes rest : List Node} (kept : AllKept defines (front ++ nodes) rest) :
  AllKept defines nodes rest
  := by
  induction front with
  | nil => exact kept
  | cons node front ih => exact ih kept.2

end Visited

section Operands

variable {list : TokenList} {s : ExpandState} {operators integers rest : List Node}

/-- The walk is at an operator after those before it have been kept, or it is behind all of them,
and goes over nodes that are behind them and new ones. -/
inductive Place (e : Evaluated) (operators rest : List Node) : Walk → Prop
  | inside {done left : List Node} (split : operators = done ++ left) :
    Place e operators rest ⟨done, left ++ rest, e.tail, e.state⟩
  | behind {w : Walk} (held : Held e.state.fresh [] w.state)
    (owned : Owned e.state.fresh (rest.map Node.id) w.state w.rest) : Place e operators rest w

variable (chains : Chains (trimTrailingSpace list).nodes s (evaluatedList defines list s)
  operators integers rest)

include chains

/-- Behind the operators, a walk stays there. -/
theorem Chains.visits_place (h : Separate list s) (kept : AllKept defines operators rest) {w : Walk}
    (visited : Visits defines list s w) :
  Place (evaluatedList defines list s) operators rest w
  := by
  have idle := h.state_idle defines
  have below : ∀ n ∈ rest, n.id < (evaluatedList defines list s).state.fresh :=
    fun n hn => h.nodes_below (chains.rest_nodes n hn)
  -- a walk with nodes in front is at a node that is kept, or behind the operators
  have next : ∀ {w : Walk} {node : Node} {nodes : List Node},
      Place (evaluatedList defines list s) operators rest w → w.rest = node :: nodes →
      (∃ done left, operators = done ++ node :: left ∧ nodes = left ++ rest ∧
        w = ⟨done, node :: nodes, (evaluatedList defines list s).tail,
          (evaluatedList defines list s).state⟩) ∨
      (Held (evaluatedList defines list s).state.fresh [] w.state ∧
        Owned (evaluatedList defines list s).state.fresh (rest.map Node.id) w.state w.rest) := by
    intro w node nodes place front
    cases place with
    | @inside done left split =>
      cases left with
      | nil => exact .inr ⟨held_idle idle, owned_self below⟩
      | cons n left =>
        obtain ⟨rfl, rfl⟩ := List.cons.inj front
        exact .inl ⟨done, left, split, rfl, rfl⟩
    | behind held owned => exact .inr ⟨held, owned⟩
  have first : ∀ {done left : List Node} {node : Node}, operators = done ++ node :: left →
      outcome defines node (left ++ rest) = .kept := by
    intro done left node split
    rw [split] at kept
    exact kept.behind.1
  induction visited with
  | start =>
    change Place _ operators rest ⟨[], (evaluatedList defines list s).old, _, _⟩
    rw [chains.old]
    exact .inside rfl
  | @keep w node nodes s' _ front outcome ih =>
    rcases next ih front with ⟨done, left, split, rfl, rfl⟩ | ⟨held, owned⟩
    · have same := settles_eq outcome (expandsNode_kept idle (first split))
      obtain rfl : s' = (evaluatedList defines list s).state := (Prod.mk.inj same).2
      refine .inside ?_
      rw [split, List.append_assoc, List.singleton_append]
    · have outside := outside_nil (evaluatedList defines list s).state.fresh (rest.map Node.id)
      rw [front] at owned
      have popped := held.popMarker outside (owned node List.mem_cons_self).2
      have arguments := expandsArguments defines .evaluateDefined (nodes.map Node.token)
        popped.allocated popped.markers
      have property := settles_unique outcome (expandNode_settles defines node arguments)
      exact .behind (popped.grows property.1) (fun n hn =>
        Owned.grows owned property.1.fresh n (List.mem_cons_of_mem _ hn))
  | @replace w node nodes e s' _ front outcome ih =>
    rcases next ih front with ⟨done, left, split, rfl, rfl⟩ | ⟨held, owned⟩
    · have same := settles_eq outcome (expandsNode_kept idle (first split))
      cases (Prod.mk.inj same).1
    · have outside := outside_nil (evaluatedList defines list s).state.fresh (rest.map Node.id)
      have head : node.id ∈ rest.map Node.id ∨
          (evaluatedList defines list s).state.fresh ≤ node.id := by
        rw [front] at owned
        exact (owned node List.mem_cons_self).2
      have popped := held.popMarker outside head
      have arguments := expandsArguments defines .evaluateDefined (nodes.map Node.token)
        popped.allocated popped.markers
      have property := settles_unique outcome (expandNode_settles defines node arguments)
      have spliced := splice_spec .evaluateDefined front held outside owned property
      exact .behind spliced.held spliced.owned

/-- Operators are left when those at the beginning are. -/
theorem Chains.operands_of_kept (h : Separate list s) (kept : AllKept defines operators rest)
    {w : Walk} {node : Node} {nodes : List Node} (visited : Visits defines list s w)
    (front : w.rest = node :: nodes) (mem : node ∈ (trimTrailingSpace list).nodes)
    (replaced : node ∉ (evaluatedList defines list s).nodes) :
  ∃ s', s'.infoLog = w.state.infoLog ∧ ExpandsNode defines w node nodes (none, s')
  := by
  have gone := h.replaced mem replaced
  have behind : ∀ n ∈ rest, n.id ≠ node.id := by
    intro n hn eq
    exact gone (eq ▸ List.mem_map_of_mem (chains.rest_nodes n hn))
  cases chains.visits_place h kept visited with
  | @inside done left split =>
    cases left with
    | nil =>
      have front' : rest = node :: nodes := front
      exact absurd rfl (behind node (front' ▸ List.mem_cons_self))
    | cons n left =>
      obtain ⟨rfl, rfl⟩ := List.cons.inj front
      rw [split] at kept
      exact ⟨_, rfl, expandsNode_kept (h.state_idle defines) kept.behind.1⟩
  | behind held owned =>
    rw [front] at owned
    rcases (owned node List.mem_cons_self).2 with old | new
    · obtain ⟨n, hn, eq⟩ := List.mem_map.mp old
      exact absurd eq (behind n hn)
    · have spec := evaluateDefinedLoop_spec defines (trimTrailingSpace list).nodes
        (trimTrailingSpace list).tail s
      have grew : s.fresh ≤ (evaluatedList defines list s).state.fresh := spec.grows.fresh
      have := h.below node mem
      omega

/-- When operators are left, those at the beginning are kept: the walk starts with them.  By
induction on those that have been walked over. -/
theorem Chains.kept_of_operands (h : Separate list s)
    (operands : ∀ w node nodes, Visits defines list s w → w.rest = node :: nodes →
      node ∈ (trimTrailingSpace list).nodes → node ∉ (evaluatedList defines list s).nodes →
      ∃ s', s'.infoLog = w.state.infoLog ∧ ExpandsNode defines w node nodes (none, s')) :
  AllKept defines operators rest
  := by
  have idle := h.state_idle defines
  have along : ∀ left done, operators = done ++ left →
      Visits defines list s ⟨done, left ++ rest, (evaluatedList defines list s).tail,
        (evaluatedList defines list s).state⟩ → AllKept defines left rest := by
    intro left
    induction left with
    | nil => exact fun _ _ _ => trivial
    | cons node left ih =>
      intro done split visited
      have operator : node ∈ operators := by
        rw [split]
        exact List.mem_append_right _ List.mem_cons_self
      have mem := chains.operators_sublist.subset operator
      have replaced : node ∉ (evaluatedList defines list s).nodes := by
        rw [chains.new]
        intro still
        rcases List.mem_append.mp still with integer | later
        · have := (chains.integers_new node integer).1
          have := h.below node mem
          omega
        · exact chains.apart node operator (List.mem_map_of_mem later)
      have kept : outcome defines node (left ++ rest) = .kept :=
        (outcome_eq_kept_iff idle).mpr
          (operands _ node (left ++ rest) visited rfl mem replaced)
      refine ⟨kept, ih (done ++ [node]) ?_ ?_⟩
      · rw [split, List.append_assoc, List.singleton_append]
      · exact visited.keep rfl (expandsNode_kept idle kept)
  apply along operators [] rfl
  rw [← chains.old]
  exact .start

/-- The parts of the old chain are found by what is left of the list. -/
theorem Chains.parts (h : Separate list s) :
  (evaluatedList defines list s).old.takeWhile (· ∉ (evaluatedList defines list s).nodes) =
    operators ∧
  (evaluatedList defines list s).old.dropWhile (· ∉ (evaluatedList defines list s).nodes) = rest
  := by
  have gone : ∀ n ∈ operators, n ∉ (evaluatedList defines list s).nodes := by
    intro n hn mem
    rw [chains.new] at mem
    rcases List.mem_append.mp mem with integer | later
    · have := (chains.integers_new n integer).1
      have := h.below n (chains.operators_sublist.subset hn)
      omega
    · exact chains.apart n hn (List.mem_map_of_mem later)
  have gone' : ∀ n ∈ operators, decide (n ∉ (evaluatedList defines list s).nodes) = true :=
    fun n hn => decide_eq_true (gone n hn)
  rw [chains.old, List.takeWhile_append_of_pos gone', List.dropWhile_append_of_pos gone']
  cases eq : rest with
  | nil => exact ⟨List.append_nil _, rfl⟩
  | cons n rest' =>
    have stays := chains.rest_nodes n (eq ▸ List.mem_cons_self)
    rw [List.takeWhile_cons_of_neg (by simpa using stays),
      List.dropWhile_cons_of_neg (by simpa using stays), List.append_nil]
    exact ⟨rfl, rfl⟩

end Operands

/-- Operators are replaced first exactly when the walk leaves those at the beginning. -/
theorem Separate.replacesFirst_iff {list : TokenList} {s : ExpandState} (h : Separate list s) :
  ReplacesFirst defines list s ↔ LeavesOperators defines list s
  := by
  obtain ⟨operators, integers, rest, chains, begins⟩ :=
    @evaluateDefinedLoop_chains defines _ (trimTrailingSpace list).tail _ h.below h.nodup
  have condition : LeavesOperators defines list s ↔ (operators ≠ [] →
      AllKept defines operators rest ∧
        ∀ node nodes, rest = node :: nodes → outcome defines node nodes ≠ .expanded) := by
    have parts := chains.parts h
    change (BeginsWithDefined (trimTrailingSpace list).nodes →
      AllKept defines ((evaluatedList defines list s).old.takeWhile _)
        ((evaluatedList defines list s).old.dropWhile _) ∧
      ∀ node nodes, (evaluatedList defines list s).old.dropWhile _ = _ → _) ↔ _
    rw [parts.1, parts.2, ne_eq, begins, not_not]
  rw [condition]
  constructor
  · intro first some
    have kept := chains.kept_of_operands h first.operands
    exact ⟨kept, (chains.result_iff h some kept).mp first.result⟩
  · intro leaves
    by_cases none : operators = []
    case pos =>
      have none' : integers = [] := chains.nil_iff.mp none
      have same : (evaluatedList defines list s).old = (evaluatedList defines list s).nodes := by
        rw [chains.old, chains.new, none, none']
      obtain ⟨w, ends, -⟩ := chains.rest_ends h
      have start : rest = (evaluatedList defines list s).nodes := by
        rw [chains.new, none', List.nil_append]
      rw [start] at ends
      have meant := expandReplaced_endsWith ends
      rw [← same] at ends
      have code := @expandTokenList_endsWith _ _ list s _ ends
      have kept : AllKept defines operators rest := by
        rw [none]
        trivial
      refine ⟨⟨_, code, meant.imp ?_⟩, fun w node nodes => chains.operands_of_kept h kept⟩
      rintro _ rfl
      have lists : endWalk (startWalk defines .evaluateDefined list s).1
          (startWalk defines .evaluateDefined list s).2 w =
          { nodes := w.done, tail := w.tail, nonSpaceTail := w.tail } := by
        change (TokenList.mk (if (evaluatedList defines list s).nodes.head? =
          (evaluatedList defines list s).old.head? then _ else _) _ _) = _
        rw [same, if_pos rfl]
      rw [lists]
    case neg =>
      obtain ⟨kept, behind⟩ := leaves none
      exact ⟨(chains.result_iff h none kept).mpr behind,
        fun w node nodes => chains.operands_of_kept h kept⟩

/-! ### The lists of a conditional -/

theorem tokenListAppendAll_nodup
    {list : TokenList} (tokens : List Token) {s : ExpandState}
    (below : ∀ n ∈ list.nodes, n.id < s.fresh) (nodup : (list.nodes.map Node.id).Nodup) :
  ((tokenListAppendAll list tokens s).1.nodes.map Node.id).Nodup
  := by
  induction tokens generalizing list s with
  | nil => exact nodup
  | cons token tokens ih =>
    have nodes := tokenListAppend_nodes list token s
    apply ih
    · intro n hn
      change n.id < s.fresh + 1
      rcases List.mem_append.mp (nodes.subset hn) with old | new
      · have := below n old
        omega
      · rw [List.mem_singleton.mp new]
        exact Nat.lt_succ_self _
    · apply List.Nodup.sublist (nodes.map Node.id)
      rw [List.map_append, List.nodup_append]
      refine ⟨nodup, List.nodup_singleton _, ?_⟩
      intro id hid id' hid' same
      obtain ⟨n, hn, rfl⟩ := List.mem_map.mp hid
      rw [List.map_singleton, List.mem_singleton] at hid'
      rw [hid'] at same
      exact absurd same (below n hn).ne

/-- The tokens of a conditional are appended to an empty list. -/
theorem tokenListCopy_separate (tokens : List Token) (fresh : ℕ) (infoLog : List Text) :
  Separate (tokenListCopy tokens ⟨[], fresh, infoLog⟩).1
    (tokenListCopy tokens ⟨[], fresh, infoLog⟩).2
  := by
  have trim := trimTrailingSpace_sublist (tokenListCopy tokens ⟨[], fresh, infoLog⟩).1
  have within := tokenListCopy_within tokens ⟨[], fresh, infoLog⟩
  refine ⟨(tokenListCopy_grows tokens ⟨[], fresh, infoLog⟩).active, ?_, ?_⟩
  · exact fun n hn => (within n (trim.subset hn)).2
  · have all : ((tokenListCopy tokens ⟨[], fresh, infoLog⟩).1.nodes.map Node.id).Nodup :=
      tokenListAppendAll_nodup tokens (fun n hn => absurd hn List.not_mem_nil) List.nodup_nil
    exact all.sublist (trim.map Node.id)

/-- In a conditional, operators are replaced first exactly when the walk leaves those at the
beginning. -/
theorem replacesFirst_tokenListCopy_iff
    (defines : List Macro) (tokens : List Token) (fresh : ℕ) (infoLog : List Text) :
  ReplacesFirst defines (tokenListCopy tokens ⟨[], fresh, infoLog⟩).1
      (tokenListCopy tokens ⟨[], fresh, infoLog⟩).2 ↔
    LeavesOperators defines (tokenListCopy tokens ⟨[], fresh, infoLog⟩).1
      (tokenListCopy tokens ⟨[], fresh, infoLog⟩).2
  := (tokenListCopy_separate tokens fresh infoLog).replacesFirst_iff

/-- `#define FOO defined` -/
def definesFoo : List Macro := [⟨false, [], "FOO".toList, [⟨.defined, ⟨1, 0⟩⟩]⟩]

/-- `defined FOO` -/
def definedFoo : List Token :=
  [⟨.defined, ⟨2, 0⟩⟩, ⟨.space, ⟨2, 0⟩⟩, ⟨.identifier "FOO".toList, ⟨2, 0⟩⟩]

/-- In `#if defined FOO`, the name `FOO` is expanded. -/
theorem not_replacesFirst_definedFoo :
  ¬ ReplacesFirst definesFoo (tokenListCopy definedFoo ⟨[], 0, []⟩).1
    (tokenListCopy definedFoo ⟨[], 0, []⟩).2
  := by
  rw [(tokenListCopy_separate _ _ _).replacesFirst_iff]
  intro leaves
  have evaluated : evaluatedList definesFoo (tokenListCopy definedFoo ⟨[], 0, []⟩).1
      (tokenListCopy definedFoo ⟨[], 0, []⟩).2 =
        ⟨[⟨3, ⟨.integer 1, ⟨0, 0⟩⟩⟩], (tokenListCopy definedFoo ⟨[], 0, []⟩).1.nodes, some 3,
          ⟨[], 4, []⟩⟩ := by
    have found : evaluateDefined [⟨1, ⟨.space, ⟨2, 0⟩⟩⟩, ⟨2, ⟨.identifier "FOO".toList, ⟨2, 0⟩⟩⟩] =
        some ("FOO".toList, [⟨1, ⟨.space, ⟨2, 0⟩⟩⟩, ⟨2, ⟨.identifier "FOO".toList, ⟨2, 0⟩⟩⟩], []) :=
      rfl
    change evaluateDefinedLoop definesFoo
      [⟨0, ⟨.defined, ⟨2, 0⟩⟩⟩, ⟨1, ⟨.space, ⟨2, 0⟩⟩⟩, ⟨2, ⟨.identifier "FOO".toList, ⟨2, 0⟩⟩⟩]
      (some 2) ⟨[], 3, []⟩ = _
    rw [evaluateDefinedLoop, if_pos rfl]
    split
    case h_1 str consumed behind h =>
      cases found.symm.trans h
      simp only [evaluateDefinedLoop]
      rfl
    case h_2 h => cases found.symm.trans h
  have kept := (leaves ⟨_, _, _, rfl, rfl, rfl⟩).1
  change AllKept definesFoo ((evaluatedList definesFoo _ _).old.takeWhile
    (· ∉ (evaluatedList definesFoo _ _).nodes)) _ at kept
  rw [evaluated] at kept
  have operand : outcome definesFoo ⟨2, ⟨.identifier "FOO".toList, ⟨2, 0⟩⟩⟩ [] = .kept := kept.2.2.1
  exact absurd operand (by decide)

end Glcpp
