import Mesa.Glcpp.ExpandTermination

/-!
# Walks over token lists

What holds while a list is walked over: the macros that were active at the start stay active below
those that are pushed, and the nodes belong to the list or are new.  Each step makes the ranks of
the nodes descend, so that the walk ends; then the active list is what it was.
-/

open scoped List
open Descent

namespace Glcpp

variable {defines : List Macro} {mode : Mode}

/-! ### What a walk keeps -/

/-- The active list of a walk: new macros above those that were active at the start, where addresses
from `low` on are new. -/
structure Held (low : ℕ) (initial : List ActiveNode) (s : ExpandState) : Prop where
  active : ∃ pushed, s.active = pushed ++ initial ∧ ∀ a ∈ pushed, low ≤ a.id
  fresh : low ≤ s.fresh
  allocated : ∀ a ∈ s.active, a.id < s.fresh
  markers : ∀ a ∈ s.active, ∀ id, a.marker = some id → id < s.fresh

/-- The macros that are active at the start are older than the walk, and their markers are not in
the list that is walked over. -/
structure Outside (low : ℕ) (ids : List ℕ) (initial : List ActiveNode) : Prop where
  old : ∀ a ∈ initial, a.id < low
  markers : ∀ a ∈ initial, ∀ id, a.marker = some id → id < low ∧ id ∉ ids

/-- Nodes of the list that is walked over, or new ones. -/
def Owned (low : ℕ) (ids : List ℕ) (s : ExpandState) (nodes : List Node) : Prop :=
  ∀ node ∈ nodes, node.id < s.fresh ∧ (node.id ∈ ids ∨ low ≤ node.id)

variable {low : ℕ} {ids : List ℕ} {initial : List ActiveNode}

theorem Held.grows {s s' : ExpandState} (h : Held low initial s) (grows : Grows s s') :
  Held low initial s'
  := by
  refine ⟨?_, h.fresh.trans grows.fresh, ?_, ?_⟩
  · rw [grows.active]
    exact h.active
  · intro a ha
    rw [grows.active] at ha
    exact (h.allocated a ha).trans_le grows.fresh
  · intro a ha id marker
    rw [grows.active] at ha
    exact (h.markers a ha id marker).trans_le grows.fresh

theorem Owned.grows {s s' : ExpandState} {nodes : List Node} (h : Owned low ids s nodes)
    (le : s.fresh ≤ s'.fresh) :
  Owned low ids s' nodes
  := fun node hn => ⟨(h node hn).1.trans_le le, (h node hn).2⟩

theorem owned_append {s : ExpandState} {nodes nodes' : List Node} :
  Owned low ids s (nodes ++ nodes') ↔ Owned low ids s nodes ∧ Owned low ids s nodes'
  := by
  constructor
  · intro h
    exact ⟨fun n hn => h n (List.mem_append_left _ hn),
      fun n hn => h n (List.mem_append_right _ hn)⟩
  · rintro ⟨h, h'⟩ n hn
    rcases List.mem_append.mp hn with hn | hn
    · exact h n hn
    · exact h' n hn

/-- A node of the walk does not pop the macros that were active at the start. -/
theorem popMarker_append
    (outside : Outside low ids initial) (pushed : List ActiveNode) {node : Node}
    (owned : node.id ∈ ids ∨ low ≤ node.id) :
  ∃ pushed', popMarker (pushed ++ initial) node = pushed' ++ initial ∧ pushed' <:+ pushed
  := by
  induction pushed with
  | nil =>
    refine ⟨[], popMarker_of_apart ?_, List.suffix_refl _⟩
    intro a ha marker
    obtain ⟨old, notMem⟩ := outside.markers a ha node.id marker
    rcases owned with mem | new
    · exact notMem mem
    · exact absurd old (not_lt.mpr new)
  | cons a pushed ih =>
    by_cases marker : a.marker = some node.id
    · obtain ⟨pushed', eq, suffix⟩ := ih
      refine ⟨pushed', ?_, suffix.trans (List.suffix_cons a pushed)⟩
      rw [← eq, List.cons_append, popMarker, List.dropWhile_cons_of_pos (by simpa using marker)]
      rfl
    · refine ⟨a :: pushed, ?_, List.suffix_refl _⟩
      rw [List.cons_append, popMarker, List.dropWhile_cons_of_neg (by simpa using marker)]

theorem Held.popMarker
    {s : ExpandState} (h : Held low initial s) (outside : Outside low ids initial) {node : Node}
    (owned : node.id ∈ ids ∨ low ≤ node.id) :
  Held low initial { s with active := Glcpp.popMarker s.active node }
  := by
  obtain ⟨pushed, eq, new⟩ := h.active
  obtain ⟨pushed', eq', suffix⟩ := popMarker_append outside pushed owned
  have sub : ∀ a ∈ Glcpp.popMarker s.active node, a ∈ s.active :=
    fun a ha => (popMarker_suffix s.active node).subset ha
  refine ⟨⟨pushed', ?_, fun a ha => new a (suffix.subset ha)⟩, h.fresh, ?_, ?_⟩
  · change Glcpp.popMarker s.active node = _
    rw [eq, eq']
  · exact fun a ha => h.allocated a (sub a ha)
  · exact fun a ha => h.markers a (sub a ha)

theorem Held.popMarkers
    {s : ExpandState} (h : Held low initial s) (outside : Outside low ids initial)
    {nodes : List Node} (owned : ∀ node ∈ nodes, node.id ∈ ids ∨ low ≤ node.id) :
  Held low initial { s with active := Glcpp.popMarkers s.active nodes }
  := by
  induction nodes generalizing s with
  | nil => exact h
  | cons node nodes ih =>
    have first := h.popMarker outside (owned node List.mem_cons_self)
    exact ih first (fun n hn => owned n (List.mem_cons_of_mem _ hn))

theorem Held.push
    {s : ExpandState} (h : Held low initial s) (identifier : Text) {marker : Option ℕ}
    (allocated : ∀ id, marker = some id → id < s.fresh) :
  Held low initial (activePush s identifier marker)
  := by
  obtain ⟨pushed, eq, new⟩ := h.active
  refine ⟨⟨⟨s.fresh, identifier, marker⟩ :: pushed, ?_, ?_⟩, h.fresh.trans (Nat.le_succ _), ?_, ?_⟩
  · change _ :: s.active = _
    rw [eq, List.cons_append]
  · intro a ha
    rcases List.mem_cons.mp ha with rfl | ha
    · exact h.fresh
    · exact new a ha
  · intro a ha
    rcases List.mem_cons.mp ha with rfl | ha
    · exact Nat.lt_succ_self _
    · exact (h.allocated a ha).trans (Nat.lt_succ_self _)
  · intro a ha id eq
    rcases List.mem_cons.mp ha with rfl | ha
    · exact (allocated id eq).trans (Nat.lt_succ_self _)
    · exact (h.markers a ha id eq).trans (Nat.lt_succ_self _)

/-- At the end the active list is what it was at the start. -/
theorem Held.popUntil
    {s : ExpandState} (h : Held low initial s) (outside : Outside low ids initial) :
  Glcpp.popUntil s.active (initial.head?.map ActiveNode.id) = initial
  := by
  obtain ⟨pushed, eq, new⟩ := h.active
  rw [eq]
  clear eq h
  induction pushed with
  | nil =>
    cases initial with
    | nil => rfl
    | cons a initial =>
      rw [List.nil_append, Glcpp.popUntil, List.dropWhile_cons_of_neg]
      simp
  | cons a pushed ih =>
    have differs : some a.id ≠ initial.head?.map ActiveNode.id := by
      intro same
      cases initial with
      | nil => contradiction
      | cons b initial =>
        have old := outside.old b List.mem_cons_self
        have eq : a.id = b.id := Option.some.inj same
        have := new a List.mem_cons_self
        omega
    rw [List.cons_append, Glcpp.popUntil, List.dropWhile_cons_of_pos (by simpa using differs)]
    exact ih (fun b hb => new b (List.mem_cons_of_mem _ hb))

/-! ### One step -/

/-- The expansion that is put into the list: its nodes are new, and can be expanded only when those
of the expansion could. -/
theorem evaluateExpansion_spec
    (defines : List Macro) (mode : Mode) {expansion : TokenList} {s s' : ExpandState}
    (grows : Grows s s') (within : Within s.fresh s'.fresh expansion.nodes) :
  Grows s (evaluateExpansion defines mode expansion s').2 ∧
  Within s.fresh (evaluateExpansion defines mode expansion s').2.fresh
    (evaluateExpansion defines mode expansion s').1.nodes ∧
  ((∀ n ∈ expansion.nodes, tokenWeight n.token = 1) →
    ∀ n ∈ (evaluateExpansion defines mode expansion s').1.nodes, tokenWeight n.token = 1)
  := by
  cases mode with
  | ignoreDefined => exact ⟨grows, within, id⟩
  | evaluateDefined =>
    have spec := evaluateDefinedLoop_spec defines expansion.nodes expansion.tail s'
    refine ⟨grows.trans spec.grows, ?_, ?_⟩
    · intro n hn
      rcases spec.nodes_mem n hn with old | ⟨lower, upper, -⟩
      · exact ⟨(within n old).1, (within n old).2.trans_le spec.grows.fresh⟩
      · exact ⟨grows.fresh.trans lower, upper⟩
    · intro weights n hn
      rcases spec.nodes_mem n hn with old | ⟨-, -, value, integer⟩
      · exact weights n old
      · rw [tokenWeight, integer]

/-- An expansion has smaller ranks than the last node whose place it takes. -/
theorem rank_lt_rank
    {active : List ActiveNode} {a : ActiveNode} {token last : Token}
    (h : inactive defines (a :: active) < inactive defines active ∨
      tokenWeight token < tokenWeight last) :
  rank defines (a :: active) token < rank defines active last
  := by
  have le : inactive defines (a :: active) ≤ inactive defines active :=
    inactive_le_of_suffix (List.suffix_cons a active)
  rw [rank, rank, Prod.Lex.lt_iff]
  rcases h with lt | lt
  · exact .inl lt
  · rcases le.lt_or_eq with lt' | eq
    · exact .inl lt'
    · exact .inr ⟨eq, lt⟩

theorem splice_done
    (defines : List Macro) (mode : Mode) (w : Walk) (node : Node) (e : NodeExpansion)
    (s : ExpandState) :
  (splice defines mode w node e s).done = w.done
  := by
  simp only [splice]
  split
  · rfl
  · rfl

theorem splice_state
    (defines : List Macro) (mode : Mode) (w : Walk) (node : Node) (e : NodeExpansion)
    (s : ExpandState) :
  (splice defines mode w node e s).state =
    activePush
      { (evaluateExpansion defines mode e.expansion s).2 with
        active := popMarkers (evaluateExpansion defines mode e.expansion s).2.active
          (node :: e.consumed) }
      ((definedName node.token).getD []) (e.rest.head?.map Node.id)
  := by
  simp only [splice]
  split
  · rfl
  · rfl

/-- The nodes behind an expansion are reached through it, or are lost. -/
theorem splice_rest
    (defines : List Macro) (mode : Mode) (w : Walk) (node : Node) (e : NodeExpansion)
    (s : ExpandState) :
  ∃ new, new <+ (evaluateExpansion defines mode e.expansion s).1.nodes ∧
    ((splice defines mode w node e s).rest = new ∨
      (splice defines mode w node e s).rest = new ++ e.rest)
  := by
  simp only [splice]
  split
  · exact ⟨[], List.nil_sublist _, .inr rfl⟩
  · rcases link_cases (evaluateExpansion defines mode e.expansion s).1 e.rest with
      same | ⟨front, hfront, eq⟩
    · exact ⟨_, List.Sublist.refl _, .inl same⟩
    · exact ⟨front, hfront.sublist, .inr eq⟩

theorem popMarkers_popMarker (active : List ActiveNode) (node : Node) (nodes : List Node) :
  popMarkers (popMarker active node) (node :: nodes) = popMarkers active (node :: nodes)
  := by
  have idempotent : popMarker (popMarker active node) node = popMarker active node :=
    List.dropWhile_idempotent _ active
  rw [popMarkers, popMarkers, List.foldl_cons, List.foldl_cons, idempotent]

/-- What a step that replaces a node does to a walk. -/
structure Splices (defines : List Macro) (low : ℕ) (ids : List ℕ) (initial : List ActiveNode)
    (w w' : Walk) : Prop where
  done : w'.done = w.done
  held : Held low initial w'.state
  fresh : w.state.fresh ≤ w'.state.fresh
  owned : Owned low ids w'.state w'.rest
  descends : Multiset.IsDershowitzMannaLT (ranks defines w'.state.active w'.rest)
    (ranks defines w.state.active w.rest)

theorem splice_spec
    (mode : Mode) {w : Walk} {node : Node} {nodes : List Node} (rest : w.rest = node :: nodes)
    (held : Held low initial w.state) (outside : Outside low ids initial)
    (owned : Owned low ids w.state w.rest) {s' : ExpandState} {e : NodeExpansion}
    (expands : Expands defines node nodes
      { w.state with active := popMarker w.state.active node } e s') :
  Splices defines low ids initial w (splice defines mode w node e s')
  := by
  obtain ⟨name, identifier, progress⟩ := expands.descends
  obtain ⟨grows, within, weights⟩ :=
    evaluateExpansion_spec defines mode expands.grows expands.within
  obtain ⟨new, sub, reached⟩ := splice_rest defines mode w node e s'
  have state := splice_state defines mode w node e s'
  have named : (definedName node.token).getD [] = name := by
    rw [definedName, identifier]
    rfl
  generalize (evaluateExpansion defines mode e.expansion s').2 = s₁ at grows within state
  generalize (evaluateExpansion defines mode e.expansion s').1 = x at within weights sub
  have newWithin : Within w.state.fresh s₁.fresh new := within.sublist sub
  rw [rest, expands.nodes] at owned
  have owned' : Owned low ids w.state ((node :: e.consumed) ++ e.rest) := owned
  obtain ⟨ownedNodes, ownedRest⟩ := owned_append.mp owned'
  -- the active list after the nodes that are consumed, and below the new macro
  have popped : popMarkers s₁.active (node :: e.consumed) =
      popMarkers w.state.active (node :: e.consumed) := by
    rw [grows.active]
    apply popMarkers_popMarker
  have marker_lt : ∀ id, e.rest.head?.map Node.id = some id → id < w.state.fresh := by
    intro id head
    obtain ⟨n, hn, rfl⟩ := Option.map_eq_some_iff.mp head
    exact (ownedRest n (List.mem_of_head? hn)).1
  have held₁ := held.popMarkers outside (fun n hn => (ownedNodes n hn).2)
  have held₂ : Held low initial
      { s₁ with active := popMarkers w.state.active (node :: e.consumed) } :=
    held₁.grows ⟨rfl, grows.fresh⟩
  rw [popped, named] at state
  have fresh : w.state.fresh ≤ (splice defines mode w node e s').state.fresh := by
    rw [state]
    exact grows.fresh.trans (Nat.le_succ _)
  refine ⟨splice_done defines mode w node e s', ?_, fresh, ?_, ?_⟩
  · rw [state]
    exact held₂.push name (fun id head => (marker_lt id head).trans_le grows.fresh)
  · have ownedNew : Owned low ids (splice defines mode w node e s').state new := by
      intro n hn
      obtain ⟨lower, upper⟩ := newWithin n hn
      rw [state]
      exact ⟨upper.trans (Nat.lt_succ_self _), .inr (held.fresh.trans lower)⟩
    rcases reached with eq | eq
    · rw [eq]
      exact ownedNew
    · rw [eq]
      exact owned_append.mpr ⟨ownedNew, ownedRest.grows fresh⟩
  · obtain ⟨front, last, split⟩ : ∃ front last, node :: e.consumed = front ++ [last] :=
      ⟨_, _, (List.dropLast_append_getLast (List.cons_ne_nil node e.consumed)).symm⟩
    have before : w.rest = front ++ [last] ++ e.rest := by
      rw [← split, rest, expands.nodes, List.cons_append]
    rw [state, before]
    change Multiset.IsDershowitzMannaLT
      (ranks defines (⟨s₁.fresh, name, e.rest.head?.map Node.id⟩ ::
        popMarkers w.state.active (node :: e.consumed)) _) _
    rw [split]
    apply ranks_lt_of_expansion rfl ?_ ?_ reached
    · rw [← split]
      intro a ha n hn marker
      have lower := (newWithin n hn).1
      have upper : n.id < w.state.fresh := by
        rcases List.mem_cons.mp ha with rfl | ha
        · exact marker_lt n.id marker
        · exact held₁.markers a ha n.id marker
      omega
    · rw [← split]
      intro n hn
      apply rank_lt_rank
      rcases progress with ⟨defined, absent⟩ | ⟨none, plain⟩
      · left
        apply inactive_cons_lt defined _ rfl
        intro mem
        obtain ⟨a, ha, eq⟩ := List.mem_map.mp mem
        have still : a ∈ popMarker w.state.active node := by
          rw [← popMarkers_popMarker] at ha
          exact (popMarkers_suffix _ _).subset ha
        have contains : activeContains (popMarker w.state.active node) name = true :=
          List.any_eq_true.mpr ⟨a, still, by simpa using eq⟩
        rw [contains] at absent
        contradiction
      · right
        have last_eq : last = node := by
          rw [none] at split
          have both := List.append_inj' (show [] ++ [node] = front ++ [last] from split) rfl
          exact (List.cons.inj both.2).1.symm
        rw [last_eq, weights plain n (sub.subset hn), tokenWeight, identifier]
        exact Nat.one_lt_two

/-! ### Calls -/

/-- The token of a node is no object-like macro. -/
def Final (defines : List Macro) (node : Node) : Prop :=
  ∀ name m, node.token.lexeme = .identifier name → search defines name = some m → m.isFunction

/-- What holds at the end of a walk. -/
structure Walked (defines : List Macro) (low : ℕ) (ids : List ℕ) (initial : List ActiveNode)
    (w w' : Walk) : Prop where
  held : Held low initial w'.state
  fresh : w.state.fresh ≤ w'.state.fresh
  owned : Owned low ids w'.state w'.done
  final : (∀ n ∈ w.done, Final defines n) → ∀ n ∈ w'.done, Final defines n

/-- A walk ends, for all sufficiently large numbers of steps and depths of calls. -/
def Ends (defines : List Macro) (mode : Mode) (w : Walk) (P : Walk → Prop) : Prop :=
  ∃ w' bound, P w' ∧ ∀ fuel steps, bound ≤ fuel → bound ≤ steps →
    walk (expandTokenList defines mode fuel) defines mode steps w = some w'

/-- A list is ready for a call: its nodes and the macros that are active have been allocated, and
its nodes are not markers of active macros. -/
structure Ready (list : TokenList) (s : ExpandState) : Prop where
  nodes : ∀ node ∈ list.nodes, node.id < s.fresh
  allocated : ∀ a ∈ s.active, a.id < s.fresh
  markers : ∀ a ∈ s.active, ∀ id, a.marker = some id →
    id < s.fresh ∧ id ∉ list.nodes.map Node.id

/-- What holds after a call. -/
structure Returned (defines : List Macro) (mode : Mode) (list : TokenList) (s : ExpandState)
    (r : TokenList × ExpandState) : Prop where
  grows : Grows s r.2
  owned : Owned s.fresh (list.nodes.map Node.id) r.2 r.1.nodes
  final : mode = .ignoreDefined → ∀ n ∈ r.1.nodes, Final defines n

/-- The first nodes of a walk are those of the list, or new integers. -/
theorem startWalk_spec
    (defines : List Macro) (mode : Mode) (list : TokenList) (s : ExpandState) :
  Grows s (startWalk defines mode list s).2.state ∧
  (startWalk defines mode list s).2.done = [] ∧
  (∀ n ∈ (startWalk defines mode list s).2.rest ++ (startWalk defines mode list s).1.nodes,
    n ∈ list.nodes ∨ s.fresh ≤ n.id ∧ n.id < (startWalk defines mode list s).2.state.fresh) ∧
  (mode = .ignoreDefined → (startWalk defines mode list s).1.nodes =
    (startWalk defines mode list s).2.rest) ∧
  ∀ active, ((startWalk defines mode list s).2.rest.map fun n => rank defines active n.token) <+
    list.nodes.map fun n => rank defines active n.token
  := by
  have trim := trimTrailingSpace_sublist list
  cases mode with
  | ignoreDefined =>
    refine ⟨.refl s, rfl, ?_, fun _ => rfl, fun active => trim.map _⟩
    intro n hn
    left
    apply trim.subset
    change n ∈ (trimTrailingSpace list).nodes ++ (trimTrailingSpace list).nodes at hn
    rcases List.mem_append.mp hn with hn | hn
    · exact hn
    · exact hn
  | evaluateDefined =>
    have spec := evaluateDefinedLoop_spec defines (trimTrailingSpace list).nodes
      (trimTrailingSpace list).tail s
    refine ⟨spec.grows, rfl, ?_, ?_, ?_⟩
    · intro n hn
      have cases' : n ∈ (trimTrailingSpace list).nodes ∨ s.fresh ≤ n.id ∧
          n.id < (startWalk defines .evaluateDefined list s).2.state.fresh ∧
          ∃ value, n.token.lexeme = .integer value := by
        rcases List.mem_append.mp hn with hn | hn
        · exact spec.old_mem n hn
        · exact spec.nodes_mem n hn
      rcases cases' with old | ⟨lower, upper, -⟩
      · exact .inl (trim.subset old)
      · exact .inr ⟨lower, upper⟩
    · intro h
      contradiction
    · intro active
      have ranked := spec.old_sublist (rank defines active) (by
        intro t value isDefined
        rw [rank, rank, tokenWeight, tokenWeight, isDefined])
      exact ranked.trans (trim.map _)

theorem mem_reached {nodes walked : List Node} {n : Node} (h : n ∈ reached nodes walked) :
  n ∈ nodes ∨ n ∈ walked
  := by
  induction nodes with
  | nil => exact absurd h List.not_mem_nil
  | cons node nodes ih =>
    rw [reached] at h
    split at h
    · rcases List.mem_cons.mp h with rfl | h
      · exact .inl List.mem_cons_self
      · rcases ih h with h | h
        · exact .inl (List.mem_cons_of_mem _ h)
        · exact .inr h
    · exact .inr ((List.dropWhile_suffix _).subset h)

/-- A call returns when its walk ends. -/
theorem expandTokenList_settles
    {list : TokenList} {s : ExpandState} (ready : Ready list s)
    (ends : Ends defines mode (startWalk defines mode list s).2
      (Walked defines s.fresh (list.nodes.map Node.id) s.active
        (startWalk defines mode list s).2)) :
  Settles (fun fuel => expandTokenList defines mode fuel list s) (Returned defines mode list s)
  := by
  obtain ⟨w, bound, walked, eq⟩ := ends
  obtain ⟨grows, start, mem, same, -⟩ := startWalk_spec defines mode list s
  have outside : Outside s.fresh (list.nodes.map Node.id) s.active :=
    ⟨ready.allocated, ready.markers⟩
  refine ⟨(endWalk (startWalk defines mode list s).1 (startWalk defines mode list s).2 w,
    { w.state with active := popUntil w.state.active (s.active.head?.map ActiveNode.id) }),
    bound + 1, ⟨⟨?_, ?_⟩, ?_, ?_⟩, ?_⟩
  · exact walked.held.popUntil outside
  · exact grows.fresh.trans walked.fresh
  · intro n hn
    change n ∈ (if _ then w.done else reached _ w.done) at hn
    have cases' : n ∈ (startWalk defines mode list s).1.nodes ∨ n ∈ w.done := by
      split at hn
      · exact .inr hn
      · exact mem_reached hn
    rcases cases' with hn | hn
    · rcases mem n (List.mem_append_right _ hn) with old | ⟨lower, upper⟩
      · exact ⟨(ready.nodes n old).trans_le (grows.fresh.trans walked.fresh),
          .inl (List.mem_map_of_mem old)⟩
      · exact ⟨upper.trans_le walked.fresh, .inr lower⟩
    · exact walked.owned n hn
  · intro ignore n hn
    change n ∈ (if _ then w.done else reached _ w.done) at hn
    rw [same ignore, if_pos rfl] at hn
    apply walked.final _ n hn
    rw [start]
    intro n hn
    exact absurd hn List.not_mem_nil
  · intro fuel le
    obtain ⟨fuel, rfl⟩ : ∃ k, fuel = k + 1 := ⟨fuel - 1, by omega⟩
    simp only [expandTokenList]
    have run := eq fuel fuel (by omega) (by omega)
    change (walk _ defines mode fuel (startWalk defines mode list s).2).bind _ = _
    rw [run]
    rfl

/-- A walk ends when it ends after one step. -/
theorem Ends.step
    {w : Walk} (w' : Walk) (bound : ℕ) {P Q : Walk → Prop}
    (step : ∀ fuel steps, bound ≤ fuel →
      walk (expandTokenList defines mode fuel) defines mode (steps + 1) w =
        walk (expandTokenList defines mode fuel) defines mode steps w')
    (ends : Ends defines mode w' P) (imp : ∀ w'', P w'' → Q w'') :
  Ends defines mode w Q
  := by
  obtain ⟨w'', bound', holds, run⟩ := ends
  refine ⟨w'', max bound bound' + 1, imp w'' holds, ?_⟩
  intro fuel steps hfuel hsteps
  obtain ⟨steps, rfl⟩ : ∃ k, steps = k + 1 := ⟨steps - 1, by omega⟩
  rw [step fuel steps (by omega)]
  apply run
  · omega
  · omega

/-- The state of a walk when it starts. -/
theorem startWalk_held
    (defines : List Macro) (mode : Mode) {list : TokenList} {s : ExpandState}
    (ready : Ready list s) :
  Held s.fresh s.active (startWalk defines mode list s).2.state ∧
  Owned s.fresh (list.nodes.map Node.id) (startWalk defines mode list s).2.state
    ((startWalk defines mode list s).2.done ++ (startWalk defines mode list s).2.rest)
  := by
  obtain ⟨grows, start, mem, -, -⟩ := startWalk_spec defines mode list s
  have held : Held s.fresh s.active s :=
    ⟨⟨[], rfl, fun a ha => absurd ha List.not_mem_nil⟩, le_rfl, ready.allocated,
      fun a ha id marker => (ready.markers a ha id marker).1⟩
  refine ⟨held.grows grows, ?_⟩
  rw [start, List.nil_append]
  intro n hn
  rcases mem n (List.mem_append_left _ hn) with old | ⟨lower, upper⟩
  · exact ⟨(ready.nodes n old).trans_le grows.fresh, .inl (List.mem_map_of_mem old)⟩
  · exact ⟨upper, .inr lower⟩

/-- A copy of tokens is ready, and has no rank above those of nodes with these tokens. -/
theorem tokenListCopy_ready
    (argument : List Token) {s : ExpandState} (allocated : ∀ a ∈ s.active, a.id < s.fresh)
    (markers : ∀ a ∈ s.active, ∀ id, a.marker = some id → id < s.fresh) :
  Ready (tokenListCopy argument s).1 (tokenListCopy argument s).2
  := by
  have grows := tokenListCopy_grows argument s
  have within := tokenListCopy_within argument s
  refine ⟨fun n hn => (within n hn).2, ?_, ?_⟩
  · rw [grows.active]
    exact fun a ha => (allocated a ha).trans_le grows.fresh
  · rw [grows.active]
    intro a ha id marker
    have old := markers a ha id marker
    refine ⟨old.trans_le grows.fresh, ?_⟩
    intro mem
    obtain ⟨n, hn, rfl⟩ := List.mem_map.mp mem
    have := (within n hn).1
    omega

/-- The walk over a copy of tokens. -/
abbrev copyWalk (defines : List Macro) (mode : Mode) (argument : List Token) (s : ExpandState) :
    Walk :=
  (startWalk defines mode (tokenListCopy argument s).1 (tokenListCopy argument s).2).2

theorem copyWalk_below
    (defines : List Macro) (mode : Mode) {argument : List Token} {nodes : List Node}
    (sub : argument <+ nodes.map Node.token)
    {s : ExpandState} (markers : ∀ a ∈ s.active, ∀ id, a.marker = some id → id < s.fresh) :
  Below
    (ranks defines (copyWalk defines mode argument s).state.active
      (copyWalk defines mode argument s).rest)
    (ranks defines s.active nodes)
  := by
  have copied := tokenListCopy_grows argument s
  have within := tokenListCopy_within argument s
  obtain ⟨grows, -, mem, -, ranked⟩ := startWalk_spec defines mode
    (tokenListCopy argument s).1 (tokenListCopy argument s).2
  have apart : Apart s.active (copyWalk defines mode argument s).rest := by
    intro a ha n hn marker
    have old := markers a ha n.id marker
    rcases mem n (List.mem_append_left _ hn) with hn | ⟨lower, -⟩
    · have := (within n hn).1
      omega
    · have := copied.fresh
      omega
  rw [grows.active, copied.active, ranks_of_apart apart]
  apply map_rank_below (List.suffix_refl _)
  apply (ranked s.active).trans
  have tokens := ((tokenListCopy_tokens argument s).trans sub).map (rank defines s.active)
  simpa only [List.map_map, Function.comp_def] using tokens

/-- Every walk ends. -/
theorem walk_ends
    (defines : List Macro) (mode : Mode) (w : Walk) (held : Held low initial w.state)
    (outside : Outside low ids initial) (owned : Owned low ids w.state (w.done ++ w.rest)) :
  Ends defines mode w (Walked defines low ids initial w)
  := by
  have descent := Multiset.wellFounded_isDershowitzMannaLT (α := ℕ ×ₗ ℕ)
  generalize h : ranks defines w.state.active w.rest = M
  induction M using descent.induction generalizing w low ids initial with
  | _ M ih =>
  obtain ⟨ownedDone, ownedRest⟩ := owned_append.mp owned
  cases rest : w.rest with
  | nil =>
    refine ⟨w, 1, ⟨held, le_rfl, ownedDone, fun final => final⟩, ?_⟩
    intro fuel steps _ hsteps
    obtain ⟨steps, rfl⟩ : ∃ k, steps = k + 1 := ⟨steps - 1, by omega⟩
    rw [walk, rest]
  | cons node nodes =>
    rw [rest] at ownedRest
    have ownedNode := ownedRest node List.mem_cons_self
    have popped := held.popMarker outside ownedNode.2
    have below : Multiset.IsDershowitzMannaLT
        (ranks defines (popMarker w.state.active node) nodes) M := by
      rw [← h, rest, ranks]
      apply lt_cons
    -- the arguments have no greater ranks than the nodes behind the name of a macro
    have arguments : ExpandsArguments (expandTokenList defines mode) (nodes.map Node.token)
        { w.state with active := popMarker w.state.active node } := by
      intro argument s sub grows
      have heldS := popped.grows grows
      have ready := tokenListCopy_ready argument heldS.allocated heldS.markers
      have start := startWalk_held defines mode ready
      have smaller := copyWalk_below defines mode sub heldS.markers
      rw [grows.active] at smaller
      have ends := ih _ (smaller.trans_lt below) _ start.1 ⟨ready.allocated, ready.markers⟩
        start.2 rfl
      apply (expandTokenList_settles ready ends).imp
      rintro r ⟨returned, owned, -⟩
      have copied := tokenListCopy_grows argument s
      refine ⟨copied.trans returned, ?_⟩
      intro n hn
      obtain ⟨upper, own⟩ := owned n hn
      refine ⟨?_, upper⟩
      rcases own with mem | lower
      · obtain ⟨n', hn', eq⟩ := List.mem_map.mp mem
        rw [← eq]
        exact (tokenListCopy_within argument s n' hn').1
      · exact copied.fresh.trans lower
    obtain ⟨⟨outcome, s'⟩, bound, property, run⟩ := expandNode_settles defines node arguments
    cases outcome with
    | none =>
      obtain ⟨grows, final⟩ := property
      apply Ends.step { w with done := w.done ++ [node], rest := nodes, state := s' } bound
      · intro fuel steps le
        have node_run := run fuel le
        simp only at node_run
        simp only [walk, rest, node_run]
        rfl
      · apply ih _ _ _ (popped.grows grows) outside _ rfl
        · rw [grows.active]
          exact below
        · have all := owned_append.mpr ⟨ownedDone, ownedRest⟩
          rw [List.append_assoc]
          exact all.grows grows.fresh
      · rintro w' ⟨held', fresh', owned', final'⟩
        refine ⟨held', grows.fresh.trans fresh', owned', ?_⟩
        intro before
        apply final'
        intro n hn
        rcases List.mem_append.mp hn with hn | hn
        · exact before n hn
        · rw [List.mem_singleton.mp hn]
          exact final
    | some e =>
      obtain ⟨done, held', fresh, owned', descends⟩ :=
        splice_spec mode rest held outside (by rw [rest]; exact ownedRest) property
      apply Ends.step (splice defines mode w node e s') bound
      · intro fuel steps le
        have node_run := run fuel le
        simp only at node_run
        simp only [walk, rest, node_run]
        rfl
      · rw [h] at descends
        apply ih _ descends _ held' outside _ rfl
        rw [done]
        exact owned_append.mpr ⟨ownedDone.grows fresh, owned'⟩
      · rintro w' ⟨held'', fresh', owned'', final'⟩
        refine ⟨held'', fresh.trans fresh', owned'', ?_⟩
        rw [← done]
        exact final'

/-- A call returns, leaves the active list as it was, and when it does not evaluate `defined`, no
object-like macro is left in the list. -/
theorem expandTokenList_returns
    (defines : List Macro) (mode : Mode) {list : TokenList} {s : ExpandState}
    (ready : Ready list s) :
  ∃ fuel list' s',
    (∀ n, fuel ≤ n → expandTokenList defines mode n list s = some (list', s')) ∧
    s'.active = s.active ∧
    (mode = .ignoreDefined → ∀ node ∈ list'.nodes, ∀ name m,
      node.token.lexeme = .identifier name → search defines name = some m → m.isFunction)
  := by
  obtain ⟨held, owned⟩ := startWalk_held defines mode ready
  have ends := walk_ends defines mode _ held
    ⟨ready.allocated, ready.markers⟩ owned
  obtain ⟨⟨list', s'⟩, fuel, returned, run⟩ := expandTokenList_settles ready ends
  exact ⟨fuel, list', s', run, returned.grows.active, returned.final⟩

/-- A macro that is defined by itself. -/
theorem expandTokenList_returns_self :
  ∃ fuel list' s',
    (∀ n, fuel ≤ n → expandTokenList
      [⟨false, [], ['a'], [⟨.identifier ['a'], ⟨1, 0⟩⟩, ⟨.integerString ['1'], ⟨1, 0⟩⟩]⟩]
      .ignoreDefined n ⟨[⟨0, ⟨.identifier ['a'], ⟨2, 0⟩⟩⟩], some 0, some 0⟩ ⟨[], 1, []⟩ =
        some (list', s')) ∧
    s'.active = [] ∧
    (Mode.ignoreDefined = .ignoreDefined → ∀ node ∈ list'.nodes, ∀ name m,
      node.token.lexeme = .identifier name → search
        [⟨false, [], ['a'], [⟨.identifier ['a'], ⟨1, 0⟩⟩, ⟨.integerString ['1'], ⟨1, 0⟩⟩]⟩] name =
          some m → m.isFunction)
  := by
  apply expandTokenList_returns
  refine ⟨?_, ?_, ?_⟩
  · simp
  · simp
  · simp

end Glcpp
