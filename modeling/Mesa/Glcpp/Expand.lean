import Mesa.Glcpp.TokenList

/-!
# Macro expansion

`_glcpp_parser_expand_token_list` walks over a list, and replaces macros by their expansions.  It
calls itself for arguments of macros; here the depth of these calls, and with it the number of nodes
it walks over, is bounded by fuel, and there is no result when the fuel is used up.
-/

namespace Glcpp

structure Macro where
  isFunction : Bool
  parameters : List Text
  identifier : Text
  /-- empty for a macro without replacement list -/
  replacements : List Token
  deriving DecidableEq

/-- `_mesa_hash_table_search` in `parser->defines` -/
def search (defines : List Macro) (identifier : Text) : Option Macro :=
  defines.find? (·.identifier = identifier)

inductive Mode where
  | ignoreDefined
  | evaluateDefined
  deriving DecidableEq

/-! ### The list of active macros -/

/-- Pop the active list while the marker on top is this node. -/
def popMarker (active : List ActiveNode) (node : Node) : List ActiveNode :=
  active.dropWhile (·.marker = some node.id)

/-- `_parser_active_list_contains` -/
def activeContains (active : List ActiveNode) (identifier : Text) : Bool :=
  active.any (·.identifier = identifier)

/-- `_parser_active_list_push` -/
def activePush (s : ExpandState) (identifier : Text) (marker : Option ℕ) : ExpandState :=
  { s with active := ⟨s.fresh, identifier, marker⟩ :: s.active, fresh := s.fresh + 1 }

/-- Pop the active list until a node of it is on top. -/
def popUntil (active : List ActiveNode) (initial : Option ℕ) : List ActiveNode :=
  active.dropWhile (fun a => some a.id ≠ initial)

/-! ### `defined` -/

/-- The name that a token gives to `defined`. -/
def definedName (token : Token) : Option Text :=
  match token.lexeme with
  | .identifier str | .other str => some str
  | _ => none

/-- `_glcpp_parser_evaluate_defined`, on the nodes behind `defined`: the name, with the nodes up to
the last one that is evaluated and those behind it. -/
def evaluateDefined (nodes : List Node) : Option (Text × List Node × List Node) :=
  let spaces := nodes.takeWhile Node.isSpace
  match nodes.dropWhile Node.isSpace with
  | [] => none
  | node :: rest =>
    match definedName node.token with
    | some str => some (str, spaces ++ [node], rest)
    | none =>
      if node.token.lexeme = .punctuation '(' then
        let spaces' := rest.takeWhile Node.isSpace
        match rest.dropWhile Node.isSpace with
        | [] => none
        | argument :: rest =>
          match definedName argument.token with
          | none => none
          | some str =>
            let spaces'' := rest.takeWhile Node.isSpace
            match rest.dropWhile Node.isSpace with
            | [] => none
            | close :: rest =>
              if close.token.lexeme = .punctuation ')' then
                let front := spaces ++ [node] ++ spaces' ++ [argument] ++ spaces'' ++ [close]
                some (str, front, rest)
              else none
      else none

theorem evaluateDefined_nodes
    {nodes consumed rest : List Node} {str : Text}
    (h : evaluateDefined nodes = some (str, consumed, rest)) :
  nodes = consumed ++ rest ∧ consumed ≠ []
  := by
  have split := fun l : List Node => (List.takeWhile_append_dropWhile (p := Node.isSpace) (l := l))
  unfold evaluateDefined at h
  simp only at h
  split at h
  case h_1 => contradiction
  case h_2 node behind drop =>
    have front := split nodes
    rw [drop] at front
    split at h
    case h_1 =>
      simp only [Option.some.injEq, Prod.mk.injEq] at h
      obtain ⟨-, rfl, rfl⟩ := h
      refine ⟨?_, by simp⟩
      rw [List.append_assoc, List.singleton_append, front]
    case h_2 =>
      split at h
      case isFalse => contradiction
      case isTrue =>
        split at h
        case h_1 => contradiction
        case h_2 argument behind' drop' =>
          have front' := split behind
          rw [drop'] at front'
          split at h
          case h_1 => contradiction
          case h_2 =>
            split at h
            case h_1 => contradiction
            case h_2 close behind'' drop'' =>
              have front'' := split behind'
              rw [drop''] at front''
              split at h
              case isFalse => contradiction
              case isTrue =>
                simp only [Option.some.injEq, Prod.mk.injEq] at h
                obtain ⟨-, rfl, rfl⟩ := h
                refine ⟨?_, by simp⟩
                calc
                  nodes = nodes.takeWhile Node.isSpace ++ node :: (behind.takeWhile Node.isSpace ++
                      argument :: (behind'.takeWhile Node.isSpace ++ close :: behind'')) := by
                    rw [front'', front', front]
                  _ = _ := by simp only [List.append_assoc, List.cons_append, List.nil_append]

/-- A list after its `defined` nodes have been evaluated. -/
structure Evaluated where
  /-- the nodes that are reached from `list->head` -/
  nodes : List Node
  /-- the nodes that are reached from the node that was the first one -/
  old : List Node
  tail : Option ℕ
  state : ExpandState

/-- The loop of `_glcpp_parser_evaluate_defined_in_list`. -/
def evaluateDefinedLoop (defines : List Macro) :
    List Node → Option ℕ → ExpandState → Evaluated
  | [], tail, s => { nodes := [], old := [], tail, state := s }
  | node :: rest, tail, s =>
    if node.token.lexeme = .defined then
      match h : evaluateDefined rest with
      | some (str, consumed, behind) =>
        let value : Int32 := if (search defines str).isSome then 1 else 0
        let replacement : Node := ⟨s.fresh, ⟨.integer value, ⟨0, 0⟩⟩⟩
        let last := consumed.getLast?.map Node.id
        let tail := if last = tail then some replacement.id else tail
        let e := evaluateDefinedLoop defines behind tail { s with fresh := s.fresh + 1 }
        -- the pointers of the nodes that are taken out of the list are not changed
        { e with nodes := replacement :: e.nodes, old := node :: (consumed ++ e.old) }
      | none =>
        let s := s.error "\"defined\" not followed by an identifier".toList
        let e := evaluateDefinedLoop defines rest tail s
        { e with nodes := node :: e.nodes, old := node :: e.nodes }
    else
      let e := evaluateDefinedLoop defines rest tail s
      { e with nodes := node :: e.nodes, old := node :: e.nodes }
  termination_by nodes => nodes.length
  decreasing_by
    · rw [(evaluateDefined_nodes h).1]
      simp only [List.length_cons, List.length_append]
      omega
    · exact Nat.lt_succ_self _
    · exact Nat.lt_succ_self _

/-- `_glcpp_parser_evaluate_defined_in_list`, with the nodes that are reached from the node that was
the first one. -/
def evaluateDefinedInList (defines : List Macro) (list : TokenList) (s : ExpandState) :
    TokenList × List Node × ExpandState :=
  let e := evaluateDefinedLoop defines list.nodes list.tail s
  ({ list with nodes := e.nodes, tail := e.tail }, e.old, e.state)

/-! ### The expansion of a node -/

/-- The expansion of a node and of the nodes that are consumed behind it. -/
structure NodeExpansion where
  expansion : TokenList
  consumed : List Node
  rest : List Node

section

-- the call of `_glcpp_parser_expand_token_list` for an argument
variable (expandArgument : TokenList → ExpandState → Option (TokenList × ExpandState))

/-- `_string_list_contains`, with the position of a parameter. -/
def parameterIndex (parameters : List Text) (token : Token) : Option ℕ :=
  match token.lexeme with
  | .identifier str => parameters.findIdx? (· = str)
  | _ => none

/-- The loop over the replacement list of `_glcpp_parser_expand_function`. -/
def substitute (parameters : List Text) (arguments : List (List Token)) (substituted : TokenList) :
    List Token → ExpandState → Option (TokenList × ExpandState)
  | [], s => some (substituted, s)
  | token :: tokens, s =>
    match parameterIndex parameters token with
    | some index =>
      let argument := arguments.getD index []
      if argument = [] then
        let (list, s) := tokenListAppend substituted ⟨.placeholder, ⟨0, 0⟩⟩ s
        substitute parameters arguments list tokens s
      else do
        let (copy, s) := tokenListCopy argument s
        let (expanded, s) ← expandArgument copy s
        substitute parameters arguments (tokenListAppendList substituted expanded) tokens s
    | none =>
      let (list, s) := tokenListAppend substituted token s
      substitute parameters arguments list tokens s

/-- The condition on the number of arguments. -/
def argumentsFit (parameters : List Text) (arguments : List (List Token)) : Bool :=
  arguments.length = parameters.length ∨ parameters.length = 0 ∧ arguments = [[]]

/-- `_glcpp_parser_expand_function`, with the nodes behind the name of the macro. -/
def expandFunction (m : Macro) (nodes : List Node) (s : ExpandState) :
    Option (Option NodeExpansion × ExpandState) :=
  match argumentsParse nodes with
  | .notAFunction => some (none, s)
  | .unbalancedParentheses =>
    some (none, s.error ("Macro ".toList ++ m.identifier ++
      " call has unbalanced parentheses\n".toList))
  | .success arguments consumed rest =>
    if m.replacements = [] then
      let (expansion, s) := tokenListCreateWithOne .space s
      some (some { expansion, consumed, rest }, s)
    else if argumentsFit m.parameters arguments then do
      let (substituted, s) ←
        substitute expandArgument m.parameters arguments .create m.replacements s
      let (expansion, s) := applyPastes (trimTrailingSpace substituted) s
      some (some { expansion, consumed, rest }, s)
    else
      some (none, s.error ("Error: macro ".toList ++ m.identifier ++ " invoked with ".toList ++
        (toString arguments.length).toList ++ " arguments (expected ".toList ++
        (toString m.parameters.length).toList ++ ")\n".toList))

/-- An expansion of the node alone. -/
def expandAlone (nodes : List Node) (list : TokenList × ExpandState) :
    Option (Option NodeExpansion × ExpandState) :=
  some (some { expansion := list.1, consumed := [], rest := nodes }, list.2)

/-- `_glcpp_parser_expand_node`, with the nodes behind the node. -/
def expandNode (defines : List Macro) (node : Node) (nodes : List Node) (s : ExpandState) :
    Option (Option NodeExpansion × ExpandState) :=
  match node.token.lexeme with
  | .identifier identifier =>
    if identifier = "__LINE__".toList then
      expandAlone nodes (tokenListCreateWithOne (.integer node.token.location.firstLine) s)
    else if identifier = "__FILE__".toList then
      expandAlone nodes (tokenListCreateWithOne (.integer node.token.location.source.toInt32) s)
    else
      match search defines identifier with
      | none => some (none, s)
      | some m =>
        if activeContains s.active identifier then
          expandAlone nodes (tokenListCreateWithOne (.other identifier) s)
        else if m.isFunction then expandFunction expandArgument m nodes s
        else if m.replacements = [] then expandAlone nodes (tokenListCreateWithOne .space s)
        else
          let (replacement, s) := tokenListCopy m.replacements s
          expandAlone nodes (applyPastes replacement s)
  | _ => some (none, s)

/-! ### The walk -/

/-- The walk over a list: the nodes up to `node_prev`, and those from `node` on. -/
structure Walk where
  done : List Node
  rest : List Node
  tail : Option ℕ
  state : ExpandState

/-- An expansion, with its `defined` nodes evaluated when the mode says so. -/
def evaluateExpansion (defines : List Macro) (mode : Mode) (expansion : TokenList)
    (s : ExpandState) : TokenList × ExpandState :=
  match mode with
  | .ignoreDefined => (expansion, s)
  | .evaluateDefined =>
    let (expansion, _, s) := evaluateDefinedInList defines expansion s
    (expansion, s)

/-- Replace a node and the nodes consumed behind it by their expansion. -/
def splice (defines : List Macro) (mode : Mode) (w : Walk) (node : Node) (e : NodeExpansion)
    (s : ExpandState) : Walk :=
  let (expansion, s) := evaluateExpansion defines mode e.expansion s
  let s := { s with active := (node :: e.consumed).foldl popMarker s.active }
  let last := (node :: e.consumed).getLast?.map Node.id
  let identifier := (definedName node.token).getD []
  let s := activePush s identifier (e.rest.head?.map Node.id)
  if expansion.nodes = [] then
    { w with rest := e.rest, tail := if last = w.tail then none else w.tail, state := s }
  else
    { w with rest := expansion.link e.rest
             tail := if last = w.tail then expansion.tail else w.tail
             state := s }

/-- The loop of `_glcpp_parser_expand_token_list`, for a number of steps. -/
def walk (defines : List Macro) (mode : Mode) : ℕ → Walk → Option Walk
  | 0, _ => none
  | steps + 1, w =>
    match w.rest with
    | [] => some w
    | node :: nodes => do
      let s := { w.state with active := popMarker w.state.active node }
      let (expanded, s) ← expandNode expandArgument defines node nodes s
      match expanded with
      | some e => walk defines mode steps (splice defines mode w node e s)
      | none =>
        walk defines mode steps { w with done := w.done ++ [node], rest := nodes, state := s }

end

/-- The nodes that are reached from the first of these nodes after a walk: a node that was taken out
of the walk still points to the node that was behind it. -/
def reached : List Node → List Node → List Node
  | [], _ => []
  | node :: nodes, walked =>
    match walked.dropWhile (·.id ≠ node.id) with
    | [] => node :: reached nodes walked
    | behind => behind

/-- The list and the walk over it before the first step.  The walk starts at the node that was the
first one before `defined` nodes were evaluated. -/
def startWalk (defines : List Macro) (mode : Mode) (list : TokenList) (s : ExpandState) :
    TokenList × Walk :=
  let list := trimTrailingSpace list
  match mode with
  | .ignoreDefined => (list, { done := [], rest := list.nodes, tail := list.tail, state := s })
  | .evaluateDefined =>
    let (list, old, s) := evaluateDefinedInList defines list s
    (list, { done := [], rest := old, tail := list.tail, state := s })

/-- The list after the walk.  When its first node was taken out by an evaluation, the walk has not
changed `list->head`. -/
def endWalk (list : TokenList) (start w : Walk) : TokenList :=
  { nodes :=
      if list.nodes.head? = start.rest.head? then w.done
      else reached list.nodes w.done
    tail := w.tail
    nonSpaceTail := w.tail }

/-- `_glcpp_parser_expand_token_list` -/
def expandTokenList (defines : List Macro) (mode : Mode) :
    ℕ → TokenList → ExpandState → Option (TokenList × ExpandState)
  | 0, _, _ => none
  | fuel + 1, list, s => do
    let initial := s.active.head?.map ActiveNode.id
    let (list, start) := startWalk defines mode list s
    let w ← walk (expandTokenList defines mode fuel) defines mode fuel start
    some (endWalk list start w, { w.state with active := popUntil w.state.active initial })

end Glcpp
