import Mesa.Glcpp.ExpandRuns

/-!
# The chains of an evaluated list

When `defined` operators at the beginning of a list are replaced, the list has a new first node, but
the nodes that were taken out still lead to the nodes behind them.  The expansion then walks over
this old chain.  The two chains differ in front only: where one has the new integers, the other one
has the operators.
-/

open scoped List
open Descent

namespace Glcpp

variable {defines : List Macro} {mode : Mode}

/-! ### The two chains -/

/-- The chains of an evaluated list: operators that were taken out at the beginning and the integers
in their place, and what both go on with. -/
structure Chains (nodes : List Node) (s : ExpandState) (e : Evaluated)
    (operators integers rest : List Node) : Prop where
  old : e.old = operators ++ rest
  new : e.nodes = integers ++ rest
  operators_sublist : operators <+ nodes
  integers_new : ∀ n ∈ integers, s.fresh ≤ n.id ∧ n.id < e.state.fresh ∧
    ∃ value, n.token.lexeme = .integer value
  nil_iff : operators = [] ↔ integers = []
  apart : ∀ n ∈ operators, n.id ∉ rest.map Node.id
  nodup : (e.nodes.map Node.id).Nodup

/-- The nodes of an evaluated list are different. -/
theorem evaluateDefinedLoop_nodup
    {nodes : List Node} {tail : Option ℕ} {s : ExpandState} (below : ∀ n ∈ nodes, n.id < s.fresh)
    (nodup : (nodes.map Node.id).Nodup) :
  ((evaluateDefinedLoop defines nodes tail s).nodes.map Node.id).Nodup
  := by
  have stays : ∀ {node : Node} {rest : List Node} {s s' : ExpandState} {tail : Option ℕ},
      (∀ n ∈ node :: rest, n.id < s.fresh) → ((node :: rest).map Node.id).Nodup →
      s.fresh ≤ s'.fresh →
      ((evaluateDefinedLoop defines rest tail s').nodes.map Node.id).Nodup →
      ((node :: (evaluateDefinedLoop defines rest tail s').nodes).map Node.id).Nodup := by
    intro node rest s s' tail below nodup le ih
    rw [List.map_cons, List.nodup_cons] at nodup ⊢
    refine ⟨fun mem => ?_, ih⟩
    obtain ⟨n, hn, eq⟩ := List.mem_map.mp mem
    rcases (evaluateDefinedLoop_spec defines rest tail s').nodes_mem n hn with old | ⟨new, -⟩
    · exact nodup.1 (eq ▸ List.mem_map_of_mem old)
    · have := below node List.mem_cons_self
      omega
  fun_induction evaluateDefinedLoop defines nodes tail s with
  | case1 => exact List.nodup_nil
  | case2 node rest tail s isDefined str consumed behind h value replacement last tail' e ih =>
    have split : rest = consumed ++ behind := (evaluateDefined_nodes h).1
    have behind_sub : behind <+ node :: rest := by
      rw [split]
      exact (List.sublist_append_right _ _).trans (List.sublist_cons_self _ _)
    have below' : ∀ n ∈ behind, n.id < s.fresh + 1 := fun n hn =>
      (below n (behind_sub.subset hn)).trans (Nat.lt_succ_self _)
    rw [List.map_cons, List.nodup_cons]
    refine ⟨fun mem => ?_, ih below' (nodup.sublist (behind_sub.map _))⟩
    obtain ⟨n, hn, eq⟩ := List.mem_map.mp mem
    have eq' : n.id = s.fresh := eq
    rcases (evaluateDefinedLoop_spec defines behind tail' { s with fresh := s.fresh + 1 }).nodes_mem
      n hn with old | ⟨new, -⟩
    · have := below n (behind_sub.subset old)
      omega
    · change s.fresh + 1 ≤ n.id at new
      omega
  | case3 node rest tail s _ _ s' e ih =>
    exact stays below nodup (Nat.le_refl _)
      (ih (fun n hn => below n (List.mem_cons_of_mem _ hn)) (List.nodup_cons.mp nodup).2)
  | case4 node rest tail s _ e ih =>
    exact stays below nodup (Nat.le_refl _)
      (ih (fun n hn => below n (List.mem_cons_of_mem _ hn)) (List.nodup_cons.mp nodup).2)

/-- A list begins with an operator that is evaluated. -/
def BeginsWithDefined (nodes : List Node) : Prop :=
  ∃ node rest evaluated, nodes = node :: rest ∧ node.token.lexeme = .defined ∧
    evaluateDefined rest = some evaluated

theorem evaluateDefinedLoop_chains
    {nodes : List Node} {tail : Option ℕ} {s : ExpandState} (below : ∀ n ∈ nodes, n.id < s.fresh)
    (nodup : (nodes.map Node.id).Nodup) :
  ∃ operators integers rest,
    Chains nodes s (evaluateDefinedLoop defines nodes tail s) operators integers rest ∧
    (operators = [] ↔ ¬ BeginsWithDefined nodes)
  := by
  have all := @evaluateDefinedLoop_nodup defines nodes tail s below nodup
  fun_induction evaluateDefinedLoop defines nodes tail s with
  | case1 =>
    refine ⟨[], [], [], ⟨rfl, rfl, List.Sublist.refl _, ?_, Iff.rfl, ?_, List.nodup_nil⟩, ?_⟩
    · exact fun n hn => absurd hn List.not_mem_nil
    · exact fun n hn => absurd hn List.not_mem_nil
    · simp [BeginsWithDefined]
  | case2 node rest tail s isDefined str consumed behind h value replacement last tail' e ih =>
    have split : rest = consumed ++ behind := (evaluateDefined_nodes h).1
    have behind_sub : behind <+ node :: rest := by
      rw [split]
      exact (List.sublist_append_right _ _).trans (List.sublist_cons_self _ _)
    have below' : ∀ n ∈ behind, n.id < s.fresh + 1 := fun n hn =>
      (below n (behind_sub.subset hn)).trans (Nat.lt_succ_self _)
    obtain ⟨operators, integers, rest', chains, -⟩ :=
      ih below' (nodup.sublist (behind_sub.map _)) (List.nodup_cons.mp all).2
    have spec := evaluateDefinedLoop_spec defines behind tail' { s with fresh := s.fresh + 1 }
    have front : node :: consumed ++ operators <+ node :: rest := by
      rw [split, List.cons_append]
      exact (chains.operators_sublist.append_left consumed).cons_cons node
    refine ⟨node :: consumed ++ operators, replacement :: integers, rest',
      ⟨?_, ?_, front, ?_, ?_, ?_, all⟩, ?_⟩
    · change node :: (consumed ++ e.old) = _
      rw [chains.old]
      simp only [List.cons_append, List.append_assoc]
    · change replacement :: e.nodes = _
      rw [chains.new, List.cons_append]
    · intro n hn
      rcases List.mem_cons.mp hn with rfl | hn
      · exact ⟨Nat.le_refl _, spec.grows.fresh, value, rfl⟩
      · obtain ⟨low, rest⟩ := chains.integers_new n hn
        exact ⟨(Nat.le_succ _).trans low, rest⟩
    · simp
    · intro n hn mem
      rcases List.mem_append.mp hn with first | later
      · obtain ⟨m, hm, eq⟩ := List.mem_map.mp mem
        have m_mem : m ∈ e.nodes := by
          rw [chains.new]
          exact List.mem_append_right _ hm
        have n_below : n.id < s.fresh := below n (front.subset hn)
        rcases spec.nodes_mem m m_mem with old | ⟨new, -⟩
        · have separate : ((node :: consumed ++ behind).map Node.id).Nodup := by
            rw [List.cons_append, ← split]
            exact nodup
          rw [List.map_append, List.nodup_append] at separate
          exact separate.2.2 n.id (List.mem_map_of_mem first) m.id (List.mem_map_of_mem old)
            eq.symm
        · change s.fresh + 1 ≤ m.id at new
          omega
      · exact chains.apart n later mem
    · refine ⟨fun nil => by simp at nil, fun not => ?_⟩
      exact absurd ⟨node, rest, _, rfl, isDefined, h⟩ not
  | case3 node rest tail s isDefined fails s' e ih =>
    refine ⟨[], [], node :: e.nodes, ⟨rfl, rfl, List.nil_sublist _, ?_, Iff.rfl, ?_, all⟩, ?_⟩
    · exact fun n hn => absurd hn List.not_mem_nil
    · exact fun n hn => absurd hn List.not_mem_nil
    · refine ⟨?_, fun _ => rfl⟩
      rintro - ⟨_, _, _, eq, -, found⟩
      obtain ⟨rfl, rfl⟩ := List.cons.inj eq
      rw [fails] at found
      cases found
  | case4 node rest tail s isDefined e ih =>
    refine ⟨[], [], node :: e.nodes, ⟨rfl, rfl, List.nil_sublist _, ?_, Iff.rfl, ?_, all⟩, ?_⟩
    · exact fun n hn => absurd hn List.not_mem_nil
    · exact fun n hn => absurd hn List.not_mem_nil
    · refine ⟨?_, fun _ => rfl⟩
      rintro - ⟨_, _, _, eq, is, -⟩
      obtain ⟨rfl, rfl⟩ := List.cons.inj eq
      exact absurd is isDefined

/-! ### What happens to a node -/

/-- What the walk does with a node while no macro is active. -/
inductive Outcome where
  | kept
  /-- the node is kept, with an error -/
  | rejected
  | expanded
  deriving DecidableEq

/-- The outcome of a node, with the nodes behind it. -/
def outcome (defines : List Macro) (node : Node) (nodes : List Node) : Outcome :=
  match node.token.lexeme with
  | .identifier identifier =>
    if identifier = "__LINE__".toList ∨ identifier = "__FILE__".toList then .expanded
    else
      match search defines identifier with
      | none => .kept
      | some m =>
        if m.isFunction then
          match argumentsParse nodes with
          | .notAFunction => .kept
          | .unbalancedParentheses => .rejected
          | .success arguments _ _ =>
            if m.replacements = [] ∨ argumentsFit m.parameters arguments then .expanded
            else .rejected
        else .expanded
  | _ => .kept

/-- The outcome is what `_glcpp_parser_expand_node` does. -/
theorem expandNode_outcome
    (expandArgument : TokenList → ExpandState → Option (TokenList × ExpandState)) (node : Node)
    (nodes : List Node) {s : ExpandState} (idle : s.active = []) :
  match outcome defines node nodes with
  | .kept => expandNode expandArgument defines node nodes s = some (none, s)
  | .rejected => ∃ message,
    expandNode expandArgument defines node nodes s = some (none, s.error message)
  | .expanded => ∀ s', expandNode expandArgument defines node nodes s ≠ some (none, s')
  := by
  unfold outcome expandNode
  cases lexeme : node.token.lexeme
  case identifier identifier =>
    dsimp only
    by_cases line : identifier = "__LINE__".toList
    · rw [if_pos (.inl line), if_pos line]
      exact fun s' eq => by simp [expandAlone] at eq
    by_cases file : identifier = "__FILE__".toList
    · rw [if_pos (.inr file), if_neg line, if_pos file]
      exact fun s' eq => by simp [expandAlone] at eq
    rw [if_neg (not_or.mpr ⟨line, file⟩), if_neg line, if_neg file]
    cases search defines identifier with
    | none => rfl
    | some m =>
      have inactive : ¬ activeContains s.active identifier := by
        rw [idle]
        exact Bool.false_ne_true
      dsimp only
      rw [if_neg inactive]
      by_cases isFunction : m.isFunction
      case pos =>
        rw [if_pos isFunction, if_pos isFunction, expandFunction]
        cases argumentsParse nodes with
        | notAFunction => rfl
        | unbalancedParentheses => exact ⟨_, rfl⟩
        | success arguments consumed rest =>
          dsimp only
          by_cases empty : m.replacements = []
          · rw [if_pos (.inl empty), if_pos empty]
            exact fun s' eq => by simp at eq
          by_cases fits : argumentsFit m.parameters arguments
          · rw [if_pos (.inr fits), if_neg empty, if_pos fits]
            intro s' eq
            obtain ⟨_, -, eq⟩ := Option.bind_eq_some_iff.mp eq
            simp at eq
          · rw [if_neg (not_or.mpr ⟨empty, fits⟩), if_neg empty, if_neg fits]
            exact ⟨_, rfl⟩
      case neg =>
        rw [if_neg isFunction, if_neg isFunction]
        by_cases empty : m.replacements = []
        · rw [if_pos empty]
          exact fun s' eq => by simp [expandAlone] at eq
        · rw [if_neg empty]
          exact fun s' eq => by simp [expandAlone] at eq
  all_goals rfl

theorem expandNode_kept
    {expandArgument : TokenList → ExpandState → Option (TokenList × ExpandState)} {node : Node}
    {nodes : List Node} {s : ExpandState} (idle : s.active = [])
    (kept : outcome defines node nodes = .kept) :
  expandNode expandArgument defines node nodes s = some (none, s)
  := by
  have spec := @expandNode_outcome defines expandArgument node nodes s idle
  rw [kept] at spec
  exact spec

end Glcpp
