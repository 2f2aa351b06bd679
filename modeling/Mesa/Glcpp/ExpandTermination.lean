import Mesa.Data.Descent
import Mesa.Glcpp.ExpandLists
import Mathlib.Data.Finset.Card
import Mathlib.Data.Prod.Lex

/-!
# Expansion terminates

Every node that is still to be walked over has a rank: how many macros are not active when the walk
gets there, and whether it may be expanded itself.  An expansion takes the name of the macro and its
arguments out of the list, and brings in nodes where one more macro is active.
-/

open scoped List
open Descent

namespace Glcpp

/-! ### What a node is expanded to -/

/-- Arguments with some of these tokens can be expanded while the active list is that of a state. -/
def ExpandsArguments (expand : ℕ → TokenList → ExpandState → Option (TokenList × ExpandState))
    (tokens : List Token) (s : ExpandState) : Prop :=
  ∀ argument s', argument <+ tokens → Grows s s' →
    Settles (fun n => expand n (tokenListCopy argument s').1 (tokenListCopy argument s').2)
      (fun r => Grows s' r.2 ∧ Within s'.fresh r.2.fresh r.1.nodes)

variable {expand : ℕ → TokenList → ExpandState → Option (TokenList × ExpandState)}

theorem ExpandsArguments.grows {tokens : List Token} {s s' : ExpandState}
    (h : ExpandsArguments expand tokens s) (grows : Grows s s') :
  ExpandsArguments expand tokens s'
  := fun argument s'' sub grows' => h argument s'' sub (grows.trans grows')

/-- Substitution comes to an end when the arguments can be expanded. -/
theorem substitute_settles
    {tokens : List Token} {s : ExpandState} (h : ExpandsArguments expand tokens s)
    (parameters : List Text) {arguments : List (List Token)} (sub : ∀ a ∈ arguments, a <+ tokens)
    {low : ℕ} {substituted : TokenList} (le : low ≤ s.fresh)
    (within : Within low s.fresh substituted.nodes) (replacements : List Token) :
  Settles (fun n => substitute (expand n) parameters arguments substituted replacements s)
    (fun r => Grows s r.2 ∧ Within low r.2.fresh r.1.nodes)
  := by
  induction replacements generalizing s substituted with
  | nil => exact .pure ⟨.refl s, within⟩
  | cons token replacements ih =>
    have appended : ∀ t : Token,
        Settles (fun n => substitute (expand n) parameters arguments
            (tokenListAppend substituted t s).1 replacements (tokenListAppend substituted t s).2)
          (fun r => Grows s r.2 ∧ Within low r.2.fresh r.1.nodes) := by
      intro t
      have grows := tokenListAppend_grows substituted t s
      apply (ih (h.grows grows) (le.trans grows.fresh) (tokenListAppend_within t le within)).imp
      rintro r ⟨grows', within'⟩
      exact ⟨grows.trans grows', within'⟩
    simp only [substitute]
    cases parameterIndex parameters token with
    | none => exact appended token
    | some index =>
      by_cases ha : arguments.getD index [] = []
      · simp only [ha, if_true]
        exact appended _
      · have mem : arguments.getD index [] ∈ arguments := by
          rw [List.getD_eq_getElem?_getD] at ha ⊢
          cases get : arguments[index]? with
          | none => simp [get] at ha
          | some a => exact List.mem_of_getElem? get
        simp only [ha, if_false]
        apply (h _ s (sub _ mem) (.refl s)).bind
        rintro ⟨expanded, s'⟩ ⟨grows, within'⟩
        apply (ih (h.grows grows) (le.trans grows.fresh) _).imp
        · rintro r ⟨grows', within''⟩
          exact ⟨grows.trans grows', within''⟩
        · apply tokenListAppendList_within
          · exact within.mono le_rfl grows.fresh
          · exact within'.mono le le_rfl

/-- The names of the macros. -/
def names (defines : List Macro) : Finset Text := (defines.map Macro.identifier).toFinset

/-- How many macros are not active. -/
def inactive (defines : List Macro) (active : List ActiveNode) : ℕ :=
  (names defines \ (active.map ActiveNode.identifier).toFinset).card

/-- Whether a node may be expanded. -/
def tokenWeight (token : Token) : ℕ :=
  match token.lexeme with
  | .identifier _ => 2
  | _ => 1

/-- What an expansion of a node is. -/
structure Expands (defines : List Macro) (node : Node) (nodes : List Node) (s : ExpandState)
    (e : NodeExpansion) (s' : ExpandState) : Prop where
  grows : Grows s s'
  within : Within s.fresh s'.fresh e.expansion.nodes
  nodes : nodes = e.consumed ++ e.rest
  /-- a macro that was not active, or nothing that could be expanded further -/
  descends : ∃ name, node.token.lexeme = .identifier name ∧
    (name ∈ names defines ∧ activeContains s.active name = false ∨
      e.consumed = [] ∧ ∀ n ∈ e.expansion.nodes, tokenWeight n.token = 1)

/-- What happens to a node: it is expanded, or it is no macro that needs no arguments. -/
def NodeOutcome (defines : List Macro) (node : Node) (nodes : List Node) (s : ExpandState) :
    Option NodeExpansion × ExpandState → Prop
  | (some e, s') => Expands defines node nodes s e s'
  | (none, s') => Grows s s' ∧ ∀ name m, node.token.lexeme = .identifier name →
      search defines name = some m → m.isFunction

theorem search_eq_some {defines : List Macro} {name : Text} {m : Macro}
    (h : search defines name = some m) :
  m.identifier = name ∧ name ∈ names defines
  := by
  have eq : m.identifier = name := by simpa using List.find?_some h
  refine ⟨eq, ?_⟩
  rw [names, List.mem_toFinset, ← eq]
  apply List.mem_map_of_mem (List.mem_of_find?_eq_some h)

/-- A list with one token. -/
theorem tokenListCreateWithOne_nodes (lexeme : Lexeme) (s : ExpandState) :
  (tokenListCreateWithOne lexeme s).1.nodes = [⟨s.fresh, ⟨lexeme, ⟨0, 0⟩⟩⟩]
  := rfl

theorem tokenListCreateWithOne_within (lexeme : Lexeme) (s : ExpandState) :
  Within s.fresh (tokenListCreateWithOne lexeme s).2.fresh (tokenListCreateWithOne lexeme s).1.nodes
  := by
  apply tokenListAppend_within _ le_rfl (within_nil _ _)

theorem tokenListCreateWithOne_grows (lexeme : Lexeme) (s : ExpandState) :
  Grows s (tokenListCreateWithOne lexeme s).2
  := tokenListAppend_grows _ _ _

/-- A token that can not be expanded takes the place of a name. -/
theorem expands_single
    (defines : List Macro) {node : Node} (nodes : List Node) {name : Text}
    (identifier : node.token.lexeme = .identifier name) {lexeme : Lexeme}
    (plain : ∀ location, tokenWeight ⟨lexeme, location⟩ = 1) (s : ExpandState) :
  Settles (fun _ => expandAlone nodes (tokenListCreateWithOne lexeme s))
    (NodeOutcome defines node nodes s)
  := by
  apply Settles.pure
  refine ⟨tokenListCreateWithOne_grows _ _, tokenListCreateWithOne_within _ _, rfl,
    name, identifier, .inr ⟨rfl, ?_⟩⟩
  intro n hn
  rw [tokenListCreateWithOne_nodes, List.mem_singleton] at hn
  rw [hn]
  apply plain

theorem expandFunction_settles
    {defines : List Macro} {node : Node} {nodes : List Node} {name : Text} {s : ExpandState}
    {m : Macro} (h : ExpandsArguments expand (nodes.map Node.token) s)
    (identifier : node.token.lexeme = .identifier name) (defined : name ∈ names defines)
    (found : search defines name = some m) (isFunction : m.isFunction)
    (inactive : activeContains s.active name = false) :
  Settles (fun n => expandFunction (expand n) m nodes s) (NodeOutcome defines node nodes s)
  := by
  have kept : ∀ {s'}, Grows s s' → NodeOutcome defines node nodes s (none, s') := by
    intro s' grows
    refine ⟨grows, ?_⟩
    intro name' m' identifier' found'
    obtain rfl : name = name' := by
      rw [identifier] at identifier'
      exact Lexeme.identifier.inj identifier'
    obtain rfl := Option.some.inj (found.symm.trans found')
    exact isFunction
  unfold expandFunction
  cases parsed : argumentsParse nodes with
  | notAFunction => exact .pure (kept (.refl s))
  | unbalancedParentheses => exact .pure (kept (grows_error s _))
  | success arguments consumed rest =>
    obtain ⟨split, sub⟩ := argumentsParse_success parsed
    have sub' : ∀ a ∈ arguments, a <+ nodes.map Node.token := by
      intro a ha
      rw [split, List.map_append]
      exact (sub a ha).trans (List.sublist_append_left _ _)
    by_cases empty : m.replacements = []
    · simp only [empty, if_true]
      apply Settles.pure
      exact ⟨tokenListCreateWithOne_grows _ _, tokenListCreateWithOne_within _ _, split,
        name, identifier, .inl ⟨defined, inactive⟩⟩
    · simp only [empty, if_false]
      cases fits : argumentsFit m.parameters arguments with
      | false => exact .pure (kept (grows_error s _))
      | true =>
        simp only [if_true]
        apply (substitute_settles h m.parameters sub' le_rfl (within_nil _ _) m.replacements).bind
        rintro ⟨substituted, s'⟩ ⟨grows, within⟩
        apply Settles.pure
        refine ⟨grows.trans (applyPastes_grows _ _), ?_, split, name, identifier,
          .inl ⟨defined, inactive⟩⟩
        apply Within.mono _ le_rfl (applyPastes_grows _ _).fresh
        apply applyPastes_within
        exact within.sublist (trimTrailingSpace_sublist substituted)

/-- A node is expanded when the arguments behind it can be. -/
theorem expandNode_settles
    (defines : List Macro) (node : Node) {nodes : List Node} {s : ExpandState}
    (h : ExpandsArguments expand (nodes.map Node.token) s) :
  Settles (fun n => expandNode (expand n) defines node nodes s) (NodeOutcome defines node nodes s)
  := by
  unfold expandNode
  split
  case h_2 other =>
    apply Settles.pure
    refine ⟨.refl s, ?_⟩
    intro name m identifier
    exact absurd identifier (other name)
  case h_1 name identifier =>
    split
    · exact expands_single defines nodes identifier (fun _ => rfl) s
    · split
      · exact expands_single defines nodes identifier (fun _ => rfl) s
      · split
        case h_1 none =>
          apply Settles.pure
          refine ⟨.refl s, ?_⟩
          intro name' m identifier' found
          obtain rfl : name = name' := by
            rw [identifier] at identifier'
            exact Lexeme.identifier.inj identifier'
          rw [none] at found
          contradiction
        case h_2 m found =>
          have defined := (search_eq_some found).2
          split
          · exact expands_single defines nodes identifier (fun _ => rfl) s
          · rename_i notActive
            have inactive : activeContains s.active name = false := by simpa using notActive
            split
            · apply expandFunction_settles h identifier defined found ‹_› inactive
            · split
              · apply Settles.pure
                exact ⟨tokenListCreateWithOne_grows _ _, tokenListCreateWithOne_within _ _, rfl,
                  name, identifier, .inl ⟨defined, inactive⟩⟩
              · apply Settles.pure
                refine ⟨(tokenListCopy_grows _ _).trans (applyPastes_grows _ _), ?_, rfl, name,
                  identifier, .inl ⟨defined, inactive⟩⟩
                apply Within.mono _ le_rfl (applyPastes_grows _ _).fresh
                apply applyPastes_within
                apply tokenListCopy_within

/-! ### Ranks -/

/-- Pop the active list at some nodes. -/
def popMarkers (active : List ActiveNode) (nodes : List Node) : List ActiveNode :=
  nodes.foldl popMarker active

/-- The rank of a node when these macros are active. -/
def rank (defines : List Macro) (active : List ActiveNode) (token : Token) : ℕ ×ₗ ℕ :=
  toLex (inactive defines active, tokenWeight token)

/-- The ranks of the nodes that are still to be walked over. -/
def ranks (defines : List Macro) : List ActiveNode → List Node → Multiset (ℕ ×ₗ ℕ)
  | _, [] => 0
  | active, node :: nodes =>
    rank defines (popMarker active node) node.token ::ₘ
      ranks defines (popMarker active node) nodes

variable {defines : List Macro}

theorem popMarker_suffix (active : List ActiveNode) (node : Node) :
  popMarker active node <:+ active
  := List.dropWhile_suffix _

theorem popMarkers_suffix (active : List ActiveNode) (nodes : List Node) :
  popMarkers active nodes <:+ active
  := by
  induction nodes generalizing active with
  | nil => exact List.suffix_refl _
  | cons node nodes ih => exact (ih _).trans (popMarker_suffix active node)

theorem inactive_mono {active active' : List ActiveNode}
    (sub : ∀ name, name ∈ active'.map ActiveNode.identifier →
      name ∈ active.map ActiveNode.identifier) :
  inactive defines active ≤ inactive defines active'
  := by
  apply Finset.card_le_card
  apply Finset.sdiff_subset_sdiff (Finset.Subset.refl _)
  intro name hn
  rw [List.mem_toFinset] at hn ⊢
  exact sub name hn

theorem inactive_le_of_suffix {active active' : List ActiveNode} (suffix : active' <:+ active) :
  inactive defines active ≤ inactive defines active'
  := by
  apply inactive_mono
  intro name hn
  exact (suffix.sublist.map _).subset hn

/-- With one more macro active, fewer macros are not active. -/
theorem inactive_cons_lt
    {active : List ActiveNode} {name : Text} (defined : name ∈ names defines)
    (absent : name ∉ active.map ActiveNode.identifier) {a : ActiveNode} (eq : a.identifier = name) :
  inactive defines (a :: active) < inactive defines active
  := by
  apply Finset.card_lt_card
  rw [Finset.ssubset_iff_of_subset]
  · use name
    simp [defined, eq] at absent ⊢
    simpa using absent
  · apply Finset.sdiff_subset_sdiff (Finset.Subset.refl _)
    intro name hn
    rw [List.mem_toFinset] at hn ⊢
    exact List.mem_cons_of_mem _ hn

theorem rank_le_rank {active active' : List ActiveNode}
    (le : inactive defines active ≤ inactive defines active') (token : Token) :
  rank defines active token ≤ rank defines active' token
  := by
  rw [rank, rank, Prod.Lex.le_iff]
  rcases le.eq_or_lt with eq | lt
  · exact .inr ⟨eq, le_rfl⟩
  · exact .inl lt

theorem ranks_append (active : List ActiveNode) (front nodes : List Node) :
  ranks defines active (front ++ nodes) =
    ranks defines active front + ranks defines (popMarkers active front) nodes
  := by
  induction front generalizing active with
  | nil => simp [ranks, popMarkers]
  | cons node front ih =>
    rw [List.cons_append, ranks, ranks, ih, Multiset.cons_add]
    rfl

theorem popMarkers_append (active : List ActiveNode) (front nodes : List Node) :
  popMarkers active (front ++ nodes) = popMarkers (popMarkers active front) nodes
  := List.foldl_append

/-- Nodes that are no markers. -/
def Apart (active : List ActiveNode) (nodes : List Node) : Prop :=
  ∀ a ∈ active, ∀ node ∈ nodes, a.marker ≠ some node.id

theorem popMarker_of_apart {active : List ActiveNode} {node : Node}
    (apart : ∀ a ∈ active, a.marker ≠ some node.id) :
  popMarker active node = active
  := by
  unfold popMarker
  cases active with
  | nil => rfl
  | cons a active =>
    rw [List.dropWhile_cons_of_neg]
    simpa using apart a List.mem_cons_self

theorem popMarkers_of_apart {active : List ActiveNode} {nodes : List Node}
    (apart : Apart active nodes) :
  popMarkers active nodes = active
  := by
  induction nodes with
  | nil => rfl
  | cons node nodes ih =>
    rw [popMarkers, List.foldl_cons,
      popMarker_of_apart (fun a ha => apart a ha node List.mem_cons_self)]
    exact ih (fun a ha n hn => apart a ha n (List.mem_cons_of_mem _ hn))

theorem ranks_of_apart {active : List ActiveNode} {nodes : List Node}
    (apart : Apart active nodes) :
  ranks defines active nodes = ↑(nodes.map fun n => rank defines active n.token)
  := by
  induction nodes with
  | nil => rfl
  | cons node nodes ih =>
    rw [ranks, popMarker_of_apart (fun a ha => apart a ha node List.mem_cons_self),
      ih (fun a ha n hn => apart a ha n (List.mem_cons_of_mem _ hn)), List.map_cons,
      Multiset.cons_coe]

/-- The macro that was pushed last is popped at its marker. -/
theorem ranks_cons_active (a : ActiveNode) (active : List ActiveNode) (nodes : List Node)
    (marker : a.marker = nodes.head?.map Node.id) :
  ranks defines (a :: active) nodes = ranks defines active nodes
  := by
  cases nodes with
  | nil => rfl
  | cons node nodes =>
    have popped : popMarker (a :: active) node = popMarker active node := by
      unfold popMarker
      rw [List.dropWhile_cons_of_pos]
      simpa using marker
    rw [ranks, ranks, popped]

/-- The rank of the last one of some nodes. -/
theorem rank_last_mem
    (active : List ActiveNode) (front : List Node) (last : Node) :
  rank defines (popMarkers active (front ++ [last])) last.token ∈
    ranks defines active (front ++ [last])
  := by
  rw [ranks_append, popMarkers_append]
  apply Multiset.mem_add.mpr
  right
  exact Multiset.mem_cons_self _ _

/-- Some of the tokens, while at least as many macros are active. -/
theorem map_rank_below
    {active active' : List ActiveNode} {nodes : List Node} (suffix : active' <:+ active)
    {ranks' : List (ℕ ×ₗ ℕ)}
    (sub : ranks' <+ nodes.map fun n => rank defines active n.token) :
  Below (↑ranks' : Multiset (ℕ ×ₗ ℕ)) (ranks defines active' nodes)
  := by
  induction nodes generalizing active' ranks' with
  | nil =>
    rw [List.map_nil, List.sublist_nil] at sub
    rw [sub]
    exact .refl _
  | cons node nodes ih =>
    have suffix' := (popMarker_suffix active' node).trans suffix
    rw [List.map_cons] at sub
    rcases List.sublist_cons_iff.mp sub with sub | ⟨rest, rfl, sub'⟩
    · exact (ih suffix' sub).cons_right _
    · rw [← Multiset.cons_coe]
      apply (ih suffix' sub').cons
      exact rank_le_rank (inactive_le_of_suffix suffix') _

/-- An expansion is below the nodes whose place it takes. -/
theorem ranks_lt_of_expansion
    {active : List ActiveNode} {front rest new : List Node} {last : Node} {a : ActiveNode}
    (marker : a.marker = rest.head?.map Node.id)
    (apart : Apart (a :: popMarkers active (front ++ [last])) new)
    (descends : ∀ n ∈ new, rank defines (a :: popMarkers active (front ++ [last])) n.token <
      rank defines (popMarkers active (front ++ [last])) last.token)
    {nodes : List Node} (reached : nodes = new ∨ nodes = new ++ rest) :
  Multiset.IsDershowitzMannaLT
    (ranks defines (a :: popMarkers active (front ++ [last])) nodes)
    (ranks defines active (front ++ [last] ++ rest))
  := by
  have smaller : ∀ y ∈ ranks defines (a :: popMarkers active (front ++ [last])) new,
      y < rank defines (popMarkers active (front ++ [last])) last.token := by
    intro y hy
    rw [ranks_of_apart apart, Multiset.mem_coe, List.mem_map] at hy
    obtain ⟨n, hn, rfl⟩ := hy
    exact descends n hn
  rw [ranks_append active]
  rcases reached with rfl | rfl
  · rw [← zero_add (ranks defines (a :: _) _), ← zero_add (ranks defines active _ + _)]
    apply lt_of_forall_lt 0 (Multiset.mem_add.mpr (.inl (rank_last_mem active front last))) smaller
  · rw [ranks_append, popMarkers_of_apart apart, ranks_cons_active a _ rest marker,
      add_comm, add_comm (ranks defines active _)]
    exact lt_of_forall_lt _ (rank_last_mem active front last) smaller

end Glcpp
