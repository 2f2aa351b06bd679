import Mesa.Glcpp.DefinedChains

/-!
# Lists with `defined` operators

What the expansion of a list should do in a conditional: all `defined` operators are replaced first,
and the walk is over the list that results.  The code walks over the old chain, and does the same
exactly when the list does not begin with an operator, or no token of the operators at the beginning
and not the one behind them is a macro that is expanded.
-/

open scoped List
open Descent

namespace Glcpp

variable {defines : List Macro} {mode : Mode}

/-! ### Walks -/

section Walks

variable {expandArgument : TokenList → ExpandState → Option (TokenList × ExpandState)}

theorem splice_setDone (w : Walk) (front : List Node) (node : Node) (e : NodeExpansion)
    (s : ExpandState) :
  splice defines mode { w with done := front } node e s =
    { splice defines mode w node e s with done := front }
  := by
  simp only [splice]
  split
  · rfl
  · rfl

/-- What is done does not matter for the walk.  By induction on the steps. -/
theorem walk_done (front : List Node) (steps : ℕ) :
  ∀ w : Walk, walk expandArgument defines mode steps { w with done := front ++ w.done } =
    (walk expandArgument defines mode steps w).map fun w' => { w' with done := front ++ w'.done }
  := by
  induction steps with
  | zero => exact fun _ => rfl
  | succ steps ih =>
    rintro ⟨done, rest, tail, state⟩
    cases rest with
    | nil => rfl
    | cons node nodes =>
      simp only [walk]
      cases expandNode expandArgument defines node nodes
          { state with active := popMarker state.active node } with
      | none => rfl
      | some outcome =>
        obtain ⟨expanded, s⟩ := outcome
        cases expanded with
        | none =>
          have rest := ih ⟨done ++ [node], nodes, tail, s⟩
          simp only [← List.append_assoc] at rest
          exact rest
        | some e =>
          have rest := ih (splice defines mode ⟨done, node :: nodes, tail, state⟩ node e s)
          have same := @splice_setDone defines mode
            ⟨done, node :: nodes, tail, state⟩ (front ++ done) node e s
          rw [splice_done] at rest
          change (walk expandArgument defines mode steps (splice defines mode
            ⟨front ++ done, node :: nodes, tail, state⟩ node e s)) = _
          rw [same, rest]
          rfl

/-- The nodes are kept, with some nodes behind them. -/
def AllKept (defines : List Macro) : List Node → List Node → Prop
  | [], _ => True
  | node :: nodes, rest => outcome defines node (nodes ++ rest) = .kept ∧ AllKept defines nodes rest

/-- A walk over nodes that are kept. -/
theorem walk_kept {s : ExpandState} (idle : s.active = []) (tail : Option ℕ) (rest : List Node)
    (steps : ℕ) (nodes : List Node) :
  ∀ done, AllKept defines nodes rest →
    walk expandArgument defines mode (steps + nodes.length) ⟨done, nodes ++ rest, tail, s⟩ =
      walk expandArgument defines mode steps ⟨done ++ nodes, rest, tail, s⟩
  := by
  have popped : ∀ node, { s with active := popMarker s.active node } = s := by
    intro node
    rw [idle]
    obtain ⟨active, fresh, infoLog⟩ := s
    obtain rfl : active = [] := idle
    rfl
  induction nodes with
  | nil =>
    intro done _
    rw [List.append_nil]
    rfl
  | cons node nodes ih =>
    rintro done ⟨kept, later⟩
    have first := ih (done ++ [node]) later
    rw [List.append_assoc, List.singleton_append] at first
    rw [List.length_cons, ← Nat.add_assoc]
    simp only [walk, List.cons_append]
    rw [popped, expandNode_kept idle kept]
    exact first

end Walks

/-- Arguments of macros can be expanded. -/
theorem expandsArguments (defines : List Macro) (mode : Mode) (tokens : List Token)
    {s : ExpandState} (allocated : ∀ a ∈ s.active, a.id < s.fresh)
    (markers : ∀ a ∈ s.active, ∀ id, a.marker = some id → id < s.fresh) :
  ExpandsArguments (expandTokenList defines mode) tokens s
  := by
  intro argument s' _ grows
  have allocated' : ∀ a ∈ s'.active, a.id < s'.fresh := by
    rw [grows.active]
    exact fun a ha => (allocated a ha).trans_le grows.fresh
  have markers' : ∀ a ∈ s'.active, ∀ id, a.marker = some id → id < s'.fresh := by
    rw [grows.active]
    exact fun a ha id marker => (markers a ha id marker).trans_le grows.fresh
  have ready := tokenListCopy_ready argument allocated' markers'
  obtain ⟨held, owned⟩ := startWalk_held defines mode ready
  have ends := walk_ends defines mode _ held ⟨ready.allocated, ready.markers⟩ owned
  apply (expandTokenList_settles ready ends).imp
  rintro r ⟨returned, owned', -⟩
  have copied := tokenListCopy_grows argument s'
  refine ⟨copied.trans returned, ?_⟩
  intro n hn
  obtain ⟨upper, own⟩ := owned' n hn
  refine ⟨?_, upper⟩
  rcases own with mem | lower
  · obtain ⟨n', hn', eq⟩ := List.mem_map.mp mem
    rw [← eq]
    exact (tokenListCopy_within argument s' n' hn').1
  · exact copied.fresh.trans lower

section Rest

variable {s : ExpandState} {tail : Option ℕ}

theorem held_idle (idle : s.active = []) : Held s.fresh [] s := by
  refine ⟨⟨[], idle, fun a ha => absurd ha List.not_mem_nil⟩, le_rfl, ?_, ?_⟩
  · rw [idle]
    exact fun a ha => absurd ha List.not_mem_nil
  · rw [idle]
    exact fun a ha => absurd ha List.not_mem_nil

theorem outside_nil (low : ℕ) (ids : List ℕ) : Outside low ids [] :=
  ⟨fun _ ha => absurd ha List.not_mem_nil, fun _ ha => absurd ha List.not_mem_nil⟩

theorem owned_self {rest : List Node} (below : ∀ n ∈ rest, n.id < s.fresh) :
  Owned s.fresh (rest.map Node.id) s rest
  := fun n hn => ⟨below n hn, .inl (List.mem_map_of_mem hn)⟩

/-- A walk that begins with a node that is not expanded has it at the front in the end, and one that
begins with a node that is expanded has lost it. -/
theorem walk_first (idle : s.active = []) {node : Node} {nodes : List Node}
    (below : ∀ n ∈ node :: nodes, n.id < s.fresh)
    (nodup : ((node :: nodes).map Node.id).Nodup) {w : Walk} {bound : ℕ}
    (ends : ∀ fuel steps, bound ≤ fuel → bound ≤ steps →
      walk (expandTokenList defines mode fuel) defines mode steps ⟨[], node :: nodes, tail, s⟩ =
        some w) :
  if outcome defines node nodes = .expanded then node.id ∉ w.done.map Node.id
  else ∃ done, w.done = node :: done
  := by
  have popped : { s with active := popMarker s.active node } = s := by
    obtain ⟨active, fresh, infoLog⟩ := s
    obtain rfl : active = [] := idle
    rfl
  have spec := fun fuel => @expandNode_outcome defines
    (expandTokenList defines mode fuel) node nodes _ idle
  -- a node that is not expanded is the first that is done
  have stays : ∀ {s' : ExpandState},
      (expandNode (expandTokenList defines mode bound) defines node nodes s = some (none, s')) →
      ∃ done, w.done = node :: done := by
    intro s' same
    have run := ends bound (bound + 1) (Nat.le_refl _) (Nat.le_succ _)
    simp only [walk] at run
    rw [popped, same] at run
    have run' : walk (expandTokenList defines mode bound) defines mode bound
        ⟨[node] ++ [], nodes, tail, s'⟩ = some w := run
    have frame := @walk_done defines mode (expandTokenList defines mode bound)
      [node] bound ⟨[], nodes, tail, s'⟩
    rw [frame] at run'
    obtain ⟨w', -, rfl⟩ := Option.map_eq_some_iff.mp run'
    exact ⟨w'.done, rfl⟩
  cases result : outcome defines node nodes
  case kept =>
    rw [if_neg (by decide)]
    have same := spec bound
    rw [result] at same
    exact stays same
  case rejected =>
    rw [if_neg (by decide)]
    have same := spec bound
    rw [result] at same
    obtain ⟨message, same⟩ := same
    exact stays same
  case expanded =>
    rw [if_pos rfl]
    have held := held_idle idle
    have arguments := expandsArguments defines mode (nodes.map Node.token) held.allocated
      held.markers
    obtain ⟨⟨expansion, s'⟩, bound', property, settles⟩ :=
      expandNode_settles defines node arguments
    have settled : ∀ n, bound' ≤ n →
        expandNode (expandTokenList defines mode n) defines node nodes s = some (expansion, s') :=
      settles
    cases expansion with
    | none =>
      have other := spec bound'
      rw [result] at other
      exact absurd (settled bound' (Nat.le_refl _)) (other s')
    | some e =>
      have expands : Expands defines node nodes s e s' := property
      have spliced := splice_spec mode (w := ⟨[], node :: nodes, tail, s⟩) rfl held
        (outside_nil s.fresh ((node :: nodes).map Node.id)) (owned_self below)
        (by rw [popped]; exact expands)
      -- what is walked over then are nodes behind the one that is expanded, and new ones
      have owned : Owned s.fresh (nodes.map Node.id)
          (splice defines mode ⟨[], node :: nodes, tail, s⟩ node e s').state
          (splice defines mode ⟨[], node :: nodes, tail, s⟩ node e s').rest := by
        obtain ⟨new, sub, reached⟩ :=
          splice_rest defines mode ⟨[], node :: nodes, tail, s⟩ node e s'
        obtain ⟨-, within, -⟩ :=
          evaluateExpansion_spec defines mode expands.grows expands.within
        intro n hn
        refine ⟨(spliced.owned n hn).1, ?_⟩
        have or_rest : n ∈ new ∨ n ∈ e.rest := by
          rcases reached with eq | eq
          · rw [eq] at hn
            exact .inl hn
          · rw [eq] at hn
            exact List.mem_append.mp hn
        rcases or_rest with hn | hn
        · exact .inr (within n (sub.subset hn)).1
        · refine .inl (List.mem_map_of_mem ?_)
          rw [expands.nodes]
          exact List.mem_append_right _ hn
      have done_nil : (splice defines mode ⟨[], node :: nodes, tail, s⟩ node e s').done = [] :=
        splice_done defines mode _ node e s'
      obtain ⟨w', bound'', walked, ends'⟩ := walk_ends defines mode
        (splice defines mode ⟨[], node :: nodes, tail, s⟩ node e s') spliced.held
        (outside_nil s.fresh (nodes.map Node.id)) (by
          rw [done_nil]
          exact owned)
      have same : w = w' := by
        have run := ends (max bound (max bound' bound'')) (max bound (max bound' bound'') + 1)
          (by omega) (by omega)
        simp only [walk] at run
        rw [popped, settled _ (by omega)] at run
        have run' := ends' (max bound (max bound' bound'')) (max bound (max bound' bound''))
          (by omega) (by omega)
        exact Option.some.inj (run.symm.trans run')
      rw [same]
      intro mem
      obtain ⟨n, hn, eq⟩ := List.mem_map.mp mem
      have node_lt := below node List.mem_cons_self
      rcases (walked.owned n hn).2 with old | new
      · rw [eq] at old
        exact (List.nodup_cons.mp nodup).1 old
      · omega

end Rest

end Glcpp
