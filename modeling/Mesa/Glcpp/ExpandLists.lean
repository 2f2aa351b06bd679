import Mesa.Glcpp.Expand
import Mathlib.Data.List.Infix

/-!
# The nodes of token lists

Where the nodes of a list come from: operations on a list keep its nodes or make new ones, and the
tokens of arguments are taken from the nodes behind the name of a macro.
-/

open scoped List

namespace Glcpp

/-- The state has only got new addresses, and messages. -/
structure Grows (s s' : ExpandState) : Prop where
  active : s'.active = s.active
  fresh : s.fresh ≤ s'.fresh

/-- All nodes have addresses of a range. -/
def Within (low high : ℕ) (nodes : List Node) : Prop :=
  ∀ node ∈ nodes, low ≤ node.id ∧ node.id < high

theorem Grows.refl (s : ExpandState) : Grows s s := ⟨rfl, le_rfl⟩

theorem Grows.trans {s s' s'' : ExpandState} (h : Grows s s') (h' : Grows s' s'') : Grows s s'' :=
  ⟨h'.active.trans h.active, h.fresh.trans h'.fresh⟩

theorem grows_error (s : ExpandState) (message : Text) : Grows s (s.error message) :=
  ⟨rfl, le_rfl⟩

theorem Within.mono {low low' high high' : ℕ} {nodes : List Node} (h : Within low high nodes)
    (le : low' ≤ low) (le' : high ≤ high') :
  Within low' high' nodes
  := by
  intro node hn
  exact ⟨le.trans (h node hn).1, (h node hn).2.trans_le le'⟩

theorem within_nil (low high : ℕ) : Within low high [] := by
  intro node hn
  exact absurd hn (List.not_mem_nil)

theorem within_append {low high : ℕ} {nodes nodes' : List Node} :
  Within low high (nodes ++ nodes') ↔ Within low high nodes ∧ Within low high nodes'
  := by
  constructor
  · intro h
    exact ⟨fun n hn => h n (List.mem_append_left _ hn),
      fun n hn => h n (List.mem_append_right _ hn)⟩
  · rintro ⟨h, h'⟩ n hn
    rcases List.mem_append.mp hn with hn | hn
    · exact h n hn
    · exact h' n hn

theorem Within.sublist {low high : ℕ} {nodes nodes' : List Node} (h : Within low high nodes)
    (sub : nodes' <+ nodes) :
  Within low high nodes'
  := by
  intro node hn
  exact h node (sub.subset hn)

/-! ### Pointers -/

/-- After a pointer is set, the nodes up to it are still reached, or it is not reached at all. -/
theorem setNext_cases (nodes : List Node) (id : ℕ) (more : List Node) :
  setNext nodes id more = nodes ∨ ∃ front, front <+: nodes ∧ setNext nodes id more = front ++ more
  := by
  induction nodes with
  | nil =>
    left
    rfl
  | cons node nodes ih =>
    rw [setNext]
    split
    · right
      exact ⟨[node], ⟨nodes, rfl⟩, rfl⟩
    · rcases ih with same | ⟨front, hfront, eq⟩
      · left
        rw [same]
      · right
        refine ⟨node :: front, ?_, ?_⟩
        · exact (List.prefix_cons_inj node).mpr hfront
        · rw [eq, List.cons_append]

theorem link_cases (list : TokenList) (more : List Node) :
  list.link more = list.nodes ∨ ∃ front, front <+: list.nodes ∧ list.link more = front ++ more
  := by
  unfold TokenList.link
  split
  · apply setNext_cases
  · left
    rfl

theorem link_sublist (list : TokenList) (more : List Node) :
  list.link more <+ list.nodes ++ more
  := by
  rcases link_cases list more with same | ⟨front, hfront, eq⟩
  · rw [same]
    apply List.sublist_append_left
  · rw [eq]
    apply hfront.sublist.append_right

theorem trimTrailingSpace_sublist (list : TokenList) :
  (trimTrailingSpace list).nodes <+ list.nodes
  := by
  unfold trimTrailingSpace
  split
  · rename_i last _
    rcases setNext_cases list.nodes last [] with same | ⟨front, hfront, eq⟩
    · rw [same]
    · rw [eq, List.append_nil]
      exact hfront.sublist
  · exact List.Sublist.refl _

/-! ### Appending -/

theorem tokenListAppend_nodes (list : TokenList) (token : Token) (s : ExpandState) :
  (tokenListAppend list token s).1.nodes <+ list.nodes ++ [⟨s.fresh, token⟩]
  := by
  change (if list.nodes = [] then [⟨s.fresh, token⟩] else list.link [⟨s.fresh, token⟩]) <+ _
  split
  · apply List.sublist_append_right
  · apply link_sublist

theorem tokenListAppend_grows (list : TokenList) (token : Token) (s : ExpandState) :
  Grows s (tokenListAppend list token s).2
  := ⟨rfl, Nat.le_succ _⟩

theorem tokenListAppend_within
    {list : TokenList} (token : Token) {s : ExpandState} {low : ℕ} (le : low ≤ s.fresh)
    (h : Within low s.fresh list.nodes) :
  Within low (tokenListAppend list token s).2.fresh (tokenListAppend list token s).1.nodes
  := by
  apply Within.sublist _ (tokenListAppend_nodes list token s)
  rw [within_append]
  refine ⟨h.mono le_rfl (Nat.le_succ _), ?_⟩
  intro node hn
  rw [List.mem_singleton.mp hn]
  exact ⟨le, Nat.lt_succ_self _⟩

theorem tokenListAppendAll_grows
    (list : TokenList) (tokens : List Token) (s : ExpandState) :
  Grows s (tokenListAppendAll list tokens s).2
  := by
  induction tokens generalizing list s with
  | nil => exact .refl s
  | cons token tokens ih => exact (tokenListAppend_grows list token s).trans (ih _ _)

theorem tokenListAppendAll_within
    {list : TokenList} (tokens : List Token) {s : ExpandState} {low : ℕ} (le : low ≤ s.fresh)
    (h : Within low s.fresh list.nodes) :
  Within low (tokenListAppendAll list tokens s).2.fresh (tokenListAppendAll list tokens s).1.nodes
  := by
  induction tokens generalizing list s with
  | nil => exact h
  | cons token tokens ih =>
    apply ih
    · exact le.trans (Nat.le_succ _)
    · exact tokenListAppend_within token le h

theorem tokenListAppendAll_tokens
    (list : TokenList) (tokens : List Token) (s : ExpandState) :
  (tokenListAppendAll list tokens s).1.nodes.map Node.token <+
    list.nodes.map Node.token ++ tokens
  := by
  induction tokens generalizing list s with
  | nil =>
    rw [List.append_nil]
    exact List.Sublist.refl _
  | cons token tokens ih =>
    apply (ih _ _).trans
    have first := (tokenListAppend_nodes list token s).map Node.token
    rw [List.map_append, List.map_singleton] at first
    have all := first.append_right tokens
    rw [List.append_assoc, List.singleton_append] at all
    exact all

theorem tokenListCopy_grows (tokens : List Token) (s : ExpandState) :
  Grows s (tokenListCopy tokens s).2
  := tokenListAppendAll_grows _ _ _

theorem tokenListCopy_within (tokens : List Token) (s : ExpandState) :
  Within s.fresh (tokenListCopy tokens s).2.fresh (tokenListCopy tokens s).1.nodes
  := tokenListAppendAll_within tokens le_rfl (within_nil _ _)

theorem tokenListCopy_tokens (tokens : List Token) (s : ExpandState) :
  (tokenListCopy tokens s).1.nodes.map Node.token <+ tokens
  := tokenListAppendAll_tokens .create tokens s

theorem tokenListAppendList_within
    {list tail : TokenList} {low high : ℕ} (h : Within low high list.nodes)
    (h' : Within low high tail.nodes) :
  Within low high (tokenListAppendList list tail).nodes
  := by
  unfold tokenListAppendList
  split
  · exact h
  · split
    · exact h'
    · apply Within.sublist _ (link_sublist list tail.nodes)
      exact within_append.mpr ⟨h, h'⟩

/-! ### Pasting -/

theorem pasteLoop_ids
    (tail : Option ℕ) (node : Node) (skipped : List Node) (pasting : Bool) (rest : List Node) :
  (pasteLoop tail node skipped pasting rest).nodes.map Node.id <+
    (node :: (skipped ++ rest)).map Node.id
  := by
  induction rest generalizing tail node skipped pasting with
  | nil =>
    rw [pasteLoop]
    split
    · simp
    · simp
  | cons next rest ih =>
    rw [pasteLoop]
    split
    · simpa using ih tail node (skipped ++ [next]) pasting
    · split
      · apply (ih _ { node with token := (tokenPaste node.token next.token).1 } [] false).trans
        simp only [List.nil_append, List.map_cons, List.map_append, List.cons_sublist_cons]
        apply ((List.sublist_cons_self next.id _)).trans
        apply List.sublist_append_right
      · split
        · simpa using ih tail node (skipped ++ [next]) true
        · simp only [Pasted.before, List.map_append, List.map_cons, List.cons_append,
            List.cons_sublist_cons]
          apply List.Sublist.append_left
          simpa using ih tail next [] false

theorem applyPastes_ids (list : TokenList) (s : ExpandState) :
  (applyPastes list s).1.nodes.map Node.id <+ list.nodes.map Node.id
  := by
  unfold applyPastes
  split
  · exact List.Sublist.refl _
  · rename_i node rest h
    rw [h]
    apply pasteLoop_ids

theorem applyPastes_within
    {list : TokenList} (s : ExpandState) {low high : ℕ} (h : Within low high list.nodes) :
  Within low high (applyPastes list s).1.nodes
  := by
  intro node hn
  have mem := (applyPastes_ids list s).subset (List.mem_map_of_mem hn)
  obtain ⟨node', hn', eq⟩ := List.mem_map.mp mem
  rw [← eq]
  exact h node' hn'

theorem applyPastes_grows (list : TokenList) (s : ExpandState) :
  Grows s (applyPastes list s).2
  := by
  unfold applyPastes
  split
  · exact .refl s
  · exact ⟨rfl, le_rfl⟩

/-! ### Arguments -/

/-- The tokens of arguments are among those that are consumed. -/
theorem argumentsLoop_success
    {parenCount : ℕ} {arguments : List (List Token)} {argument : List Token}
    {consumed nodes : List Node} {arguments' : List (List Token)} {consumed' rest : List Node}
    (before : ∀ a ∈ arguments, a <+ consumed.map Node.token)
    (current : argument <+ consumed.map Node.token)
    (h : argumentsLoop parenCount arguments argument consumed nodes =
      .success arguments' consumed' rest) :
  consumed ++ nodes = consumed' ++ rest ∧ ∀ a ∈ arguments', a <+ consumed'.map Node.token
  := by
  induction nodes generalizing parenCount arguments argument consumed with
  | nil => contradiction
  | cons node nodes ih =>
    have longer : (if argument = [] ∧ node.isSpace then [] else argument ++ [node.token]) <+
        (consumed ++ [node]).map Node.token := by
      rw [List.map_append]
      split
      · apply List.nil_sublist
      · exact current.append_right [node.token]
    have weaken : ∀ a : List Token, a <+ consumed.map Node.token →
        a <+ (consumed ++ [node]).map Node.token := by
      intro a ha
      rw [List.map_append]
      exact ha.trans (List.sublist_append_left _ _)
    have before' : ∀ a ∈ arguments, a <+ (consumed ++ [node]).map Node.token :=
      fun a ha => weaken a (before a ha)
    have shift : consumed ++ node :: nodes = (consumed ++ [node]) ++ nodes := by
      rw [List.append_assoc, List.singleton_append]
    rw [shift]
    rw [argumentsLoop] at h
    split at h
    · exact ih before' longer h
    · split at h
      · cases h
        refine ⟨rfl, ?_⟩
        intro a ha
        rcases List.mem_append.mp ha with ha | ha
        · exact before' a ha
        · rw [List.mem_singleton.mp ha]
          exact weaken argument current
      · exact ih before' longer h
    · split at h
      · apply ih _ (List.nil_sublist _) h
        intro a ha
        rcases List.mem_append.mp ha with ha | ha
        · exact before' a ha
        · rw [List.mem_singleton.mp ha]
          apply weaken
          exact (List.rdropWhile_prefix _ _).sublist.trans current
      · exact ih before' longer h
    · exact ih before' longer h

theorem argumentsParse_success
    {nodes : List Node} {arguments : List (List Token)} {consumed rest : List Node}
    (h : argumentsParse nodes = .success arguments consumed rest) :
  nodes = consumed ++ rest ∧ ∀ a ∈ arguments, a <+ consumed.map Node.token
  := by
  have split : nodes.takeWhile Node.isSpace ++ nodes.dropWhile Node.isSpace = nodes :=
    List.takeWhile_append_dropWhile
  unfold argumentsParse at h
  simp only at h
  split at h
  case h_1 => contradiction
  case h_2 node behind drop =>
    split at h
    case isFalse => contradiction
    case isTrue =>
      obtain ⟨eq, all⟩ := argumentsLoop_success (fun a ha => absurd ha List.not_mem_nil)
        (List.nil_sublist _) h
      refine ⟨?_, all⟩
      rw [← eq, List.append_assoc, List.singleton_append, ← drop, split]

/-! ### `defined` -/

/-- What the evaluation of `defined` makes of nodes: the state grows, the nodes that are reached
were there before or hold a new integer, and for what does not distinguish `defined` from integers,
they are some of the nodes there were. -/
structure EvaluatesNodes (nodes : List Node) (s : ExpandState) (e : Evaluated) : Prop where
  grows : Grows s e.state
  nodes_mem : ∀ node ∈ e.nodes, node ∈ nodes ∨
    s.fresh ≤ node.id ∧ node.id < e.state.fresh ∧ ∃ value, node.token.lexeme = .integer value
  old_mem : ∀ node ∈ e.old, node ∈ nodes ∨
    s.fresh ≤ node.id ∧ node.id < e.state.fresh ∧ ∃ value, node.token.lexeme = .integer value
  nodes_sublist : ∀ {β : Type} (f : Token → β),
    (∀ t value, t.lexeme = .defined → f ⟨.integer value, ⟨0, 0⟩⟩ = f t) →
    e.nodes.map (fun n => f n.token) <+ nodes.map (fun n => f n.token)
  old_sublist : ∀ {β : Type} (f : Token → β),
    (∀ t value, t.lexeme = .defined → f ⟨.integer value, ⟨0, 0⟩⟩ = f t) →
    e.old.map (fun n => f n.token) <+ nodes.map (fun n => f n.token)

/-- A node that stays in front of nodes that are evaluated. -/
theorem EvaluatesNodes.cons
    {nodes : List Node} {s s' : ExpandState} {e : Evaluated} (h : EvaluatesNodes nodes s' e)
    (grows : Grows s s') (node : Node) :
  EvaluatesNodes (node :: nodes) s { e with nodes := node :: e.nodes, old := node :: e.nodes }
  := by
  have mem : ∀ n ∈ node :: e.nodes, n ∈ node :: nodes ∨
      s.fresh ≤ n.id ∧ n.id < e.state.fresh ∧ ∃ value, n.token.lexeme = .integer value := by
    intro n hn
    rcases List.mem_cons.mp hn with rfl | hn
    · left
      exact List.mem_cons_self
    · rcases h.nodes_mem n hn with old | ⟨low, new⟩
      · left
        exact List.mem_cons_of_mem _ old
      · right
        exact ⟨grows.fresh.trans low, new⟩
  refine ⟨grows.trans h.grows, mem, mem, ?_, ?_⟩
  · intro β f hf
    exact (h.nodes_sublist f hf).cons_cons _
  · intro β f hf
    exact (h.nodes_sublist f hf).cons_cons _

theorem evaluateDefinedLoop_spec
    (defines : List Macro) (nodes : List Node) (tail : Option ℕ) (s : ExpandState) :
  EvaluatesNodes nodes s (evaluateDefinedLoop defines nodes tail s)
  := by
  fun_induction evaluateDefinedLoop defines nodes tail s with
  | case1 =>
    refine ⟨.refl _, ?_, ?_, ?_, ?_⟩
    all_goals simp
  | case2 node rest tail s isDefined str consumed behind h value replacement last tail' e ih =>
    have split : rest = consumed ++ behind := (evaluateDefined_nodes h).1
    have grows : Grows s { s with fresh := s.fresh + 1 } := ⟨rfl, Nat.le_succ _⟩
    have behind_mem : ∀ n ∈ behind, n ∈ node :: rest := by
      intro n hn
      rw [split]
      exact List.mem_cons_of_mem _ (List.mem_append_right _ hn)
    have later : ∀ n, (n ∈ behind ∨ s.fresh + 1 ≤ n.id ∧ n.id < e.state.fresh ∧
        ∃ value, n.token.lexeme = .integer value) → n ∈ node :: rest ∨
          s.fresh ≤ n.id ∧ n.id < e.state.fresh ∧ ∃ value, n.token.lexeme = .integer value := by
      rintro n (hn | ⟨low, new⟩)
      · left
        exact behind_mem n hn
      · right
        exact ⟨(Nat.le_succ _).trans low, new⟩
    refine ⟨grows.trans ih.grows, ?_, ?_, ?_, ?_⟩
    · intro n hn
      rcases List.mem_cons.mp hn with rfl | hn
      · right
        exact ⟨le_rfl, ih.grows.fresh, value, rfl⟩
      · exact later n (ih.nodes_mem n hn)
    · intro n hn
      rcases List.mem_cons.mp hn with rfl | hn
      · left
        exact List.mem_cons_self
      · rcases List.mem_append.mp hn with hn | hn
        · left
          rw [split]
          exact List.mem_cons_of_mem _ (List.mem_append_left _ hn)
        · exact later n (ih.old_mem n hn)
    · intro β f hf
      have first : f replacement.token = f node.token := hf node.token value isDefined
      rw [List.map_cons, List.map_cons, first, split, List.map_append]
      apply List.Sublist.cons_cons
      exact (ih.nodes_sublist f hf).trans (List.sublist_append_right _ _)
    · intro β f hf
      rw [List.map_cons, List.map_cons, split, List.map_append, List.map_append]
      apply List.Sublist.cons_cons
      exact (ih.old_sublist f hf).append_left _
  | case3 node rest tail s _ _ s' e ih => exact ih.cons (grows_error s _) node
  | case4 node rest tail s _ e ih => exact ih.cons (.refl s) node

end Glcpp
