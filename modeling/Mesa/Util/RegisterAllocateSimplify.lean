import Mesa.Util.RegisterAllocateBuild

/-!
# Simplification of interference graphs

Simplification puts nodes on the stack one by one, and ends when none is left.  As long as no node is
put there optimistically, each node passes the test on the nodes that are coloured before it.
-/

namespace Util

namespace RegisterAllocate

open Relation (ReflTransGen)

namespace Graph

/-! ### Pushes -/

/-- A node that is still to be put on the stack. -/
structure Pending (g : Graph) (n : ℕ) : Prop where
  lt : n < g.count
  inStack : g.inStack n = false
  reg : g.reg n = none

/-- What simplification does: it puts a pending node on the stack, with or without the test. -/
inductive Push : Graph → Graph → Prop where
  | trivial {g : Graph} {n : ℕ} (pending : g.Pending n) (pq : g.pqTest n = true) : Push g (g.push n)
  | optimistic {g : Graph} {n : ℕ} (pending : g.Pending n) :
    Push g { g.push n with
      stackOptimisticStart := g.stackOptimisticStart.or (some g.stack.length) }

theorem count_steps {g g' : Graph} (steps : ReflTransGen Push g g') :
  g'.count = g.count
  := by
  induction steps with
  | refl => rfl
  | tail _ step ih =>
    rw [← ih]
    cases step with
    | trivial _ _ => rfl
    | optimistic _ => rfl

/-- What pushes of nodes do not change. -/
structure Simplified (g₀ g : Graph) : Prop where
  regs : g.regs = g₀.regs
  count : g.count = g₀.count
  nodeClass : g.nodeClass = g₀.nodeClass
  adjacencyList : g.adjacencyList = g₀.adjacencyList
  reg : g.reg = g₀.reg
  inStack : ∀ n, g.inStack n = true ↔ n ∈ g.stack
  nodup : g.stack.Nodup
  lt : ∀ n ∈ g.stack, n < g₀.count
  free : ∀ n ∈ g.stack, g₀.reg n = none

theorem Simplified.q {g₀ g : Graph} (h : Simplified g₀ g) (n1 n2 : ℕ) :
  g.q n1 n2 = g₀.q n1 n2
  := by
  unfold Graph.q
  rw [h.regs, h.nodeClass]

theorem Simplified.notMem {g₀ g : Graph} (h : Simplified g₀ g) {n : ℕ} (pending : g.Pending n) :
  n ∉ g.stack
  := by
  intro mem
  have inStack := (h.inStack n).2 mem
  rw [pending.inStack] at inStack
  cases inStack

theorem Simplified.push {g₀ g : Graph} (h : Simplified g₀ g) {n : ℕ} (pending : g.Pending n) :
  Simplified g₀ (g.push n)
  := by
  constructor
  · exact h.regs
  · exact h.count
  · exact h.nodeClass
  · exact h.adjacencyList
  · exact h.reg
  · intro n'
    change Function.update g.inStack n true n' = true ↔ n' ∈ n :: g.stack
    rw [List.mem_cons]
    rcases eq_or_ne n' n with rfl | other
    · simp
    · rw [Function.update_of_ne other, h.inStack, or_iff_right other]
  · apply List.nodup_cons.2
    exact ⟨h.notMem pending, h.nodup⟩
  · intro n' mem
    rcases List.mem_cons.1 mem with rfl | old
    · rw [← h.count]
      exact pending.lt
    · exact h.lt n' old
  · intro n' mem
    rcases List.mem_cons.1 mem with rfl | old
    · rw [← h.reg]
      exact pending.reg
    · exact h.free n' old

theorem Simplified.step {g₀ g g' : Graph} (h : Simplified g₀ g) (step : Push g g') :
  Simplified g₀ g'
  := by
  cases step with
  | trivial pending _ => exact h.push pending
  | optimistic pending =>
    have pushed := h.push pending
    exact ⟨pushed.regs, pushed.count, pushed.nodeClass, pushed.adjacencyList, pushed.reg,
      pushed.inStack, pushed.nodup, pushed.lt, pushed.free⟩

theorem Simplified.steps {g₀ g g' : Graph} (h : Simplified g₀ g) (steps : ReflTransGen Push g g') :
  Simplified g₀ g'
  := by
  induction steps with
  | refl => exact h
  | tail _ step ih => exact ih.step step

/-- There are at most as many nodes on the stack as in the graph. -/
theorem Simplified.length_le {g₀ g : Graph} (h : Simplified g₀ g) :
  g.stack.length ≤ g₀.count
  := by
  have subset : g.stack ⊆ List.range g₀.count := by
    intro n mem
    exact List.mem_range.2 (h.lt n mem)
  have le := (List.subperm_of_subset h.nodup subset).length_le
  rw [List.length_range] at le
  exact le

/-! ### Rounds -/

/-- What holds in a round that started at `g`, when some nodes have been visited. -/
structure RoundInv (g : Graph) (visited : List ℕ) (s : Round) : Prop where
  steps : ReflTransGen Push g s.graph
  still : s.progress = false → s.graph = g
  moved : s.progress = true → g.stack.length < s.graph.stack.length
  best : ∀ best, s.best = some best → s.progress = false → g.Pending best.1
  seen : s.progress = false → ∀ n ∈ visited, g.Pending n → s.best ≠ none

theorem RoundInv.visit {g : Graph} {visited : List ℕ} {s : Round} (h : RoundInv g visited s)
    {i : ℕ} (lt : i < s.graph.count) :
  RoundInv g (i :: visited) (s.visit i)
  := by
  unfold Round.visit
  split
  · rename_i done
    refine ⟨h.steps, h.still, h.moved, h.best, ?_⟩
    intro still n mem pending
    rcases List.mem_cons.1 mem with rfl | old
    · rw [h.still still, pending.inStack, pending.reg] at done
      simp at done
    · exact h.seen still n old pending
  rename_i notDone
  have pending : s.graph.Pending i := by
    refine ⟨lt, ?_, ?_⟩
    · by_contra inStack
      exact notDone (.inl (Bool.of_not_eq_false inStack))
    · by_contra reg
      exact notDone (.inr reg)
  split
  · rename_i pq
    constructor
    · exact h.steps.tail (.trivial pending pq)
    · intro still
      cases still
    · intro _
      have length : (s.graph.push i).stack.length = s.graph.stack.length + 1 := rfl
      change g.stack.length < (s.graph.push i).stack.length
      rw [length]
      cases progress : s.progress with
      | false =>
        rw [h.still progress]
        exact Nat.lt_succ_self _
      | true => exact Nat.lt_succ_of_lt (h.moved progress)
    · intro _ _ still
      cases still
    · intro still
      cases still
  · split
    · refine ⟨h.steps, h.still, h.moved, ?_, ?_⟩
      · intro best same still
        obtain rfl := Option.some.inj same
        rw [← h.still still]
        exact pending
      · intro _ _ _ _ none
        cases none
    · rename_i worse
      refine ⟨h.steps, h.still, h.moved, h.best, ?_⟩
      intro _ _ _ _ none
      rw [none] at worse
      exact worse rfl

theorem RoundInv.foldl {g : Graph} {visited : List ℕ} {s : Round} (h : RoundInv g visited s)
    {l : List ℕ} (lt : ∀ i ∈ l, i < g.count) :
  RoundInv g (l.reverse ++ visited) (l.foldl Round.visit s)
  := by
  induction l generalizing visited s with
  | nil => exact h
  | cons i l ih =>
    rw [List.foldl_cons, List.reverse_cons, List.append_assoc]
    apply ih
    · apply h.visit
      rw [count_steps h.steps]
      exact lt i List.mem_cons_self
    · intro j mem
      exact lt j (List.mem_cons_of_mem _ mem)

/-- A round puts nodes on the stack, unless none is pending. -/
theorem simplifyRound_spec (g : Graph) :
  ReflTransGen Push g g.simplifyRound.1 ∧
    (g.simplifyRound.2 = true → g.stack.length < g.simplifyRound.1.stack.length) ∧
    (g.simplifyRound.2 = false → g.simplifyRound.1 = g ∧ ∀ n, ¬g.Pending n)
  := by
  have start : RoundInv g [] { graph := g } := by
    refine ⟨.refl, fun _ => rfl, ?_, ?_, ?_⟩
    · intro moved
      cases moved
    · intro _ same
      cases same
    · intro _ n mem
      cases mem
  have round := @start.foldl _ _ _ (List.range g.count).reverse (by simp)
  unfold Graph.simplifyRound
  dsimp only
  generalize (List.range g.count).reverse.foldl Round.visit { graph := g } = s at round
  split
  · rename_i best still found
    have same := round.still still
    refine ⟨?_, ?_, ?_⟩
    · rw [same]
      exact ReflTransGen.single (.optimistic (round.best best found still))
    · intro _
      rw [same]
      exact Nat.lt_succ_self _
    · intro none
      cases none
  · rename_i progress _ other
    refine ⟨round.steps, round.moved, ?_⟩
    intro still
    refine ⟨round.still still, ?_⟩
    intro n pending
    have found := round.seen still n (by simpa using pending.lt) pending
    obtain ⟨best, found⟩ := Option.ne_none_iff_exists'.1 found
    exact other best still found

theorem simplifyLoop_spec {g₀ g : Graph} (h : Simplified g₀ g) {fuel : ℕ}
    (enough : g₀.count < fuel + g.stack.length) :
  ReflTransGen Push g (simplifyLoop fuel g) ∧ ∀ n, ¬(simplifyLoop fuel g).Pending n
  := by
  induction fuel generalizing g with
  | zero =>
    have := h.length_le
    omega
  | succ fuel ih =>
    obtain ⟨steps, moved, still⟩ := g.simplifyRound_spec
    unfold simplifyLoop
    split
    · rename_i g' round
      rw [round] at steps moved
      have longer := moved rfl
      obtain ⟨rest, none⟩ := ih (h.steps steps) (by dsimp only at longer ⊢; omega)
      exact ⟨steps.trans rest, none⟩
    · rename_i g' round
      rw [round] at steps still
      obtain ⟨rfl, none⟩ := still rfl
      exact ⟨steps, none⟩

/-- Simplification puts every node without a register on the stack. -/
theorem simplify_spec {g : Graph} (h : Simplified g g) :
  ReflTransGen Push g g.simplify ∧ ∀ n, ¬g.simplify.Pending n
  := by
  apply simplifyLoop_spec h
  omega

/-! ### Trivial stacks -/

/-- The sum of the q values of the neighbours of a node that are not on a stack. -/
def qOutside (g : Graph) (stack : List ℕ) (n : ℕ) : ℕ :=
  ((g.adjacencyList n).map fun n2 => if n2 ∈ stack then 0 else g.q n n2).sum

/-- Each node of the stack passes the test on the nodes that are coloured before it. -/
def Trivial (g : Graph) : List ℕ → Prop
  | [] => True
  | n :: stack =>
    g.qOutside stack n < (g.regs.classes (g.nodeClass n)).p ∧ g.Trivial stack

theorem foldl_decrement {l : List ℕ} (nodup : l.Nodup) (inStack : ℕ → Bool) (q qTotal : ℕ → ℕ)
    (m : ℕ) :
  l.foldl (fun qTotal n2 =>
      if inStack n2 then qTotal else Function.update qTotal n2 (qTotal n2 - q n2)) qTotal m
    = if m ∈ l ∧ inStack m = false then qTotal m - q m else qTotal m
  := by
  induction l generalizing qTotal with
  | nil => simp
  | cons n2 l ih =>
    obtain ⟨fresh, nodup'⟩ := List.nodup_cons.1 nodup
    rw [List.foldl_cons, ih nodup']
    rcases eq_or_ne m n2 with rfl | other
    · simp only [fresh, false_and, if_false, List.mem_cons_self, true_and]
      cases inStack m with
      | true => rfl
      | false =>
        rw [if_neg Bool.false_ne_true, if_pos rfl]
        exact Function.update_self _ _ _
    · have unchanged : (if inStack n2 then qTotal
          else Function.update qTotal n2 (qTotal n2 - q n2)) m = qTotal m := by
        split
        · rfl
        · exact Function.update_of_ne other _ _
      rw [unchanged]
      simp only [List.mem_cons, other, false_or]

/-- What pushes keep of the q totals: they count the neighbours that are not on the stack. -/
structure Counted (g₀ g : Graph) : Prop where
  simplified : Simplified g₀ g
  qTotal : ∀ n, n ∉ g.stack → g.qTotal n = g₀.qOutside g.stack n
  trivial : g.stackOptimisticStart = none → g₀.Trivial g.stack
  asserts : g.asserts = true

/-- Of the sum for a node, the part of one neighbour is taken away. -/
theorem qOutside_cons {g : Graph} {ops : List GraphOp} (adjacency : g.Adjacency ops)
    {stack : List ℕ} {n : ℕ} (outside : n ∉ stack) (m : ℕ) :
  g.qOutside (n :: stack) m + (if m ∈ g.adjacencyList n then g.q m n else 0) = g.qOutside stack m
  := by
  have less := Colouring.sum_map_update (adjacency.nodup m)
    (fun n2 => if n2 ∈ stack then 0 else g.q m n2) n
  have updated : Function.update (fun n2 => if n2 ∈ stack then 0 else g.q m n2) n 0
      = fun n2 => if n2 ∈ n :: stack then 0 else g.q m n2 := by
    funext n2
    rw [Function.update_apply]
    rcases eq_or_ne n2 n with rfl | different
    · simp
    · simp [different]
  have symm : n ∈ g.adjacencyList m ↔ m ∈ g.adjacencyList n :=
    ⟨adjacency.symm m n, adjacency.symm n m⟩
  rw [updated, if_neg outside] at less
  simp only [symm] at less
  exact less

theorem Counted.push {g₀ g : Graph} (h : Counted g₀ g) {ops : List GraphOp}
    (adjacency : g₀.Adjacency ops) {n : ℕ} (pending : g.Pending n) {m : ℕ} (out : m ∉ n :: g.stack) :
  (g.push n).qTotal m = g₀.qOutside (n :: g.stack) m
  := by
  have out := fun mem => out (List.mem_cons_of_mem n mem)
  have notInStack : g.inStack m = false := by
    by_contra inStack
    exact out ((h.simplified.inStack m).1 (Bool.of_not_eq_false inStack))
  have less := qOutside_cons adjacency (h.simplified.notMem pending) m
  change (g.adjacencyList n).foldl (fun qTotal n2 =>
    if g.inStack n2 then qTotal else Function.update qTotal n2 (qTotal n2 - g.q n2 n)) g.qTotal m = _
  rw [h.simplified.adjacencyList, foldl_decrement (adjacency.nodup n) g.inStack (g.q · n),
    h.qTotal m out, h.simplified.q]
  simp only [notInStack, and_true]
  split
  · rename_i mem
    rw [if_pos mem] at less
    omega
  · rename_i mem
    rw [if_neg mem] at less
    omega

/-- The assertion holds: the q total of a neighbour has the part that is taken away. -/
theorem Counted.asserts_push {g₀ g : Graph} (h : Counted g₀ g) {ops : List GraphOp}
    (adjacency : g₀.Adjacency ops) {n : ℕ} (pending : g.Pending n) :
  (g.push n).asserts = true
  := by
  change (g.asserts && (g.adjacencyList n).all fun n2 =>
    g.inStack n2 || decide (g.q n2 n ≤ g.qTotal n2)) = true
  rw [h.asserts, Bool.true_and, List.all_eq_true]
  intro m mem
  rw [h.simplified.adjacencyList] at mem
  have less := qOutside_cons adjacency (h.simplified.notMem pending) m
  rw [if_pos mem] at less
  cases inStack : g.inStack m with
  | true => rfl
  | false =>
    have out : m ∉ g.stack := by
      intro onStack
      rw [(h.simplified.inStack m).2 onStack] at inStack
      cases inStack
    rw [h.qTotal m out, h.simplified.q, ← less]
    simp

theorem Counted.step {g₀ g g' : Graph} (h : Counted g₀ g) {ops : List GraphOp}
    (adjacency : g₀.Adjacency ops) (step : Push g g') :
  Counted g₀ g'
  := by
  refine ⟨h.simplified.step step, ?_, ?_, ?_⟩
  · intro m out
    cases step with
    | trivial pending _ => exact h.push adjacency pending out
    | optimistic pending => exact h.push adjacency pending out
  · intro start
    cases step with
    | trivial pending pq =>
      rename_i n
      refine ⟨?_, h.trivial start⟩
      change g₀.qOutside g.stack n < _
      rw [← h.qTotal n (h.simplified.notMem pending), ← h.simplified.regs, ← h.simplified.nodeClass]
      exact of_decide_eq_true pq
    | optimistic pending =>
      change g.stackOptimisticStart.or (some g.stack.length) = none at start
      cases before : g.stackOptimisticStart with
      | none =>
        rw [before] at start
        cases start
      | some _ =>
        rw [before] at start
        cases start
  · cases step with
    | trivial pending _ => exact h.asserts_push adjacency pending
    | optimistic pending => exact h.asserts_push adjacency pending

theorem Counted.steps {g₀ g g' : Graph} (h : Counted g₀ g) {ops : List GraphOp}
    (adjacency : g₀.Adjacency ops) (steps : ReflTransGen Push g g') :
  Counted g₀ g'
  := by
  induction steps with
  | refl => exact h
  | tail _ step ih => exact ih.step adjacency step

end Graph

/-! ### Graphs that were built -/

theorem Graph.Built.simplified {regs : Regs} {ops : List GraphOp} {g : Graph}
    (built : Graph.Built regs ops g) :
  g.Simplified g
  := by
  obtain ⟨-, inStack, stack, -⟩ := built.idle
  refine ⟨rfl, rfl, rfl, rfl, rfl, ?_, ?_, ?_, ?_⟩
  · intro n
    rw [inStack n, stack]
    simp
  · rw [stack]
    exact List.nodup_nil
  · rw [stack]
    simp
  · rw [stack]
    simp

/-- The q totals are right throughout if the classes were set first. -/
theorem Graph.Built.counted {regs : Regs} {ops : List GraphOp} {g : Graph}
    (built : Graph.Built regs ops g) (first : ClassesFirst ops) :
  g.Counted g.simplify
  := by
  obtain ⟨-, -, stack, -, asserts⟩ := built.idle
  have counted : g.Counted g := by
    refine ⟨built.simplified, ?_, ?_, asserts⟩
    · intro n _
      rw [built.qTotal_eq first, stack]
      rfl
    · intro _
      rw [stack]
      trivial
  exact counted.steps built.adjacency (Graph.simplify_spec built.simplified).1

end RegisterAllocate

end Util
