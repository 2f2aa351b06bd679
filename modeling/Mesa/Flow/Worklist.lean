import Mathlib.Algebra.Order.BigOperators.Group.Finset

/-!
# Backward data flow with a worklist

Sets of facts at the start and at the stop of every vertex of a graph.  The set at the start comes
from the one at the stop by a transfer function, and what holds at the start of a vertex goes
across the edges to the stops of its predecessors.  A worklist keeps the vertices whose stop has
changed.
-/

namespace Flow.Worklist

/-- A graph by its predecessors, the function through a vertex, and the one from the start of a
vertex back across the edge from a predecessor. -/
structure Problem (B V : Type*) where
  preds : B → List B
  transfer : B → Finset V → Finset V
  across : B → B → Finset V → Finset V

/-- The sets found so far, and the vertices that are still to be looked at. -/
structure State (B V : Type*) where
  start : B → Finset V
  stop : B → Finset V
  worklist : List B

variable {B V : Type*} [DecidableEq B] [DecidableEq V]

/-- To push a vertex that is there already is a no-op. -/
def pushTail (w : List B) (b : B) : List B := if b ∈ w then w else w ++ [b]

/-- To push a vertex at the head. -/
def pushHead (w : List B) (b : B) : List B := if b ∈ w then w else b :: w

namespace Problem

variable (P : Problem B V)

/-- What holds at the start of `b` is added at the stop of `p`, which is pushed if that is new. -/
def propagate (b : B) (s : State B V) (p : B) : State B V :=
  let live := P.across p b (s.start b)
  { s with
    stop := Function.update s.stop p (s.stop p ∪ live)
    worklist := if live ⊆ s.stop p then s.worklist else pushTail s.worklist p }

/-- The set at the start of `b`, which was the head of the worklist, is found anew. -/
def visit (s : State B V) (b : B) (rest : List B) : State B V :=
  { s with start := Function.update s.start b (P.transfer b (s.stop b)), worklist := rest }

/-- The head of the worklist is popped and looked at. -/
def step (s : State B V) : State B V :=
  match s.worklist with
  | [] => s
  | b :: rest => (P.preds b).foldl (P.propagate b) (P.visit s b rest)

/-- Nothing is known yet, and the vertices of the list are to be looked at. -/
def init (w : List B) : State B V := ⟨fun _ => ∅, fun _ => ∅, w⟩

/-! ### One predecessor -/

omit [DecidableEq V] in
@[simp]
theorem visit_start_self (s : State B V) (b : B) (rest : List B) :
  (P.visit s b rest).start b = P.transfer b (s.stop b)
  := by
  apply Function.update_self

omit [DecidableEq V] in
theorem visit_start_of_ne {s : State B V} {b c : B} {rest : List B} (h : c ≠ b) :
  (P.visit s b rest).start c = s.start c
  := by
  apply Function.update_of_ne h

@[simp]
theorem propagate_start (b : B) (s : State B V) (p : B) :
  (P.propagate b s p).start = s.start
  := by
  rfl

/-- The stops grow. -/
theorem subset_propagate (b : B) (s : State B V) (p q : B) :
  s.stop q ⊆ (P.propagate b s p).stop q
  := by
  unfold propagate
  by_cases h : q = p
  · subst h
    simp only [Function.update_self]
    apply Finset.subset_union_left
  · simp only [Function.update_of_ne h]
    apply Finset.Subset.refl

/-- What holds at the start of the vertex has come across the edge. -/
theorem across_subset_propagate (b : B) (s : State B V) (p : B) :
  P.across p b (s.start b) ⊆ (P.propagate b s p).stop p
  := by
  unfold propagate
  simp only [Function.update_self]
  apply Finset.subset_union_right

omit [DecidableEq V] in
theorem mem_pushTail {w : List B} {b c : B} :
  c ∈ pushTail w b ↔ c ∈ w ∨ c = b
  := by
  unfold pushTail
  split
  next h =>
    constructor
    · exact Or.inl
    · rintro (hc | rfl)
      · exact hc
      · exact h
  next => rw [List.mem_append, List.mem_singleton]

/-- A vertex that is not on the worklist afterwards was not before, and its stop is the same. -/
theorem not_mem_propagate {b : B} {s : State B V} {p q : B}
  (h : q ∉ (P.propagate b s p).worklist) :
  q ∉ s.worklist ∧ (P.propagate b s p).stop q = s.stop q
  := by
  unfold propagate at h ⊢
  simp only at h ⊢
  split at h
  next hsub =>
    constructor
    · exact h
    · by_cases hq : q = p
      · subst hq
        rw [Function.update_self, Finset.union_eq_left.mpr hsub]
      · rw [Function.update_of_ne hq]
  next =>
    rw [mem_pushTail, not_or] at h
    exact ⟨h.1, Function.update_of_ne h.2 _ _⟩

/-! ### All predecessors -/

@[simp]
theorem foldl_propagate_start (b : B) (s : State B V) (l : List B) :
  (l.foldl (P.propagate b) s).start = s.start
  := by
  induction l generalizing s with
  | nil => rfl
  | cons p l ih => rw [List.foldl_cons, ih, propagate_start]

theorem subset_foldl_propagate (b : B) (s : State B V) (l : List B) (q : B) :
  s.stop q ⊆ (l.foldl (P.propagate b) s).stop q
  := by
  induction l generalizing s with
  | nil => exact Finset.Subset.refl _
  | cons p l ih =>
      have hfirst := P.subset_propagate b s p q
      exact hfirst.trans (ih _)

theorem across_subset_foldl_propagate (b : B) (s : State B V) {l : List B} {p : B} (hp : p ∈ l) :
  P.across p b (s.start b) ⊆ (l.foldl (P.propagate b) s).stop p
  := by
  induction l generalizing s with
  | nil => exact absurd hp List.not_mem_nil
  | cons r l ih =>
      rcases List.mem_cons.mp hp with rfl | hmem
      · have hfirst := P.across_subset_propagate b s p
        exact hfirst.trans (P.subset_foldl_propagate b _ l p)
      · have hrest := ih (P.propagate b s r) hmem
        rwa [propagate_start] at hrest

theorem not_mem_foldl_propagate {b : B} {s : State B V} {l : List B} {q : B}
  (h : q ∉ (l.foldl (P.propagate b) s).worklist) :
  q ∉ s.worklist ∧ (l.foldl (P.propagate b) s).stop q = s.stop q
  := by
  induction l generalizing s with
  | nil => exact ⟨h, rfl⟩
  | cons p l ih =>
      obtain ⟨hmem, hrest⟩ := ih h
      obtain ⟨hmem', hfirst⟩ := P.not_mem_propagate hmem
      exact ⟨hmem', hrest.trans hfirst⟩

/-! ### Facts that stay inside given sets -/

/-- The sets of facts that hold are inside the given ones. -/
structure Within (R S : B → Set V) (s : State B V) : Prop where
  start : ∀ b, ∀ v ∈ s.start b, v ∈ R b
  stop : ∀ b, ∀ v ∈ s.stop b, v ∈ S b

/-- The given sets are closed under the functions of the problem. -/
structure Closed (R S : B → Set V) : Prop where
  transfer : ∀ b X, (∀ v ∈ X, v ∈ S b) → ∀ v ∈ P.transfer b X, v ∈ R b
  across : ∀ b X, (∀ v ∈ X, v ∈ R b) → ∀ p ∈ P.preds b, ∀ v ∈ P.across p b X, v ∈ S p

variable {P} {R S : B → Set V}

theorem Within.propagate (hclosed : P.Closed R S) {s : State B V} (h : Within R S s) {b p : B}
  (hp : p ∈ P.preds b) :
  Within R S (P.propagate b s p)
  := by
  constructor
  · exact h.start
  · intro q v hv
    unfold Problem.propagate at hv
    simp only at hv
    by_cases hq : q = p
    · subst hq
      rw [Function.update_self, Finset.mem_union] at hv
      rcases hv with hv | hv
      · exact h.stop q v hv
      · exact hclosed.across b _ (h.start b) q hp v hv
    · rw [Function.update_of_ne hq] at hv
      exact h.stop q v hv

theorem Within.foldl_propagate (hclosed : P.Closed R S) {b : B} {l : List B}
  (hl : ∀ p ∈ l, p ∈ P.preds b) {s : State B V} (h : Within R S s) :
  Within R S (l.foldl (P.propagate b) s)
  := by
  induction l generalizing s with
  | nil => exact h
  | cons p l ih =>
      apply ih
      · intro q hq
        exact hl q (List.mem_cons_of_mem _ hq)
      · exact h.propagate hclosed (hl p List.mem_cons_self)

theorem Within.step (hclosed : P.Closed R S) {s : State B V} (h : Within R S s) :
  Within R S (P.step s)
  := by
  unfold Problem.step
  split
  · exact h
  · rename_i b rest _
    apply Within.foldl_propagate hclosed
    · intro p hp
      exact hp
    · constructor
      · intro c v hv
        by_cases hc : c = b
        · subst hc
          rw [visit_start_self] at hv
          exact hclosed.transfer c _ (h.stop c) v hv
        · rw [visit_start_of_ne _ hc] at hv
          exact h.start c v hv
      · exact h.stop

/-- Only facts inside closed sets are ever found. -/
theorem within_iterate (hclosed : P.Closed R S) (w : List B) (n : ℕ) :
  Within R S (P.step^[n] (init w))
  := by
  induction n with
  | zero =>
      constructor
      · intro b v hv
        exact absurd hv (Finset.notMem_empty v)
      · intro b v hv
        exact absurd hv (Finset.notMem_empty v)
  | succ n ih =>
      rw [Function.iterate_succ_apply']
      exact ih.step hclosed

/-! ### Vertices that are settled -/

/-- The start of a vertex is up to date, and has gone across its edges. -/
structure SettledAt (P : Problem B V) (s : State B V) (b : B) : Prop where
  start : s.start b = P.transfer b (s.stop b)
  across : ∀ p ∈ P.preds b, P.across p b (s.start b) ⊆ s.stop p

/-- Every vertex that is not on the worklist is settled. -/
def Settled (P : Problem B V) (s : State B V) : Prop :=
  ∀ b ∉ s.worklist, SettledAt P s b

theorem Settled.step {s : State B V} (h : Settled P s) :
  Settled P (P.step s)
  := by
  unfold Problem.step
  split
  · exact h
  · rename_i b rest hw
    intro c hc
    obtain ⟨hmem, hstop⟩ := P.not_mem_foldl_propagate hc
    by_cases hcb : c = b
    · -- the vertex that was popped
      subst hcb
      constructor
      · rw [foldl_propagate_start, hstop]
        exact P.visit_start_self s c rest
      · intro p hp
        rw [foldl_propagate_start]
        exact P.across_subset_foldl_propagate c _ hp
    · -- the others keep their start, and the stops only grow
      have hold : SettledAt P s c := by
        apply h
        rw [hw, List.mem_cons, not_or]
        exact ⟨hcb, hmem⟩
      constructor
      · rw [foldl_propagate_start, hstop, visit_start_of_ne _ hcb]
        exact hold.start
      · intro p hp
        rw [foldl_propagate_start, visit_start_of_ne _ hcb]
        have hgrow := P.subset_foldl_propagate b (P.visit s b rest) (P.preds b) p
        exact (hold.across p hp).trans hgrow

/-- If every vertex was looked at, all vertices are settled when the worklist is empty. -/
theorem settled_iterate {w : List B} {n : ℕ} (hw : ∀ b ∉ w, SettledAt P (init w) b) :
  Settled P (P.step^[n] (init w))
  := by
  induction n with
  | zero => exact hw
  | succ n ih =>
      rw [Function.iterate_succ_apply']
      exact ih.step

/-! ### The worklist gets empty -/

/-- The length of the worklist, and the facts of the universe that are missing at the stops. -/
def potential (blocks : Finset B) (U : Finset V) (s : State B V) : ℕ :=
  s.worklist.length + ∑ b ∈ blocks, (U \ s.stop b).card

/-- A new fact leaves fewer that are missing. -/
theorem potential_propagate {blocks : Finset B} {U : Finset V} {s : State B V} {b p : B}
  (hp : p ∈ blocks) (hU : P.across p b (s.start b) ⊆ U) :
  potential blocks U (P.propagate b s p) ≤ potential blocks U s
  := by
  have hmono : ∀ q ∈ blocks,
      (U \ (P.propagate b s p).stop q).card ≤ (U \ s.stop q).card := by
    intro q _
    apply Finset.card_le_card
    exact Finset.sdiff_subset_sdiff (Finset.Subset.refl _) (P.subset_propagate b s p q)
  unfold potential
  by_cases hsub : P.across p b (s.start b) ⊆ s.stop p
  · have hsame : (P.propagate b s p).worklist = s.worklist := by
      unfold Problem.propagate
      simp only [if_pos hsub]
    rw [hsame]
    exact Nat.add_le_add_left (Finset.sum_le_sum hmono) _
  · have hlength : (P.propagate b s p).worklist.length ≤ s.worklist.length + 1 := by
      unfold Problem.propagate pushTail
      simp only [if_neg hsub]
      split
      · exact Nat.le_succ _
      · rw [List.length_append, List.length_singleton]
    have hless : (U \ (P.propagate b s p).stop p).card < (U \ s.stop p).card := by
      obtain ⟨v, hv, hnew⟩ := Finset.not_subset.mp hsub
      apply Finset.card_lt_card
      rw [Finset.ssubset_iff_of_subset
        (Finset.sdiff_subset_sdiff (Finset.Subset.refl _) (P.subset_propagate b s p p))]
      use v, Finset.mem_sdiff.mpr ⟨hU hv, hnew⟩
      intro hmem
      exact (Finset.mem_sdiff.mp hmem).2 (P.across_subset_propagate b s p hv)
    have hsum := Finset.sum_lt_sum hmono ⟨p, hp, hless⟩
    omega

theorem potential_foldl_propagate {blocks : Finset B} {U : Finset V} {b : B} {l : List B}
  (hl : ∀ p ∈ l, p ∈ blocks) {s : State B V} (hU : ∀ p ∈ l, P.across p b (s.start b) ⊆ U) :
  potential blocks U (l.foldl (P.propagate b) s) ≤ potential blocks U s
  := by
  induction l generalizing s with
  | nil => exact Nat.le_refl _
  | cons p l ih =>
      have hfirst := potential_propagate (hl p List.mem_cons_self) (hU p List.mem_cons_self)
      have hrest : potential blocks U (l.foldl (P.propagate b) (P.propagate b s p))
          ≤ potential blocks U (P.propagate b s p) := by
        apply ih
        · intro q hq
          exact hl q (List.mem_cons_of_mem _ hq)
        · intro q hq
          exact hU q (List.mem_cons_of_mem _ hq)
      exact hrest.trans hfirst

/-- All facts are in the universe, and all predecessors are among the vertices. -/
structure Finite (P : Problem B V) (blocks : Finset B) (U : Finset V) : Prop where
  closed : P.Closed (fun _ => ↑U) (fun _ => ↑U)
  preds : ∀ b ∈ blocks, ∀ p ∈ P.preds b, p ∈ blocks

/-- Every step on a worklist that is not empty takes one from the potential. -/
theorem potential_step {blocks : Finset B} {U : Finset V} (hfin : Finite P blocks U)
  {s : State B V} (hin : Within (fun _ => (U : Set V)) (fun _ => (U : Set V)) s)
  (hblocks : ∀ b ∈ s.worklist, b ∈ blocks) (hne : s.worklist ≠ []) :
  potential blocks U (P.step s) < potential blocks U s
  := by
  unfold Problem.step
  split
  next hw => exact absurd hw hne
  next b rest hw =>
    have hb : b ∈ blocks := by
      apply hblocks
      rw [hw]
      exact List.mem_cons_self
    have hstart : ∀ v ∈ P.transfer b (s.stop b), v ∈ U :=
      hfin.closed.transfer b _ (hin.stop b)
    have hpop : potential blocks U (P.visit s b rest) + 1 = potential blocks U s := by
      unfold potential visit
      simp only [hw, List.length_cons]
      omega
    have hfold : potential blocks U ((P.preds b).foldl (P.propagate b) (P.visit s b rest))
        ≤ potential blocks U (P.visit s b rest) := by
      apply potential_foldl_propagate
      · exact hfin.preds b hb
      · intro p hp v hv
        rw [visit_start_self] at hv
        exact hfin.closed.across b _ hstart p hp v hv
    omega

/-- The worklist holds vertices only. -/
theorem worklist_step {blocks : Finset B} {U : Finset V} (hfin : Finite P blocks U)
  {s : State B V} (hblocks : ∀ b ∈ s.worklist, b ∈ blocks) :
  ∀ b ∈ (P.step s).worklist, b ∈ blocks
  := by
  have hfold : ∀ (b : B) (l : List B) (s : State B V), (∀ p ∈ l, p ∈ blocks) →
      (∀ c ∈ s.worklist, c ∈ blocks) →
      ∀ c ∈ (l.foldl (P.propagate b) s).worklist, c ∈ blocks := by
    intro b l
    induction l with
    | nil =>
        intro s _ hs
        exact hs
    | cons p l ih =>
        intro s hl hs
        apply ih
        · intro q hq
          exact hl q (List.mem_cons_of_mem _ hq)
        · intro c hc
          unfold Problem.propagate at hc
          simp only at hc
          split at hc
          · exact hs c hc
          · rcases mem_pushTail.mp hc with hc | rfl
            · exact hs c hc
            · exact hl c List.mem_cons_self
  unfold Problem.step
  split
  · exact hblocks
  next b rest hw =>
    rw [hw] at hblocks
    apply hfold
    · exact hfin.preds b (hblocks b List.mem_cons_self)
    · intro c hc
      exact hblocks c (List.mem_cons_of_mem _ hc)

/-- With an empty worklist nothing happens any more. -/
theorem iterate_of_nil {s : State B V} (h : s.worklist = []) (n : ℕ) :
  P.step^[n] s = s
  := by
  apply Function.iterate_fixed
  unfold Problem.step
  rw [h]

/-- As many steps as the potential says empty the worklist. -/
theorem worklist_iterate {blocks : Finset B} {U : Finset V} (hfin : Finite P blocks U) {n : ℕ}
  {s : State B V} (hin : Within (fun _ => (U : Set V)) (fun _ => (U : Set V)) s)
  (hblocks : ∀ b ∈ s.worklist, b ∈ blocks) (hn : potential blocks U s ≤ n) :
  (P.step^[n] s).worklist = []
  := by
  induction n generalizing s with
  | zero =>
      unfold potential at hn
      rw [Function.iterate_zero, id, ← List.length_eq_zero_iff]
      omega
  | succ n ih =>
      by_cases hnil : s.worklist = []
      · rw [iterate_of_nil hnil]
        exact hnil
      · have hless := potential_step hfin hin hblocks hnil
        rw [Function.iterate_succ_apply]
        apply ih
        · exact hin.step hfin.closed
        · exact worklist_step hfin hblocks
        · omega

end Problem

end Flow.Worklist
