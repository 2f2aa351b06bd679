import Mathlib.Data.List.Basic

/-!
# Dominance

A directed graph with an entry: a vertex dominates another one if it lies on every path from the
entry to it.  Positions in the graph are pairs of a vertex and an index into the vertex.
-/

namespace Flow

variable {B : Type*}

/-- A walk from the entry to a vertex, and the vertices on it, the last one first. -/
inductive Path (edge : B → B → Prop) (entry : B) : B → List B → Prop where
  | entry : Path edge entry entry [entry]
  | step {b c : B} {l : List B} : Path edge entry b l → edge b c → Path edge entry c (c :: l)

/-- The vertex `a` is on every path to `b`. -/
def Dom (edge : B → B → Prop) (entry a b : B) : Prop :=
  ∀ l, Path edge entry b l → a ∈ l

section Dominance

variable {edge : B → B → Prop} {entry : B}

/-- A path contains its end. -/
theorem Path.mem {b : B} {l : List B} (h : Path edge entry b l) :
  b ∈ l
  := by
  cases h with
  | entry => exact List.mem_cons_self
  | step _ _ => exact List.mem_cons_self

/-- A vertex on a path is the end of a path that is shorter, or it is the end itself. -/
theorem Path.exists_shorter {a b : B} {l : List B} (h : Path edge entry b l) (ha : a ∈ l)
  (hne : a ≠ b) :
  ∃ l', Path edge entry a l' ∧ l'.length < l.length
  := by
  induction h with
  | entry =>
      rw [List.mem_singleton] at ha
      exact absurd ha hne
  | @step b c l hpath hedge ih =>
      rcases List.mem_cons.mp ha with rfl | hmem
      · exact absurd rfl hne
      · by_cases hab : a = b
        · subst hab
          exact ⟨l, hpath, Nat.lt_succ_self _⟩
        · obtain ⟨l', hl', hlt⟩ := ih hmem hab
          exact ⟨l', hl', Nat.lt_succ_of_lt hlt⟩

theorem Dom.refl (b : B) :
  Dom edge entry b b
  := by
  intro l h
  exact h.mem

/-- A vertex other than `c` that dominates `c` dominates what comes before `c`. -/
theorem Dom.of_edge {a b c : B} (h : Dom edge entry a c) (hne : a ≠ c) (hedge : edge b c) :
  Dom edge entry a b
  := by
  intro l hl
  rcases List.mem_cons.mp (h (c :: l) (hl.step hedge)) with heq | hmem
  · exact absurd heq hne
  · exact hmem

/-- Vertices that can be reached and dominate each other are the same. -/
theorem Dom.antisymm {a b : B} {l : List B} (hl : Path edge entry a l)
  (hab : Dom edge entry a b) (hba : Dom edge entry b a) :
  a = b
  := by
  -- a path to `a` passes `b`, and the path to `b` before that passes `a`
  by_contra hne
  have hno : ∀ n (l : List B), l.length ≤ n → ¬Path edge entry a l := by
    intro n
    induction n with
    | zero =>
        intro l hlen hpath
        have hmem := hpath.mem
        rw [List.length_eq_zero_iff.mp (Nat.le_zero.mp hlen)] at hmem
        exact absurd hmem List.not_mem_nil
    | succ n ih =>
        intro l hlen hpath
        obtain ⟨l', hl', hlt'⟩ := hpath.exists_shorter (hba l hpath) (Ne.symm hne)
        obtain ⟨l'', hl'', hlt''⟩ := hl'.exists_shorter (hab l' hl') hne
        apply ih l'' _ hl''
        omega
  exact hno l.length l (Nat.le_refl _) hl

/-- A vertex on a path is the end of a path with no other vertices. -/
theorem Path.exists_subset {a b : B} {l : List B} (h : Path edge entry b l) (ha : a ∈ l) :
  ∃ l', Path edge entry a l' ∧ l' ⊆ l
  := by
  induction h with
  | entry =>
      rw [List.mem_singleton] at ha
      subst ha
      exact ⟨[a], Path.entry, List.Subset.refl _⟩
  | @step b c l hpath hedge ih =>
      rcases List.mem_cons.mp ha with rfl | hmem
      · exact ⟨a :: l, hpath.step hedge, List.Subset.refl _⟩
      · obtain ⟨l', hl', hsub⟩ := ih hmem
        exact ⟨l', hl', List.subset_cons_of_subset c hsub⟩

theorem Dom.trans {a b c : B} (hab : Dom edge entry a b) (hbc : Dom edge entry b c) :
  Dom edge entry a c
  := by
  intro l hl
  obtain ⟨l', hl', hsub⟩ := hl.exists_subset (hbc l hl)
  exact hsub (hab l' hl')

/-- Lists that grow by one vertex along an edge hold the vertices that dominate, if there are paths
with no other vertices. -/
theorem dom_iff_mem {doms : B → List B} {a c : B} {l : List B}
  (hentry : ∀ d ∈ doms entry, d = entry)
  (hedge : ∀ b c, edge b c → ∀ d ∈ doms c, d = c ∨ d ∈ doms b)
  (hpath : Path edge entry c l) (hl : ∀ d ∈ l, d ∈ doms c) :
  Dom edge entry a c ↔ a ∈ doms c
  := by
  constructor
  · intro h
    exact hl a (h l hpath)
  · intro h l' hl'
    clear hpath hl
    induction hl' with
    | entry => exact List.mem_singleton.mpr (hentry a h)
    | step hpath hbc ih =>
        rcases hedge _ _ hbc a h with rfl | hmem
        · exact List.mem_cons_self
        · exact List.mem_cons_of_mem _ (ih hmem)

/-- The position `(a, k)` comes before the position `(b, m)` on every path. -/
def Before (edge : B → B → Prop) (entry : B) (p q : B × ℕ) : Prop :=
  (p.1 ≠ q.1 ∧ Dom edge entry p.1 q.1) ∨ (p.1 = q.1 ∧ p.2 < q.2)

/-- Two positions that can be reached do not both come before each other. -/
theorem Before.asymm {p q : B × ℕ} {l : List B} (hl : Path edge entry q.1 l)
  (hpq : Before edge entry p q) :
  ¬Before edge entry q p
  := by
  intro hqp
  rcases hpq with ⟨hne, hdom⟩ | ⟨heq, hlt⟩
  · rcases hqp with ⟨-, hdom'⟩ | ⟨heq', -⟩
    · exact hne (Dom.antisymm hl hdom' hdom).symm
    · exact hne heq'.symm
  · rcases hqp with ⟨hne', -⟩ | ⟨-, hlt'⟩
    · exact hne' heq.symm
    · exact absurd hlt' (Nat.lt_asymm hlt)

theorem Before.irrefl {p : B × ℕ} :
  ¬Before edge entry p p
  := by
  rintro (⟨hne, -⟩ | ⟨-, hlt⟩)
  · exact hne rfl
  · exact Nat.lt_irrefl _ hlt

/-- What comes before a position that can be reached comes before all that this one does. -/
theorem Before.trans {p q r : B × ℕ} {l : List B} (hl : Path edge entry q.1 l)
  (hpq : Before edge entry p q) (hqr : Before edge entry q r) :
  Before edge entry p r
  := by
  rcases hpq with ⟨hne, hdom⟩ | ⟨heq, hlt⟩
  · rcases hqr with ⟨hne', hdom'⟩ | ⟨heq', -⟩
    · left
      refine ⟨?_, hdom.trans hdom'⟩
      intro heq
      rw [← heq] at hdom'
      exact hne (Dom.antisymm hl hdom' hdom).symm
    · left
      rw [← heq']
      exact ⟨hne, hdom⟩
  · rcases hqr with ⟨hne', hdom'⟩ | ⟨heq', hlt'⟩
    · left
      rw [heq]
      exact ⟨hne', hdom'⟩
    · right
      exact ⟨heq.trans heq', Nat.lt_trans hlt hlt'⟩

/-- What comes before the start of `c` comes before the end of every vertex with an edge to `c`. -/
theorem Before.of_edge {p : B × ℕ} {b c : B} {n : ℕ} (h : Before edge entry p (c, 0))
  (hedge : edge b c) (hn : p.1 = b → p.2 < n) :
  Before edge entry p (b, n)
  := by
  rcases h with ⟨hne, hdom⟩ | ⟨-, hlt⟩
  · by_cases heq : p.1 = b
    · right
      exact ⟨heq, hn heq⟩
    · left
      exact ⟨heq, hdom.of_edge hne hedge⟩
  · exact absurd hlt (Nat.not_lt_zero _)

/-- The position `p` comes before the next position of the same vertex just if it comes before this
one or is this one. -/
theorem before_succ_iff {p : B × ℕ} {b : B} {m : ℕ} :
  Before edge entry p (b, m + 1) ↔ Before edge entry p (b, m) ∨ p = (b, m)
  := by
  constructor
  · rintro (⟨hne, hdom⟩ | ⟨heq, hlt⟩)
    · left
      left
      exact ⟨hne, hdom⟩
    · rcases Nat.lt_succ_iff_lt_or_eq.mp hlt with hlt | hidx
      · left
        right
        exact ⟨heq, hlt⟩
      · right
        exact Prod.ext heq hidx
  · rintro ((⟨hne, hdom⟩ | ⟨heq, hlt⟩) | rfl)
    · left
      exact ⟨hne, hdom⟩
    · right
      exact ⟨heq, Nat.lt_succ_of_lt hlt⟩
    · right
      exact ⟨rfl, Nat.lt_succ_self _⟩

end Dominance

end Flow
