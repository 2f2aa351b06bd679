import Mathlib.Order.Nat
import Mesa.Flow.DominatorTree

/-!
# Placement of phis

Where the paths from different definitions of a variable meet: the iterated dominance frontier of
the vertices with definitions.  A vertex that is not in it sees the definition that its immediate
dominator sees, as there is none between them.
-/

namespace Flow

variable {B : Type*} {edge : B → B → Prop} {entry : B}

/-- The vertex `x` is in the dominance frontier of `b`: it has a predecessor that `b` dominates, but
`b` does not strictly dominate it. -/
def InFrontier (edge : B → B → Prop) (entry b x : B) : Prop :=
  (∃ p, edge p x ∧ Reachable edge entry p ∧ Dom edge entry b p) ∧ ¬(Dom edge entry b x ∧ b ≠ x)

/-- The iterated dominance frontier of the vertices `D`. -/
inductive IteratedFrontier (edge : B → B → Prop) (entry : B) (D : B → Prop) : B → Prop where
  | of_def {b x : B} : D b → InFrontier edge entry b x → IteratedFrontier edge entry D x
  | of_phi {b x : B} : IteratedFrontier edge entry D b → InFrontier edge entry b x →
      IteratedFrontier edge entry D x

theorem InFrontier.reachable {b x : B} (h : InFrontier edge entry b x) :
  Reachable edge entry x
  := by
  obtain ⟨⟨p, hedge, hp, -⟩, -⟩ := h
  exact hp.step hedge

theorem IteratedFrontier.exists_pred {D : B → Prop} {x : B}
    (h : IteratedFrontier edge entry D x) :
  ∃ p, edge p x ∧ Reachable edge entry p
  := by
  cases h with
  | of_def _ hfront =>
      obtain ⟨⟨p, hedge, hp, -⟩, -⟩ := hfront
      exact ⟨p, hedge, hp⟩
  | of_phi _ hfront =>
      obtain ⟨⟨p, hedge, hp, -⟩, -⟩ := hfront
      exact ⟨p, hedge, hp⟩

/-- On a path from `y` to `z` either `y` still strictly dominates `z`, or the path leaves what `y`
dominates through its dominance frontier. -/
theorem dom_or_exists_inFrontier {y z : B} {s k l : List B} (h : Path edge entry z (z :: l))
    (hl : l = s ++ y :: k) :
  (Dom edge entry y z ∧ y ≠ z) ∨ ∃ w ∈ z :: s, InFrontier edge entry y w
  := by
  induction s generalizing z l with
  | nil =>
      subst hl
      cases h with
      | step hpath hedge =>
          obtain ⟨m, hm⟩ := hpath.exists_cons
          obtain rfl := (List.cons_eq_cons.mp hm).1
          by_cases hdom : Dom edge entry y z ∧ y ≠ z
          · exact Or.inl hdom
          · right
            exact ⟨z, List.mem_cons_self, ⟨y, hedge, ⟨_, hpath⟩, Dom.refl y⟩, hdom⟩
  | cons z' s ih =>
      subst hl
      cases h with
      | step hpath hedge =>
          obtain ⟨m, hm⟩ := hpath.exists_cons
          obtain rfl := (List.cons_eq_cons.mp hm).1
          rcases ih hpath rfl with hdom' | ⟨w, hw, hfront⟩
          · by_cases hdom : Dom edge entry y z ∧ y ≠ z
            · exact Or.inl hdom
            · right
              exact ⟨z, List.mem_cons_self, ⟨z', hedge, ⟨_, hpath⟩, hdom'.1⟩, hdom⟩
          · right
            exact ⟨w, List.mem_cons_of_mem _ hw, hfront⟩

/-- A vertex on a path after the last visit of the immediate dominator of its end does not strictly
dominate the end. -/
theorem ImmDom.not_dom_of_mem {b c y : B} {s m : List B} (himm : ImmDom edge entry c b)
    (h : Path edge entry b (b :: (s ++ c :: m))) (hc : c ∉ s) (hy : y ∈ s) :
  ¬(Dom edge entry y b ∧ y ≠ b)
  := by
  rintro ⟨hdom, hne⟩
  have hyc : Dom edge entry y c := himm.2.2 y hdom hne
  obtain ⟨s₁, s₂, rfl⟩ := List.append_of_mem hy
  obtain ⟨hc₁, hc₂⟩ : c ∉ s₁ ∧ c ≠ y := by
    simp only [List.mem_append, List.mem_cons, not_or] at hc
    exact ⟨hc.1, hc.2.1⟩
  have hsplit : b :: (s₁ ++ y :: s₂ ++ c :: m) = (b :: s₁) ++ y :: (s₂ ++ c :: m) := by simp
  obtain ⟨l, hl⟩ := hyc.reachable (himm.2.1.reachable ⟨_, h⟩)
  have hpathy : Path edge entry y (y :: (s₂ ++ c :: m)) := h.of_append hsplit
  -- another way to `y` avoids `c`, and then goes on to `b`
  obtain ⟨q, hq, hcq⟩ : ∃ q, Path edge entry y q ∧ c ∉ q := by
    by_contra hno
    push Not at hno
    exact hc₂ (Dom.antisymm hpathy hyc hno).symm
  have hmem := himm.2.1 _ (h.replace hsplit hpathy hq)
  simp only [List.cons_append, List.mem_cons, List.mem_append] at hmem
  rcases hmem with hcb | hcs | hcq'
  · exact himm.1 hcb
  · exact hc₁ hcs
  · exact hcq hcq'

/-- On a path to a vertex without a phi there is no definition and no phi after the last visit of
the immediate dominator. -/
theorem ImmDom.not_mem_between {D : B → Prop} {b c : B} {s m : List B}
    (himm : ImmDom edge entry c b) (hb : ¬IteratedFrontier edge entry D b)
    (h : Path edge entry b (b :: (s ++ c :: m))) (hc : c ∉ s) {y : B} (hy : y ∈ s) :
  ¬D y ∧ ¬IteratedFrontier edge entry D y
  := by
  obtain ⟨s₁, s₂, hs⟩ := List.append_of_mem hy
  -- by induction on the number of vertices after `y`
  induction hn : s₁.length using Nat.strong_induction_on generalizing y s₁ s₂ with
  | _ n ih =>
      have hsplit : s ++ c :: m = s₁ ++ y :: (s₂ ++ c :: m) := by simp [hs]
      have hleave : (∃ w ∈ b :: s₁, InFrontier edge entry y w) :=
        (dom_or_exists_inFrontier h hsplit).resolve_left (himm.not_dom_of_mem h hc hy)
      obtain ⟨w, hw, hfront⟩ := hleave
      have hno : ¬IteratedFrontier edge entry D w := by
        rcases List.mem_cons.mp hw with rfl | hw
        · exact hb
        · obtain ⟨t₁, t₂, rfl⟩ := List.append_of_mem hw
          have hlt : t₁.length < n := by
            rw [← hn, List.length_append, List.length_cons]
            omega
          refine (ih t₁.length hlt ?_ t₁ (t₂ ++ y :: s₂) ?_ rfl).2
          · rw [hs]
            exact List.mem_append_left _ hw
          · rw [hs]
            simp
      constructor
      · intro hD
        exact hno (IteratedFrontier.of_def hD hfront)
      · intro hphi
        exact hno (IteratedFrontier.of_phi hphi hfront)

end Flow
