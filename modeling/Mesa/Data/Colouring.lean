import Mathlib.Algebra.Order.BigOperators.Group.List
import Mathlib.Data.Finset.Card
import Mathlib.Tactic.Linarith

/-!
# Greedy colouring

A node is given a colour after some of its neighbours, each of which blocks some of the colours that
it may have.  There is a colour for it if they block fewer in total than there are.
-/

namespace Colouring

variable {Node Colour : Type} [DecidableEq Colour]

/-- A colour is left if the neighbours block fewer colours than there are. -/
theorem exists_free {colours : Finset Colour} {neighbours : List Node} {blocks : Node → Finset Colour}
    (h : (neighbours.map fun n => (colours ∩ blocks n).card).sum < colours.card) :
  ∃ r ∈ colours, ∀ n ∈ neighbours, r ∉ blocks n
  := by
  induction neighbours generalizing colours with
  | nil =>
    obtain ⟨r, hr⟩ := Finset.card_pos.1 h
    exact ⟨r, hr, fun n mem => absurd mem List.not_mem_nil⟩
  | cons n neighbours ih =>
    rw [List.map_cons, List.sum_cons] at h
    -- the colours that the first neighbour blocks are taken away
    have fewer : (neighbours.map fun m => (colours \ blocks n ∩ blocks m).card).sum
        ≤ (neighbours.map fun m => (colours ∩ blocks m).card).sum := by
      apply List.sum_le_sum
      intro m _
      apply Finset.card_le_card
      exact Finset.inter_subset_inter_right Finset.sdiff_subset
    have split := Finset.card_sdiff_add_card_inter colours (blocks n)
    obtain ⟨r, hr, free⟩ := @ih (colours \ blocks n) (by omega)
    obtain ⟨inside, notBlocked⟩ := Finset.mem_sdiff.1 hr
    refine ⟨r, inside, ?_⟩
    intro m mem
    rcases List.mem_cons.1 mem with rfl | later
    · exact notBlocked
    · exact free m later

/-- The weights of a list change where one of its nodes changes. -/
theorem sum_map_update [DecidableEq Node] {l : List Node} (nodup : l.Nodup) (f : Node → ℕ)
    (n : Node) :
  (l.map (Function.update f n 0)).sum + (if n ∈ l then f n else 0) = (l.map f).sum
  := by
  induction l with
  | nil => rfl
  | cons m l ih =>
    obtain ⟨fresh, nodup'⟩ := List.nodup_cons.1 nodup
    have rest := ih nodup'
    rw [List.map_cons, List.sum_cons, List.map_cons, List.sum_cons]
    rcases eq_or_ne m n with rfl | other
    · rw [if_neg fresh] at rest
      rw [Function.update_self, if_pos List.mem_cons_self]
      omega
    · rw [Function.update_of_ne other]
      have same : (n ∈ m :: l) = (n ∈ l) := by
        apply propext
        rw [List.mem_cons, or_iff_right other.symm]
      simp only [same]
      omega

end Colouring
