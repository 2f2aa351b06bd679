import Mathlib.Order.WithBot
import Mathlib.Order.MinMax

/-!
# Values seen through a window

In a tree of minima and maxima the operands around a node clamp its value: above an upper bound, and
below a lower one, the result no longer depends on it.  Two values that differ only there agree.  A
bound that is only reached, not passed, is kept apart: a bound that two operands take from each
other does not survive when both of them give it up.

A lower bound is an upper bound of the dual order, and so is every statement about maxima one about
minima.
-/

namespace Window

open OrderDual

variable {α : Type*} [LinearOrder α]

/-- Both values pass a bound, or reach it where that is allowed. -/
def Past (bound : WithTop α) (reach : Prop) (x y : α) : Prop :=
  (bound < x ∧ bound < y) ∨ (reach ∧ bound ≤ x ∧ bound ≤ y)

/-- The values are the same as far as the window shows. -/
def Agree (low : WithTop αᵒᵈ) (high : WithTop α) (reachLow reachHigh : Prop) (x y : α) : Prop :=
  x = y ∨ Past high reachHigh x y ∨ Past low reachLow (toDual x) (toDual y)

variable {low : WithTop αᵒᵈ} {high : WithTop α} {p q p' q' : Prop} {x y x' y' : α}

theorem Past.imp (h : Past high p x y) (imp : p → q) :
  Past high q x y
  := by
  rcases h with pass | ⟨hp, reach⟩
  · exact .inl pass
  · exact .inr ⟨imp hp, reach⟩

theorem Agree.imp (h : Agree low high p q x y) (impLow : p → p') (impHigh : q → q') :
  Agree low high p' q' x y
  := by
  rcases h with rfl | above | below
  · exact .inl rfl
  · exact .inr (.inl (above.imp impHigh))
  · exact .inr (.inr (below.imp impLow))

theorem Agree.dual (h : Agree low high p q x y) :
  Agree (α := αᵒᵈ) high low q p (toDual x) (toDual y)
  := by
  rcases h with rfl | above | below
  · exact .inl rfl
  · exact .inr (.inr above)
  · exact .inr (.inl below)

theorem Agree.ofDual (h : Agree (α := αᵒᵈ) high low q p (toDual x) (toDual y)) :
  Agree low high p q x y
  := by
  rcases h with eq | below | above
  · exact .inl eq
  · exact .inr (.inr below)
  · exact .inr (.inl above)

/-! ### Operands that change -/

/-- A maximum passes a bound when an operand does. -/
theorem Past.max_left (h : Past high p x x') (y y' : α) :
  Past high p (max x y) (max x' y')
  := by
  have le : (x : WithTop α) ≤ (max x y : α) := WithTop.coe_le_coe.mpr (le_max_left x y)
  have le' : (x' : WithTop α) ≤ (max x' y' : α) := WithTop.coe_le_coe.mpr (le_max_left x' y')
  rcases h with ⟨lt, lt'⟩ | ⟨hp, reach, reach'⟩
  · exact .inl ⟨lt_of_lt_of_le lt le, lt_of_lt_of_le lt' le'⟩
  · exact .inr ⟨hp, le_trans reach le, le_trans reach' le'⟩

/-- One operand of a minimum changes beyond the other one, or beyond the bound. -/
theorem Past.min_right {bound : WithTop α} (le : x ≤ bound) (h : Past (min bound high) q y y') :
  Agree low high p q (min x y) (min x y')
  := by
  by_cases inside : (x : WithTop α) ≤ high
  · -- the operand that stays is the minimum
    have least : (x : WithTop α) ≤ min bound high := le_min le inside
    left
    rcases h with ⟨pass, pass'⟩ | ⟨-, reach, reach'⟩
    · rw [min_eq_left (WithTop.coe_le_coe.mp (le_trans least pass.le)),
        min_eq_left (WithTop.coe_le_coe.mp (le_trans least pass'.le))]
    · rw [min_eq_left (WithTop.coe_le_coe.mp (le_trans least reach)),
        min_eq_left (WithTop.coe_le_coe.mp (le_trans least reach'))]
  · have outside := not_le.mp inside
    have same : min bound high = high := min_eq_right (le_trans outside.le le)
    rw [same] at h
    right
    left
    rcases h with ⟨pass, pass'⟩ | ⟨hq, reach, reach'⟩
    · left
      rw [WithTop.coe_min, WithTop.coe_min]
      exact ⟨lt_min outside pass, lt_min outside pass'⟩
    · right
      rw [WithTop.coe_min, WithTop.coe_min]
      exact ⟨hq, le_min outside.le reach, le_min outside.le reach'⟩

/-- Both operands of a minimum change, and the first one passes its bound. -/
theorem Past.min_both {bound bound' : WithTop α} (le : x ≤ bound) (le' : y ≤ bound')
    (pass : min bound' high < x) (pass' : min bound' high < x')
    (h : Past (min bound high) q y y') :
  Past high q (min x y) (min x' y')
  := by
  have lt : min bound' high < bound := lt_of_lt_of_le pass le
  -- the bound of the second operand is the one of the window
  have narrow : min bound high = high ∨ y < min bound high := by
    rcases le_total bound high with inner | outer
    · right
      rw [min_eq_left inner]
      rcases min_lt_iff.mp lt with below | beyond
      · exact lt_of_le_of_lt le' below
      · exact absurd beyond (not_lt.mpr inner)
    · exact .inl (min_eq_right outer)
  have reaches : min bound high ≤ y := by
    rcases h with ⟨beyond, -⟩ | ⟨-, reach, -⟩
    · exact beyond.le
    · exact reach
  have same : min bound high = high := narrow.resolve_right (not_lt.mpr reaches)
  rw [same] at h reaches
  have outer : high ≤ bound' := le_trans reaches le'
  rw [min_eq_right outer] at pass pass'
  simp only [Past, WithTop.coe_min, lt_min_iff, le_min_iff]
  rcases h with ⟨beyond, beyond'⟩ | ⟨hq, reach, reach'⟩
  · exact .inl ⟨⟨pass, beyond⟩, ⟨pass', beyond'⟩⟩
  · exact .inr ⟨hq, ⟨pass.le, reach⟩, ⟨pass'.le, reach'⟩⟩

/-- The operands of a minimum are seen through windows that each of them narrows for the other one;
they must not both give up a bound that they only reach. -/
theorem Agree.minimum {bound bound' : WithTop α} {p₀ q₀ p₁ q₁ : Prop} (le : x ≤ bound)
    (le' : y ≤ bound') (h : Agree low (min bound' high) p₀ q₀ x x')
    (h' : Agree low (min bound high) p₁ q₁ y y') (once : ¬ (q₀ ∧ q₁)) :
  Agree low high (p₀ ∨ p₁) (q₀ ∨ q₁) (min x y) (min x' y')
  := by
  rcases h with rfl | above | below
  · rcases h' with rfl | above' | below'
    · exact .inl rfl
    · apply Agree.imp (above'.min_right le) (fun hp => hp) .inr
    · right
      right
      rw [min_comm x y, min_comm x y']
      apply Past.imp (below'.max_left _ _) .inr
  · rcases h' with rfl | above' | below'
    · rw [min_comm x y, min_comm x' y]
      apply Agree.imp (above.min_right le') (fun hp => hp) .inl
    · right
      left
      rcases above with ⟨pass, pass'⟩ | ⟨reach, low, low'⟩
      · apply Past.imp (above'.min_both le le' pass pass') .inr
      · rcases above' with ⟨pass, pass'⟩ | ⟨reach', -⟩
        · rw [min_comm x y, min_comm x' y']
          apply Past.imp (Past.min_both le' le pass pass' (.inr ⟨reach, low, low'⟩)) .inl
        · exact absurd ⟨reach, reach'⟩ once
    · right
      right
      rw [min_comm x y, min_comm x' y']
      apply Past.imp (below'.max_left _ _) .inr
  · right
    right
    apply Past.imp (below.max_left _ _) .inl

/-- The operands of a maximum. -/
theorem Agree.maximum {bound bound' : WithTop αᵒᵈ} {p₀ q₀ p₁ q₁ : Prop} (le : toDual x ≤ bound)
    (le' : toDual y ≤ bound') (h : Agree (min bound' low) high p₀ q₀ x x')
    (h' : Agree (min bound low) high p₁ q₁ y y') (once : ¬ (p₀ ∧ p₁)) :
  Agree low high (p₀ ∨ p₁) (q₀ ∨ q₁) (max x y) (max x' y')
  := by
  apply Agree.ofDual
  apply Agree.minimum le le' h.dual h'.dual once

/-! ### Operands that are dropped -/

/-- An operand of a minimum is dropped that passes the bound. -/
theorem Agree.min_drop {r : Prop} (h : Agree low high p q y y')
    (past : high < x ∨ r ∧ high ≤ x) :
  Agree low high p (r ∨ q) (min x y) y'
  := by
  rcases le_or_gt y x with le | lt
  · rw [min_eq_right le]
    apply h.imp id .inr
  · rw [min_eq_left lt.le]
    have up : (x : WithTop α) ≤ y := WithTop.coe_le_coe.mpr lt.le
    have down : ((toDual y : αᵒᵈ) : WithTop αᵒᵈ) ≤ toDual x := WithTop.coe_le_coe.mpr lt.le
    rcases h with rfl | (⟨-, beyond'⟩ | ⟨hq, reach, reach'⟩) | below
    · right
      left
      rcases past with pass | ⟨hr, reach⟩
      · exact .inl ⟨pass, lt_of_lt_of_le pass up⟩
      · exact .inr ⟨.inl hr, reach, le_trans reach up⟩
    · right
      left
      rcases past with pass | ⟨hr, reach⟩
      · exact .inl ⟨pass, beyond'⟩
      · exact .inr ⟨.inl hr, reach, beyond'.le⟩
    · right
      left
      right
      refine ⟨.inr hq, ?_, reach'⟩
      rcases past with pass | ⟨-, reach⟩
      · exact pass.le
      · exact reach
    · right
      right
      rcases below with ⟨beyond, beyond'⟩ | ⟨hp, reach, reach'⟩
      · exact .inl ⟨lt_of_lt_of_le beyond down, beyond'⟩
      · exact .inr ⟨hp, le_trans reach down, reach'⟩

/-- An operand of a maximum is dropped that passes the bound. -/
theorem Agree.max_drop {r : Prop} (h : Agree low high p q y y')
    (past : low < toDual x ∨ r ∧ low ≤ toDual x) :
  Agree low high (r ∨ p) q (max x y) y'
  := by
  apply Agree.ofDual
  apply Agree.min_drop h.dual past

end Window
