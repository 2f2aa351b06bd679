import Mathlib.Algebra.BigOperators.Group.List.Basic
import Mathlib.Algebra.Order.Group.Int
import Mathlib.Data.List.Pairwise
import Mathlib.Algebra.GroupWithZero.Nat

/-!
# Ranges of addresses

A range is what lies from a first address on and before another one.  A pool hands out ranges of its
memory; what matters about them is that they do not overlap and that they lie in the pool.
-/

/-- The addresses from `start` on and before `finish`. -/
structure Range (α : Type) where
  start : α
  finish : α

namespace Range

variable {α : Type} [LinearOrder α]

/-- One range ends before the other one begins. -/
def Apart (r t : Range α) : Prop := r.finish ≤ t.start ∨ t.finish ≤ r.start

instance (r t : Range α) : Decidable (r.Apart t) := instDecidableOr

/-- All of a range is in another one. -/
def Within (r t : Range α) : Prop := t.start ≤ r.start ∧ r.finish ≤ t.finish

instance (r t : Range α) : Decidable (r.Within t) := instDecidableAnd

theorem Apart.symm {r t : Range α} (apart : r.Apart t) :
  t.Apart r
  := Or.symm apart

theorem Within.trans {r t u : Range α} (inner : r.Within t) (outer : t.Within u) :
  r.Within u
  := ⟨outer.1.trans inner.1, inner.2.trans outer.2⟩

/-- Parts of ranges that do not overlap do not overlap. -/
theorem Apart.mono {r r' t t' : Range α} (apart : r.Apart t) (left : r'.Within r)
    (right : t'.Within t) :
  r'.Apart t'
  := by
  rcases apart with before | after
  · exact .inl (left.2.trans (before.trans right.1))
  · exact .inr (right.2.trans (after.trans left.1))

/-- Whether ranges overlap does not depend on the order in which they are listed. -/
theorem apart_of_pairwise {ι : Type} {range : ι → Range α} {l : List ι}
    (pairwise : l.Pairwise fun i j => (range i).Apart (range j)) {i j : ι} (hi : i ∈ l) (hj : j ∈ l)
    (ne : i ≠ j) :
  (range i).Apart (range j)
  := by
  have : Std.Symm fun i j => (range i).Apart (range j) := ⟨fun _ _ apart => apart.symm⟩
  exact pairwise.forall hi hj ne

/-! ### Counting -/

/-- Whether an address is in a range, as a number. -/
def covers (r : Range α) (z : α) : ℕ := if r.start ≤ z ∧ z < r.finish then 1 else 0

/-- How many of the ranges of a list an address is in. -/
def total (l : List (Range α)) (z : α) : ℕ := (l.map fun r => r.covers z).sum

theorem total_nil (z : α) :
  total [] z = 0
  := rfl

theorem total_cons (r : Range α) (l : List (Range α)) (z : α) :
  total (r :: l) z = r.covers z + total l z
  := List.sum_cons

theorem total_append (l l' : List (Range α)) (z : α) :
  total (l ++ l') z = total l z + total l' z
  := by
  rw [total, List.map_append, List.sum_append]
  rfl

theorem total_perm {l l' : List (Range α)} (perm : l.Perm l') (z : α) :
  total l z = total l' z
  := (perm.map _).sum_eq

theorem covers_le_total {r : Range α} {l : List (Range α)} (mem : r ∈ l) (z : α) :
  r.covers z ≤ total l z
  := by
  induction l with
  | nil => cases mem
  | cons t l ih =>
    rw [total_cons]
    rcases List.mem_cons.1 mem with rfl | mem
    · exact Nat.le_add_right _ _
    · exact (ih mem).trans (Nat.le_add_left _ _)

theorem covers_eq_zero {r : Range α} {z : α} (out : z < r.start ∨ r.finish ≤ z) :
  r.covers z = 0
  := by
  apply if_neg
  rintro ⟨above, below⟩
  rcases out with out | out
  · exact absurd out (not_lt_of_ge above)
  · exact absurd below (not_lt_of_ge out)

theorem covers_eq_one {r : Range α} {z : α} (above : r.start ≤ z) (below : z < r.finish) :
  r.covers z = 1
  := if_pos ⟨above, below⟩

/-- A range that is cut in two. -/
theorem covers_cut {a b c : α} (ab : a ≤ b) (bc : b ≤ c) (z : α) :
  (⟨a, c⟩ : Range α).covers z = (⟨a, b⟩ : Range α).covers z + (⟨b, c⟩ : Range α).covers z
  := by
  unfold covers
  dsimp only
  rcases lt_or_ge z b with below | above
  · rw [if_neg fun h : b ≤ z ∧ z < c => absurd h.1 (not_le_of_gt below), Nat.add_zero]
    simp only [below, below.trans_le bc]
  · rw [if_neg fun h : a ≤ z ∧ z < b => absurd h.2 (not_lt_of_ge above), Nat.zero_add]
    simp only [above, ab.trans above]

/-- Ranges with no address in common do not overlap. -/
theorem apart_of_covers {r t : Range α} (hr : r.start < r.finish) (ht : t.start < t.finish)
    (once : ∀ z, r.covers z + t.covers z ≤ 1) :
  r.Apart t
  := by
  by_contra overlap
  obtain ⟨left, right⟩ := not_or.1 overlap
  have here := once (max r.start t.start)
  rw [covers_eq_one (le_max_left _ _) (max_lt hr (lt_of_not_ge left)),
    covers_eq_one (le_max_right _ _) (max_lt (lt_of_not_ge right) ht)] at here
  exact absurd here (by decide)

/-- If no address is in two ranges of a list, the ranges do not overlap. -/
theorem pairwise_apart_of_total {l : List (Range α)} (nonempty : ∀ r ∈ l, r.start < r.finish)
    (once : ∀ z, total l z ≤ 1) :
  l.Pairwise Apart
  := by
  induction l with
  | nil => exact .nil
  | cons r l ih =>
    simp only [total_cons] at once
    apply List.Pairwise.cons
    · intro t mem
      apply apart_of_covers (nonempty r List.mem_cons_self)
        (nonempty t (List.mem_cons_of_mem r mem))
      intro z
      exact (Nat.add_le_add_left (covers_le_total mem z) _).trans (once z)
    · apply ih fun t mem => nonempty t (List.mem_cons_of_mem r mem)
      intro z
      exact (Nat.le_add_left _ _).trans (once z)

/-- No address is in two ranges that do not overlap. -/
theorem total_le_one {l : List (Range α)} (apart : l.Pairwise Apart) (z : α) :
  total l z ≤ 1
  := by
  induction l with
  | nil => exact Nat.zero_le 1
  | cons r l ih =>
    obtain ⟨first, rest⟩ := List.pairwise_cons.1 apart
    have le := ih rest
    rw [total_cons, covers]
    split
    case isFalse => rwa [Nat.zero_add]
    case isTrue inside =>
      -- the address is in the first range, so it is in none of the others
      have none : total l z = 0 := by
        clear le ih apart rest
        induction l with
        | nil => rfl
        | cons t l ih =>
          rw [total_cons, ih fun u mem => first u (List.mem_cons_of_mem t mem), Nat.add_zero]
          apply covers_eq_zero
          rcases first t List.mem_cons_self with before | after
          · exact .inl (inside.2.trans_le before)
          · exact .inr (after.trans inside.1)
      rw [none]

/-- A range all of whose addresses are in another one. -/
theorem within_of_covers {r t : Range ℤ} (nonempty : r.start < r.finish)
    (sub : ∀ z, r.covers z ≤ t.covers z) :
  r.Within t
  := by
  have inside : ∀ z, r.start ≤ z → z < r.finish → t.start ≤ z ∧ z < t.finish := by
    intro z above below
    have here := sub z
    rw [covers_eq_one above below, covers] at here
    by_contra out
    rw [if_neg out] at here
    exact absurd here (by decide)
  constructor
  · exact (inside r.start le_rfl nonempty).1
  · have last := inside (r.finish - 1) (by omega) (by omega)
    omega

end Range
