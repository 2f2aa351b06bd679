import Mesa.Data.Comparison
import Mathlib.Data.List.Nodup

/-!
# Ranks

The elements of a list that a comparison puts ahead of an element are counted.  Where no other
element is equal to it, the count is its place in every sorted arrangement; elements that are equal
can take each other's places.
-/

/-- A list is sorted by a comparison into another one. -/
structure Arranges {α : Type*} (f : α → α → ℤ) (l l' : List α) : Prop where
  perm : l'.Perm l
  sorted : l'.Pairwise fun a b => f a b ≤ 0

namespace IsComparison

variable {α : Type*} {f : α → α → ℤ}

/-- The number of elements ahead of `x`. -/
def rank (f : α → α → ℤ) (l : List α) (x : α) : ℕ := l.countP fun y => f y x < 0

theorem rank_congr {l l' : List α} (perm : l'.Perm l) (x : α) :
  rank f l' x = rank f l x
  := perm.countP_eq _

/-- What is behind an element in a sorted list is not ahead of it. -/
theorem rank_append_cons (comparison : IsComparison f) {s t : List α} {x : α}
    (sorted : (s ++ x :: t).Pairwise fun a b => f a b ≤ 0) :
  rank f (s ++ x :: t) x = rank f s x
  := by
  obtain ⟨-, behind, -⟩ := List.pairwise_append.mp sorted
  have later : ∀ y ∈ x :: t, ¬ f y x < 0 := by
    intro y mem
    rcases List.mem_cons.mp mem with rfl | mem
    · rw [comparison.refl]
      exact lt_irrefl 0
    · have := (comparison.swap x y).mp (List.rel_of_pairwise_cons behind mem)
      omega
  have none : (x :: t).countP (fun y => f y x < 0) = 0 := by
    rw [List.countP_eq_zero]
    simpa using later
  rw [rank, List.countP_append, none]
  rfl

/-- The place of an element in an arrangement is its rank or behind. -/
theorem rank_le (comparison : IsComparison f) {l l' : List α} (arranges : Arranges f l l') {i : ℕ}
    {x : α} (found : l'[i]? = some x) :
  rank f l x ≤ i
  := by
  obtain ⟨lt, rfl⟩ := List.getElem?_eq_some_iff.mp found
  have parts : l'.take i ++ l'[i] :: l'.drop (i + 1) = l' := by
    rw [← List.drop_eq_getElem_cons lt, List.take_append_drop]
  have sorted := arranges.sorted
  rw [← parts] at sorted
  have same := comparison.rank_append_cons sorted
  rw [parts, rank_congr arranges.perm] at same
  have short : rank f (l'.take i) l'[i] ≤ (l'.take i).length := List.countP_le_length
  rw [List.length_take] at short
  omega

/-- Where no other element is equal, the rank is the place. -/
theorem getElem?_rank (comparison : IsComparison f) {l l' : List α} (arranges : Arranges f l l')
    (nodup : l.Nodup) {x : α} (mem : x ∈ l) (only : ∀ y ∈ l, f y x = 0 → y = x) :
  l'[rank f l x]? = some x
  := by
  obtain ⟨s, t, parts⟩ := List.append_of_mem (arranges.perm.mem_iff.mpr mem)
  have sorted := arranges.sorted
  rw [parts] at sorted
  have ahead : ∀ y ∈ s, f y x < 0 := by
    intro y hy
    have le : f y x ≤ 0 := (List.pairwise_append.mp sorted).2.2 y hy x List.mem_cons_self
    have ne : f y x ≠ 0 := by
      intro equal
      have mem' : y ∈ l := by
        rw [← arranges.perm.mem_iff, parts]
        exact List.mem_append_left _ hy
      obtain rfl := only y mem' equal
      have nodup' := (arranges.perm.nodup_iff.mpr nodup)
      rw [parts] at nodup'
      exact (List.disjoint_of_nodup_append nodup') hy List.mem_cons_self
    omega
  have all : rank f s x = s.length := by
    rw [rank, List.countP_eq_length]
    simpa using ahead
  have place := comparison.rank_append_cons sorted
  rw [← parts, rank_congr arranges.perm, all] at place
  rw [place, parts]
  simp

/-! ### The first elements -/

/-- Different elements that are equal have `k` elements ahead of them. -/
def Untied (f : α → α → ℤ) (k : ℕ) (l : List α) : Prop :=
  ∀ x ∈ l, ∀ y ∈ l, f y x = 0 → y ≠ x → k ≤ rank f l x

section Untied

variable {l l' : List α} {k : ℕ}

theorem Untied.only (untied : Untied f k l) {x : α} (mem : x ∈ l) (first : rank f l x < k) :
  ∀ y ∈ l, f y x = 0 → y = x
  := by
  intro y mem' equal
  by_contra ne
  have := untied x mem y mem' equal ne
  omega

/-- The first elements are those of small rank. -/
theorem mem_take_iff (comparison : IsComparison f) (arranges : Arranges f l l') (nodup : l.Nodup)
    (untied : Untied f k l) {x : α} (mem : x ∈ l) :
  x ∈ l'.take k ↔ rank f l x < k
  := by
  constructor
  · intro taken
    obtain ⟨i, found⟩ := List.mem_iff_getElem?.mp taken
    rw [List.getElem?_take] at found
    split at found
    case isTrue lt => exact lt_of_le_of_lt (comparison.rank_le arranges found) lt
    case isFalse => cases found
  · intro first
    have found := comparison.getElem?_rank arranges nodup mem (untied.only mem first)
    exact List.mem_iff_getElem?.mpr ⟨_, by rw [List.getElem?_take, if_pos first, found]⟩

/-- The first elements are the same in all arrangements. -/
theorem take_eq (comparison : IsComparison f) {l'' : List α} (arranges : Arranges f l l')
    (arranges' : Arranges f l l'') (nodup : l.Nodup) (untied : Untied f k l) :
  l'.take k = l''.take k
  := by
  apply List.ext_getElem?
  intro i
  rw [List.getElem?_take, List.getElem?_take]
  split
  case isFalse => rfl
  case isTrue lt =>
    cases found : l'[i]? with
    | none =>
      have le := List.getElem?_eq_none_iff.mp found
      rw [arranges.perm.length_eq, ← arranges'.perm.length_eq] at le
      exact (List.getElem?_eq_none_iff.mpr le).symm
    | some x =>
      have mem : x ∈ l := arranges.perm.mem_iff.mp (List.mem_of_getElem? found)
      have low := comparison.rank_le arranges found
      have only := untied.only mem (lt_of_le_of_lt low lt)
      -- both arrangements have it at its rank
      have place := comparison.getElem?_rank arranges nodup mem only
      obtain ⟨lt_length, -⟩ := List.getElem?_eq_some_iff.mp found
      have nodup' := arranges.perm.nodup_iff.mpr nodup
      have same : i = rank f l x :=
        (List.getElem?_inj lt_length nodup').mp (found.trans place.symm)
      rw [same]
      exact (comparison.getElem?_rank arranges' nodup mem only).symm

end Untied

/-! ### Sorting -/

theorem exists_arranges (comparison : IsComparison f) (l : List α) :
  ∃ l', Arranges f l l'
  := by
  refine ⟨l.mergeSort fun a b => decide (f a b ≤ 0), List.mergeSort_perm _ _, ?_⟩
  have sorted : (l.mergeSort fun a b => decide (f a b ≤ 0)).Pairwise
      fun a b => decide (f a b ≤ 0) = true := by
    apply List.pairwise_mergeSort
    · intro a b c hab hbc
      exact decide_eq_true (comparison.trans a b c (of_decide_eq_true hab) (of_decide_eq_true hbc))
    · intro a b
      rw [Bool.or_eq_true, decide_eq_true_iff, decide_eq_true_iff]
      exact comparison.total a b
  exact sorted.imp of_decide_eq_true

/-- Every element can be at its rank. -/
theorem exists_arranges_at (comparison : IsComparison f) {l : List α} {x : α} (mem : x ∈ l) :
  ∃ l', Arranges f l l' ∧ l'[rank f l x]? = some x
  := by
  classical
  let ahead : α → Bool := fun y => f y x < 0
  obtain ⟨left, left_arranges⟩ := comparison.exists_arranges ((l.erase x).filter ahead)
  obtain ⟨right, right_arranges⟩ :=
    comparison.exists_arranges ((l.erase x).filter fun y => !ahead y)
  have perm : (left ++ [x] ++ right).Perm l := by
    have whole := List.filter_append_perm ahead (l.erase x)
    have others : (left ++ right).Perm (l.erase x) :=
      (left_arranges.perm.append right_arranges.perm).trans whole
    rw [List.append_assoc, List.singleton_append]
    exact (List.perm_middle.trans (others.cons x)).trans (List.perm_cons_erase mem).symm
  have below : ∀ y ∈ left, f y x < 0 := by
    intro y hy
    exact of_decide_eq_true (List.mem_filter.mp (left_arranges.perm.mem_iff.mp hy)).2
  have above : ∀ y ∈ right, ¬ f y x < 0 := by
    intro y hy
    simpa [ahead] using (List.mem_filter.mp (right_arranges.perm.mem_iff.mp hy)).2
  have sorted : (left ++ [x] ++ right).Pairwise fun a b => f a b ≤ 0 := by
    apply comparison.pairwise_around left_arranges.sorted right_arranges.sorted
    · exact fun y hy => (below y hy).le
    · exact fun y hy => not_lt.mp (above y hy)
    · intro y hy
      rw [List.mem_singleton.mp hy, comparison.refl]
  refine ⟨_, ⟨perm, sorted⟩, ?_⟩
  have place : rank f l x = left.length := by
    rw [← rank_congr perm, List.append_assoc, List.singleton_append,
      comparison.rank_append_cons (by rwa [List.append_assoc, List.singleton_append] at sorted),
      rank, List.countP_eq_length]
    simpa using below
  rw [place]
  simp

end IsComparison
