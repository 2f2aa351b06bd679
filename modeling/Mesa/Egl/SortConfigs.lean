import Mesa.Data.Comparison
import Mathlib.Data.List.Perm.Basic

/-!
# Sorting configs

`_eglSortConfigs` of `eglconfig.c` is a quicksort in place.  An array is the list of its elements,
and a recursive call gets the part of the array that its pointer and its count say.  An access
outside of this part, a comparison whose value is not defined and a loop without end have no result.
-/

namespace Egl

namespace SortConfigs

variable {α : Type}

/-- `_eglSwapConfigs`. -/
def swapConfigs (configs : List α) (i j : ℕ) : Option (List α) := do
  let x ← configs[i]?
  let y ← configs[j]?
  return (configs.set i y).set j x

/-- The first inner loop: `i` goes up while the element is before the pivot. -/
def scanUp (compare : α → α → Option ℤ) (configs : List α) : ℕ → ℕ → Option ℕ
  | 0, _ => none
  | fuel + 1, i =>
    if i < configs.length then do
      let x ← configs[i]?
      let pivot ← configs[0]?
      if (← compare x pivot) < 0 then
        scanUp compare configs fuel (i + 1)
      else
        return i
    else
      return i

/-- The second inner loop: `j` goes down while the element is behind the pivot.  Nothing but the
comparisons stops it, and what is before the array is outside of it. -/
def scanDown (compare : α → α → Option ℤ) (configs : List α) : ℕ → ℕ → Option ℕ
  | 0, _ => none
  | fuel + 1, j => do
    let x ← configs[j]?
    let pivot ← configs[0]?
    if (← compare x pivot) > 0 then
      if j = 0 then none else scanDown compare configs fuel (j - 1)
    else
      return j

/-- The outer loop, with the array and the two indices it ends with. -/
def partitionConfigs (compare : α → α → Option ℤ) :
    ℕ → List α → ℕ → ℕ → Option (List α × ℕ × ℕ)
  | 0, _, _, _ => none
  | fuel + 1, configs, i, j => do
    let i ← scanUp compare configs (fuel + 1) i
    let j ← scanDown compare configs (fuel + 1) j
    if i < j then
      let configs ← swapConfigs configs i j
      if i + 1 ≤ j - 1 then
        partitionConfigs compare fuel configs (i + 1) (j - 1)
      else
        return (configs, i + 1, j - 1)
    else if i = j then
      return (configs, i + 1, j - 1)
    else
      return (configs, i, j)

/-- `_eglSortConfigs`. -/
def sortConfigs (compare : α → α → Option ℤ) : ℕ → List α → Option (List α)
  | 0, _ => none
  | fuel + 1, configs =>
    if configs.length ≤ 1 then
      return configs
    else do
      let configs ← swapConfigs configs 0 (configs.length / 2)
      let (configs, i, j) ← partitionConfigs compare (fuel + 1) configs 1 (configs.length - 1)
      let configs ← swapConfigs configs 0 j
      let left ← sortConfigs compare fuel (configs.take j)
      let right ← sortConfigs compare fuel (configs.drop i)
      return left ++ (configs.drop j).take (i - j) ++ right

/-! ### Swaps -/

/-- What a swap leaves at each index. -/
theorem swapConfigs_spec {l : List α} {i j : ℕ} {x y : α} (hi : l[i]? = some x)
  (hj : l[j]? = some y) :
  ∃ l', swapConfigs l i j = some l' ∧ l'.Perm l ∧ l'[i]? = some y ∧ l'[j]? = some x ∧
    ∀ k, k ≠ i → k ≠ j → l'[k]? = l[k]?
  := by
  obtain ⟨hi', rfl⟩ := List.getElem?_eq_some_iff.mp hi
  obtain ⟨hj', rfl⟩ := List.getElem?_eq_some_iff.mp hj
  refine ⟨(l.set i l[j]).set j l[i], by simp [swapConfigs, hi', hj'], List.set_set_perm hi' hj',
    ?_, ?_, ?_⟩
  · by_cases same : i = j
    · subst same
      simp [hi']
    · simp [hi', Ne.symm same]
  · simp [hj']
  · intro k ki kj
    simp [Ne.symm ki, Ne.symm kj]

section Comparison

variable {f : α → α → ℤ}

/-! ### The inner loops -/

/-- The loop ends at the latest at the element `b`, which is not before the pivot, or behind the
array. -/
theorem scanUp_spec {l : List α} {p : α} (first : l[0]? = some p) {b : ℕ} (b_le : b ≤ l.length)
  (stop : ∀ x, l[b]? = some x → 0 ≤ f x p) {fuel i : ℕ} (i_le : i ≤ b) (enough : b < fuel + i) :
  ∃ i', scanUp (fun a b => some (f a b)) l fuel i = some i' ∧ i ≤ i' ∧ i' ≤ b ∧
    (∀ k x, i ≤ k → k < i' → l[k]? = some x → f x p < 0) ∧
    ∀ x, l[i']? = some x → 0 ≤ f x p
  := by
  induction fuel generalizing i with
  | zero => omega
  | succ fuel ih =>
    unfold scanUp
    by_cases inside : i < l.length
    case neg =>
      refine ⟨i, by simp [inside], le_refl i, i_le, fun k x h h' => by omega, ?_⟩
      intro x hx
      rw [List.getElem?_eq_none (by omega)] at hx
      cases hx
    case pos =>
      have hx : l[i]? = some l[i] := List.getElem?_eq_getElem inside
      by_cases before : f l[i] p < 0
      case neg =>
        refine ⟨i, by simp [inside, first, before], le_refl i, i_le,
          fun k x h h' => by omega, ?_⟩
        intro x hx'
        obtain rfl := Option.some.inj (hx.symm.trans hx')
        omega
      case pos =>
        have i_ne : i ≠ b := by
          rintro rfl
          have := stop _ hx
          omega
        obtain ⟨i', result, le, i'_le, below, above⟩ := @ih (i + 1) (by omega) (by omega)
        refine ⟨i', by simp [inside, first, before, result], by omega, i'_le, ?_, above⟩
        intro k x hk hk' hx'
        by_cases same : k = i
        · subst same
          obtain rfl := Option.some.inj (hx.symm.trans hx')
          exact before
        · exact below k x (by omega) hk' hx'

/-- The loop ends at the latest at the element `b`, which is not behind the pivot. -/
theorem scanDown_spec {l : List α} {p : α} (first : l[0]? = some p) {b : ℕ} {y : α}
  (hb : l[b]? = some y) (stop : f y p ≤ 0) {fuel j : ℕ} (le_j : b ≤ j) (inside : j < l.length)
  (enough : j < fuel + b) :
  ∃ j', scanDown (fun a b => some (f a b)) l fuel j = some j' ∧ b ≤ j' ∧ j' ≤ j ∧
    (∀ k x, j' < k → k ≤ j → l[k]? = some x → 0 < f x p) ∧
    ∃ x, l[j']? = some x ∧ f x p ≤ 0
  := by
  induction fuel generalizing j with
  | zero => omega
  | succ fuel ih =>
    unfold scanDown
    have hx : l[j]? = some l[j] := List.getElem?_eq_getElem inside
    by_cases behind : 0 < f l[j] p
    case neg =>
      exact ⟨j, by simp [hx, first, behind], le_j, le_refl j, fun k x h h' => by omega,
        l[j], hx, by omega⟩
    case pos =>
      have j_ne : j ≠ b := by
        rintro rfl
        obtain rfl := Option.some.inj (hx.symm.trans hb)
        omega
      obtain ⟨j', result, le, j'_le, above, found⟩ := @ih (j - 1) (by omega) (by omega) (by omega)
      have j_pos : j ≠ 0 := by omega
      refine ⟨j', by simp [hx, first, behind, j_pos, result], le, by omega, ?_, found⟩
      intro k x hk hk' hx'
      by_cases same : k = j
      · subst same
        obtain rfl := Option.some.inj (hx.symm.trans hx')
        exact behind
      · exact above k x hk (by omega) hx'

/-! ### The outer loop -/

/-- What is known of the array between the steps of the outer loop: what is before `i` is not behind
the pivot, and what is behind `j` is not before it. -/
structure Divided (f : α → α → ℤ) (p : α) (l : List α) (i j : ℕ) : Prop where
  first : l[0]? = some p
  one_le : 1 ≤ i
  i_le : i ≤ l.length
  j_lt : j < l.length
  below : ∀ k x, 1 ≤ k → k < i → l[k]? = some x → f x p ≤ 0
  above : ∀ k x, j < k → l[k]? = some x → 0 ≤ f x p

/-- A step swaps two elements that are on the wrong sides. -/
theorem Divided.swap {l : List α} {p : α} {i j : ℕ} (divided : Divided f p l i j) (lt : i < j)
  {x y : α} (hi : l[i]? = some x) (hj : l[j]? = some y) (x_above : 0 ≤ f x p)
  (y_below : f y p ≤ 0) :
  ∃ l', swapConfigs l i j = some l' ∧ l'.Perm l ∧ Divided f p l' (i + 1) (j - 1)
  := by
  obtain ⟨l', swapped, perm, at_i, at_j, others⟩ := swapConfigs_spec hi hj
  have one_le := divided.one_le
  have j_lt := divided.j_lt
  have length := perm.length_eq
  refine ⟨l', swapped, perm, ?_, by omega, by omega, by omega, ?_, ?_⟩
  · rw [others 0 (by omega) (by omega)]
    exact divided.first
  · intro k z hk hk' hz
    by_cases same : k = i
    · subst same
      obtain rfl := Option.some.inj (at_i.symm.trans hz)
      exact y_below
    · rw [others k same (by omega)] at hz
      exact divided.below k z hk (by omega) hz
  · intro k z hk hz
    by_cases same : k = j
    · subst same
      obtain rfl := Option.some.inj (at_j.symm.trans hz)
      exact x_above
    · rw [others k (by omega) same] at hz
      exact divided.above k z (by omega) hz

/-- The scans keep the array divided, and the indices do not pass each other by more than one. -/
theorem Divided.scan (comparison : IsComparison f) {l : List α} {p : α} {i j : ℕ}
  (divided : Divided f p l i j) (le : i ≤ j) {fuel : ℕ} (enough : j + 1 < fuel + i) :
  ∃ i' j', scanUp (fun a b => some (f a b)) l fuel i = some i' ∧
    scanDown (fun a b => some (f a b)) l fuel j = some j' ∧
    Divided f p l i' j' ∧ i ≤ i' ∧ j' ≤ j ∧ i' ≤ j' + 1 ∧
    (∀ x, l[i']? = some x → 0 ≤ f x p) ∧ ∃ y, l[j']? = some y ∧ f y p ≤ 0
  := by
  have one_le := divided.one_le
  have j_lt := divided.j_lt
  obtain ⟨i', up, i_le, i'_le, before, at_i⟩ :=
    scanUp_spec divided.first (show j + 1 ≤ l.length by omega)
      (fun x => divided.above (j + 1) x (by omega)) (show i ≤ j + 1 by omega) (by omega)
  have below : ∀ k x, 1 ≤ k → k < i' → l[k]? = some x → f x p ≤ 0 := by
    intro k x hk hk' hx
    by_cases old : k < i
    · exact divided.below k x hk old hx
    · exact (before k x (by omega) hk' hx).le
  -- the other scan stops at the last element of this one, or at the pivot
  obtain ⟨y, hy, y_below⟩ : ∃ y, l[i' - 1]? = some y ∧ f y p ≤ 0 := by
    by_cases one : i' = 1
    · rw [one]
      exact ⟨p, divided.first, (comparison.refl p).le⟩
    · have hy : l[i' - 1]? = some (l.get ⟨i' - 1, by omega⟩) := List.getElem?_eq_getElem _
      exact ⟨_, hy, below (i' - 1) _ (by omega) (by omega) hy⟩
  obtain ⟨j', down, le_j', j'_le, behind, at_j⟩ :=
    scanDown_spec divided.first hy y_below (show i' - 1 ≤ j by omega) j_lt
      (show j < fuel + (i' - 1) by omega)
  refine ⟨i', j', up, down, ⟨divided.first, by omega, by omega, by omega, below, ?_⟩, i_le, j'_le,
    by omega, at_i, at_j⟩
  intro k x hk hx
  by_cases old : j < k
  · exact divided.above k x old hx
  · exact (behind k x hk (by omega) hx).le

/-- The loop ends with the array divided and the indices past each other. -/
theorem partitionConfigs_spec (comparison : IsComparison f) {p : α} {fuel : ℕ} {l : List α}
  {i j : ℕ} (divided : Divided f p l i j) (le : i ≤ j) (enough : j + 1 < fuel + i) :
  ∃ l' i' j', partitionConfigs (fun a b => some (f a b)) fuel l i j = some (l', i', j') ∧
    l'.Perm l ∧ Divided f p l' i' j' ∧ j' < i'
  := by
  induction fuel generalizing l i j with
  | zero => omega
  | succ fuel ih =>
    obtain ⟨i', j', up, down, divided', i_le, j'_le, close, at_i, y, hy, y_below⟩ :=
      divided.scan comparison le enough
    have one_le := divided'.one_le
    have j'_lt := divided'.j_lt
    unfold partitionConfigs
    by_cases lt : i' < j'
    case pos =>
      have hx : l[i']? = some (l.get ⟨i', by omega⟩) := List.getElem?_eq_getElem _
      obtain ⟨l', swapped, perm, divided''⟩ := divided'.swap lt hx hy (at_i _ hx) y_below
      by_cases more : i' + 1 ≤ j' - 1
      case pos =>
        obtain ⟨l'', i'', j'', result, perm', done⟩ := ih divided'' more (by omega)
        refine ⟨l'', i'', j'', ?_, perm'.trans perm, done⟩
        simp only [up, down, Option.pure_def, Option.bind_eq_bind, Option.bind_some, lt, if_true,
          swapped, more, result]
      case neg =>
        refine ⟨l', i' + 1, j' - 1, ?_, perm, divided'', by omega⟩
        simp only [up, down, Option.pure_def, Option.bind_eq_bind, Option.bind_some, lt, if_true,
          swapped, more, if_false]
    case neg =>
      by_cases same : i' = j'
      case pos =>
        -- the element where the scans meet is equal to the pivot
        subst same
        refine ⟨l, i' + 1, i' - 1, by simp [up, down], .refl l,
          ⟨divided'.first, by omega, by omega, by omega, ?_, ?_⟩, by omega⟩
        · intro k x hk hk' hx
          by_cases here : k = i'
          · subst here
            obtain rfl := Option.some.inj (hy.symm.trans hx)
            exact y_below
          · exact divided'.below k x hk (by omega) hx
        · intro k x hk hx
          by_cases here : k = i'
          · subst here
            exact at_i x hx
          · exact divided'.above k x (by omega) hx
      case neg =>
        exact ⟨l, i', j', by simp [up, down, lt, same], .refl l, divided', by omega⟩

/-! ### The recursion -/

/-- When the pivot is moved between them, the parts are on its two sides. -/
theorem Divided.parts (comparison : IsComparison f) {p : α} {l : List α} {i j : ℕ}
  (divided : Divided f p l i j) (lt : j < i) :
  ∃ l', swapConfigs l 0 j = some l' ∧ l'.Perm l ∧ (∀ x ∈ l'.take j, f x p ≤ 0) ∧
    (∀ x ∈ l'.drop i, 0 ≤ f x p) ∧ ∀ x ∈ (l'.drop j).take (i - j), f x p = 0
  := by
  have j_lt := divided.j_lt
  have one_le := divided.one_le
  have hy : l[j]? = some l[j] := List.getElem?_eq_getElem j_lt
  have y_below : f l[j] p ≤ 0 := by
    by_cases zero : j = 0
    · subst zero
      obtain rfl := Option.some.inj (hy.symm.trans divided.first)
      exact (comparison.refl _).le
    · exact divided.below j _ (by omega) lt hy
  obtain ⟨l', swapped, perm, at_zero, at_j, others⟩ := swapConfigs_spec divided.first hy
  have below : ∀ k x, k < i → l'[k]? = some x → f x p ≤ 0 := by
    intro k x hk hx
    by_cases here : k = j
    · subst here
      obtain rfl := Option.some.inj (at_j.symm.trans hx)
      exact (comparison.refl _).le
    · by_cases zero : k = 0
      · subst zero
        obtain rfl := Option.some.inj (at_zero.symm.trans hx)
        exact y_below
      · rw [others k zero here] at hx
        exact divided.below k x (by omega) hk hx
  have above : ∀ k x, j ≤ k → l'[k]? = some x → 0 ≤ f x p := by
    intro k x hk hx
    by_cases here : k = j
    · subst here
      obtain rfl := Option.some.inj (at_j.symm.trans hx)
      exact (comparison.refl _).ge
    · rw [others k (by omega) here] at hx
      exact divided.above k x (by omega) hx
  refine ⟨l', swapped, perm, ?_, ?_, ?_⟩
  · intro x hx
    obtain ⟨k, hk⟩ := List.mem_iff_getElem?.mp hx
    rw [List.getElem?_take] at hk
    split at hk
    · exact below k x (by omega) hk
    · cases hk
  · intro x hx
    obtain ⟨k, hk⟩ := List.mem_iff_getElem?.mp hx
    rw [List.getElem?_drop] at hk
    exact above (i + k) x (by omega) hk
  · intro x hx
    obtain ⟨k, hk⟩ := List.mem_iff_getElem?.mp hx
    rw [List.getElem?_take] at hk
    split at hk
    · rw [List.getElem?_drop] at hk
      exact le_antisymm (below (j + k) x (by omega) hk) (above (j + k) x (by omega) hk)
    · cases hk

/-- The pivot is divided from the rest when the loop begins. -/
theorem divided_start {p : α} {l : List α} (first : l[0]? = some p) (long : 1 < l.length) :
  Divided f p l 1 (l.length - 1)
  where
  first := first
  one_le := le_refl 1
  i_le := long.le
  j_lt := by omega
  below := fun k x h h' => by omega
  above := fun k x h hx => by
    rw [List.getElem?_eq_none (by omega)] at hx
    cases hx

/-- For every comparison that is a total preorder the sort ends without an access outside of the
array, and what it leaves is sorted. -/
theorem sortConfigs_spec (comparison : IsComparison f) {fuel : ℕ} {l : List α}
  (enough : l.length < fuel) :
  ∃ l', sortConfigs (fun a b => some (f a b)) fuel l = some l' ∧ l'.Perm l ∧
    l'.Pairwise (fun a b => f a b ≤ 0)
  := by
  induction fuel generalizing l with
  | zero => omega
  | succ fuel ih =>
    unfold sortConfigs
    by_cases short : l.length ≤ 1
    case pos =>
      refine ⟨l, by simp [short], .refl l, ?_⟩
      match l, short with
      | [], _ => exact .nil
      | [x], _ => exact List.pairwise_singleton _ x
    case neg =>
      have middle_lt : l.length / 2 < l.length := by omega
      have first : l[0]? = some (l.get ⟨0, by omega⟩) := List.getElem?_eq_getElem _
      have middle : l[l.length / 2]? = some l[l.length / 2] := List.getElem?_eq_getElem _
      obtain ⟨l₁, swapped, perm₁, pivot, -, -⟩ := swapConfigs_spec first middle
      have length₁ := perm₁.length_eq
      obtain ⟨l₂, i, j, result, perm₂, divided, lt⟩ :=
        @partitionConfigs_spec _ _ comparison _ (fuel + 1) l₁ 1 (l₁.length - 1)
          (divided_start pivot (by omega)) (by omega) (by omega)
      obtain ⟨l₃, swapped', perm₃, left_below, right_above, equal⟩ :=
        divided.parts comparison lt
      have length₃ : l₃.length = l.length := (perm₃.trans (perm₂.trans perm₁)).length_eq
      have j_lt := divided.j_lt
      have one_le := divided.one_le
      have length₂ := perm₂.length_eq
      obtain ⟨left, left_result, left_perm, left_sorted⟩ :=
        @ih (l₃.take j) (by rw [List.length_take]; omega)
      obtain ⟨right, right_result, right_perm, right_sorted⟩ :=
        @ih (l₃.drop i) (by rw [List.length_drop]; omega)
      refine ⟨left ++ (l₃.drop j).take (i - j) ++ right, ?_, ?_, ?_⟩
      · simp [short, swapped, result, swapped', left_result, right_result]
      · have whole : l₃.take j ++ (l₃.drop j).take (i - j) ++ l₃.drop i = l₃ := by
          have behind : (l₃.drop j).take (i - j) ++ l₃.drop i = l₃.drop j := by
            conv_rhs => rw [← List.take_append_drop (i - j) (l₃.drop j)]
            rw [List.drop_drop, Nat.add_sub_cancel' lt.le]
          rw [List.append_assoc, behind, List.take_append_drop]
        have parts := (left_perm.append_right ((l₃.drop j).take (i - j))).append right_perm
        rw [whole] at parts
        exact parts.trans (perm₃.trans (perm₂.trans perm₁))
      · apply comparison.pairwise_around left_sorted right_sorted
        · exact fun x hx => left_below x (left_perm.mem_iff.mp hx)
        · exact fun x hx => right_above x (right_perm.mem_iff.mp hx)
        · exact equal

end Comparison

end SortConfigs

end Egl
