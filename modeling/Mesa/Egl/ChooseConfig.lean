import Mesa.Egl.CompareConfigs
import Mesa.Egl.SortConfigs

/-!
# Choosing configs

`_eglChooseConfig` of `eglconfig.c` with the criteria that it has parsed: the configs of a display
are filtered, and those that match are sorted.
-/

namespace Egl

open SortConfigs

/-- `_eglFilterArray` of `eglarray.c`: what is written to `data`, if `size` says how long it is, and
the number of filtered elements. -/
def filterArray {ι : Type} (filter : ι → Bool) (size : Option ℕ) :
    List ι → List ι → ℕ → List ι × ℕ
  | [], data, count => (data, count)
  | elem :: array, data, count =>
    let data' := if filter elem && size.any (count < ·) then data ++ [elem] else data
    let count' := if filter elem then count + 1 else count
    if size.any (· ≤ count') then (data', count') else filterArray filter size array data' count'

/-- What `eglChooseConfig` returns, where the configs that are written are in `configs`. -/
inductive Chosen (ι : Type) where
  | badParameter
  | badAlloc
  | ok (configs : List ι) (numConfigs : ℤ)

/-- `_eglFilterConfigArray`.  An array that is missing has no elements.  `hasNumConfigs` and
`hasConfigs` say that these pointers are not null, and `memory` that there is room for the list. -/
def filterConfigArray {ι : Type} (array : List ι) (hasConfigs : Bool) (configSize : ℤ)
    (hasNumConfigs memory : Bool) (filter : ι → Bool) (compare : ι → ι → Option ℤ) (fuel : ℕ) :
    Option (Chosen ι) :=
  if !hasNumConfigs then
    some .badParameter
  else
    let count := (filterArray filter none array [] 0).2
    if count = 0 then
      some (.ok [] 0)
    else if !memory then
      some .badAlloc
    else
      let configList := (filterArray filter (some count) array [] 0).1
      if hasConfigs then do
        let configList ← sortConfigs compare fuel configList
        let count : ℤ := min count configSize
        return .ok (configList.take count.toNat) count
      else
        return .ok [] count

section Choose

variable {ι : Type} [DecidableEq ι] (conf : ι → ValidConfig) (criteria : Config)

/-- `_eglFallbackMatch`. -/
def fallbackMatch (conf1 : ι) : Bool :=
  matchConfig (conf conf1).config criteria

/-- `_eglFallbackCompare`. -/
def fallbackCompare (conf1 conf2 : ι) : Option ℤ :=
  compareConfigs (conf1 = conf2) (conf conf1).config (conf conf2).config criteria true

/-- `_eglChooseConfig` with the criteria that the attribute list stands for. -/
def chooseConfig (array : List ι) (hasConfigs : Bool) (configSize : ℤ)
    (hasNumConfigs memory : Bool) (fuel : ℕ) : Option (Chosen ι) :=
  filterConfigArray array hasConfigs configSize hasNumConfigs memory (fallbackMatch conf criteria)
    (fallbackCompare conf criteria) fuel

end Choose

/-! ### The filter -/

theorem filterArray_none {ι : Type} (filter : ι → Bool) (array data : List ι) (count : ℕ) :
  filterArray filter none array data count = (data, count + (array.filter filter).length)
  := by
  induction array generalizing count with
  | nil => simp [filterArray]
  | cons elem array ih =>
    simp only [filterArray, Option.any_none, Bool.and_false, Bool.false_eq_true, if_false, ih]
    cases filtered : filter elem <;> simp [filtered, Nat.add_comm, Nat.add_left_comm]

/-- With room for all of them the elements are written that are filtered. -/
theorem filterArray_some {ι : Type} (filter : ι → Bool) (array data : List ι) {count size : ℕ}
  (room : size = count + (array.filter filter).length) (some_left : count < size) :
  filterArray filter (some size) array data count = (data ++ array.filter filter, size)
  := by
  induction array generalizing data count with
  | nil => simp at room; omega
  | cons elem array ih =>
    simp only [filterArray, Option.any_some]
    cases filtered : filter elem with
    | false =>
      rw [List.filter_cons_of_neg (by simp [filtered])] at room ⊢
      simp [Nat.not_le.mpr some_left, ih data room some_left]
    | true =>
      rw [List.filter_cons_of_pos filtered, List.length_cons] at room
      rw [List.filter_cons_of_pos filtered]
      by_cases last : size ≤ count + 1
      case pos =>
        have none_left : array.filter filter = [] := List.eq_nil_of_length_eq_zero (by omega)
        simp [some_left, last, none_left]
        omega
      case neg =>
        simp [some_left, last, ih (data ++ [elem]) (show size = count + 1 + _ by omega) (by omega)]

/-- The configs that are sorted are those that match. -/
theorem filterArray_twice {ι : Type} (filter : ι → Bool) (array : List ι) :
  (filterArray filter none array [] 0).2 = (array.filter filter).length ∧
    ((array.filter filter).length ≠ 0 →
      (filterArray filter (some (array.filter filter).length) array [] 0).1 = array.filter filter)
  := by
  constructor
  · rw [filterArray_none, Nat.zero_add]
  · intro some_left
    rw [filterArray_some filter array [] (by omega) (by omega), List.nil_append]

/-! ### The result -/

section Result

variable {ι : Type} [DecidableEq ι] (conf : ι → ValidConfig) (criteria : Config)

theorem fallbackCompare_eq :
  fallbackCompare conf criteria = fun conf1 conf2 =>
    some (firstDifference ((conf conf1).key (some criteria) true)
      ((conf conf2).key (some criteria) true))
  := by
  funext conf1 conf2
  exact compareConfigs_eq (fun same => congrArg conf (of_decide_eq_true same)) _ _

/-- What is left of the sorted list when it is truncated. -/
theorem chooseConfig_eq {array configList : List ι} {fuel : ℕ}
  (perm : configList.Perm (array.filter (fallbackMatch conf criteria)))
  (sorted : sortConfigs (fallbackCompare conf criteria) fuel
    (array.filter (fallbackMatch conf criteria)) = some configList)
  (configSize : ℤ) :
  chooseConfig conf criteria array true configSize true true fuel =
    some (.ok (configList.take configSize.toNat)
      (if configList = [] then 0 else min configList.length configSize))
  := by
  obtain ⟨count, list⟩ := filterArray_twice (fallbackMatch conf criteria) array
  have length := perm.length_eq
  unfold chooseConfig filterConfigArray
  rw [count]
  by_cases empty : (array.filter (fallbackMatch conf criteria)).length = 0
  case pos =>
    have nil : configList = [] := List.eq_nil_of_length_eq_zero (length.trans empty)
    simp [empty, nil]
  case neg =>
    have cons : configList ≠ [] := fun nil => empty (by rw [← length, nil]; rfl)
    have taken : configList.take (min (configList.length : ℤ) configSize).toNat =
        configList.take configSize.toNat := by
      rw [List.take_eq_take_iff]
      omega
    simp only [Bool.not_true, Bool.false_eq_true, if_false, empty, if_true, list empty, sorted,
      Option.bind_eq_bind, Option.bind_some, cons]
    rw [← length, taken]
    rfl

/-- Before it is truncated, the result has the configs that match, and none of them is behind a
config that it is to be before.  The sort ends for every comparison that is a total preorder,
without an access outside of the array. -/
theorem chooseConfig_sorted (array : List ι) :
  (∀ fuel, array.length < fuel →
    ∃ configList : List ι,
      configList.Perm (array.filter fun c => matchConfig (conf c).config criteria) ∧
      configList.Pairwise (fun conf1 conf2 =>
        ∃ z, compareConfigs (conf1 = conf2) (conf conf1).config (conf conf2).config criteria true =
          some z ∧ z ≤ 0) ∧
      ∀ configSize : ℤ, chooseConfig conf criteria array true configSize true true fuel =
        some (.ok (configList.take configSize.toNat)
          (if configList = [] then 0 else min configList.length configSize))) ∧
  ∀ (α : Type) (f : α → α → ℤ), IsComparison f → ∀ (l : List α) (fuel : ℕ), l.length < fuel →
    ∃ l', sortConfigs (fun a b => some (f a b)) fuel l = some l' ∧ l'.Perm l ∧
      l'.Pairwise (fun a b => f a b ≤ 0)
  := by
  constructor
  case right =>
    intro α f comparison l fuel enough
    exact sortConfigs_spec comparison enough
  case left =>
    intro fuel enough
    have comparison := (isComparison_key criteria true).comap conf
    have shorter : (array.filter (fallbackMatch conf criteria)).length < fuel :=
      lt_of_le_of_lt (List.length_filter_le _ _) enough
    obtain ⟨configList, sorted, perm, ordered⟩ := sortConfigs_spec comparison shorter
    rw [← fallbackCompare_eq] at sorted
    refine ⟨configList, perm, ordered.imp ?_, chooseConfig_eq conf criteria perm sorted⟩
    intro conf1 conf2 le
    exact ⟨_, congrFun (congrFun (fallbackCompare_eq conf criteria) conf1) conf2, le⟩

/-- Two configs with eight bits for each color, the second with depth bits. -/
def rgbConfig (second : Bool) : ValidConfig where
  config := fun
    | .bufferSize => 24
    | .redSize | .greenSize | .blueSize => 8
    | .depthSize => if second then 16 else 0
    | .configId => if second then 2 else 1
    | .configCaveat | .transparentType | .nativeVisualType => eglNone
    | .colorBufferType => rgbBuffer
    | _ => 0
  isEGLint := fun attr => by cases second <;> cases attr <;> decide
  valid := by cases second <;> decide

/-- The criteria that all configs match. -/
theorem chooseConfig_sorted_rgb :
  ∃ configList : List Bool,
    configList.Perm ([true, false].filter fun c =>
      matchConfig (rgbConfig c).config fun _ => dontCare) ∧
    configList.Pairwise (fun conf1 conf2 =>
      ∃ z, compareConfigs (conf1 = conf2) (rgbConfig conf1).config (rgbConfig conf2).config
        (some fun _ => dontCare) true = some z ∧ z ≤ 0)
  := by
  obtain ⟨configList, perm, ordered, -⟩ :=
    (chooseConfig_sorted rgbConfig (fun _ => dontCare) [true, false]).1 3 (by decide)
  exact ⟨configList, perm, ordered⟩

end Result

end Egl
