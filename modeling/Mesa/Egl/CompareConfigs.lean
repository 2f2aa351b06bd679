import Mesa.Egl.Config
import Mathlib.Algebra.Ring.Int.Defs

/-!
# The order of configs

The comparison of two valid configs never leaves the range of `EGLint`, and it is the first
difference of their keys, so that it is a total preorder under all criteria.
-/

namespace Egl

theorem plus_eq_some {a b c : ℤ} (h : plus a b = some c) :
  c = a + b ∧ IsEGLint (a + b)
  := by
  unfold plus at h
  split at h
  case isTrue inside => exact ⟨(Option.some.inj h).symm, inside⟩
  case isFalse => cases h

/-- The difference of two numbers that are not negative. -/
theorem minus_of_nonneg {a b : ℤ} (ha : IsEGLint a) (hb : IsEGLint b) (ha' : 0 ≤ a) (hb' : 0 ≤ b) :
  minus a b = some (a - b)
  := by
  apply if_pos
  unfold IsEGLint at *
  omega

/-! ### What validation checks -/

theorem validateConfig_spec {conf : Config} (valid : validateConfig conf false = some true) :
  (∀ attr type criterion, (attr, type, criterion) ∈ validationTable →
    attribValid attr type (conf attr)) ∧ channelsValid conf = some true
  := by
  simp only [validateConfig, Bool.false_and, Bool.or_false] at valid
  by_cases all : validationTable.all (fun entry => attribValid entry.1 entry.2.1 (conf entry.1))
  case neg =>
    simp [all] at valid
  case pos =>
    constructor
    · intro attr type criterion mem
      exact List.all_eq_true.mp all _ mem
    · cases channels : channelsValid conf with
      | none => simp [all, channels] at valid
      | some channels' =>
        simp only [all, channels] at valid
        cases channels' with
        | true => rfl
        | false => simp at valid

theorem nonneg_of_attribValid {attr : Attr} {val : ℤ} (valid : attribValid attr .integer val) :
  0 ≤ val
  := by
  cases attr <;> simp [attribValid] at valid <;> omega

namespace ValidConfig

variable (conf : ValidConfig)

theorem attribValid {attr : Attr} {type : AttribType} {criterion : Criterion}
  (mem : (attr, type, criterion) ∈ validationTable) :
  Egl.attribValid attr type (conf.config attr)
  := (validateConfig_spec conf.valid).1 attr type criterion mem

theorem caveat_cases :
  conf.config .configCaveat = eglNone ∨ conf.config .configCaveat = slowConfig ∨
    conf.config .configCaveat = nonConformantConfig
  := by
  have := @attribValid conf .configCaveat .enum .exact (by decide)
  simpa [Egl.attribValid, or_assoc] using this

theorem type_cases :
  conf.config .colorBufferType = rgbBuffer ∨ conf.config .colorBufferType = luminanceBuffer
  := by
  have := @attribValid conf .colorBufferType .enum .exact (by decide)
  simpa [Egl.attribValid] using this

/-- No integer attribute is negative. -/
theorem nonneg {attr : Attr} {criterion : Criterion}
  (mem : (attr, .integer, criterion) ∈ validationTable) :
  0 ≤ conf.config attr
  := nonneg_of_attribValid (conf.attribValid mem)

theorem nonneg_channels :
  ∀ attr ∈ colorChannels (conf.config .colorBufferType), 0 ≤ conf.config attr
  := by
  intro attr mem
  unfold colorChannels at mem
  split at mem
  case isTrue =>
    simp only [List.mem_cons, List.not_mem_nil, or_false] at mem
    rcases mem with rfl | rfl | rfl | rfl
    all_goals exact @nonneg conf _ .atleast (by decide)
  case isFalse =>
    simp only [List.mem_cons, List.not_mem_nil, or_false] at mem
    rcases mem with rfl | rfl
    all_goals exact @nonneg conf _ .atleast (by decide)

/-- The sizes of all channels add up. -/
theorem sum_channels :
  ((colorChannels (conf.config .colorBufferType)).map conf.config).sum < 2 ^ 31
  := by
  have channels := (validateConfig_spec conf.valid).2
  unfold channelsValid at channels
  unfold colorChannels
  split at channels
  case isTrue rgb =>
    rw [if_pos rgb]
    cases h₁ : plus (conf.config .redSize) (conf.config .greenSize) with
    | none => simp [h₁] at channels
    | some sum₁ =>
      cases h₂ : plus sum₁ (conf.config .blueSize) with
      | none => simp [h₁, h₂] at channels
      | some sum₂ =>
        cases h₃ : plus sum₂ (conf.config .alphaSize) with
        | none => simp [h₁, h₂, h₃] at channels
        | some sum₃ =>
          obtain ⟨rfl, -⟩ := plus_eq_some h₁
          obtain ⟨rfl, -⟩ := plus_eq_some h₂
          obtain ⟨rfl, inside⟩ := plus_eq_some h₃
          have := inside.2
          simp only [List.map_cons, List.map_nil, List.sum_cons, List.sum_nil]
          omega
  case isFalse rgb =>
    have luminance := conf.type_cases.resolve_left rgb
    rw [if_pos luminance] at channels
    rw [if_neg rgb]
    cases h₁ : plus (conf.config .luminanceSize) (conf.config .alphaSize) with
    | none => simp [h₁] at channels
    | some sum₁ =>
      have := (plus_eq_some h₁).2.2
      simp only [List.map_cons, List.map_nil, List.sum_cons, List.sum_nil]
      omega

end ValidConfig

/-! ### The color bits -/

/-- The sum that `colorBits` computes. -/
def colorSum (criteria conf : Config) (channels : List Attr) : ℤ :=
  (channels.map fun attr => if 0 < criteria attr then conf attr else 0).sum

theorem colorSum_bounds {criteria conf : Config} {channels : List Attr}
  (nonneg : ∀ attr ∈ channels, 0 ≤ conf attr) :
  0 ≤ colorSum criteria conf channels ∧ colorSum criteria conf channels ≤ (channels.map conf).sum
  := by
  induction channels with
  | nil => simp [colorSum]
  | cons attr channels ih =>
    have head := nonneg attr (by simp)
    have tail := ih fun attr mem => nonneg attr (by simp [mem])
    simp only [colorSum, List.map_cons, List.sum_cons] at tail ⊢
    split <;> omega

/-- No partial sum is greater than the sum of all channels. -/
theorem foldlM_plus {criteria conf : Config} {channels : List Attr} {val : ℤ} (val_nonneg : 0 ≤ val)
  (nonneg : ∀ attr ∈ channels, 0 ≤ conf attr) (small : val + (channels.map conf).sum < 2 ^ 31) :
  channels.foldlM (fun val attr => if 0 < criteria attr then plus val (conf attr) else some val)
    val = some (val + colorSum criteria conf channels)
  := by
  induction channels generalizing val with
  | nil => simp [colorSum]
  | cons attr channels ih =>
    have head := nonneg attr (by simp)
    have tail_nonneg : ∀ attr ∈ channels, 0 ≤ conf attr :=
      fun attr mem => nonneg attr (by simp [mem])
    have tail := @colorSum_bounds criteria conf channels tail_nonneg
    simp only [List.map_cons, List.sum_cons] at small
    rw [List.foldlM_cons]
    by_cases asked : 0 < criteria attr
    case pos =>
      have sum : plus val (conf attr) = some (val + conf attr) := by
        apply if_pos
        unfold IsEGLint
        omega
      have rest := @ih (val + conf attr) (by omega) tail_nonneg (by omega)
      rw [if_pos asked, sum]
      refine rest.trans (congrArg some ?_)
      simp only [colorSum, List.map_cons, List.sum_cons, if_pos asked]
      omega
    case neg =>
      have rest := @ih val val_nonneg tail_nonneg (by omega)
      rw [if_neg asked]
      refine rest.trans (congrArg some ?_)
      simp only [colorSum, List.map_cons, List.sum_cons, if_neg asked]
      omega

/-- The color bits of a config for the criteria, if there are any. -/
def ValidConfig.colorBits (criteria : Option Config) (conf : ValidConfig) : ℤ :=
  criteria.elim 0 fun criteria =>
    colorSum criteria conf.config (colorChannels (conf.config .colorBufferType))

theorem ValidConfig.colorBits_bounds (criteria : Option Config) (conf : ValidConfig) :
  0 ≤ conf.colorBits criteria ∧ conf.colorBits criteria < 2 ^ 31
  := by
  cases criteria with
  | none =>
    have small : (0 : ℤ) < 2 ^ 31 := by decide
    exact ⟨le_refl 0, small⟩
  | some criteria =>
    have bounds := @colorSum_bounds criteria _ _ conf.nonneg_channels
    exact ⟨bounds.1, lt_of_le_of_lt bounds.2 conf.sum_channels⟩

theorem ValidConfig.colorBits_eq (criteria : Option Config) (conf : ValidConfig) :
  (criteria.elim (some 0) fun criteria =>
    Egl.colorBits criteria conf.config (colorChannels (conf.config .colorBufferType))) =
      some (conf.colorBits criteria)
  := by
  cases criteria with
  | none => rfl
  | some criteria =>
    have sum := conf.sum_channels
    have fold := @foldlM_plus criteria conf.config _ 0 (le_refl 0) conf.nonneg_channels (by omega)
    rw [zero_add] at fold
    exact fold

/-! ### The key -/

/-- What `_eglCompareConfigs` compares one after the other. -/
def ValidConfig.key (criteria : Option Config) (compareId : Bool) (conf : ValidConfig) : List ℤ :=
  [conf.config .configCaveat, conf.config .colorBufferType, - conf.colorBits criteria] ++
    compareAttribsList.map conf.config ++ [if compareId then conf.config .configId else 0]

@[simp]
theorem ValidConfig.length_key (criteria : Option Config) (compareId : Bool) (conf : ValidConfig) :
  (conf.key criteria compareId).length = 10
  := rfl

/-- The loop finds the first difference of the attributes, and then that of the ids. -/
theorem compareAttribs_eq {conf1 conf2 : ValidConfig} (compareId : Bool) {attribs : List Attr}
  (nonneg : ∀ conf : ValidConfig, ∀ attr ∈ attribs, 0 ≤ conf.config attr) :
  compareAttribs conf1.config conf2.config compareId attribs =
    some (firstDifference
      (attribs.map conf1.config ++ [if compareId then conf1.config .configId else 0])
      (attribs.map conf2.config ++ [if compareId then conf2.config .configId else 0]))
  := by
  induction attribs with
  | nil =>
    have ids := minus_of_nonneg (conf1.isEGLint .configId) (conf2.isEGLint .configId)
      (@ValidConfig.nonneg conf1 _ .exact (by decide))
      (@ValidConfig.nonneg conf2 _ .exact (by decide))
    cases compareId with
    | false => rfl
    | true =>
      simp only [compareAttribs, if_true, List.map_nil, List.nil_append, firstDifference, ids]
      split
      case isTrue same => rw [same, sub_self]
      case isFalse => rfl
  | cons attr attribs ih =>
    have rest := ih fun conf attr mem => nonneg conf attr (by simp [mem])
    simp only [compareAttribs, List.map_cons, List.cons_append, firstDifference]
    by_cases same : conf1.config attr = conf2.config attr
    case pos => rw [if_neg (not_not.mpr same), if_pos same, rest]
    case neg =>
      rw [if_pos same, if_neg same]
      exact minus_of_nonneg (conf1.isEGLint attr) (conf2.isEGLint attr)
        (nonneg conf1 attr (by simp)) (nonneg conf2 attr (by simp))

theorem nonneg_compareAttribs (conf : ValidConfig) :
  ∀ attr ∈ compareAttribsList, 0 ≤ conf.config attr
  := by
  intro attr mem
  simp only [compareAttribsList, List.mem_cons, List.not_mem_nil, or_false] at mem
  rcases mem with rfl | rfl | rfl | rfl | rfl | rfl
  all_goals exact @ValidConfig.nonneg conf _ .atleast (by decide)

/-- The caveats and the types have values that are close to each other. -/
theorem minus_caveats (conf1 conf2 : ValidConfig) :
  minus (conf1.config .configCaveat) (conf2.config .configCaveat) =
    some (conf1.config .configCaveat - conf2.config .configCaveat)
  := by
  rcases conf1.caveat_cases with h | h | h <;> rcases conf2.caveat_cases with h' | h' | h' <;>
    rw [h, h'] <;> decide

theorem minus_types (conf1 conf2 : ValidConfig) :
  minus (conf1.config .colorBufferType) (conf2.config .colorBufferType) =
    some (conf1.config .colorBufferType - conf2.config .colorBufferType)
  := by
  rcases conf1.type_cases with h | h <;> rcases conf2.type_cases with h' | h' <;>
    rw [h, h'] <;> decide

theorem compareSizes_eq {conf1 conf2 : ValidConfig} (criteria : Option Config) (compareId : Bool)
  (types : conf1.config .colorBufferType = conf2.config .colorBufferType) :
  compareSizes conf1.config conf2.config criteria compareId =
    some (firstDifference
      (- conf1.colorBits criteria ::
        (compareAttribsList.map conf1.config ++ [if compareId then conf1.config .configId else 0]))
      (- conf2.colorBits criteria ::
        (compareAttribsList.map conf2.config ++ [if compareId then conf2.config .configId else 0])))
  := by
  have rest := @compareAttribs_eq conf1 conf2 compareId _ nonneg_compareAttribs
  have bits1 := conf1.colorBits_eq criteria
  have bits2 := conf2.colorBits_eq criteria
  rw [← types] at bits2
  simp only [compareSizes, bits1, bits2, Option.bind_eq_bind, Option.bind_some]
  by_cases same : conf1.colorBits criteria = conf2.colorBits criteria
  case pos => simp only [same, ne_eq, not_true_eq_false, if_false, if_true, firstDifference, rest]
  case neg =>
    have bounds1 := conf1.colorBits_bounds criteria
    have bounds2 := conf2.colorBits_bounds criteria
    have difference : minus (conf2.colorBits criteria) (conf1.colorBits criteria) =
        some (conf2.colorBits criteria - conf1.colorBits criteria) := by
      apply if_pos
      unfold IsEGLint
      omega
    have apart : ¬ - conf1.colorBits criteria = - conf2.colorBits criteria := by omega
    rw [if_pos same, difference, firstDifference, if_neg apart]
    congr 1
    omega

/-- The comparison of valid configs is defined, and it is the first difference of their keys. -/
theorem compareConfigs_eq {same : Bool} {conf1 conf2 : ValidConfig} (eq : same → conf1 = conf2)
  (criteria : Option Config) (compareId : Bool) :
  compareConfigs same conf1.config conf2.config criteria compareId =
    some (firstDifference (conf1.key criteria compareId) (conf2.key criteria compareId))
  := by
  cases same with
  | true =>
    obtain rfl := eq rfl
    have self := firstDifference_swap (conf1.key criteria compareId) (conf1.key criteria compareId)
    refine congrArg some ?_
    omega
  | false =>
    simp only [compareConfigs, Bool.false_eq_true, if_false, minus_caveats, minus_types,
      Option.bind_eq_bind, Option.bind_some, ValidConfig.key, List.cons_append, List.nil_append,
      firstDifference, sub_ne_zero]
    by_cases caveats : conf1.config .configCaveat = conf2.config .configCaveat
    case neg => rw [if_pos caveats, if_neg caveats]; rfl
    case pos =>
      rw [if_neg (not_not.mpr caveats), if_pos caveats]
      by_cases types : conf1.config .colorBufferType = conf2.config .colorBufferType
      case neg => rw [if_pos types, if_neg types]; rfl
      case pos =>
        rw [if_neg (not_not.mpr types), if_pos types]
        exact compareSizes_eq criteria compareId types

/-- Under all criteria the valid configs are compared as a total preorder does. -/
theorem isComparison_key (criteria : Option Config) (compareId : Bool) :
  IsComparison fun conf1 conf2 : ValidConfig =>
    firstDifference (conf1.key criteria compareId) (conf2.key criteria compareId)
  := (@isComparison_firstDifference 10).comap
    fun conf : ValidConfig => ⟨conf.key criteria compareId, conf.length_key criteria compareId⟩

end Egl
