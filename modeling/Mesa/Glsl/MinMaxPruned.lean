import Mesa.Glsl.MinMax

/-!
# Pruned minima and maxima

The range of an expression bounds its value, and the base range is a window through which the
expression around it sees the value.  An expression and what is left of it agree as far as this
window shows, unless the pruning takes one of the branches that go wrong.
-/

namespace Glsl.MinMax

open OrderDual Window

variable {α : Type}

/-! ### Constants -/

/-- A scalar, or a vector of so many components. -/
def Constant.Fits (n : ℕ) (c : Constant α) : Prop := c.size = 1 ∨ c.size = n

theorem at_of_scalar {c : Constant α} (scalar : c.size = 1) (k : ℕ) :
  c.at k = c.value 0
  := by
  simp [Constant.at, Constant.inc, scalar]

/-- A comparison looks at every component. -/
theorem exists_compared {n k : ℕ} {a b : Constant α} (ha : a.Fits n) (hb : b.Fits n)
    (hk : k < n) :
  ∃ i < max a.size b.size, a.at i = a.at k ∧ b.at i = b.at k
  := by
  by_cases vector : a.size = n ∨ b.size = n
  · refine ⟨k, ?_, rfl, rfl⟩
    rcases vector with h | h
    · rw [h]
      apply lt_max_of_lt_left hk
    · rw [h]
      apply lt_max_of_lt_right hk
  · rw [not_or] at vector
    have scalarA : a.size = 1 := ha.resolve_right vector.1
    have scalarB : b.size = 1 := hb.resolve_right vector.2
    refine ⟨0, by simp [scalarA], ?_, ?_⟩
    · rw [at_of_scalar scalarA, at_of_scalar scalarA]
    · rw [at_of_scalar scalarB, at_of_scalar scalarB]

theorem eq_of_asConstants {a b : Rvalue α} {c d : Constant α} (h : asConstants a b = some (c, d)) :
  a = .constant c ∧ b = .constant d
  := by
  cases a <;> cases b <;> simp_all [asConstants, Rvalue.asConstant]

variable [LinearOrder α]

/-- What a result of a comparison says about a component. -/
def CompareComponentsResult.Holds (r : CompareComponentsResult) (x y : α) : Prop :=
  match r with
  | less => x < y
  | lessOrEqual => x ≤ y
  | equal => x = y
  | greaterOrEqual => y ≤ x
  | greater => y < x
  | mixed => True

/-- What a loop over the components has not found is not there. -/
theorem not_of_any {p : ℕ → Bool} {i n : ℕ} (hi : i < n) (h : (List.range n).any p = false) :
  p i = false
  := by
  rw [List.any_eq_false] at h
  apply eq_false_of_ne_true (h i (List.mem_range.mpr hi))

theorem compareComponents_holds {n k : ℕ} {a b : Constant α} (ha : a.Fits n) (hb : b.Fits n)
    (hk : k < n) :
  (compareComponents a b).Holds (a.at k) (b.at k)
  := by
  obtain ⟨i, hi, sameA, sameB⟩ := exists_compared ha hb hk
  rw [← sameA, ← sameB]
  unfold compareComponents
  simp only
  generalize foundless : (List.range (max a.size b.size)).any
    (fun i => decide (a.value (i * a.inc) < b.value (i * b.inc))) = less
  generalize foundgreater : (List.range (max a.size b.size)).any
    (fun i => decide (¬ a.value (i * a.inc) < b.value (i * b.inc) ∧
      b.value (i * b.inc) < a.value (i * a.inc))) = greater
  generalize foundequal : (List.range (max a.size b.size)).any
    (fun i => decide (¬ a.value (i * a.inc) < b.value (i * b.inc) ∧
      ¬ b.value (i * b.inc) < a.value (i * a.inc))) = equal
  have notLess : less = false → b.at i ≤ a.at i := by
    rintro rfl
    simpa [Constant.at] using not_of_any hi foundless
  have notGreater : greater = false → a.at i ≤ b.at i := by
    rintro rfl
    have h := not_of_any hi foundgreater
    rw [decide_eq_false_iff_not, not_and] at h
    by_contra lt
    have lt := not_le.mp lt
    apply h (not_lt.mpr lt.le) lt
  have notEqual : equal = false → a.at i < b.at i ∨ b.at i < a.at i := by
    rintro rfl
    have h := not_of_any hi foundequal
    rw [decide_eq_false_iff_not, not_and_or, not_not, not_not] at h
    apply h
  have strict : equal = false → b.at i ≤ a.at i → b.at i < a.at i := by
    intro h le
    apply (notEqual h).resolve_left (not_lt.mpr le)
  have strict' : equal = false → a.at i ≤ b.at i → a.at i < b.at i := by
    intro h le
    apply (notEqual h).resolve_right (not_lt.mpr le)
  cases less <;> cases greater <;> cases equal <;>
    simp only [Bool.and_self, Bool.and_false, Bool.and_true, Bool.false_eq_true, ↓reduceIte,
      CompareComponentsResult.Holds]
  case false.false.false => apply strict rfl (notLess rfl)
  case false.false.true => apply le_antisymm (notGreater rfl) (notLess rfl)
  case false.true.false => apply strict rfl (notLess rfl)
  case false.true.true => apply notLess rfl
  case true.false.false => apply strict' rfl (notGreater rfl)
  case true.false.true => apply notGreater rfl

/-- The operation of an expression. -/
def operate (ismin : Bool) (x y : α) : α := if ismin then min x y else max x y

theorem combineConstant_fits {n : ℕ} {ismin : Bool} {a b : Constant α} (ha : a.Fits n) :
  (combineConstant ismin a b).Fits n
  := ha

/-- Constants with the same number of components are combined component by component. -/
theorem combineConstant_at {n k : ℕ} {ismin : Bool} {a b : Constant α} (ha : a.Fits n)
    (same : a.size = b.size) (hk : k < n) :
  (combineConstant ismin a b).at k = operate ismin (a.at k) (b.at k)
  := by
  have inc : b.inc = a.inc := by
    rw [Constant.inc, Constant.inc, same]
  have lt : k * a.inc < a.size := by
    rcases ha with scalar | vector
    · simp [Constant.inc, scalar]
    · rw [vector, Constant.inc]
      split
      · rw [Nat.mul_zero]
        omega
      · rw [Nat.mul_one]
        exact hk
  have value : (combineConstant ismin a b).at k =
      if k * a.inc < a.size ∧ (ismin ∧ b.value (k * a.inc) < a.value (k * a.inc) ∨
        ¬ ismin ∧ a.value (k * a.inc) < b.value (k * a.inc)) then b.value (k * a.inc)
      else a.value (k * a.inc) := by
    rfl
  rw [value, Constant.at, Constant.at, inc]
  generalize a.value (k * a.inc) = x
  generalize b.value (k * a.inc) = y
  cases ismin with
  | true =>
    simp only [lt, operate, true_and, not_true, false_and, or_false, ↓reduceIte]
    split
    next less => rw [min_eq_right less.le]
    next less => rw [min_eq_left (not_lt.mp less)]
  | false =>
    simp only [lt, operate, Bool.false_eq_true, not_false_eq_true, true_and, false_and, false_or,
      ↓reduceIte]
    split
    next less => rw [max_eq_right less.le]
    next less => rw [max_eq_left (not_lt.mp less)]

theorem le_of_toNat_lt {r : CompareComponentsResult} {x y : α} (h : r.Holds x y)
    (lt : r.toNat < CompareComponentsResult.equal.toNat) :
  x ≤ y
  := by
  cases r with
  | less => exact le_of_lt h
  | lessOrEqual => exact h
  | equal | greaterOrEqual | greater | mixed => simp [CompareComponentsResult.toNat] at lt

theorem ge_of_le_toNat {r : CompareComponentsResult} {x y : α} (h : r.Holds x y)
    (le : CompareComponentsResult.equal.toNat ≤ r.toNat) (unmixed : r ≠ .mixed) :
  y ≤ x
  := by
  cases r with
  | less | lessOrEqual => simp [CompareComponentsResult.toNat] at le
  | equal => exact ge_of_eq h
  | greaterOrEqual => exact h
  | greater => exact le_of_lt h
  | mixed => exact absurd rfl unmixed

theorem le_of_toNat_le {r : CompareComponentsResult} {x y : α} (h : r.Holds x y)
    (le : r.toNat ≤ CompareComponentsResult.equal.toNat) :
  x ≤ y
  := by
  cases r with
  | less => exact le_of_lt h
  | lessOrEqual => exact h
  | equal => exact le_of_eq h
  | greaterOrEqual | greater | mixed => simp [CompareComponentsResult.toNat] at le

theorem smallerConstant_fits {n : ℕ} {a b : Constant α} (ha : a.Fits n) (hb : b.Fits n) :
  (smallerConstant a b).Fits n
  := by
  unfold smallerConstant
  simp only
  split
  · apply combineConstant_fits ha
  · split
    · apply ha
    · apply hb

theorem largerConstant_fits {n : ℕ} {a b : Constant α} (ha : a.Fits n) (hb : b.Fits n) :
  (largerConstant a b).Fits n
  := by
  unfold largerConstant
  simp only
  split
  · apply combineConstant_fits ha
  · split
    · apply hb
    · apply ha

theorem smallerConstant_at {n k : ℕ} {a b : Constant α} (ha : a.Fits n) (hb : b.Fits n)
    (hk : k < n) (same : compareComponents a b = .mixed → a.size = b.size) :
  (smallerConstant a b).at k = min (a.at k) (b.at k)
  := by
  have holds := compareComponents_holds ha hb hk
  unfold smallerConstant
  simp only
  split
  next mixed => apply combineConstant_at ha (same mixed) hk
  next unmixed =>
    split
    next lt => rw [min_eq_left (le_of_toNat_lt holds lt)]
    next ge => rw [min_eq_right (ge_of_le_toNat holds (not_lt.mp ge) unmixed)]

theorem largerConstant_at {n k : ℕ} {a b : Constant α} (ha : a.Fits n) (hb : b.Fits n)
    (hk : k < n) (same : compareComponents a b = .mixed → a.size = b.size) :
  (largerConstant a b).at k = max (a.at k) (b.at k)
  := by
  have holds := compareComponents_holds ha hb hk
  unfold largerConstant
  simp only
  split
  next mixed => apply combineConstant_at ha (same mixed) hk
  next unmixed =>
    split
    next lt => rw [max_eq_right (le_of_toNat_lt holds lt)]
    next ge => rw [max_eq_left (ge_of_le_toNat holds (not_lt.mp ge) unmixed)]

/-! ### Ranges -/

/-- An upper limit in a component. -/
def highAt (c : Option (Constant α)) (k : ℕ) : WithTop α :=
  match c with
  | none => ⊤
  | some c => (c.at k : α)

/-- A lower limit in a component. -/
def lowAt (c : Option (Constant α)) (k : ℕ) : WithTop αᵒᵈ :=
  match c with
  | none => ⊤
  | some c => (toDual (c.at k) : αᵒᵈ)

/-- The limits are scalars, or vectors of so many components. -/
structure MinmaxRange.Fits (n : ℕ) (r : MinmaxRange α) : Prop where
  low : ∀ c ∈ r.low, c.Fits n
  high : ∀ c ∈ r.high, c.Fits n

/-- A value is in a range, in a component. -/
structure MinmaxRange.Contains (r : MinmaxRange α) (k : ℕ) (x : α) : Prop where
  low : (toDual x : αᵒᵈ) ≤ lowAt r.low k
  high : (x : WithTop α) ≤ highAt r.high k

theorem MinmaxRange.Contains.le_of_mem_low {r : MinmaxRange α} {k : ℕ} {x : α} {c : Constant α}
    (h : r.Contains k x) (hc : c ∈ r.low) :
  c.at k ≤ x
  := by
  have := h.low
  rw [hc, lowAt] at this
  apply WithTop.coe_le_coe.mp this

theorem MinmaxRange.Contains.le_of_mem_high {r : MinmaxRange α} {k : ℕ} {x : α} {c : Constant α}
    (h : r.Contains k x) (hc : c ∈ r.high) :
  x ≤ c.at k
  := by
  have := h.high
  rw [hc, highAt] at this
  apply WithTop.coe_le_coe.mp this

theorem rangeIntersection_fits {n : ℕ} {r₀ r₁ : MinmaxRange α} (h₀ : r₀.Fits n)
    (h₁ : r₁.Fits n) :
  (rangeIntersection r₀ r₁).Fits n
  := by
  obtain ⟨low₀, high₀⟩ := r₀
  obtain ⟨low₁, high₁⟩ := r₁
  constructor
  · cases low₀ with
    | none => exact h₁.low
    | some c =>
      cases low₁ with
      | none => exact h₀.low
      | some d =>
        rintro _ ⟨⟩
        apply largerConstant_fits (h₀.low c rfl) (h₁.low d rfl)
  · cases high₀ with
    | none => exact h₁.high
    | some c =>
      cases high₁ with
      | none => exact h₀.high
      | some d =>
        rintro _ ⟨⟩
        apply smallerConstant_fits (h₀.high c rfl) (h₁.high d rfl)

theorem highAt_rangeIntersection {n k : ℕ} {r₀ r₁ : MinmaxRange α} (h₀ : r₀.Fits n)
    (h₁ : r₁.Fits n) (hk : k < n) (same : Combinable r₀.high r₁.high) :
  highAt (rangeIntersection r₀ r₁).high k = min (highAt r₀.high k) (highAt r₁.high k)
  := by
  obtain ⟨low₀, high₀⟩ := r₀
  obtain ⟨low₁, high₁⟩ := r₁
  cases high₀ with
  | none => simp [rangeIntersection, highAt]
  | some c =>
    cases high₁ with
    | none => simp [rangeIntersection, highAt]
    | some d =>
      simp only [rangeIntersection, highAt]
      rw [smallerConstant_at (h₀.high c rfl) (h₁.high d rfl) hk (same c rfl d rfl),
        WithTop.coe_min]

theorem lowAt_rangeIntersection {n k : ℕ} {r₀ r₁ : MinmaxRange α} (h₀ : r₀.Fits n)
    (h₁ : r₁.Fits n) (hk : k < n) (same : Combinable r₀.low r₁.low) :
  lowAt (rangeIntersection r₀ r₁).low k = min (lowAt r₀.low k) (lowAt r₁.low k)
  := by
  obtain ⟨low₀, high₀⟩ := r₀
  obtain ⟨low₁, high₁⟩ := r₁
  cases low₀ with
  | none => simp [rangeIntersection, lowAt]
  | some c =>
    cases low₁ with
    | none => simp [rangeIntersection, lowAt]
    | some d =>
      simp only [rangeIntersection, lowAt]
      rw [largerConstant_at (h₀.low c rfl) (h₁.low d rfl) hk (same c rfl d rfl), toDual_max,
        WithTop.coe_min]

theorem combineRange_fits {n : ℕ} {ismin : Bool} {r₀ r₁ : MinmaxRange α} (h₀ : r₀.Fits n)
    (h₁ : r₁.Fits n) :
  (combineRange r₀ r₁ ismin).Fits n
  := by
  obtain ⟨low₀, high₀⟩ := r₀
  obtain ⟨low₁, high₁⟩ := r₁
  have smaller {c d : Constant α} := smallerConstant_fits (n := n) (a := c) (b := d)
  have larger {c d : Constant α} := largerConstant_fits (n := n) (a := c) (b := d)
  obtain ⟨hl₀, hh₀⟩ := h₀
  obtain ⟨hl₁, hh₁⟩ := h₁
  constructor
  · cases low₀ <;> cases low₁ <;> cases ismin <;> simp_all [combineRange]
  · cases high₀ <;> cases high₁ <;> cases ismin <;> simp_all [combineRange]

/-- The range of a minimum. -/
theorem combineRange_min {n k : ℕ} {r₀ r₁ : MinmaxRange α} (h₀ : r₀.Fits n) (h₁ : r₁.Fits n)
    (hk : k < n) (sameLow : Combinable r₀.low r₁.low) (sameHigh : Combinable r₀.high r₁.high) :
  lowAt (combineRange r₀ r₁ true).low k = max (lowAt r₀.low k) (lowAt r₁.low k) ∧
  highAt (combineRange r₀ r₁ true).high k = min (highAt r₀.high k) (highAt r₁.high k)
  := by
  obtain ⟨low₀, high₀⟩ := r₀
  obtain ⟨low₁, high₁⟩ := r₁
  constructor
  · cases low₀ with
    | none => simp [combineRange, lowAt]
    | some c =>
      cases low₁ with
      | none => simp [combineRange, lowAt]
      | some d =>
        simp only [combineRange, lowAt, ↓reduceIte]
        rw [smallerConstant_at (h₀.low c rfl) (h₁.low d rfl) hk (sameLow c rfl d rfl), toDual_min,
          WithTop.coe_max]
  · cases high₀ with
    | none => simp [combineRange, highAt]
    | some c =>
      cases high₁ with
      | none => simp [combineRange, highAt]
      | some d =>
        simp only [combineRange, highAt, ↓reduceIte]
        rw [smallerConstant_at (h₀.high c rfl) (h₁.high d rfl) hk (sameHigh c rfl d rfl),
          WithTop.coe_min]

/-- The range of a maximum. -/
theorem combineRange_max {n k : ℕ} {r₀ r₁ : MinmaxRange α} (h₀ : r₀.Fits n) (h₁ : r₁.Fits n)
    (hk : k < n) (sameLow : Combinable r₀.low r₁.low) (sameHigh : Combinable r₀.high r₁.high) :
  lowAt (combineRange r₀ r₁ false).low k = min (lowAt r₀.low k) (lowAt r₁.low k) ∧
  highAt (combineRange r₀ r₁ false).high k = max (highAt r₀.high k) (highAt r₁.high k)
  := by
  obtain ⟨low₀, high₀⟩ := r₀
  obtain ⟨low₁, high₁⟩ := r₁
  constructor
  · cases low₀ with
    | none => simp [combineRange, lowAt]
    | some c =>
      cases low₁ with
      | none => simp [combineRange, lowAt]
      | some d =>
        simp only [combineRange, lowAt, Bool.false_eq_true, ↓reduceIte]
        rw [largerConstant_at (h₀.low c rfl) (h₁.low d rfl) hk (sameLow c rfl d rfl), toDual_max,
          WithTop.coe_min]
  · cases high₀ with
    | none => simp [combineRange, highAt]
    | some c =>
      cases high₁ with
      | none => simp [combineRange, highAt]
      | some d =>
        simp only [combineRange, highAt, Bool.false_eq_true, ↓reduceIte]
        rw [largerConstant_at (h₀.high c rfl) (h₁.high d rfl) hk (sameHigh c rfl d rfl),
          WithTop.coe_max]

theorem combineRange_contains {n k : ℕ} {ismin : Bool} {r₀ r₁ : MinmaxRange α} {x y : α}
    (h₀ : r₀.Fits n) (h₁ : r₁.Fits n) (hk : k < n) (sameLow : Combinable r₀.low r₁.low)
    (sameHigh : Combinable r₀.high r₁.high) (hx : r₀.Contains k x) (hy : r₁.Contains k y) :
  (combineRange r₀ r₁ ismin).Contains k (operate ismin x y)
  := by
  cases ismin with
  | true =>
    obtain ⟨low, high⟩ := combineRange_min h₀ h₁ hk sameLow sameHigh
    constructor
    · rw [low, operate, if_pos rfl, toDual_min, WithTop.coe_max]
      apply max_le_max hx.low hy.low
    · rw [high, operate, if_pos rfl, WithTop.coe_min]
      apply min_le_min hx.high hy.high
  | false =>
    obtain ⟨low, high⟩ := combineRange_max h₀ h₁ hk sameLow sameHigh
    constructor
    · rw [low, operate, if_neg Bool.false_ne_true, toDual_max, WithTop.coe_min]
      apply min_le_min hx.low hy.low
    · rw [high, operate, if_neg Bool.false_ne_true, WithTop.coe_max]
      apply max_le_max hx.high hy.high

/-! ### Expressions -/

/-- The types of an expression are scalars, or vectors of so many components. -/
def Rvalue.Fits (n : ℕ) : Rvalue α → Prop
  | .constant c => c.Fits n
  | .other _ size => size = 1 ∨ size = n
  | .minMax _ size a b => (size = 1 ∨ size = n) ∧ a.Fits n ∧ b.Fits n
  | .swizzle _ size => size = 1 ∨ size = n

theorem getRange_fits {n : ℕ} {e : Rvalue α} (h : e.Fits n) :
  (getRange e).Fits n
  := by
  induction e with
  | constant c =>
    constructor
    · rintro _ ⟨⟩
      apply h
    · rintro _ ⟨⟩
      apply h
  | other id size => constructor <;> rintro _ ⟨⟩
  | minMax ismin size a b iha ihb => apply combineRange_fits (iha h.2.1) (ihb h.2.2)
  | swizzle rval size ih => constructor <;> rintro _ ⟨⟩

theorem contains_unlimited (k : ℕ) (x : α) :
  (MinmaxRange.mk none none).Contains k x
  := by
  constructor <;> apply le_top

/-- The range of an expression contains its value. -/
theorem getRange_contains {n k : ℕ} (env : ℕ → ℕ → α) {e : Rvalue α} (h : e.Fits n)
    (hk : k < n) (combinable : RangeCombinable e) :
  (getRange e).Contains k (e.components env k)
  := by
  induction e with
  | constant c => constructor <;> apply le_refl
  | other id size => apply contains_unlimited
  | minMax ismin size a b iha ihb =>
    obtain ⟨ca, cb, low, high⟩ := combinable
    apply combineRange_contains (getRange_fits h.2.1) (getRange_fits h.2.2) hk low high
      (iha h.2.1 ca) (ihb h.2.2 cb)
  | swizzle rval size ih => apply contains_unlimited

/-! ### The operands that are dropped -/

theorem operate_comm (ismin : Bool) (x y : α) :
  operate ismin x y = operate ismin y x
  := by
  cases ismin
  · apply max_comm
  · apply min_comm

/-- What makes an operand of a minimum redundant. -/
theorem examine_min_byOther {own other base : MinmaxRange α}
    (h : examine true own other base = .byOther) :
  ∃ c ∈ own.low, ∃ d ∈ other.high,
    CompareComponentsResult.equal.toNat ≤ (compareComponents c d).toNat ∧
    compareComponents c d ≠ .mixed
  := by
  obtain ⟨ownLow, ownHigh⟩ := own
  obtain ⟨otherLow, otherHigh⟩ := other
  obtain ⟨baseLow, baseHigh⟩ := base
  unfold examine at h
  cases ownLow <;> cases otherHigh <;> cases baseHigh <;>
    simp [CompareComponentsResult.toNat] at h ⊢ <;> grind

theorem examine_min_byBase {own other base : MinmaxRange α}
    (h : examine true own other base = .byBase) :
  ∃ c ∈ own.low, ∃ d ∈ base.high,
    CompareComponentsResult.equal.toNat < (compareComponents c d).toNat ∧
    compareComponents c d ≠ .mixed
  := by
  obtain ⟨ownLow, ownHigh⟩ := own
  obtain ⟨otherLow, otherHigh⟩ := other
  obtain ⟨baseLow, baseHigh⟩ := base
  unfold examine at h
  cases ownLow <;> cases otherHigh <;> cases baseHigh <;>
    simp [CompareComponentsResult.toNat] at h ⊢ <;> grind

/-- What makes an operand of a maximum redundant. -/
theorem examine_max_byOther {own other base : MinmaxRange α}
    (h : examine false own other base = .byOther) :
  ∃ c ∈ own.high, ∃ d ∈ other.low,
    (compareComponents c d).toNat ≤ CompareComponentsResult.equal.toNat
  := by
  obtain ⟨ownLow, ownHigh⟩ := own
  obtain ⟨otherLow, otherHigh⟩ := other
  obtain ⟨baseLow, baseHigh⟩ := base
  unfold examine examine.examineBase at h
  cases ownHigh <;> cases otherLow <;> cases baseLow <;>
    simp [CompareComponentsResult.toNat] at h ⊢ <;> grind

theorem examine_max_byBase {own other base : MinmaxRange α}
    (h : examine false own other base = .byBase) :
  ∃ c ∈ own.high, ∃ d ∈ base.low,
    (compareComponents c d).toNat < CompareComponentsResult.equal.toNat
  := by
  obtain ⟨ownLow, ownHigh⟩ := own
  obtain ⟨otherLow, otherHigh⟩ := other
  obtain ⟨baseLow, baseHigh⟩ := base
  unfold examine examine.examineBase at h
  cases ownHigh <;> cases otherLow <;> cases baseLow <;>
    simp [CompareComponentsResult.toNat] at h ⊢ <;> grind

/-- The dropped operand is beyond the other one. -/
theorem operate_of_byOther {n k : ℕ} {ismin : Bool} {own other base : MinmaxRange α} {x y : α}
    (ownFits : own.Fits n) (otherFits : other.Fits n) (hk : k < n)
    (examined : examine ismin own other base = .byOther) (hx : own.Contains k x)
    (hy : other.Contains k y) :
  operate ismin x y = y
  := by
  cases ismin with
  | true =>
    obtain ⟨c, hc, d, hd, le, unmixed⟩ := examine_min_byOther examined
    have holds := compareComponents_holds (ownFits.low c hc) (otherFits.high d hd) hk
    have between : d.at k ≤ c.at k := ge_of_le_toNat holds le unmixed
    have low : c.at k ≤ x := hx.le_of_mem_low hc
    have high : y ≤ d.at k := hy.le_of_mem_high hd
    apply min_eq_right (high.trans (between.trans low))
  | false =>
    obtain ⟨c, hc, d, hd, le⟩ := examine_max_byOther examined
    have holds := compareComponents_holds (ownFits.high c hc) (otherFits.low d hd) hk
    have between : c.at k ≤ d.at k := le_of_toNat_le holds le
    have high : x ≤ c.at k := hx.le_of_mem_high hc
    have low : d.at k ≤ y := hy.le_of_mem_low hd
    apply max_eq_right (high.trans (between.trans low))

/-- The dropped operand of a minimum passes the base range, or reaches it. -/
theorem past_high_of_byBase {n k : ℕ} {own other base : MinmaxRange α} {x : α}
    (ownFits : own.Fits n) (baseFits : base.Fits n) (hk : k < n)
    (examined : examine true own other base = .byBase) (hx : own.Contains k x) :
  highAt base.high k < x ∨ Reaches true own base k ∧ highAt base.high k ≤ x
  := by
  obtain ⟨c, hc, d, hd, lt, unmixed⟩ := examine_min_byBase examined
  have holds := compareComponents_holds (ownFits.low c hc) (baseFits.high d hd) hk
  have le : d.at k ≤ c.at k := ge_of_le_toNat holds lt.le unmixed
  have low := hx.le_of_mem_low hc
  have high : highAt base.high k = (d.at k : α) := by
    rw [hd, highAt]
  rw [high, WithTop.coe_lt_coe, WithTop.coe_le_coe]
  rcases le.lt_or_eq with less | same
  · exact .inl (less.trans_le low)
  · right
    constructor
    · simp only [Reaches, ↓reduceIte]
      exact ⟨c, hc, d, hd, same.symm⟩
    · exact le.trans low

/-- The dropped operand of a maximum. -/
theorem past_low_of_byBase {n k : ℕ} {own other base : MinmaxRange α} {x : α}
    (ownFits : own.Fits n) (baseFits : base.Fits n) (hk : k < n)
    (examined : examine false own other base = .byBase) (hx : own.Contains k x) :
  lowAt base.low k < toDual x ∨ Reaches false own base k ∧ lowAt base.low k ≤ toDual x
  := by
  obtain ⟨c, hc, d, hd, lt⟩ := examine_max_byBase examined
  have holds := compareComponents_holds (ownFits.high c hc) (baseFits.low d hd) hk
  have le : c.at k ≤ d.at k := le_of_toNat_lt holds lt
  have high := hx.le_of_mem_high hc
  have low : lowAt base.low k = (toDual (d.at k) : αᵒᵈ) := by
    rw [hd, lowAt]
  rw [low, WithTop.coe_lt_coe, WithTop.coe_le_coe, toDual_lt_toDual, toDual_le_toDual]
  rcases le.lt_or_eq with less | same
  · exact .inl (high.trans_lt less)
  · right
    constructor
    · simp only [Reaches, Bool.false_eq_true, ↓reduceIte]
      exact ⟨c, hc, d, hd, same⟩
    · exact high.trans le

/-- What the loop over the operands finds holds of them. -/
def Plan.Holds (ismin : Bool) (a b : Rvalue α) (base : MinmaxRange α) : Plan α → Prop
  | .drop₀ byBase =>
    examine ismin (getRange a) (getRange b) base = if byBase then .byBase else .byOther
  | .drop₁ byBase =>
    examine ismin (getRange b) (getRange a) base = if byBase then .byBase else .byOther
  | .combine c d => a = .constant c ∧ b = .constant d
  | .descend => True

theorem plan_holds (ismin : Bool) (a b : Rvalue α) (base : MinmaxRange α) :
  (plan ismin a b base).Holds ismin a b base
  := by
  unfold plan
  split
  next h => apply h
  next h => apply h
  next cr₀ _ =>
    split
    next c d h =>
      split at h
      · apply eq_of_asConstants h
      · cases h
    next =>
      split
      next h => apply h
      next h => apply h
      next cr₁ _ =>
        split
        next c d h =>
          split at h
          · apply eq_of_asConstants h
          · cases h
        next => trivial

/-- An operand that is dropped is not missed, as far as the window shows. -/
theorem agree_of_drop {n k : ℕ} {ismin byBase : Bool} {own other base : MinmaxRange α}
    {x y z : α} {p q : Prop} (ownFits : own.Fits n) (otherFits : other.Fits n)
    (baseFits : base.Fits n) (hk : k < n)
    (examined : examine ismin own other base = if byBase then .byBase else .byOther)
    (hx : own.Contains k x) (hy : other.Contains k y)
    (agree : Window.Agree (lowAt base.low k) (highAt base.high k) p q y z) :
  Window.Agree (lowAt base.low k) (highAt base.high k)
    ((ismin = false ∧ byBase ∧ Reaches false own base k) ∨ p)
    ((ismin = true ∧ byBase ∧ Reaches true own base k) ∨ q) (operate ismin x y) z
  := by
  cases byBase with
  | false =>
    rw [operate_of_byOther ownFits otherFits hk examined hx hy]
    apply agree.imp .inr .inr
  | true =>
    cases ismin with
    | true =>
      have past := past_high_of_byBase ownFits baseFits hk examined hx
      have dropped := agree.min_drop past
      apply dropped.imp .inr
      rintro (reaches | drops)
      · exact .inl ⟨rfl, rfl, reaches⟩
      · exact .inr drops
    | false =>
      have past := past_low_of_byBase ownFits baseFits hk examined hx
      have dropped := agree.max_drop past
      apply dropped.imp ?_ .inr
      rintro (reaches | drops)
      · exact .inl ⟨rfl, rfl, reaches⟩
      · exact .inr drops

/-! ### The pruned expression -/

/-- What an operand is pruned for. -/
theorem operandBase_fits {n : ℕ} {ismin : Bool} {other base : MinmaxRange α}
    (otherFits : other.Fits n) (baseFits : base.Fits n) :
  (operandBase ismin other base).Fits n
  := by
  apply rangeIntersection_fits _ baseFits
  cases ismin with
  | true => exact ⟨by simp, otherFits.high⟩
  | false => exact ⟨otherFits.low, by simp⟩

theorem operandBase_min {n k : ℕ} {other base : MinmaxRange α} (otherFits : other.Fits n)
    (baseFits : base.Fits n) (hk : k < n) (same : Combinable other.high base.high) :
  lowAt (operandBase true other base).low k = lowAt base.low k ∧
  highAt (operandBase true other base).high k = min (highAt other.high k) (highAt base.high k)
  := by
  have fits : MinmaxRange.Fits n { other with low := none } := ⟨by simp, otherFits.high⟩
  constructor
  · rfl
  · apply highAt_rangeIntersection fits baseFits hk same

theorem operandBase_max {n k : ℕ} {other base : MinmaxRange α} (otherFits : other.Fits n)
    (baseFits : base.Fits n) (hk : k < n) (same : Combinable other.low base.low) :
  lowAt (operandBase false other base).low k = min (lowAt other.low k) (lowAt base.low k) ∧
  highAt (operandBase false other base).high k = highAt base.high k
  := by
  have fits : MinmaxRange.Fits n { other with high := none } := ⟨otherFits.low, by simp⟩
  constructor
  · apply lowAt_rangeIntersection fits baseFits hk same
  · rfl

/-- What is left of an expression has a type that fits. -/
theorem pruneExpression_fits {n : ℕ} {e : Rvalue α} (fits : e.Fits n) (base : MinmaxRange α) :
  (pruneExpression e base).Fits n
  := by
  induction e generalizing base with
  | constant c => apply fits
  | other id size => apply fits
  | swizzle rval size ih => apply fits
  | minMax ismin size a b iha ihb =>
    obtain ⟨hsize, fitsA, fitsB⟩ := fits
    have holds := plan_holds ismin a b base
    unfold pruneExpression
    split
    next => apply ihb fitsB
    next => apply iha fitsA
    next c d h =>
      rw [h] at holds
      obtain ⟨rfl, rfl⟩ := holds
      apply combineConstant_fits fitsA
    next =>
      have fitsA' := iha fitsA (operandBase ismin (getRange b) base)
      have fitsB' := ihb fitsB (operandBase ismin (getRange a) base)
      simp only
      split
      next c d h =>
        obtain ⟨eqA, eqB⟩ := eq_of_asConstants h
        rw [eqA] at fitsA'
        apply combineConstant_fits fitsA'
      next => exact ⟨hsize, fitsA', fitsB'⟩

/-- The value of an expression. -/
theorem components_minMax (env : ℕ → ℕ → α) (ismin : Bool) (size : ℕ) (a b : Rvalue α) (k : ℕ) :
  (Rvalue.minMax ismin size a b).components env k =
    operate ismin (a.components env k) (b.components env k)
  := rfl

/-- The operands of an expression that changed in their windows. -/
theorem agree_of_operands {n k : ℕ} {ismin : Bool} {r₀ r₁ base : MinmaxRange α} {x y x' y' : α}
    {p₀ q₀ p₁ q₁ : Prop} (fits₀ : r₀.Fits n) (fits₁ : r₁.Fits n) (baseFits : base.Fits n)
    (hk : k < n)
    (same : if ismin then Combinable r₁.high base.high ∧ Combinable r₀.high base.high
      else Combinable r₁.low base.low ∧ Combinable r₀.low base.low)
    (hx : r₀.Contains k x) (hy : r₁.Contains k y)
    (agree₀ : Window.Agree (lowAt (operandBase ismin r₁ base).low k)
      (highAt (operandBase ismin r₁ base).high k) p₀ q₀ x x')
    (agree₁ : Window.Agree (lowAt (operandBase ismin r₀ base).low k)
      (highAt (operandBase ismin r₀ base).high k) p₁ q₁ y y')
    (once : ¬ (if ismin then q₀ ∧ q₁ else p₀ ∧ p₁)) :
  Window.Agree (lowAt base.low k) (highAt base.high k) (p₀ ∨ p₁) (q₀ ∨ q₁) (operate ismin x y)
    (operate ismin x' y')
  := by
  cases ismin with
  | true =>
    obtain ⟨low₁, high₁⟩ := operandBase_min fits₁ baseFits hk same.1
    obtain ⟨low₀, high₀⟩ := operandBase_min fits₀ baseFits hk same.2
    rw [low₁, high₁] at agree₀
    rw [low₀, high₀] at agree₁
    apply Window.Agree.minimum hx.high hy.high agree₀ agree₁ once
  | false =>
    obtain ⟨low₁, high₁⟩ := operandBase_max fits₁ baseFits hk same.1
    obtain ⟨low₀, high₀⟩ := operandBase_max fits₀ baseFits hk same.2
    rw [low₁, high₁] at agree₀
    rw [low₀, high₀] at agree₁
    apply Window.Agree.maximum hx.low hy.low agree₀ agree₁ once

/-- An expression and what is left of it agree as far as the window of the base range shows. -/
theorem pruneExpression_agree (env : ℕ → ℕ → α) {n k : ℕ} (hk : k < n) {e : Rvalue α}
    {base : MinmaxRange α} (fits : e.Fits n) (baseFits : base.Fits n)
    (combinable : RangeCombinable e) (careful : Careful n e base) :
  Window.Agree (lowAt base.low k) (highAt base.high k) (Drops false e base k) (Drops true e base k)
    (e.components env k) ((pruneExpression e base).components env k)
  := by
  induction e generalizing base with
  | constant c => exact .inl rfl
  | other id size => exact .inl rfl
  | swizzle rval size ih => exact .inl rfl
  | minMax ismin size a b iha ihb =>
    obtain ⟨-, fitsA, fitsB⟩ := fits
    obtain ⟨combinableA, combinableB, -, -⟩ := combinable
    have rangeA := getRange_fits fitsA
    have rangeB := getRange_fits fitsB
    have containsA := getRange_contains env fitsA hk combinableA
    have containsB := getRange_contains env fitsB hk combinableB
    have holds := plan_holds ismin a b base
    rw [components_minMax]
    unfold Careful at careful
    unfold pruneExpression Drops
    generalize plan ismin a b base = found at holds careful
    cases found with
    | drop₀ byBase =>
      apply agree_of_drop rangeA rangeB baseFits hk holds containsA containsB
      apply ihb fitsB baseFits combinableB careful
    | drop₁ byBase =>
      rw [operate_comm]
      apply agree_of_drop rangeB rangeA baseFits hk holds containsB containsA
      apply iha fitsA baseFits combinableA careful
    | combine c d =>
      obtain ⟨rfl, rfl⟩ := holds
      left
      symm
      apply combineConstant_at fitsA careful hk
    | descend =>
      obtain ⟨carefulA, carefulB, same, sizes, once⟩ := careful
      have baseA : (operandBase ismin (getRange b) base).Fits n := operandBase_fits rangeB baseFits
      have baseB : (operandBase ismin (getRange a) base).Fits n := operandBase_fits rangeA baseFits
      have agreeA := iha fitsA baseA combinableA carefulA
      have agreeB := ihb fitsB baseB combinableB carefulB
      have agree := agree_of_operands rangeA rangeB baseFits hk same containsA containsB agreeA
        agreeB (by have := once k hk; cases ismin <;> simpa using this)
      simp only
      split
      next c d h =>
        have fitsA' := pruneExpression_fits fitsA (operandBase ismin (getRange b) base)
        obtain ⟨eqA, eqB⟩ := eq_of_asConstants h
        rw [eqA] at agree fitsA'
        rw [eqB] at agree
        have value : (combineConstant ismin c d).at k = operate ismin (c.at k) (d.at k) :=
          combineConstant_at fitsA' (sizes c d h) hk
        rw [Rvalue.components, ← Constant.at, value]
        apply agree
      next => apply agree

/-! ### Types -/

omit [LinearOrder α] in
theorem size_pos {e : Rvalue α} (typed : Typed e) :
  0 < e.size
  := by
  induction e with
  | constant c => exact typed
  | other id size => exact typed
  | swizzle rval size ih => exact typed
  | minMax ismin size a b iha ihb =>
    obtain ⟨ha, -, hsize, -⟩ := typed
    rw [Rvalue.size, hsize]
    apply lt_max_of_lt_left (iha ha)

omit [LinearOrder α] in
theorem Rvalue.Fits.size {n : ℕ} {e : Rvalue α} (fits : e.Fits n) :
  e.size = 1 ∨ e.size = n
  := by
  cases e with
  | constant c => exact fits
  | other id size => exact fits
  | swizzle rval size => exact fits
  | minMax ismin size a b => exact fits.1

omit [LinearOrder α] in
/-- The types in an expression are scalars, or vectors of the number of components of the
expression. -/
theorem fits_of_typed {n : ℕ} {e : Rvalue α} (typed : Typed e) (size : e.size = 1 ∨ e.size = n) :
  e.Fits n
  := by
  induction e with
  | constant c => exact size
  | other id size' => exact size
  | swizzle rval size' ih => exact size
  | minMax ismin size' a b iha ihb =>
    obtain ⟨ha, hb, hsize, mixed⟩ := typed
    have posA := size_pos ha
    have posB := size_pos hb
    refine ⟨size, iha ha ?_, ihb hb ?_⟩ <;> simp only [Rvalue.size] at size <;> omega

theorem components_of_scalar (env : ℕ → ℕ → α) {e : Rvalue α} (fits : e.Fits 1) (k : ℕ) :
  e.components env k = e.components env 0
  := by
  induction e with
  | constant c =>
    have scalar : c.size = 1 := or_self_iff.mp fits
    simp [Rvalue.components, Constant.inc, scalar]
  | other id size =>
    have scalar : size = 1 := or_self_iff.mp fits
    simp [Rvalue.components, scalar]
  | swizzle rval size ih => rfl
  | minMax ismin size a b iha ihb =>
    rw [components_minMax, components_minMax, iha fits.2.1, ihb fits.2.2]

/-- What is left of an expression has scalar operands when its own type is a scalar. -/
theorem pruneExpression_scalar {e : Rvalue α} (typed : Typed e) (base : MinmaxRange α)
    (scalar : (pruneExpression e base).size = 1) :
  (pruneExpression e base).Fits 1
  := by
  induction e generalizing base with
  | constant c => exact .inl scalar
  | other id size => exact .inl scalar
  | swizzle rval size ih => exact .inl scalar
  | minMax ismin size a b iha ihb =>
    obtain ⟨ha, hb, hsize, mixed⟩ := id typed
    unfold pruneExpression at scalar ⊢
    generalize plan ismin a b base = found at scalar
    cases found with
    | drop₀ byBase => apply ihb hb base scalar
    | drop₁ byBase => apply iha ha base scalar
    | combine c d => exact .inl scalar
    | descend =>
      simp only at scalar ⊢
      split at scalar
      next => exact .inl scalar
      next =>
        have one : size = 1 := scalar
        have whole : (Rvalue.minMax ismin size a b).Fits 1 := fits_of_typed typed (.inl one)
        exact ⟨.inl one, pruneExpression_fits whole.2.1 _, pruneExpression_fits whole.2.2 _⟩

/-- No limit is taken from the expression as a whole. -/
theorem eq_of_agree {x y : α} {p q : Prop} {k : ℕ}
    (h : Window.Agree (lowAt (none : Option (Constant α)) k) (highAt (none : Option (Constant α)) k) p q
      x y) :
  x = y
  := by
  simpa [Window.Agree, Past, lowAt, highAt] using h

/-- The constant with these components, and cleared entries after them. -/
def Constant.ofList (l : List ℤ) : Constant ℤ := ⟨l.length, fun i => l.getD i 0⟩

/-- `min(ivec2(1, 5), 3)` -/
def scalarMinimum : Rvalue ℤ :=
  .minMax true 2 (.constant (.ofList [1, 5])) (.constant (.ofList [3]))

/-- `min(min(min(a, ivec2(2, 5)), min(b, ivec2(3, 5))), ivec2(1, 10))` -/
def nestedMinimum : Rvalue ℤ :=
  .minMax true 2
    (.minMax true 2 (.minMax true 2 (.other 0 2) (.constant (.ofList [2, 5])))
      (.minMax true 2 (.other 1 2) (.constant (.ofList [3, 5]))))
    (.constant (.ofList [1, 10]))

end Glsl.MinMax
