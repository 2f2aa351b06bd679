import Mathlib.Data.Int.Log
import Mathlib.Data.Rat.Floor
import Mathlib.Tactic.Positivity

/-!
# Binary floating-point numbers

The formats of IEEE 754: a number without its sign is a pattern of an exponent of `w` bits and a
fraction of `p` bits.  The values of the patterns grow with the patterns, also beyond the pattern of
infinity, and numbers are rounded to the nearest one, to the even one of two that are as near.
-/

namespace BinaryFloat

/-! ### Rounding to integers -/

/-- The nearest integer, the even one of two. -/
def roundEven (q : ℚ) : ℤ :=
  if q - ⌊q⌋ < 1 / 2 then ⌊q⌋
  else if 1 / 2 < q - ⌊q⌋ then ⌊q⌋ + 1
  else if ⌊q⌋ % 2 = 0 then ⌊q⌋ else ⌊q⌋ + 1

theorem roundEven_intCast (n : ℤ) :
  roundEven n = n
  := by
  rw [roundEven, Int.floor_intCast, sub_self, if_pos (by norm_num)]

theorem le_roundEven {n : ℤ} {q : ℚ} (h : n ≤ q) :
  n ≤ roundEven q
  := by
  have hfloor := Int.le_floor.mpr h
  unfold roundEven
  split_ifs <;> omega

theorem roundEven_le {n : ℤ} {q : ℚ} (h : q ≤ n) :
  roundEven q ≤ n
  := by
  have hfloor := Int.floor_le q
  rcases h.lt_or_eq with hlt | rfl
  · have hlt' := Int.floor_lt.mpr hlt
    unfold roundEven
    split_ifs <;> omega
  · rw [roundEven_intCast]

/-- An even number is added before or after the rounding. -/
theorem roundEven_add {n : ℤ} (hn : n % 2 = 0) (q : ℚ) :
  roundEven (n + q) = n + roundEven q
  := by
  have hfloor : ⌊(n : ℚ) + q⌋ = n + ⌊q⌋ := Int.floor_intCast_add n q
  have hdiff : (n : ℚ) + q - (n + ⌊q⌋ : ℤ) = q - ⌊q⌋ := by
    push_cast
    ring
  have hparity : (n + ⌊q⌋) % 2 = ⌊q⌋ % 2 := by omega
  unfold roundEven
  rw [hfloor, hdiff, hparity]
  split_ifs <;> ring

/-- A number below a half is rounded to 0. -/
theorem roundEven_eq_zero {q : ℚ} (h : 0 ≤ q) (hlt : q < 1 / 2) :
  roundEven q = 0
  := by
  have hfloor : ⌊q⌋ = 0 := Int.floor_eq_zero_iff.mpr ⟨h, by linarith⟩
  rw [roundEven, hfloor, Int.cast_zero, sub_zero, if_pos hlt]

/-! ### The nearest of a sequence -/

/-- A number of a sequence is the nearest one to a number, and the even one of two. -/
structure IsNearest (v : ℕ → ℚ) (x : ℚ) (M : ℕ) : Prop where
  nearest : ∀ N, |x - v M| ≤ |x - v N|
  even : ∀ N, N ≠ M → |x - v N| = |x - v M| → M % 2 = 0

/-- The lower one of two neighbours. -/
theorem isNearest_lower {v : ℕ → ℚ} (hv : StrictMono v) {x : ℚ} {K : ℕ} (hlo : v K ≤ x)
    (hmid : 2 * x ≤ v K + v (K + 1)) (heven : 2 * x = v K + v (K + 1) → K % 2 = 0) :
  IsNearest v x K
  := by
  have habs : |x - v K| = x - v K := abs_of_nonneg (by linarith)
  constructor
  · intro N
    rw [habs]
    rcases Nat.lt_or_ge K N with hlt | hge
    · have hmono := hv.monotone hlt
      have habs' := neg_abs_le (x - v N)
      have hle : v (K + 1) ≤ v N := hmono
      linarith
    · have hmono := hv.monotone hge
      have habs' := le_abs_self (x - v N)
      linarith
  · intro N hne heq
    apply heven
    rw [habs] at heq
    rcases Nat.lt_or_gt_of_ne hne with hlt | hgt
    · have hmono := hv hlt
      rw [abs_of_nonneg (by linarith)] at heq
      linarith
    · have hle : v (K + 1) ≤ v N := hv.monotone hgt
      have hmono := hv hgt
      rw [abs_of_nonpos (by linarith)] at heq
      linarith

/-- The upper one of two neighbours. -/
theorem isNearest_upper {v : ℕ → ℚ} (hv : StrictMono v) {x : ℚ} {K : ℕ} (hhi : x ≤ v (K + 1))
    (hmid : v K + v (K + 1) ≤ 2 * x) (heven : 2 * x = v K + v (K + 1) → K % 2 = 1) :
  IsNearest v x (K + 1)
  := by
  have habs : |x - v (K + 1)| = v (K + 1) - x := by
    rw [abs_of_nonpos (by linarith), neg_sub]
  constructor
  · intro N
    rw [habs]
    rcases Nat.lt_or_ge K N with hlt | hge
    · have hle : v (K + 1) ≤ v N := hv.monotone hlt
      have habs' := neg_abs_le (x - v N)
      linarith
    · have hmono := hv.monotone hge
      have habs' := le_abs_self (x - v N)
      linarith
  · intro N hne heq
    suffices K % 2 = 1 by omega
    apply heven
    rw [habs] at heq
    rcases Nat.lt_or_gt_of_ne hne with hlt | hgt
    · have hmono := hv.monotone (Nat.le_of_lt_succ hlt)
      have hmono' := hv (Nat.lt_succ_self K)
      rw [abs_of_nonneg (by linarith)] at heq
      linarith
    · have hmono := hv hgt
      rw [abs_of_nonpos (by linarith)] at heq
      linarith

/-- The numbers between two neighbours that are multiples of a number. -/
theorem isNearest_of_floor {v : ℕ → ℚ} (hv : StrictMono v) {t u : ℚ} (hu : 0 < u) {k K : ℕ}
    (hk : ⌊t⌋ = k) (hvk : v K = k * u) (hvk' : v (K + 1) = (k + 1) * u) (hK : K % 2 = k % 2) :
  IsNearest v (t * u) (K + ((roundEven t).toNat - k))
  := by
  have hcut : (⌊t⌋ : ℚ) = k := by
    rw [hk]
    norm_cast
  have hfloor : (k : ℚ) ≤ t := by
    rw [← hcut]
    exact Int.floor_le t
  have hceil : t ≤ k + 1 := by
    rw [← hcut]
    exact (Int.lt_floor_add_one t).le
  have hlo : v K ≤ t * u := by
    rw [hvk]
    exact mul_le_mul_of_nonneg_right hfloor hu.le
  have hhi : t * u ≤ v (K + 1) := by
    rw [hvk']
    exact mul_le_mul_of_nonneg_right hceil hu.le
  have hmid : v K + v (K + 1) = (2 * k + 1) * u := by
    rw [hvk, hvk']
    ring
  have hdouble : 2 * (t * u) = 2 * t * u := by ring
  have hlower (hle : 2 * t ≤ 2 * k + 1) (heven : 2 * t = 2 * k + 1 → k % 2 = 0) :
      IsNearest v (t * u) K := by
    apply isNearest_lower hv hlo
    · rw [hmid, hdouble]
      exact mul_le_mul_of_nonneg_right hle hu.le
    · rw [hmid, hdouble, hK]
      intro heq
      exact heven (mul_right_cancel₀ hu.ne' heq)
  have hupper (hle : 2 * k + 1 ≤ 2 * t) (hodd : 2 * t = 2 * k + 1 → k % 2 = 1) :
      IsNearest v (t * u) (K + 1) := by
    apply isNearest_upper hv hhi
    · rw [hmid, hdouble]
      exact mul_le_mul_of_nonneg_right hle hu.le
    · rw [hmid, hdouble, hK]
      intro heq
      exact hodd (mul_right_cancel₀ hu.ne' heq)
  have hnat : (k : ℤ).toNat - k = 0 := by rw [Int.toNat_natCast, Nat.sub_self]
  have hsucc : ((k : ℤ) + 1).toNat - k = 1 := by omega
  unfold roundEven
  rw [hcut, hk]
  split_ifs with hbelow habove hparity
  · rw [hnat]
    apply hlower
    · linarith
    · intro heq
      linarith
  · rw [hsucc]
    apply hupper
    · linarith
    · intro heq
      linarith
  · rw [hnat]
    apply hlower
    · linarith
    · intro _
      omega
  · rw [hsucc]
    apply hupper
    · linarith
    · intro _
      omega

/-! ### Formats -/

/-- The exponent of the least number that is not 0. -/
def minExp (p w : ℕ) : ℤ := 2 - 2 ^ (w - 1) - p

/-- The value of a pattern without its sign. -/
def magValue (p w M : ℕ) : ℚ :=
  if M / 2 ^ p = 0 then (M % 2 ^ p : ℕ) * 2 ^ minExp p w
  else (2 ^ p + M % 2 ^ p : ℕ) * 2 ^ ((M / 2 ^ p : ℕ) - 1 + minExp p w)

/-- The pattern of infinity. -/
def infinity (p w : ℕ) : ℕ := (2 ^ w - 1) * 2 ^ p

variable {p w : ℕ}

/-- The numbers of one exponent, up to the first of the next one, are multiples of a power. -/
theorem magValue_add {a n : ℕ} (h : a = 0 ∨ 2 ^ p ≤ n) (hn : n ≤ 2 * 2 ^ p) :
  magValue p w (a * 2 ^ p + n) = n * 2 ^ (a + minExp p w)
  := by
  have hpos := Nat.two_pow_pos p
  have hdiv : (a * 2 ^ p + n) / 2 ^ p = a + n / 2 ^ p := by
    rw [Nat.add_comm, Nat.add_mul_div_right _ _ hpos, Nat.add_comm]
  have hmod : (a * 2 ^ p + n) % 2 ^ p = n % 2 ^ p := by
    rw [Nat.add_comm, Nat.add_mul_mod_self_right]
  rw [magValue, hdiv, hmod]
  rcases Nat.lt_or_ge n (2 ^ p) with hlt | hge
  · obtain rfl : a = 0 := by omega
    rw [Nat.div_eq_of_lt hlt, Nat.mod_eq_of_lt hlt, if_pos rfl, Nat.cast_zero, zero_add]
  · rcases hn.lt_or_eq with hlt | rfl
    · have hone : n / 2 ^ p = 1 := by
        apply Nat.div_eq_of_lt_le <;> omega
      have hsum : 2 ^ p + n % 2 ^ p = n := by
        have hdecomp := Nat.div_add_mod n (2 ^ p)
        rw [hone, Nat.mul_one] at hdecomp
        exact hdecomp
      rw [hone, if_neg (Nat.succ_ne_zero a), hsum]
      push_cast
      rw [add_sub_cancel_right]
    · rw [Nat.mul_div_cancel _ hpos, Nat.mul_mod_left, if_neg (Nat.succ_ne_zero _), Nat.add_zero]
      push_cast
      rw [show (a : ℤ) + 2 - 1 + minExp p w = a + minExp p w + 1 by ring,
        zpow_add_one₀ two_ne_zero]
      ring

/-- Every pattern has an exponent and is one of the numbers of this exponent. -/
theorem exists_eq_add (p M : ℕ) :
  ∃ a n, M = a * 2 ^ p + n ∧ (a = 0 ∨ 2 ^ p ≤ n) ∧ n < 2 * 2 ^ p
  := by
  have hpos := Nat.two_pow_pos p
  have hdecomp := Nat.div_add_mod M (2 ^ p)
  have hlt := Nat.mod_lt M hpos
  rw [Nat.mul_comm] at hdecomp
  cases hdiv : M / 2 ^ p with
  | zero =>
    refine ⟨0, M % 2 ^ p, ?_, Or.inl rfl, by omega⟩
    rw [hdiv] at hdecomp
    exact hdecomp.symm
  | succ a =>
    refine ⟨a, 2 ^ p + M % 2 ^ p, ?_, Or.inr (Nat.le_add_right _ _), by omega⟩
    rw [hdiv, Nat.succ_mul] at hdecomp
    omega

theorem magValue_strictMono :
  StrictMono (magValue p w)
  := by
  apply strictMono_nat_of_lt_succ
  intro M
  obtain ⟨a, n, rfl, h, hn⟩ := exists_eq_add p M
  rw [Nat.add_assoc, magValue_add h hn.le, magValue_add (by omega) (by omega)]
  apply mul_lt_mul_of_pos_right
  · exact_mod_cast Nat.lt_succ_self n
  · exact zpow_pos two_pos _

/-- The value of a pattern of an exponent that is not 0. -/
theorem magValue_normal {e m : ℕ} (hm : m < 2 ^ p) :
  magValue p w ((e + 1) * 2 ^ p + m) = (2 ^ p + m : ℕ) * 2 ^ (e + minExp p w)
  := by
  rw [Nat.succ_mul, Nat.add_assoc]
  exact magValue_add (Or.inr (Nat.le_add_right _ _)) (by omega)

/-- The value of a pattern of the exponent 0. -/
theorem magValue_subnormal {m : ℕ} (hm : m < 2 ^ p) :
  magValue p w m = m * 2 ^ minExp p w
  := by
  have hadd := @magValue_add p w 0 m (Or.inl rfl) (by omega)
  rwa [Nat.zero_mul, Nat.zero_add, Nat.cast_zero, zero_add] at hadd

theorem magValue_zero :
  magValue p w 0 = 0
  := by
  simp [magValue]

theorem magValue_nonneg (M : ℕ) :
  0 ≤ magValue p w M
  := by
  rw [← @magValue_zero p w]
  exact magValue_strictMono.monotone (Nat.zero_le M)

/-! ### The nearest number -/

/-- A number of one exponent is rounded to the nearest multiple of its power. -/
theorem isNearest_add (hp : 0 < p) {a : ℕ} {t : ℚ} (ht : 0 ≤ t) (h : a = 0 ∨ 2 ^ p ≤ t)
    (hle : t ≤ 2 * 2 ^ p) :
  IsNearest (magValue p w) (t * 2 ^ (a + minExp p w)) (a * 2 ^ p + (roundEven t).toNat)
  := by
  have hunit : (0 : ℚ) < 2 ^ (a + minExp p w) := zpow_pos two_pos _
  obtain ⟨k, hk⟩ := Int.eq_ofNat_of_zero_le (Int.floor_nonneg.mpr ht)
  have hfloor : (k : ℚ) ≤ t := by
    have hf := Int.floor_le t
    rw [hk] at hf
    exact_mod_cast hf
  have hceil : t < k + 1 := by
    have hf := Int.lt_floor_add_one t
    rw [hk] at hf
    exact_mod_cast hf
  have hlow : a = 0 ∨ 2 ^ p ≤ k := by
    apply h.imp_right
    intro hge
    have hlt : (2 ^ p : ℚ) < k + 1 := lt_of_le_of_lt hge hceil
    have hlt' : 2 ^ p < k + 1 := by exact_mod_cast hlt
    omega
  have hkle : k ≤ 2 * 2 ^ p := by
    have hle' : (k : ℚ) ≤ 2 * 2 ^ p := le_trans hfloor hle
    exact_mod_cast hle'
  have hvk := @magValue_add p w a k hlow hkle
  rcases hkle.eq_or_lt with hlast | hlt
  · -- the number is the first one of the next exponent
    have hexact : t = (k : ℤ) := by
      apply le_antisymm
      · rw [hlast]
        exact_mod_cast hle
      · exact_mod_cast hfloor
    have hval : t * 2 ^ (a + minExp p w) = magValue p w (a * 2 ^ p + k) := by
      rw [hvk, hexact]
      norm_cast
    rw [hval, hexact, roundEven_intCast, Int.toNat_natCast]
    have hgrow : magValue p w (a * 2 ^ p + k) < magValue p w (a * 2 ^ p + k + 1) :=
      magValue_strictMono (Nat.lt_succ_self _)
    apply isNearest_lower magValue_strictMono le_rfl
    · linarith
    · intro heq
      linarith
  · have hvk' : magValue p w (a * 2 ^ p + k + 1) = (k + 1) * 2 ^ (a + minExp p w) := by
      rw [Nat.add_assoc, magValue_add (by omega) hlt]
      push_cast
      ring
    have hparity : (a * 2 ^ p + k) % 2 = k % 2 := by
      obtain ⟨j, rfl⟩ : ∃ j, p = j + 1 := ⟨p - 1, by omega⟩
      rw [Nat.pow_succ, ← Nat.mul_assoc, Nat.add_comm, Nat.add_mul_mod_self_right]
    have hround : k ≤ (roundEven t).toNat := by
      have hle' : (k : ℤ) ≤ roundEven t := le_roundEven (by exact_mod_cast hfloor)
      omega
    have hnearest := isNearest_of_floor magValue_strictMono hunit hk hvk hvk' hparity
    rwa [Nat.add_assoc, Nat.add_sub_cancel' hround] at hnearest

/-! ### Overflow -/

/-- The number from which on numbers are rounded to infinity. -/
def threshold (p w : ℕ) : ℚ := (2 - 1 / 2 ^ (p + 1)) * 2 ^ (2 ^ (w - 1) - 1)

/-- The pattern that a number is rounded to: the nearest one, the even one of two, or the one of
infinity for numbers that are too large. -/
structure IsRounded (p w : ℕ) (x : ℚ) (M : ℕ) : Prop where
  overflow : threshold p w ≤ x → M = infinity p w
  lt_infinity : x < threshold p w → M < infinity p w
  nearest : x < threshold p w → ∀ N < infinity p w,
    |x - magValue p w M| ≤ |x - magValue p w N|
  even : x < threshold p w → ∀ N < infinity p w, N ≠ M →
    |x - magValue p w N| = |x - magValue p w M| → M % 2 = 0

theorem four_le_two_pow (hw : 2 ≤ w) :
  4 ≤ 2 ^ w
  := Nat.pow_le_pow_right Nat.two_pos hw

theorem magValue_infinity (hw : 2 ≤ w) :
  magValue p w (infinity p w) = 2 ^ 2 ^ (w - 1)
  := by
  have hfour := four_le_two_pow hw
  have hinf : infinity p w = (2 ^ w - 2) * 2 ^ p + 2 ^ p := by
    rw [infinity, ← Nat.succ_mul]
    congr 1
    omega
  have hexp : (p : ℤ) + ((2 ^ w - 2 : ℕ) + minExp p w) = (2 ^ (w - 1) : ℕ) := by
    obtain ⟨j, rfl⟩ : ∃ j, w = j + 1 := ⟨w - 1, by omega⟩
    rw [minExp, Nat.add_sub_cancel, Nat.cast_sub (by omega)]
    push_cast
    ring
  rw [hinf, magValue_add (Or.inr le_rfl) (by omega), Nat.cast_pow, Nat.cast_two, ← zpow_natCast,
    ← zpow_add₀ two_ne_zero, hexp, zpow_natCast]

/-- The threshold is in the middle between the largest number and infinity. -/
theorem threshold_eq (hw : 2 ≤ w) :
  2 * threshold p w = magValue p w (infinity p w - 1) + magValue p w (infinity p w)
  := by
  have hfour := four_le_two_pow hw
  have hpos := Nat.two_pow_pos p
  have hinf : infinity p w - 1 = (2 ^ w - 3) * 2 ^ p + (2 * 2 ^ p - 1) := by
    have hsum : 2 ^ w - 1 = 2 ^ w - 3 + 2 := by omega
    rw [infinity, hsum, Nat.add_mul]
    omega
  have hlast : magValue p w (infinity p w - 1) =
      (2 * 2 ^ p - 1) * 2 ^ ((2 ^ w - 3 : ℕ) + minExp p w) := by
    rw [hinf, magValue_add (by omega) (by omega), Nat.cast_sub (by omega)]
    push_cast
    rfl
  have hexp : (p : ℤ) + ((2 ^ w - 3 : ℕ) + minExp p w) = (2 ^ (w - 1) - 1 : ℕ) := by
    obtain ⟨j, rfl⟩ : ∃ j, w = j + 1 := ⟨w - 1, by omega⟩
    rw [minExp, Nat.add_sub_cancel, Nat.cast_sub (by omega), Nat.cast_sub (Nat.two_pow_pos j)]
    push_cast
    ring
  have hscale : (2 : ℚ) ^ p * 2 ^ ((2 ^ w - 3 : ℕ) + minExp p w) = 2 ^ (2 ^ (w - 1) - 1) := by
    rw [← zpow_natCast, ← zpow_add₀ two_ne_zero, hexp, zpow_natCast]
  have hdouble : (2 : ℚ) ^ 2 ^ (w - 1) = 2 * 2 ^ (2 ^ (w - 1) - 1) := by
    rw [← pow_succ', Nat.sub_add_cancel (Nat.two_pow_pos _)]
  have hunit : (2 : ℚ) ^ ((2 ^ w - 3 : ℕ) + minExp p w) = 2 ^ (2 ^ (w - 1) - 1) / 2 ^ p := by
    rw [← hscale]
    field_simp
  rw [hlast, magValue_infinity hw, hdouble, threshold, hunit, pow_succ]
  field_simp
  ring

/-- The nearer one of two numbers. -/
theorem abs_sub_le_abs_sub_iff {x a b : ℚ} (h : a < b) :
  |x - b| ≤ |x - a| ↔ a + b ≤ 2 * x
  := by
  rw [← sq_le_sq]
  constructor
  · intro hsq
    by_contra hlt
    have hprod := mul_pos (sub_pos.mpr h) (sub_pos.mpr (not_le.mp hlt))
    linarith
  · intro hle
    have hprod := mul_nonneg (sub_pos.mpr h).le (sub_nonneg.mpr hle)
    linarith

/-- What is nearest without a bound is right also with one. -/
theorem IsNearest.isRounded (hp : 0 < p) (hw : 2 ≤ w) {x : ℚ} {M : ℕ}
    (h : IsNearest (magValue p w) x M) :
  IsRounded p w x (min M (infinity p w))
  := by
  have hpos : 0 < infinity p w := by
    have hfour := four_le_two_pow hw
    exact Nat.mul_pos (by omega) (Nat.two_pow_pos p)
  have hodd : (infinity p w - 1) % 2 = 1 := by
    obtain ⟨j, rfl⟩ : ∃ j, p = j + 1 := ⟨p - 1, by omega⟩
    rw [infinity, Nat.pow_succ, ← Nat.mul_assoc] at hpos ⊢
    omega
  have hmid := @threshold_eq p w hw
  have hmono := @magValue_strictMono p w
  have hlast := hmono (Nat.sub_lt hpos Nat.one_pos)
  have hbound : x < threshold p w → M < infinity p w := by
    intro hlt
    by_contra hge
    have hle := hmono.monotone (Nat.le_of_not_lt hge)
    have hnear := (abs_sub_le_abs_sub_iff (by linarith)).mp (h.nearest (infinity p w - 1))
    linarith
  constructor
  · intro hle
    apply Nat.min_eq_right
    by_contra hlt
    have hle' := hmono.monotone (show M ≤ infinity p w - 1 by omega)
    have hnear := (@abs_sub_le_abs_sub_iff x _ _ (hmono (not_le.mp hlt))).mpr (by linarith)
    have hsame := le_antisymm hnear (h.nearest (infinity p w))
    have hM := h.even (infinity p w) (not_le.mp hlt).ne' hsame
    -- the number is in the middle, and the largest number is odd
    have hge : magValue p w (infinity p w - 1) ≤ magValue p w M := by
      rcases abs_eq_abs.mp hsame with heq | heq <;> linarith
    have hge' := hmono.le_iff_le.mp hge
    omega
  · intro hlt
    exact (Nat.min_le_left _ _).trans_lt (hbound hlt)
  · intro hlt N _
    rw [Nat.min_eq_left (hbound hlt).le]
    exact h.nearest N
  · intro hlt N _
    rw [Nat.min_eq_left (hbound hlt).le]
    exact h.even N

/-! ### Rounding -/

/-- The exponent of the last digit of a number. -/
def lastExp (p w : ℕ) (x : ℚ) : ℤ :=
  if x = 0 then minExp p w else max (Int.log 2 x - p) (minExp p w)

/-- The pattern that a number is rounded to. -/
def round (p w : ℕ) (x : ℚ) : ℕ :=
  min ((lastExp p w x - minExp p w).toNat * 2 ^ p + (roundEven (x / 2 ^ lastExp p w x)).toNat)
    (infinity p w)

/-- The digits of a number. -/
theorem exists_digits (p w : ℕ) {x : ℚ} (hx : 0 ≤ x) :
  ∃ a : ℕ, ∃ t : ℚ, lastExp p w x = a + minExp p w ∧ x / 2 ^ lastExp p w x = t ∧
    x = t * 2 ^ (a + minExp p w) ∧ 0 ≤ t ∧ (a = 0 ∨ 2 ^ p ≤ t) ∧ t < 2 * 2 ^ p
  := by
  have hunit := zpow_pos (two_pos : (0 : ℚ) < 2) (lastExp p w x)
  have hmin : minExp p w ≤ lastExp p w x := by
    unfold lastExp
    split_ifs
    · exact le_rfl
    · exact le_max_right _ _
  have ha : lastExp p w x = (lastExp p w x - minExp p w).toNat + minExp p w := by omega
  refine ⟨(lastExp p w x - minExp p w).toNat, x / 2 ^ lastExp p w x, ha, rfl, ?_, ?_, ?_, ?_⟩
  · rw [← ha]
    field_simp
  · exact div_nonneg hx hunit.le
  · rcases hx.eq_or_lt with rfl | hpos
    · left
      rw [lastExp, if_pos rfl, sub_self, Int.toNat_zero]
    · rcases hmin.eq_or_lt with heq | hlt
      · left
        omega
      · right
        have hlog : lastExp p w x = Int.log 2 x - p := by
          rw [lastExp, if_neg hpos.ne'] at hlt ⊢
          rcases lt_max_iff.mp hlt with h | h
          · exact max_eq_left h.le
          · exact absurd h (lt_irrefl _)
        have hle := Int.zpow_log_le_self Nat.one_lt_two hpos
        rw [le_div_iff₀ hunit, hlog, ← zpow_natCast, ← zpow_add₀ two_ne_zero,
          add_sub_cancel]
        exact_mod_cast hle
  · rw [div_lt_iff₀ hunit, ← zpow_natCast, ← zpow_one_add₀ two_ne_zero,
      ← zpow_add₀ two_ne_zero]
    rcases hx.eq_or_lt with rfl | hpos
    · exact zpow_pos two_pos _
    · have hlt := Int.lt_zpow_succ_log_self Nat.one_lt_two x
      apply lt_of_lt_of_le (by exact_mod_cast hlt)
      apply zpow_le_zpow_right₀ one_le_two
      have hle : Int.log 2 x - p ≤ lastExp p w x := by
        rw [lastExp, if_neg hpos.ne']
        exact le_max_left _ _
      omega

theorem round_isRounded (hp : 0 < p) (hw : 2 ≤ w) {x : ℚ} (hx : 0 ≤ x) :
  IsRounded p w x (round p w x)
  := by
  obtain ⟨a, t, ha, ht, hxt, ht0, hlow, hhigh⟩ := exists_digits p w hx
  have hnearest := @isNearest_add p w hp a t ht0 hlow hhigh.le
  rw [← hxt] at hnearest
  have hrounded := hnearest.isRounded hp hw
  rwa [round, ht, ha, add_sub_cancel_right, Int.toNat_natCast]

/-- A number that has a pattern is rounded to it. -/
theorem IsRounded.eq {x : ℚ} {M N : ℕ} (hw : 2 ≤ w) (h : IsRounded p w x M)
    (hN : N < infinity p w) (hx : x = magValue p w N) :
  M = N
  := by
  have hmono := @magValue_strictMono p w
  have hlt : x < threshold p w := by
    have hlast := hmono.monotone (Nat.le_sub_one_of_lt hN)
    have hinf := hmono (Nat.sub_lt (Nat.zero_lt_of_lt hN) Nat.one_pos)
    have hmid := @threshold_eq p w hw
    linarith
  have hnear := h.nearest hlt N hN
  rw [hx, sub_self, abs_zero] at hnear
  have hzero := abs_nonpos_iff.mp hnear
  apply hmono.injective
  linarith

/-- A number of few digits has a pattern. -/
theorem magValue_round (hp : 0 < p) (hw : 2 ≤ w) {k : ℕ} {j : ℤ} (hk : k < 2 * 2 ^ p)
    (hj : minExp p w ≤ j) (hlt : (k : ℚ) * 2 ^ j < 2 ^ 2 ^ (w - 1)) :
  magValue p w (round p w (k * 2 ^ j)) = k * 2 ^ j ∧
    round p w (k * 2 ^ j) < infinity p w
  := by
  have hx : (0 : ℚ) ≤ k * 2 ^ j := mul_nonneg (Nat.cast_nonneg k) (zpow_pos two_pos j).le
  obtain ⟨a, t, ha, ht, hxt, ht0, hlow, hhigh⟩ := exists_digits p w hx
  have hle : a + minExp p w ≤ j := by
    rw [← ha, lastExp]
    split_ifs with hzero
    · exact hj
    · apply max_le _ hj
      have hlog : Int.log 2 ((k : ℚ) * 2 ^ j) < j + p + 1 := by
        apply (Int.lt_zpow_iff_log_lt Nat.one_lt_two (lt_of_le_of_ne hx (Ne.symm hzero))).mp
        have hk' : (k : ℚ) < 2 * 2 ^ p := by exact_mod_cast hk
        rw [show j + p + 1 = (1 + p) + j by ring, zpow_add₀ (by norm_num),
          zpow_one_add₀ (by norm_num), zpow_natCast]
        apply mul_lt_mul_of_pos_right _ (zpow_pos (by norm_num) j)
        exact_mod_cast hk'
      omega
  obtain ⟨d, hd⟩ := Int.le.dest hle
  have hint : t = (k * 2 ^ d : ℕ) := by
    have hunit := (zpow_pos (two_pos : (0 : ℚ) < 2) (a + minExp p w)).ne'
    apply mul_right_cancel₀ hunit
    rw [← hxt, ← hd, zpow_add₀ two_ne_zero, zpow_natCast]
    push_cast
    ring
  have hval : magValue p w (a * 2 ^ p + k * 2 ^ d) = k * 2 ^ j := by
    rw [magValue_add, ← hint, ← hxt]
    · apply hlow.imp_right
      intro h
      rw [hint] at h
      exact_mod_cast h
    · rw [hint] at hhigh
      have hhigh' : k * 2 ^ d < 2 * 2 ^ p := by exact_mod_cast hhigh
      exact hhigh'.le
  have hfinite : a * 2 ^ p + k * 2 ^ d < infinity p w := by
    apply magValue_strictMono.lt_iff_lt.mp
    rw [hval, magValue_infinity hw]
    exact hlt
  rw [(round_isRounded hp hw hx).eq hw hfinite hval.symm]
  exact ⟨hval, hfinite⟩

/-! ### Signs -/

/-- The sign of a pattern. -/
def sign (p w N : ℕ) : ℕ := N / 2 ^ (w + p)

/-- A pattern without its sign. -/
def mag (p w N : ℕ) : ℕ := N % 2 ^ (w + p)

/-- A pattern of a sign and the rest. -/
def pack (p w s M : ℕ) : ℕ := s * 2 ^ (w + p) + M

/-- The pattern is that of a finite number. -/
def IsFinite (p w N : ℕ) : Prop := mag p w N < infinity p w

/-- The pattern is not that of a number. -/
def IsNaN (p w N : ℕ) : Prop := infinity p w < mag p w N

instance (p w N : ℕ) : Decidable (IsFinite p w N) := inferInstanceAs (Decidable (_ < _))

instance (p w N : ℕ) : Decidable (IsNaN p w N) := inferInstanceAs (Decidable (_ < _))

/-- The value of a pattern of a finite number. -/
def value (p w N : ℕ) : ℚ := (-1) ^ sign p w N * magValue p w (mag p w N)

theorem pack_sign_mag (p w N : ℕ) :
  pack p w (sign p w N) (mag p w N) = N
  := by
  rw [pack, sign, mag, Nat.mul_comm]
  exact Nat.div_add_mod N (2 ^ (w + p))

theorem infinity_lt (p w : ℕ) :
  infinity p w < 2 ^ (w + p)
  := by
  rw [infinity, Nat.pow_add]
  apply Nat.mul_lt_mul_of_pos_right _ (Nat.two_pow_pos p)
  exact Nat.sub_lt (Nat.two_pow_pos w) Nat.one_pos

theorem sign_pack {s M : ℕ} (h : M < 2 ^ (w + p)) :
  sign p w (pack p w s M) = s
  := by
  rw [sign, pack, Nat.add_comm, Nat.add_mul_div_right _ _ (Nat.two_pow_pos _),
    Nat.div_eq_of_lt h, Nat.zero_add]

theorem mag_pack {s M : ℕ} (h : M < 2 ^ (w + p)) :
  mag p w (pack p w s M) = M
  := by
  rw [mag, pack, Nat.add_comm, Nat.add_mul_mod_self_right, Nat.mod_eq_of_lt h]

theorem abs_value (p w N : ℕ) :
  |value p w N| = magValue p w (mag p w N)
  := by
  rw [value, abs_mul, abs_pow, abs_neg, abs_one, one_pow, one_mul,
    abs_of_nonneg (magValue_nonneg _)]

/-! ### Arithmetic -/

/-- A quiet pattern that is not that of a number. -/
def nan (p w : ℕ) : ℕ := infinity p w + 2 ^ (p - 1)

/-- The product of two patterns. -/
def mul (p w a b : ℕ) : ℕ :=
  let s := (sign p w a + sign p w b) % 2
  if IsNaN p w a ∨ IsNaN p w b then nan p w
  else if IsFinite p w a ∧ IsFinite p w b then
    pack p w s (round p w (magValue p w (mag p w a) * magValue p w (mag p w b)))
  else if mag p w a = 0 ∨ mag p w b = 0 then nan p w
  else pack p w s (infinity p w)

/-- The quotient of two patterns. -/
def div (p w a b : ℕ) : ℕ :=
  let s := (sign p w a + sign p w b) % 2
  if IsNaN p w a ∨ IsNaN p w b then nan p w
  else if IsFinite p w a ∧ IsFinite p w b then
    if mag p w b = 0 then if mag p w a = 0 then nan p w else pack p w s (infinity p w)
    else pack p w s (round p w (magValue p w (mag p w a) / magValue p w (mag p w b)))
  else if IsFinite p w a then pack p w s 0
  else if IsFinite p w b then pack p w s (infinity p w)
  else nan p w

/-- The pattern is that of the number with a sign and an absolute value. -/
structure Represents (p w N s : ℕ) (x : ℚ) : Prop where
  sign_eq : sign p w N = s
  finite : IsFinite p w N
  value_eq : magValue p w (mag p w N) = x

/-- The numbers of few digits. -/
def Fits (p w : ℕ) (x : ℚ) : Prop :=
  ∃ k : ℕ, ∃ j : ℤ, x = k * 2 ^ j ∧ k < 2 * 2 ^ p ∧ minExp p w ≤ j ∧ x < 2 ^ 2 ^ (w - 1)

theorem Fits.represents (hp : 0 < p) (hw : 2 ≤ w) {x : ℚ} (h : Fits p w x) (s : ℕ) :
  Represents p w (pack p w s (round p w x)) s x
  := by
  obtain ⟨k, j, rfl, hk, hj, hlt⟩ := h
  obtain ⟨hval, hfinite⟩ := magValue_round hp hw hk hj hlt
  have hfit := hfinite.trans (infinity_lt p w)
  constructor
  · exact sign_pack hfit
  · rw [IsFinite, mag_pack hfit]
    exact hfinite
  · rw [mag_pack hfit]
    exact hval

theorem Represents.not_isNaN {N s : ℕ} {x : ℚ} (h : Represents p w N s x) :
  ¬IsNaN p w N
  := Nat.lt_asymm h.finite

/-- A number gets a sign. -/
theorem Represents.pack {N : ℕ} {x : ℚ} (h : Represents p w N 0 x) (s : ℕ) :
  Represents p w (pack p w s N) s x
  := by
  have hN : mag p w N = N := by
    have hpack := pack_sign_mag p w N
    rwa [h.sign_eq, BinaryFloat.pack, Nat.zero_mul, Nat.zero_add] at hpack
  have hfit : N < 2 ^ (w + p) := by
    have hfinite := h.finite
    rw [IsFinite, hN] at hfinite
    exact hfinite.trans (infinity_lt p w)
  constructor
  · exact sign_pack hfit
  · rw [IsFinite, mag_pack hfit, ← hN]
    exact h.finite
  · rw [mag_pack hfit, ← h.value_eq, hN]

/-- A product of few digits is exact. -/
theorem Represents.mul (hp : 0 < p) (hw : 2 ≤ w) {a b s t : ℕ} {x y : ℚ} (ha : Represents p w a s x)
    (hb : Represents p w b t y) (h : Fits p w (x * y)) :
  Represents p w (mul p w a b) ((s + t) % 2) (x * y)
  := by
  rw [BinaryFloat.mul, ha.sign_eq, hb.sign_eq, ha.value_eq, hb.value_eq]
  rw [if_neg (not_or.mpr ⟨ha.not_isNaN, hb.not_isNaN⟩), if_pos ⟨ha.finite, hb.finite⟩]
  exact h.represents hp hw _

/-- A quotient of few digits is exact. -/
theorem Represents.div (hp : 0 < p) (hw : 2 ≤ w) {a b s t : ℕ} {x y : ℚ} (ha : Represents p w a s x)
    (hb : Represents p w b t y) (hy : y ≠ 0) (h : Fits p w (x / y)) :
  Represents p w (div p w a b) ((s + t) % 2) (x / y)
  := by
  have hne : mag p w b ≠ 0 := by
    intro hzero
    apply hy
    rw [← hb.value_eq, hzero, magValue_zero]
  rw [BinaryFloat.div, ha.sign_eq, hb.sign_eq, ha.value_eq, hb.value_eq]
  rw [if_neg (not_or.mpr ⟨ha.not_isNaN, hb.not_isNaN⟩), if_pos ⟨ha.finite, hb.finite⟩, if_neg hne]
  exact h.represents hp hw _

end BinaryFloat
