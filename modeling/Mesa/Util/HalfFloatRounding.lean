import Mesa.Util.HalfFloat

/-!
# Half floats are rounded

A float is converted to the half float that is nearest to it, and a half float to the float of the
same value.
-/

namespace Util

namespace HalfFloat

open BinaryFloat

/-- The sizes of the two formats. -/
theorem minExp_float :
  minExp 23 8 = -149
  := rfl

theorem minExp_half :
  minExp 10 5 = -24
  := rfl

theorem infinity_float :
  infinity 23 8 = 255 * 2 ^ 23
  := rfl

theorem infinity_half :
  infinity 10 5 = 31 * 2 ^ 10
  := rfl

/-! ### Operations on floats -/

theorem toFloat_represents {n : ℕ} (hn : n < 2 ^ 24) :
  Represents 23 8 (toFloat n) 0 n
  := by
  apply Fits.represents (by decide) (by decide)
  refine ⟨n, 0, by simp, hn, by decide, ?_⟩
  have hlt : (n : ℚ) < 2 ^ 24 := by exact_mod_cast hn
  exact hlt.trans (by norm_num)

/-- A number is a float if it has few digits and is neither too small nor too large. -/
theorem fits_float {x : ℚ} {k : ℕ} {j : ℤ} (hx : x = k * 2 ^ j) (hk : k < 2 ^ 24)
    (hj : -149 ≤ j) (hj' : j ≤ 100) :
  Fits 23 8 x
  := by
  refine ⟨k, j, hx, hk, hj, ?_⟩
  have hk' : (k : ℚ) < 2 ^ 24 := by exact_mod_cast hk
  calc
    x = k * 2 ^ j := hx
    _ ≤ 2 ^ 24 * 2 ^ (100 : ℤ) := by
      apply mul_le_mul hk'.le (zpow_le_zpow_right₀ one_le_two hj') (zpow_pos two_pos j).le
      norm_num
    _ < 2 ^ 2 ^ (8 - 1) := by norm_num

theorem toFloat_two_pow {k : ℕ} (hk : k ≤ 100) :
  Represents 23 8 (toFloat (2 ^ k)) 0 (2 ^ k)
  := by
  have hrep := (@fits_float (2 ^ k : ℕ) 1 k (by push_cast; rw [one_mul, zpow_natCast]) (by decide)
    (by omega) (by omega)).represents (by decide) (by decide) 0
  rw [toFloat]
  push_cast at hrep ⊢
  exact hrep

/-- A float that is rounded to an integer. -/
theorem lroundevenf_eq {f : ℕ} {x : ℚ} (h : Represents 23 8 f 0 x) :
  lroundevenf f = roundEven x
  := by
  rw [lroundevenf, value, h.sign_eq, h.value_eq, pow_zero, one_mul]

/-! ### The ranges of the exponent -/

/-- A small float is a multiple of the smallest half float, which is rounded. -/
theorem isRounded_small {x t : ℚ} (hx : x = t * 2 ^ (-24 : ℤ)) (ht : 0 ≤ t) (hle : t ≤ 2 ^ 10) :
  0 ≤ roundEven t ∧ roundEven t ≤ 1024 ∧ IsRounded 10 5 x (roundEven t).toNat
  := by
  have hlow : 0 ≤ roundEven t := le_roundEven (by exact_mod_cast ht)
  have hhigh : roundEven t ≤ 1024 := roundEven_le (by norm_num at hle ⊢; exact hle)
  refine ⟨hlow, hhigh, ?_⟩
  have hnearest := @isNearest_add 10 5 (by decide) 0 t ht (Or.inl rfl) (by linarith)
  rw [minExp_half, Nat.cast_zero, zero_add, ← hx, Nat.zero_mul, Nat.zero_add] at hnearest
  have hrounded := hnearest.isRounded (by decide) (by decide)
  rwa [Nat.min_eq_left (by rw [infinity_half]; omega)] at hrounded

/-- The fraction of a float of one exponent is rounded. -/
theorem isRounded_normal {a : ℕ} {x q : ℚ} (hx : x = (2 ^ 10 + q) * 2 ^ (a - 24 : ℤ)) (hq : 0 ≤ q)
    (hle : q ≤ 2 ^ 10) (ha : a < 30) :
  0 ≤ roundEven q ∧ roundEven q ≤ 1024 ∧
    IsRounded 10 5 x ((a + 1) * 2 ^ 10 + (roundEven q).toNat)
  := by
  have hlow : 0 ≤ roundEven q := le_roundEven (by exact_mod_cast hq)
  have hhigh : roundEven q ≤ 1024 := roundEven_le (by norm_num at hle ⊢; exact hle)
  refine ⟨hlow, hhigh, ?_⟩
  have hshift : roundEven (2 ^ 10 + q) = 1024 + roundEven q := by
    have hadd := @roundEven_add 1024 (by decide) q
    norm_num at hadd ⊢
    exact hadd
  have hnearest := @isNearest_add 10 5 (by decide) a (2 ^ 10 + q) (by linarith)
    (Or.inr (by linarith)) (by linarith)
  rw [minExp_half, ← sub_eq_add_neg, ← hx, hshift] at hnearest
  have hrounded := hnearest.isRounded (by decide) (by decide)
  rw [infinity_half, Nat.min_eq_left (by omega)] at hrounded
  have hsum : (a + 1) * 2 ^ 10 + (roundEven q).toNat = a * 2 ^ 10 + (1024 + roundEven q).toNat := by
    omega
  rwa [hsum]

theorem threshold_half :
  threshold 10 5 = 65520
  := by
  norm_num [threshold]

/-- A float that is too large is rounded to infinity. -/
theorem isRounded_large {x : ℚ} (hx : 2 ^ 16 ≤ x) :
  IsRounded 10 5 x (infinity 10 5)
  := by
  have hlarge : ¬x < threshold 10 5 := by
    rw [threshold_half]
    linarith
  constructor
  · intro _
    rfl
  · exact fun hlt => absurd hlt hlarge
  · exact fun hlt => absurd hlt hlarge
  · exact fun hlt => absurd hlt hlarge

/-! ### From floats to half floats -/

/-- What the exponent and the fraction of the half float should be. -/
structure Converts (L e m : ℕ) : Prop where
  fraction_le : m ≤ 1024
  exponent_le : e < 31 ∨ e = 31 ∧ m < 1024
  nan : infinity 23 8 < L → infinity 10 5 < e * 2 ^ 10 + m
  infinite : L = infinity 23 8 → e * 2 ^ 10 + m = infinity 10 5
  finite : L < infinity 23 8 → IsRounded 10 5 (magValue 23 8 L) (e * 2 ^ 10 + m)

/-- The part that is not a number is all that there is to say beyond the largest exponent. -/
theorem Converts.of_finite {L e m : ℕ} (hL : L < infinity 23 8) (hm : m ≤ 1024)
    (he : e < 31 ∨ e = 31 ∧ m < 1024)
    (h : IsRounded 10 5 (magValue 23 8 L) (e * 2 ^ 10 + m)) :
  Converts L e m
  := by
  refine ⟨hm, he, ?_, ?_, fun _ => h⟩
  · intro hlt
    exact absurd hlt (Nat.lt_asymm hL)
  · intro heq
    exact absurd heq hL.ne

theorem Converts.lt {L e m : ℕ} (h : Converts L e m) :
  e * 2 ^ 10 + m < 2 ^ (5 + 10)
  := by
  have hle := h.fraction_le
  have he := h.exponent_le
  omega

/-- A pattern has one bit more than it has without its sign. -/
theorem pack_lt {p w s M : ℕ} (hs : s < 2) (hM : M < 2 ^ (w + p)) :
  pack p w s M < 2 ^ (w + p + 1)
  := by
  have hle : s * 2 ^ (w + p) ≤ 1 * 2 ^ (w + p) := Nat.mul_le_mul_right _ (Nat.le_of_lt_succ hs)
  rw [pack, Nat.pow_succ]
  omega

/-- A float below the normal ones is rounded to 0. -/
theorem converts_denorm {m : ℕ} (hm : m < 2 ^ 23) :
  Converts m 0 0
  := by
  have hm' : (m : ℚ) < 2 ^ 23 := by exact_mod_cast hm
  have hval : magValue 23 8 m = m * 2 ^ (-125 : ℤ) * 2 ^ (-24 : ℤ) := by
    rw [magValue_subnormal hm, minExp_float, mul_assoc, ← zpow_add₀ two_ne_zero]
    norm_num
  have hnonneg : (0 : ℚ) ≤ m * 2 ^ (-125 : ℤ) := by positivity
  have hsmall : (m : ℚ) * 2 ^ (-125 : ℤ) < 1 / 2 := by
    calc
      (m : ℚ) * 2 ^ (-125 : ℤ) ≤ 2 ^ 23 * 2 ^ (-125 : ℤ) :=
        mul_le_mul_of_nonneg_right hm'.le (by norm_num)
      _ < 1 / 2 := by norm_num
  obtain ⟨-, -, hrounded⟩ := isRounded_small hval hnonneg
    (hsmall.le.trans (by norm_num))
  rw [roundEven_eq_zero hnonneg hsmall] at hrounded
  apply Converts.of_finite _ (by omega) (by omega) hrounded
  rw [infinity_float]
  omega

/-- A float that is smaller than the normal half floats. -/
theorem converts_small {s e m : ℕ} (hm : m < 2 ^ 23) (he : e < 113)
    (hL : e * 2 ^ 23 + m < infinity 23 8)
    (hx : magValue 23 8 (e * 2 ^ 23 + m) = (2 ^ 23 + m : ℕ) * 2 ^ (e - 150 : ℤ)) :
  ∃ m' : ℕ, lroundevenf (mul 23 8 (toFloat (1 <<< 24))
      (fabsf (pack 23 8 s (e * 2 ^ 23 + m)))) = m' ∧ Converts (e * 2 ^ 23 + m) 0 m'
  := by
  have hfit := hL.trans (infinity_lt 23 8)
  have habs : Represents 23 8 (fabsf (pack 23 8 s (e * 2 ^ 23 + m))) 0
      ((2 ^ 23 + m : ℕ) * 2 ^ (e - 150 : ℤ)) := by
    have hmag : mag 23 8 (e * 2 ^ 23 + m) = e * 2 ^ 23 + m := Nat.mod_eq_of_lt hfit
    rw [fabsf, mag_pack hfit]
    refine ⟨Nat.div_eq_of_lt hfit, ?_, ?_⟩
    · rw [IsFinite, hmag]
      exact hL
    · rw [hmag, hx]
  have hprod : (2 : ℚ) ^ 24 * ((2 ^ 23 + m : ℕ) * 2 ^ (e - 150 : ℤ)) =
      (2 ^ 23 + m : ℕ) * 2 ^ (e - 126 : ℤ) := by
    have hexp : (e - 126 : ℤ) = 24 + (e - 150 : ℤ) := by omega
    rw [hexp, zpow_add₀ two_ne_zero]
    ring
  have hrep : Represents 23 8 (mul 23 8 (toFloat (1 <<< 24))
      (fabsf (pack 23 8 s (e * 2 ^ 23 + m)))) 0 ((2 ^ 23 + m : ℕ) * 2 ^ (e - 126 : ℤ)) := by
    rw [Nat.one_shiftLeft, ← hprod]
    apply (toFloat_two_pow (by decide)).mul (by decide) (by decide) habs
    exact fits_float hprod (by omega) (by omega) (by omega)
  have hm' : ((2 ^ 23 + m : ℕ) : ℚ) ≤ 2 ^ 24 := by
    have hle : 2 ^ 23 + m ≤ 2 ^ 24 := by omega
    exact_mod_cast hle
  have hle : ((2 ^ 23 + m : ℕ) : ℚ) * 2 ^ (e - 126 : ℤ) ≤ 2 ^ 10 := by
    calc
      ((2 ^ 23 + m : ℕ) : ℚ) * 2 ^ (e - 126 : ℤ) ≤ 2 ^ 24 * 2 ^ (-14 : ℤ) := by
        apply mul_le_mul hm' _ (zpow_pos two_pos _).le (by norm_num)
        exact zpow_le_zpow_right₀ one_le_two (by omega)
      _ = 2 ^ 10 := by norm_num
  have hx' : magValue 23 8 (e * 2 ^ 23 + m) =
      (2 ^ 23 + m : ℕ) * 2 ^ (e - 126 : ℤ) * 2 ^ (-24 : ℤ) := by
    rw [hx, mul_assoc, ← zpow_add₀ two_ne_zero]
    congr 2
    ring
  obtain ⟨hlow, hhigh, hrounded⟩ := isRounded_small hx'
    (mul_nonneg (Nat.cast_nonneg _) (zpow_pos two_pos _).le) hle
  refine ⟨(roundEven (((2 ^ 23 + m : ℕ) : ℚ) * 2 ^ (e - 126 : ℤ))).toNat, ?_, ?_⟩
  · rw [lroundevenf_eq hrep, Int.toNat_of_nonneg hlow]
  · apply Converts.of_finite hL (by omega) (by omega)
    rwa [Nat.zero_mul, Nat.zero_add]

/-- A float in the range of the normal half floats. -/
theorem converts_normal {e m : ℕ} (hm : m < 2 ^ 23) (he : 113 ≤ e) (he' : e ≤ 142)
    (hx : magValue 23 8 (e * 2 ^ 23 + m) = (2 ^ 23 + m : ℕ) * 2 ^ (e - 150 : ℤ)) :
  ∃ m' : ℕ, lroundevenf (div 23 8 (toFloat m) (toFloat (1 <<< 13))) = m' ∧
    Converts (e * 2 ^ 23 + m) (e - 112) m'
  := by
  have hrep : Represents 23 8 (div 23 8 (toFloat m) (toFloat (1 <<< 13))) 0 (m / 2 ^ 13) := by
    rw [Nat.one_shiftLeft]
    apply (toFloat_represents (by omega)).div (by decide) (by decide) (toFloat_two_pow (by decide))
      (by norm_num)
    exact @fits_float _ m (-13) (by rw [zpow_neg, div_eq_mul_inv]; norm_cast) (by omega)
      (by decide) (by decide)
  have hm' : (m : ℚ) ≤ 2 ^ 23 := by exact_mod_cast hm.le
  have hq : (m : ℚ) / 2 ^ 13 ≤ 2 ^ 10 := by
    rw [div_le_iff₀ (by norm_num)]
    exact hm'.trans (by norm_num)
  have hx' : magValue 23 8 (e * 2 ^ 23 + m) =
      (2 ^ 10 + (m : ℚ) / 2 ^ 13) * 2 ^ ((e - 113 : ℕ) - 24 : ℤ) := by
    have hexp : ((e - 113 : ℕ) - 24 : ℤ) = (e - 150 : ℤ) + 13 := by omega
    rw [hx, hexp, zpow_add₀ two_ne_zero]
    push_cast
    ring
  obtain ⟨hlow, hhigh, hrounded⟩ := isRounded_normal hx' (by positivity) hq (by omega)
  refine ⟨(roundEven ((m : ℚ) / 2 ^ 13)).toNat, ?_, ?_⟩
  · rw [lroundevenf_eq hrep, Int.toNat_of_nonneg hlow]
  · apply Converts.of_finite (by rw [infinity_float]; omega) (by omega) (by omega)
    rwa [show e - 112 = e - 113 + 1 by omega]

/-- The fields of the half float are those of the number that is nearest. -/
theorem halfFields_converts {s e m : ℕ} (he : e < 2 ^ 8) (hm : m < 2 ^ 23) :
  ∃ e' m' : ℕ, halfFields (pack 23 8 s (e * 2 ^ 23 + m)) e m = (e', (m' : ℤ)) ∧
    Converts (e * 2 ^ 23 + m) e' m'
  := by
  have hL : e * 2 ^ 23 + m < 2 ^ (8 + 23) := by omega
  rw [halfFields]
  by_cases hzero : e = 0
  · subst hzero
    rw [Nat.zero_mul, Nat.zero_add]
    refine ⟨0, 0, ?_, converts_denorm hm⟩
    by_cases hm0 : m = 0
    · rw [if_pos ⟨rfl, hm0⟩]
      rfl
    · rw [if_neg (fun h => hm0 h.2), if_pos ⟨rfl, hm0⟩]
      rfl
  rw [if_neg (fun h => hzero h.1), if_neg (fun h => hzero h.1)]
  by_cases htop : e = 0xff
  · subst htop
    by_cases hm0 : m = 0
    · rw [if_pos ⟨rfl, hm0⟩]
      refine ⟨31, 0, rfl, by omega, by omega, ?_, ?_, ?_⟩
      · intro hlt
        rw [infinity_float] at hlt
        omega
      · intro _
        rfl
      · intro hlt
        rw [infinity_float] at hlt
        omega
    · rw [if_neg (fun h => hm0 h.2), if_pos ⟨rfl, hm0⟩]
      refine ⟨31, 1, rfl, by omega, by omega, ?_, ?_, ?_⟩
      · intro _
        rw [infinity_half]
        omega
      · intro heq
        rw [infinity_float] at heq
        omega
      · intro hlt
        rw [infinity_float] at hlt
        omega
  rw [if_neg (fun h => htop h.1), if_neg (fun h => htop h.1)]
  have hfinite : e * 2 ^ 23 + m < infinity 23 8 := by
    rw [infinity_float]
    omega
  have hval : magValue 23 8 (e * 2 ^ 23 + m) = (2 ^ 23 + m : ℕ) * 2 ^ (e - 150 : ℤ) := by
    obtain ⟨k, rfl⟩ : ∃ k, e = k + 1 := ⟨e - 1, by omega⟩
    rw [magValue_normal hm, minExp_float]
    congr 2
    push_cast
    ring
  simp only
  by_cases hsmall : e < 113
  · obtain ⟨m', hm', hconverts⟩ := @converts_small s e m hm hsmall hfinite hval
    refine ⟨0, m', ?_, hconverts⟩
    rw [if_pos (by omega), hm']
  rw [if_neg (by omega)]
  by_cases hlarge : 142 < e
  · refine ⟨31, 0, ?_, ?_⟩
    · rw [if_pos (by omega)]
      rfl
    · apply Converts.of_finite hfinite (by omega) (by omega)
      apply isRounded_large
      have hm' : (2 : ℚ) ^ 23 ≤ (2 ^ 23 + m : ℕ) := by exact_mod_cast Nat.le_add_right (2 ^ 23) m
      calc
        (2 : ℚ) ^ 16 = 2 ^ 23 * 2 ^ (-7 : ℤ) := by norm_num
        _ ≤ ((2 ^ 23 + m : ℕ) : ℚ) * 2 ^ (e - 150 : ℤ) := by
          apply mul_le_mul hm' _ (zpow_pos two_pos _).le (Nat.cast_nonneg _)
          exact zpow_le_zpow_right₀ one_le_two (by omega)
        _ = magValue 23 8 (e * 2 ^ 23 + m) := hval.symm
  · obtain ⟨m', hm', hconverts⟩ := converts_normal hm (by omega) (by omega) hval
    refine ⟨e - 112, m', ?_, hconverts⟩
    rw [if_neg (by omega), hm']
    congr 1
    omega

/-- The assertion holds, and the half float has the sign of the float and is the nearest one. -/
theorem floatToHalf_spec (val : BitVec 32) :
  ∃ h, floatToHalf val = some h ∧ sign 10 5 h.toNat = sign 23 8 val.toNat ∧
    (IsNaN 23 8 val.toNat → IsNaN 10 5 h.toNat) ∧
    (mag 23 8 val.toNat = infinity 23 8 → mag 10 5 h.toNat = infinity 10 5) ∧
    (IsFinite 23 8 val.toNat → IsRounded 10 5 |value 23 8 val.toNat| (mag 10 5 h.toNat))
  := by
  obtain ⟨s, e, m, hs, he, hm, hval, hfltM, hfltE, hfltS⟩ := floatFields val
  obtain ⟨e', m', hfields, hconverts⟩ := @halfFields_converts s e m he hm
  have hL : e * 2 ^ 23 + m < 2 ^ (8 + 23) := by omega
  have hM := hconverts.lt
  have hbits : pack 10 5 s (e' * 2 ^ 10 + m') < 2 ^ 16 := pack_lt hs hM
  have hresult : floatToHalf val = some (BitVec.ofNat 16 (pack 10 5 s (e' * 2 ^ 10 + m'))) := by
    have hle := hconverts.fraction_le
    have he' := hconverts.exponent_le
    rw [← hval] at hfields
    rw [floatToHalf]
    simp only [hfltM, hfltE, hfltS, hfields]
    rw [if_pos (by omega)]
    by_cases hcarry : m' = 1024
    · have hjoin := @join_eq 10 5 s (e' + 1) 0 (by omega) (by omega)
      rw [if_pos (by omega), hcarry]
      simp only
      rw [hjoin, Nat.succ_mul, Nat.add_zero]
      rfl
    · have hjoin := @join_eq 10 5 s e' m' (by omega) (by omega)
      rw [if_neg (by omega)]
      simp only [Int.toNat_natCast]
      rw [hjoin]
  have hnat : (BitVec.ofNat 16 (pack 10 5 s (e' * 2 ^ 10 + m'))).toNat =
      pack 10 5 s (e' * 2 ^ 10 + m') := by
    rw [BitVec.toNat_ofNat, Nat.mod_eq_of_lt hbits]
  refine ⟨_, hresult, ?_⟩
  rw [hnat, hval, abs_value, IsNaN, IsNaN, IsFinite, sign_pack hM, sign_pack hL, mag_pack hM,
    mag_pack hL]
  exact ⟨rfl, hconverts.nan, hconverts.infinite, hconverts.finite⟩

/-! ### From half floats to floats -/

/-- The float of a half float that is not a normal number has its value. -/
theorem denormToFloat_represents {s m : ℕ} (hs : s < 2) (hm : m < 2 ^ 10) :
  Represents 23 8 (denormToFloat s m) s (m * 2 ^ (-24 : ℤ))
  := by
  have hone : Represents 23 8 (toFloat 1) 0 1 := by
    have hrep := @toFloat_represents 1 (by decide)
    rwa [Nat.cast_one] at hrep
  have hsign : Represents 23 8 (if s ≠ 0 then pack 23 8 1 (toFloat 1) else toFloat 1) s 1 := by
    obtain rfl | rfl : s = 0 ∨ s = 1 := by omega
    · exact hone
    · exact hone.pack 1
  have hhalf : Represents 23 8 (div 23 8 (toFloat 1) (toFloat 16384)) 0 (2 ^ (-14 : ℤ)) := by
    have hdiv := hone.div (by decide) (by decide) (@toFloat_two_pow 14 (by decide)) (by norm_num)
      (@fits_float _ 1 (-14) (by norm_num) (by decide) (by decide) (by decide))
    norm_num at hdiv ⊢
    exact hdiv
  have hmantissa : Represents 23 8 (div 23 8 (toFloat m) (toFloat 1024)) 0
      (m * 2 ^ (-10 : ℤ)) := by
    have hdiv : (m : ℚ) / 2 ^ 10 = m * 2 ^ (-10 : ℤ) := by
      rw [div_eq_mul_inv, zpow_neg]
      norm_cast
    rw [← hdiv]
    apply (toFloat_represents (by omega)).div (by decide) (by decide) (@toFloat_two_pow 10 (by decide))
      (by norm_num)
    exact fits_float hdiv (by omega) (by decide) (by decide)
  have hsigned := hsign.mul (by decide) (by decide) hmantissa
    (fits_float (one_mul _) (by omega) (by decide) (by decide))
  have hexp : (1 : ℚ) * (m * 2 ^ (-10 : ℤ)) * 2 ^ (-14 : ℤ) = m * 2 ^ (-24 : ℤ) := by
    rw [one_mul, mul_assoc, ← zpow_add₀ two_ne_zero]
    norm_num
  have hwhole := hsigned.mul (by decide) (by decide) hhalf
    (fits_float hexp (by omega) (by decide) (by decide))
  rw [hexp, Nat.add_zero, Nat.add_zero, Nat.mod_mod, Nat.mod_eq_of_lt hs] at hwhole
  exact hwhole

/-- What the pattern of the float should be. -/
structure Widens (s L N : ℕ) : Prop where
  sign_eq : sign 23 8 N = s
  infinite : L = infinity 10 5 → mag 23 8 N = infinity 23 8
  finite : L < infinity 10 5 → IsFinite 23 8 N ∧ magValue 23 8 (mag 23 8 N) = magValue 10 5 L

theorem toNat_join {s E M : ℕ} (hs : s < 2) (hE : E < 2 ^ 8) (hM : M < 2 ^ 23) :
  (BitVec.ofNat 32 ((s <<< 31) ||| (E <<< 23) ||| M)).toNat = pack 23 8 s (E * 2 ^ 23 + M)
  := by
  have hlow : E * 2 ^ 23 + M < 2 ^ (8 + 23) := by omega
  rw [@join_eq 23 8 s E M hE hM, BitVec.toNat_ofNat]
  exact Nat.mod_eq_of_lt (pack_lt hs hlow)

/-- The pattern of a sign and the rest. -/
theorem widens_join {s L E M : ℕ} (hs : s < 2) (hE : E < 2 ^ 8) (hM : M < 2 ^ 23)
    (hinfinite : L = infinity 10 5 → E * 2 ^ 23 + M = infinity 23 8)
    (hfinite : L < infinity 10 5 → E * 2 ^ 23 + M < infinity 23 8 ∧
      magValue 23 8 (E * 2 ^ 23 + M) = magValue 10 5 L) :
  Widens s L (BitVec.ofNat 32 ((s <<< 31) ||| (E <<< 23) ||| M)).toNat
  := by
  have hlow : E * 2 ^ 23 + M < 2 ^ (8 + 23) := by omega
  rw [toNat_join hs hE hM]
  constructor
  · exact sign_pack hlow
  · rw [mag_pack hlow]
    exact hinfinite
  · rw [IsFinite, mag_pack hlow]
    exact hfinite

/-- A half float that is not a normal number. -/
theorem widens_denorm {s m : ℕ} (hs : s < 2) (hm : m < 2 ^ 10) :
  Widens s m (BitVec.ofNat 32 (denormToFloat s m)).toNat
  := by
  have hrep := denormToFloat_represents hs hm
  have hlt : denormToFloat s m < 2 ^ 32 := by
    rw [← pack_sign_mag 23 8 (denormToFloat s m), hrep.sign_eq]
    exact pack_lt hs (hrep.finite.trans (infinity_lt 23 8))
  rw [BitVec.toNat_ofNat, Nat.mod_eq_of_lt hlt]
  constructor
  · exact hrep.sign_eq
  · intro heq
    rw [infinity_half] at heq
    omega
  · intro _
    rw [hrep.value_eq, magValue_subnormal hm, minExp_half]
    exact ⟨hrep.finite, rfl⟩

/-- A half float that is a normal number. -/
theorem widens_normal {s e m : ℕ} (hs : s < 2) (he : e < 2 ^ 5) (hm : m < 2 ^ 10) (hzero : e ≠ 0)
    (htop : e ≠ 31) :
  Widens s (e * 2 ^ 10 + m)
    (BitVec.ofNat 32 ((s <<< 31) ||| ((e + 112) <<< 23) ||| (m <<< 13))).toNat
  := by
  have hlt : (e + 112) * 2 ^ 23 + m * 2 ^ 13 < 255 * 2 ^ 23 := by omega
  have hE : e + 112 < 2 ^ 8 := by omega
  have hM : m * 2 ^ 13 < 2 ^ 23 := by
    clear hlt
    omega
  obtain ⟨k, rfl⟩ : ∃ k, e = k + 1 := ⟨e - 1, by omega⟩
  rw [Nat.shiftLeft_eq m 13]
  apply widens_join hs hE hM
  · intro heq
    rw [infinity_half] at heq
    clear hlt hM
    exfalso
    omega
  · intro _
    rw [infinity_float]
    refine ⟨hlt, ?_⟩
    rw [Nat.add_right_comm, magValue_normal hM, magValue_normal hm, minExp_float, minExp_half]
    have hexp : ((k + 112 : ℕ) : ℤ) + -149 = k + -24 - 13 := by
      push_cast
      ring
    rw [hexp, zpow_sub₀ two_ne_zero]
    push_cast
    ring

/-- The float of a half float has its sign and its value. -/
theorem halfToFloat_widens (val : BitVec 16) :
  Widens (sign 10 5 val.toNat) (mag 10 5 val.toNat) (halfToFloat val).toNat
  := by
  obtain ⟨s, e, m, hs, he, hm, hval, hm', he', hs'⟩ := halfFloatFields val
  have hL : e * 2 ^ 10 + m < 2 ^ (5 + 10) := by
    clear hm' he' hs' hval
    omega
  rw [halfToFloat]
  simp only [hm', he', hs']
  rw [hval, sign_pack hL, mag_pack hL]
  clear hm' he' hs' hval
  by_cases hzero : e = 0
  · subst hzero
    rw [Nat.zero_mul, Nat.zero_add]
    by_cases hm0 : m = 0
    · rw [if_pos ⟨rfl, hm0⟩, hm0]
      apply widens_join hs (by decide) (by decide)
      · intro heq
        exact absurd heq (by decide)
      · intro _
        rw [infinity_float, Nat.zero_mul, Nat.zero_add, magValue_zero, magValue_zero]
        exact ⟨by decide, rfl⟩
    · rw [if_neg (fun h => hm0 h.2), if_pos ⟨rfl, hm0⟩]
      exact widens_denorm hs hm
  rw [if_neg (fun h => hzero h.1), if_neg (fun h => hzero h.1)]
  by_cases htop : e = 31
  · subst htop
    have hnot : ¬31 * 2 ^ 10 + m < infinity 10 5 := by
      rw [infinity_half]
      omega
    by_cases hm0 : m = 0
    · rw [if_pos ⟨rfl, hm0⟩]
      apply widens_join hs (by decide) (by decide)
      · intro _
        rfl
      · exact fun hlt => absurd hlt hnot
    · rw [if_neg (fun h => hm0 h.2), if_pos ⟨rfl, hm0⟩]
      apply widens_join hs (by decide) (by decide)
      · intro heq
        exfalso
        rw [infinity_half] at heq
        omega
      · exact fun hlt => absurd hlt hnot
  rw [if_neg (fun h => htop h.1), if_neg (fun h => htop h.1)]
  exact widens_normal hs he hm hzero htop

/-- The half float that is nearest to the float of a half float is the half float itself. -/
theorem floatToHalf_halfToFloat {h : BitVec 16} (hnan : ¬IsNaN 10 5 h.toNat) :
  floatToHalf (halfToFloat h) = some h
  := by
  obtain ⟨h', hresult, hsign, -, hinfinite, hfinite⟩ := floatToHalf_spec (halfToFloat h)
  have hwidens := halfToFloat_widens h
  rw [hresult, Option.some.injEq]
  apply BitVec.eq_of_toNat_eq
  rw [← pack_sign_mag 10 5 h'.toNat, ← pack_sign_mag 10 5 h.toNat, hsign, hwidens.sign_eq]
  congr 1
  rcases (Nat.le_of_not_lt hnan).lt_or_eq with hlt | heq
  · obtain ⟨hfin, hval⟩ := hwidens.finite hlt
    have hrounded := hfinite hfin
    rw [abs_value] at hrounded
    exact hrounded.eq (by decide) hlt hval
  · rw [heq]
    exact hinfinite (hwidens.infinite heq)

/-- Every float is converted to the half float of its sign that is nearest, the even one of two, or
infinity if it is too large, and what is not a number to what is not a number; and every half float
that is a number comes back from its float. -/
theorem floatToHalf_rounds_and_roundTrip :
  (∀ val : BitVec 32, ∃ h, floatToHalf val = some h ∧
    sign 10 5 h.toNat = sign 23 8 val.toNat ∧
    (IsNaN 23 8 val.toNat → IsNaN 10 5 h.toNat) ∧
    (mag 23 8 val.toNat = infinity 23 8 → mag 10 5 h.toNat = infinity 10 5) ∧
    (IsFinite 23 8 val.toNat → IsRounded 10 5 |value 23 8 val.toNat| (mag 10 5 h.toNat))) ∧
  ∀ h : BitVec 16, ¬IsNaN 10 5 h.toNat → floatToHalf (halfToFloat h) = some h
  := ⟨floatToHalf_spec, fun _ => floatToHalf_halfToFloat⟩

end HalfFloat

end Util
