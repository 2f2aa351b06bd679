import Mesa.Nir.LowerInt64
import Mathlib.Data.List.Basic

/-!
# Lowered 64-bit instructions compute what the opcodes do

The two loops of `lower_udiv64_mod64` are long divisions in words of 32 and of 64 bits, each of
which is kept from shifting the divisor out of its word by the position of its highest bit.
-/

namespace Nir.LowerInt64

open Bits.LongDivision (wordStep wordDivide places toNat_wordDivide)

variable {n w : ℕ}

/-! ### Halves -/

theorem toNat_unpackX (x : Def n 64) (c : Fin n) :
  (unpackX x c).toNat = (x c).toNat % 2 ^ 32
  := by
  rw [unpackX, BitVec.toNat_setWidth]

theorem toNat_unpackY (x : Def n 64) (c : Fin n) :
  (unpackY x c).toNat = (x c).toNat / 2 ^ 32
  := by
  have hlt := (x c).isLt
  rw [unpackY, BitVec.toNat_setWidth, BitVec.toNat_ushiftRight, Nat.shiftRight_eq_div_pow]
  omega

theorem toNat_pack (lo hi : Def n 32) (c : Fin n) :
  (pack lo hi c).toNat = (hi c).toNat * 2 ^ 32 + (lo c).toNat
  := by
  have hlo := (lo c).isLt
  have hhi := (hi c).isLt
  have hshift : ((hi c).setWidth 64 <<< 32).toNat = 2 ^ 32 * (hi c).toNat := by
    rw [BitVec.toNat_shiftLeft, BitVec.toNat_setWidth, Nat.shiftLeft_eq]
    omega
  rw [pack, BitVec.toNat_or, hshift, BitVec.toNat_setWidth, Nat.mod_eq_of_lt (by omega),
    Nat.lor_comm, ← Nat.two_pow_add_eq_or_of_lt hlo, Nat.mul_comm]

/-- A number is put together from its halves. -/
theorem pack_unpack (x : Def n 64) :
  pack (unpackX x) (unpackY x) = x
  := by
  funext c
  apply BitVec.eq_of_toNat_eq
  rw [toNat_pack, toNat_unpackX, toNat_unpackY]
  omega

/-- The high half tells the sign. -/
theorem unpackY_neg_iff (x : Def n 64) (c : Fin n) :
  (unpackY x c).toInt < 0 ↔ (x c).toInt < 0
  := by
  have hlt := (x c).isLt
  rw [BitVec.toInt_eq_toNat_cond, BitVec.toInt_eq_toNat_cond, toNat_unpackY]
  split <;> split <;> omega

/-! ### Booleans -/

theorem nirBool_ne_zero (b : Bool) :
  nirBool b ≠ 0 ↔ b = true
  := by
  cases b <;> decide

theorem nirBool_inj {a b : Bool} :
  nirBool a = nirBool b ↔ a = b
  := by
  cases a <;> cases b <;> decide

theorem nirBool_and (a b : Bool) :
  nirBool a &&& nirBool b = nirBool (a && b)
  := by
  cases a <;> cases b <;> decide

/-! ### The highest bit -/

/-- From `bit` down, the highest bit of `x` below `bit` is found, or there is none. -/
theorem findMsbFrom_spec (x : BitVec 32) {bit : ℕ} (hbit : bit ≤ 32) (hx : x.toNat < 2 ^ bit) :
  (x = 0#32 ∧ findMsbFrom x bit = -1) ∨
    ∃ m < bit, (findMsbFrom x bit).toInt = m ∧ 2 ^ m ≤ x.toNat ∧ x.toNat < 2 ^ (m + 1)
  := by
  induction bit with
  | zero =>
      left
      rw [Nat.pow_zero, Nat.lt_one_iff] at hx
      exact ⟨BitVec.eq_of_toNat_eq hx, rfl⟩
  | succ bit ih =>
      rw [findMsbFrom]
      by_cases hset : x.getLsbD bit = true
      · right
        rw [if_pos hset]
        have hsmall : (BitVec.ofNat 32 bit).toNat = bit := by
          rw [BitVec.toNat_ofNat]
          omega
        refine ⟨bit, Nat.lt_succ_self bit, ?_, ?_, hx⟩
        · rw [BitVec.toInt_eq_toNat_cond, hsmall]
          omega
        · exact Nat.ge_two_pow_of_testBit hset
      · rw [if_neg hset]
        have hx' : x.toNat < 2 ^ bit := by
          apply Nat.lt_pow_two_of_testBit
          intro i hi
          rcases Nat.eq_or_lt_of_le hi with rfl | hlt
          · exact Bool.eq_false_iff.mpr hset
          · apply Nat.testBit_lt_two_pow
            exact hx.trans_le (Nat.pow_le_pow_right Nat.two_pos hlt)
        rcases ih (Nat.le_of_succ_le hbit) hx' with h | ⟨m, hm, h⟩
        · exact Or.inl h
        · exact Or.inr ⟨m, Nat.lt_succ_of_lt hm, h⟩

/-- The test against the position of the highest bit of `x`: nothing of `x` is shifted out of 32
bits. -/
theorem ige_findMsb_iff (x : BitVec 32) {i : ℕ} (hi : i < 32) :
  (findMsbFrom x 32).toInt ≤ (31 - BitVec.ofNat 32 i).toInt ↔ x.toNat * 2 ^ i < 2 ^ 32
  := by
  have hsub : (31 - BitVec.ofNat 32 i).toInt = 31 - i := by
    have hsmall : (BitVec.ofNat 32 i).toNat = i := by
      rw [BitVec.toNat_ofNat]
      omega
    rw [BitVec.toInt_eq_toNat_cond, BitVec.toNat_sub, hsmall, show (31 : BitVec 32).toNat = 31 from rfl]
    omega
  rw [hsub]
  rcases findMsbFrom_spec x (Nat.le_refl 32) x.isLt with ⟨rfl, hmsb⟩ | ⟨m, hm, hmsb, hge, hlt⟩
  · rw [hmsb, BitVec.toNat_zero, Nat.zero_mul, show (-1 : BitVec 32).toInt = -1 from rfl]
    constructor
    · intro _
      exact Nat.two_pow_pos 32
    · intro _
      omega
  · rw [hmsb]
    constructor
    · intro hle
      calc x.toNat * 2 ^ i < 2 ^ (m + 1) * 2 ^ i := Nat.mul_lt_mul_of_pos_right hlt (Nat.two_pow_pos i)
        _ = 2 ^ (m + 1 + i) := (Nat.pow_add 2 (m + 1) i).symm
        _ ≤ 2 ^ 32 := Nat.pow_le_pow_right Nat.two_pos (by omega)
    · intro hfits
      by_contra hgt
      have hover : 2 ^ 32 ≤ x.toNat * 2 ^ i := by
        calc 2 ^ 32 ≤ 2 ^ (m + i) := Nat.pow_le_pow_right Nat.two_pos (by omega)
          _ = 2 ^ m * 2 ^ i := Nat.pow_add 2 m i
          _ ≤ x.toNat * 2 ^ i := Nat.mul_le_mul_right _ hge
      omega

/-! ### The loops -/

/-- A shifted number fits if and only if the number is small enough. -/
theorem mul_two_pow_lt_iff {a i k : ℕ} (hi : i ≤ k) :
  a * 2 ^ i < 2 ^ k ↔ a < 2 ^ (k - i)
  := by
  rw [show 2 ^ k = 2 ^ (k - i) * 2 ^ i by rw [← Nat.pow_add, Nat.sub_add_cancel hi]]
  exact Nat.mul_lt_mul_right (Nat.two_pow_pos i)

/-- Nothing of `d` is shifted out of 64 bits where nothing of its high half is shifted out of 32. -/
theorem fits_iff_unpackY (d : Def n 64) (c : Fin n) {i : ℕ} (hi : i ≤ 32) :
  (d c).toNat * 2 ^ i < 2 ^ 64 ↔ (unpackY d c).toNat * 2 ^ i < 2 ^ 32
  := by
  rw [mul_two_pow_lt_iff (by omega), mul_two_pow_lt_iff hi, toNat_unpackY,
    Nat.div_lt_iff_lt_mul (Nat.two_pow_pos 32), ← Nat.pow_add]
  rw [show 32 - i + 32 = 64 - i by omega]

theorem shift_imm {x : BitVec w} {i : ℕ} (hi : i < 32) :
  x <<< BitVec.ofNat 32 i = x <<< i
  := by
  rw [BitVec.shiftLeft_eq', BitVec.toNat_ofNat, Nat.mod_eq_of_lt (by omega)]

/-- The condition of the loops: the guard is not asked for in the last round, where it holds. -/
theorem guard_eq {cond : Def n 32} {b : Bool} {c : Fin n} (hcond : cond c = nirBool b)
    (x : Def n 32) {i : ℕ} (hi : i < 32) :
  (if i ≠ 0 then iand cond (ige (imm (31 - BitVec.ofNat 32 i)) (ufindMsb x)) else cond) c =
    nirBool (b && decide ((x c).toNat * 2 ^ i < 2 ^ 32))
  := by
  split
  · have hguard : ige (imm (31 - BitVec.ofNat 32 i)) (ufindMsb x) c =
        nirBool (decide ((x c).toNat * 2 ^ i < 2 ^ 32)) := by
      rw [ige, nirBool_inj, decide_eq_decide]
      exact ige_findMsb_iff (x c) hi
    rw [iand, hcond, hguard, nirBool_and]
  next h =>
    have hx := (x c).isLt
    obtain rfl := not_not.mp h
    rw [Nat.pow_zero, Nat.mul_one, decide_eq_true hx, Bool.and_true, hcond]

/-- The words of a pair of defs. -/
def words (s : Def n w × Def n 32) (c : Fin n) : BitVec w × BitVec 32 := (s.1 c, s.2 c)

theorem words_highStep {need : Bool} {needHighDiv : Def n 32} {c : Fin n}
    (hneed : needHighDiv c = nirBool need) (dLo : Def n 32) (s : Def n 32 × Def n 32) {i : ℕ}
    (hi : i < 32) :
  words (highStep needHighDiv dLo (ufindMsb dLo) s i) c =
    if need = true then wordStep (dLo c) (words s c) i else words s c
  := by
  have huge : iand needHighDiv (uge s.1 (ishl dLo (imm (BitVec.ofNat 32 i)))) c =
      nirBool (need && decide (dLo c <<< i ≤ s.1 c)) := by
    rw [iand, hneed, uge, ishl, imm, shift_imm hi, nirBool_and]
  have hcond := guard_eq huge dLo hi
  cases need with
  | false =>
      simp only [words, highStep, bcsel, hcond, nirBool_ne_zero, Bool.false_and,
        Bool.false_eq_true, if_false]
  | true =>
      rw [Bool.true_and] at hcond
      by_cases h : dLo c <<< i ≤ s.1 c ∧ (dLo c).toNat * 2 ^ i < 2 ^ 32
      · have hword : wordStep (dLo c) (words s c) i =
            (s.1 c - dLo c <<< i, s.2 c ||| 1#32 <<< i) := if_pos h
        rw [decide_eq_true h.1, decide_eq_true h.2] at hcond
        rw [if_pos rfl, hword]
        simp only [words, highStep, bcsel, hcond, nirBool_ne_zero, isub, ior, imm, ishl,
          shift_imm hi, Bool.and_true, if_true]
      · have hword : wordStep (dLo c) (words s c) i = words s c := if_neg h
        rw [← Bool.decide_and, decide_eq_false h] at hcond
        rw [if_pos rfl, hword]
        simp only [words, highStep, bcsel, hcond, nirBool_ne_zero, Bool.false_eq_true, if_false]

theorem words_lowStep (d : Def n 64) (s : Def n 64 × Def n 32) (c : Fin n) {i : ℕ} (hi : i < 32) :
  words (lowStep d (ufindMsb (unpackY d)) s i) c = wordStep (d c) (words s c) i
  := by
  have huge : uge s.1 (ishl d (imm (BitVec.ofNat 32 i))) c =
      nirBool (decide (d c <<< i ≤ s.1 c)) := by
    rw [uge, ishl, imm, shift_imm hi]
  have hcond := guard_eq huge (unpackY d) hi
  have hfits := fits_iff_unpackY d c (Nat.le_of_lt hi)
  rw [← Bool.decide_and, decide_eq_decide.mpr (and_congr_right fun _ => hfits.symm)] at hcond
  by_cases h : d c <<< i ≤ s.1 c ∧ (d c).toNat * 2 ^ i < 2 ^ 64
  · have hword : wordStep (d c) (words s c) i =
        (s.1 c - d c <<< i, s.2 c ||| 1#32 <<< i) := if_pos h
    rw [decide_eq_true h] at hcond
    rw [hword]
    simp only [words, lowStep, bcsel, hcond, nirBool_ne_zero, isub, ior, imm, ishl, shift_imm hi,
      if_true]
  · have hword : wordStep (d c) (words s c) i = words s c := if_neg h
    rw [decide_eq_false h] at hcond
    rw [hword]
    simp only [words, lowStep, bcsel, hcond, nirBool_ne_zero, Bool.false_eq_true, if_false]

/-- The rounds of a loop, seen at one component. -/
theorem words_foldl {step : Def n w × Def n 32 → ℕ → Def n w × Def n 32}
    {wordsStep : BitVec w × BitVec 32 → ℕ → BitVec w × BitVec 32} {c : Fin n}
    (hstep : ∀ s, ∀ i < 32, words (step s i) c = wordsStep (words s c) i)
    (s : Def n w × Def n 32) :
  words (downFrom31.foldl step s) c = (places 32).foldl wordsStep (words s c)
  := by
  have hall : ∀ l : List ℕ, (∀ i ∈ l, i < 32) → ∀ s,
      words (l.foldl step s) c = l.foldl wordsStep (words s c) := by
    intro l
    induction l with
    | nil =>
        intro _ s
        rfl
    | cons i l ih =>
        intro hl s
        rw [List.foldl_cons, List.foldl_cons, ih (fun j hj => hl j (List.mem_cons_of_mem _ hj)),
          hstep s i (hl i List.mem_cons_self)]
  apply hall
  intro i hi
  rw [downFrom31, List.mem_reverse, List.mem_range] at hi
  exact hi

/-- The first loop at a component that needs it. -/
theorem words_high {needHighDiv : Def n 32} {c : Fin n} (hneed : needHighDiv c = nirBool true)
    (dLo : Def n 32) (s : Def n 32 × Def n 32) :
  words (downFrom31.foldl (highStep needHighDiv dLo (ufindMsb dLo)) s) c =
    wordDivide (dLo c) 32 (words s c)
  := by
  apply words_foldl
  intro s i hi
  rw [words_highStep hneed dLo s hi, if_pos rfl]

/-- The first loop at a component that does not need it. -/
theorem words_high_skipped {needHighDiv : Def n 32} {c : Fin n}
    (hneed : needHighDiv c = nirBool false) (dLo : Def n 32) (s : Def n 32 × Def n 32) :
  words (downFrom31.foldl (highStep needHighDiv dLo (ufindMsb dLo)) s) c = words s c
  := by
  have hall : words (downFrom31.foldl (highStep needHighDiv dLo (ufindMsb dLo)) s) c =
      (places 32).foldl (fun s _ => s) (words s c) := by
    apply words_foldl
    intro s i hi
    rw [words_highStep hneed dLo s hi, if_neg Bool.false_ne_true]
  rw [hall]
  exact List.foldl_fixed _

theorem words_low (d : Def n 64) (s : Def n 64 × Def n 32) (c : Fin n) :
  words (downFrom31.foldl (lowStep d (ufindMsb (unpackY d))) s) c =
    wordDivide (d c) 32 (words s c)
  := by
  apply words_foldl
  intro s i hi
  exact words_lowStep d s c hi

/-! ### Unsigned division -/

theorem bany_iff (x : Def n 32) :
  bany x = true ↔ ∃ c, x c ≠ 0
  := by
  rw [bany, decide_eq_true_eq]

/-- Where the first loop is needed. -/
def needHigh (m d : Def n 64) : Def n 32 :=
  iand (ieq (unpackY d) (imm 0)) (uge (unpackY m) (unpackX d))

/-- The high half of the numerator and that of the quotient behind the `if`. -/
def afterHigh (m d : Def n 64) : Def n 32 × Def n 32 :=
  if bany (needHigh m d) then
    downFrom31.foldl
      (highStep (if n = 1 then imm (nirBool true) else needHigh m d) (unpackX d)
        (ufindMsb (unpackX d))) (unpackY m, imm 0)
  else (unpackY m, imm 0)

/-- The numerator and the low half of the quotient behind the second loop. -/
def afterLow (m d : Def n 64) : Def n 64 × Def n 32 :=
  downFrom31.foldl (lowStep d (ufindMsb (unpackY d))) (pack (unpackX m) (afterHigh m d).1, imm 0)

theorem lowerUdiv64Mod64_eq (m d : Def n 64) :
  lowerUdiv64Mod64 m d = (pack (afterLow m d).2 (afterHigh m d).2, (afterLow m d).1)
  := by
  simp only [lowerUdiv64Mod64, pack_unpack, afterLow, afterHigh, needHigh]
  rfl

/-- The first loop divides at the components that need it, and at no others. -/
theorem words_afterHigh (m d : Def n 64) (c : Fin n) :
  words (afterHigh m d) c =
    if unpackY d c = 0 ∧ unpackX d c ≤ unpackY m c
    then wordDivide (unpackX d c) 32 (unpackY m c, 0#32)
    else (unpackY m c, 0#32)
  := by
  have hneed : needHigh m d c =
      nirBool (decide (unpackY d c = 0 ∧ unpackX d c ≤ unpackY m c)) := by
    rw [Bool.decide_and]
    apply nirBool_and
  rw [afterHigh]
  by_cases hc : unpackY d c = 0 ∧ unpackX d c ≤ unpackY m c
  · rw [decide_eq_true hc] at hneed
    have hany : bany (needHigh m d) = true := by
      rw [bany_iff]
      use c
      rw [hneed, nirBool_ne_zero]
    rw [if_pos hc, if_pos hany]
    apply words_high
    split
    · rfl
    · exact hneed
  · rw [decide_eq_false hc] at hneed
    rw [if_neg hc]
    by_cases hany : bany (needHigh m d) = true
    · -- another component needs the loop, so that there are several
      have hn : n ≠ 1 := by
        rintro rfl
        obtain ⟨c', hc'⟩ := (bany_iff _).mp hany
        rw [Subsingleton.elim c' c, hneed] at hc'
        exact hc' rfl
      rw [if_pos hany, if_neg hn]
      exact words_high_skipped hneed _ _
    · rw [if_neg hany]
      rfl

/-- The lowered quotient and the lowered remainder are those of the numbers. -/
theorem toNat_lowerUdiv64Mod64 (m d : Def n 64) {c : Fin n} (hd : (d c).toNat ≠ 0) :
  ((lowerUdiv64Mod64 m d).1 c).toNat = (m c).toNat / (d c).toNat ∧
    ((lowerUdiv64Mod64 m d).2 c).toNat = (m c).toNat % (d c).toNat
  := by
  have hhigh := words_afterHigh m d c
  have hmX := toNat_unpackX m c
  have hmY := toNat_unpackY m c
  have hdX := toNat_unpackX d c
  have hdY := toNat_unpackY d c
  have hmlt := (m c).isLt
  have hdlt := (d c).isLt
  -- the first loop leaves a numerator with a quotient of 32 bits
  obtain ⟨hsmall, hbalance⟩ : ((afterHigh m d).1 c).toNat * 2 ^ 32 + (unpackX m c).toNat <
        (d c).toNat * 2 ^ 32 ∧
      (d c).toNat * ((afterHigh m d).2 c).toNat + ((afterHigh m d).1 c).toNat =
        (unpackY m c).toNat := by
    split at hhigh
    next hneed =>
      obtain ⟨hzero, hle⟩ := hneed
      rw [hzero, show (0 : BitVec 32).toNat = 0 from rfl] at hdY
      have hfits : (unpackY m c).toNat < (unpackX d c).toNat * 2 ^ 32 := by
        omega
      obtain ⟨hrem, hquot⟩ := toNat_wordDivide (Nat.le_refl 32) hfits
      rw [← hhigh] at hrem hquot
      change ((afterHigh m d).1 c).toNat = _ at hrem
      change ((afterHigh m d).2 c).toNat = _ at hquot
      have hdd : (d c).toNat = (unpackX d c).toNat := by
        omega
      have hlt := Nat.mod_lt (unpackY m c).toNat (Nat.pos_of_ne_zero hd)
      rw [hquot, hrem, ← hdd, Nat.div_add_mod]
      refine ⟨?_, rfl⟩
      omega
    next hneed =>
      obtain ⟨hrem, hquot⟩ := Prod.ext_iff.mp hhigh
      change (afterHigh m d).1 c = unpackY m c at hrem
      change (afterHigh m d).2 c = 0#32 at hquot
      rw [hrem, hquot, BitVec.toNat_zero, Nat.mul_zero, Nat.zero_add]
      refine ⟨?_, rfl⟩
      by_cases hzero : unpackY d c = 0
      · have hgt : ¬(unpackX d c).toNat ≤ (unpackY m c).toNat := fun hle => hneed ⟨hzero, hle⟩
        rw [hzero, show (0 : BitVec 32).toNat = 0 from rfl] at hdY
        omega
      · have hpos : (unpackY d c).toNat ≠ 0 := fun h => hzero (BitVec.eq_of_toNat_eq h)
        omega
  have hlow := words_low d (pack (unpackX m) (afterHigh m d).1, imm 0) c
  rw [← toNat_pack] at hsmall
  obtain ⟨hrem, hquot⟩ := toNat_wordDivide (Nat.le_refl 32) hsmall
  have hafter : words (afterLow m d) c =
      wordDivide (d c) 32 (pack (unpackX m) (afterHigh m d).1 c, 0#32) := hlow
  rw [← hafter, toNat_pack] at hrem hquot
  change ((afterLow m d).1 c).toNat = _ at hrem
  change ((afterLow m d).2 c).toNat = _ at hquot
  rw [lowerUdiv64Mod64_eq]
  have hm : (m c).toNat = ((afterHigh m d).1 c).toNat * 2 ^ 32 + (unpackX m c).toNat +
      (d c).toNat * (((afterHigh m d).2 c).toNat * 2 ^ 32) := by
    have hsum : (m c).toNat = (unpackY m c).toNat * 2 ^ 32 + (unpackX m c).toNat := by
      omega
    rw [hsum, ← hbalance]
    ring
  constructor
  · rw [toNat_pack, hquot, hm, Nat.add_mul_div_left _ _ (Nat.pos_of_ne_zero hd), Nat.add_comm]
  · rw [hrem, hm, Nat.add_mul_mod_self_left]

theorem lowerUdiv64Mod64_div (m d : Def n 64) {c : Fin n} (hd : (d c).toNat ≠ 0) :
  (lowerUdiv64Mod64 m d).1 c = BitVec.ofNat 64 ((m c).toNat / (d c).toNat)
  := by
  rw [← (toNat_lowerUdiv64Mod64 m d hd).1, BitVec.ofNat_toNat, BitVec.setWidth_eq]

theorem lowerUdiv64Mod64_mod (m d : Def n 64) {c : Fin n} (hd : (d c).toNat ≠ 0) :
  (lowerUdiv64Mod64 m d).2 c = BitVec.ofNat 64 ((m c).toNat % (d c).toNat)
  := by
  rw [← (toNat_lowerUdiv64Mod64 m d hd).2, BitVec.ofNat_toNat, BitVec.setWidth_eq]

/-! ### Multiplication -/

theorem lowerImul64_apply (x y : Def n 64) (c : Fin n) :
  lowerImul64 x y c = x c * y c
  := by
  have hxX := toNat_unpackX x c
  have hxY := toNat_unpackY x c
  have hyX := toNat_unpackX y c
  have hyY := toNat_unpackY y c
  apply BitVec.eq_of_toNat_eq
  have hxlt := (x c).isLt
  have hylt := (y c).isLt
  have hmul : ∀ p q : Def n 32, (imul p q c).toNat = (p c).toNat * (q c).toNat % 2 ^ 32 := by
    intro p q
    exact BitVec.toNat_mul _ _
  have hhigh : (umulHigh (unpackX x) (unpackX y) c).toNat =
      (unpackX x c).toNat * (unpackX y c).toNat / 2 ^ 32 % 2 ^ 32 := by
    have hprod : (unpackX x c).toNat * (unpackX y c).toNat < 2 ^ 64 := by
      calc (unpackX x c).toNat * (unpackX y c).toNat < 2 ^ 32 * 2 ^ 32 :=
            Nat.mul_lt_mul'' (unpackX x c).isLt (unpackX y c).isLt
        _ = 2 ^ 64 := rfl
    have hwide : ∀ z : BitVec 32, (z.setWidth 64).toNat = z.toNat := by
      intro z
      rw [BitVec.toNat_setWidth]
      exact Nat.mod_eq_of_lt (z.isLt.trans (by decide))
    rw [umulHigh, BitVec.toNat_setWidth, BitVec.toNat_ushiftRight, Nat.shiftRight_eq_div_pow,
      BitVec.toNat_mul, hwide, hwide, Nat.mod_eq_of_lt hprod]
  -- the product of the high halves is a multiple of `2 ^ 64`
  have hexpand : (x c).toNat * (y c).toNat =
      2 ^ 64 * ((unpackY x c).toNat * (unpackY y c).toNat) +
        ((unpackX x c).toNat * (unpackY y c).toNat + (unpackY x c).toNat * (unpackX y c).toNat) *
          2 ^ 32 + (unpackX x c).toNat * (unpackX y c).toNat := by
    have hx : (x c).toNat = (unpackY x c).toNat * 2 ^ 32 + (unpackX x c).toNat := by
      omega
    have hy : (y c).toNat = (unpackY y c).toNat * 2 ^ 32 + (unpackX y c).toNat := by
      omega
    rw [hx, hy]
    ring
  rw [BitVec.toNat_mul, hexpand, lowerImul64, toNat_pack, hmul, iadd, BitVec.toNat_add, hhigh, iadd,
    BitVec.toNat_add, hmul, hmul]
  omega

/-! ### The sign -/

theorem sshiftRight_31 (x : BitVec 32) :
  x.sshiftRight' (31 : BitVec 32) = if x.toInt < 0 then -1 else 0
  := by
  apply BitVec.eq_of_toInt_eq
  have hle := BitVec.le_toInt x
  have hlt := BitVec.toInt_lt (x := x)
  rw [BitVec.sshiftRight', BitVec.toInt_sshiftRight, show (31 : BitVec 32).toNat = 31 from rfl,
    Int.shiftRight_eq_div_pow]
  split
  next h =>
    rw [show (-1 : BitVec 32).toInt = -1 from rfl]
    omega
  next h =>
    rw [show (0 : BitVec 32).toInt = 0 from rfl]
    omega

theorem lowerIsign64_apply (x : Def n 64) (c : Fin n) :
  lowerIsign64 x c = if (x c).toInt = 0 then 0 else if 0 < (x c).toInt then 1 else -1
  := by
  have hX := toNat_unpackX x c
  have hY := toNat_unpackY x c
  have hlt := (x c).isLt
  have hsign := unpackY_neg_iff x c
  have hhi : ishr (unpackY x) (imm 31) c = if (x c).toInt < 0 then -1 else 0 := by
    rw [ishr, imm, sshiftRight_31]
    exact if_congr hsign rfl rfl
  have hzero : ior (unpackX x) (unpackY x) c = 0#32 ↔ (x c).toInt = 0 := by
    rw [ior, BitVec.or_eq_zero_iff, BitVec.toInt_eq_toNat_cond]
    constructor
    · rintro ⟨hx, hy⟩
      rw [hx, show (0#32).toNat = 0 from rfl] at hX
      rw [hy, show (0#32).toNat = 0 from rfl] at hY
      split <;> omega
    · intro h
      constructor
      · apply BitVec.eq_of_toNat_eq
        rw [hX, show (0#32).toNat = 0 from rfl]
        split at h <;> omega
      · apply BitVec.eq_of_toNat_eq
        rw [hY, show (0#32).toNat = 0 from rfl]
        split at h <;> omega
  have hbit : b2i (i2b (ior (unpackX x) (unpackY x))) c = if (x c).toInt = 0 then 0 else 1 := by
    rw [b2i, i2b]
    by_cases h : (x c).toInt = 0
    · rw [if_pos h, hzero.mpr h]
      rfl
    · have hne : ior (unpackX x) (unpackY x) c ≠ 0 := mt hzero.mp h
      rw [if_neg h, decide_eq_true hne, if_pos ((nirBool_ne_zero true).mpr rfl)]
  rw [lowerIsign64, pack, ior, hhi, hbit]
  rcases lt_trichotomy (x c).toInt 0 with h | h | h
  · rw [if_pos h, if_neg h.ne, if_neg h.ne, if_neg h.not_gt]
    rfl
  · rw [if_pos h, if_pos h, if_neg (by omega)]
    rfl
  · rw [if_neg h.not_gt, if_neg h.ne', if_neg h.ne', if_pos h]
    rfl

/-! ### Signed division -/

theorem toNat_iabs (x : Def n 64) (c : Fin n) :
  (iabs x c).toNat = (x c).toInt.natAbs
  := by
  have hlt := (x c).isLt
  have hint := BitVec.toInt_eq_toNat_cond (x c)
  rw [iabs]
  split
  · rw [BitVec.toNat_neg]
    split at hint <;> omega
  · split at hint <;> omega

theorem eq_neg_natAbs {a : ℤ} (h : a < 0) :
  a = -(a.natAbs : ℤ)
  := by
  omega

theorem eq_natAbs {a : ℤ} (h : ¬a < 0) :
  a = (a.natAbs : ℤ)
  := by
  omega

/-- Division that truncates divides the absolute values and then sets the sign. -/
theorem tdiv_eq (a b : ℤ) :
  a.tdiv b =
    if decide (a < 0) = decide (b < 0) then ((a.natAbs / b.natAbs : ℕ) : ℤ)
    else -((a.natAbs / b.natAbs : ℕ) : ℤ)
  := by
  by_cases ha : a < 0
  · by_cases hb : b < 0
    · have h := Int.neg_tdiv_neg a.natAbs b.natAbs
      rw [← eq_neg_natAbs ha, ← eq_neg_natAbs hb] at h
      rw [if_pos (by rw [decide_eq_true ha, decide_eq_true hb]), Int.ofNat_tdiv, h]
    · rw [if_neg (by rw [decide_eq_true ha, decide_eq_false hb]; decide), Int.ofNat_tdiv,
        ← Int.neg_tdiv, ← eq_neg_natAbs ha, ← eq_natAbs hb]
  · by_cases hb : b < 0
    · rw [if_neg (by rw [decide_eq_false ha, decide_eq_true hb]; decide), Int.ofNat_tdiv,
        ← Int.tdiv_neg, ← eq_natAbs ha, ← eq_neg_natAbs hb]
    · rw [if_pos (by rw [decide_eq_false ha, decide_eq_false hb]), Int.ofNat_tdiv,
        ← eq_natAbs ha, ← eq_natAbs hb]

/-- The remainder has the sign of the numerator. -/
theorem tmod_eq (a b : ℤ) :
  a.tmod b =
    if a < 0 then -((a.natAbs % b.natAbs : ℕ) : ℤ) else ((a.natAbs % b.natAbs : ℕ) : ℤ)
  := by
  have hb : a.tmod b = a.tmod b.natAbs := by
    by_cases hb : b < 0
    · rw [eq_neg_natAbs hb, Int.tmod_neg, Int.natAbs_neg, Int.natAbs_natCast]
    · rw [← eq_natAbs hb]
  rw [hb, Int.ofNat_tmod]
  split
  next ha => rw [← Int.neg_tmod, ← eq_neg_natAbs ha]
  next ha => rw [← eq_natAbs ha]

/-- The comparisons with zero of the high halves. -/
theorem ilt_unpackY (x : Def n 64) (c : Fin n) :
  ilt (unpackY x) (imm 0) c = nirBool (decide ((x c).toInt < 0))
  := by
  rw [ilt, nirBool_inj, decide_eq_decide]
  exact unpackY_neg_iff x c

theorem iabs_ne_zero {d : Def n 64} {c : Fin n} (hd : d c ≠ 0) :
  (iabs d c).toNat ≠ 0
  := by
  rw [toNat_iabs, Int.natAbs_ne_zero]
  intro h
  exact hd (BitVec.eq_of_toInt_eq h)

theorem lowerIdiv64_apply (m d : Def n 64) {c : Fin n} (hd : d c ≠ 0) :
  lowerIdiv64 m d c = BitVec.ofInt 64 ((m c).toInt.tdiv (d c).toInt)
  := by
  have hquot := lowerUdiv64Mod64_div (iabs m) (iabs d) (iabs_ne_zero hd)
  rw [toNat_iabs, toNat_iabs] at hquot
  have hnegate : ine (ilt (unpackY m) (imm 0)) (ilt (unpackY d) (imm 0)) c =
      nirBool (decide (decide ((m c).toInt < 0) ≠ decide ((d c).toInt < 0))) := by
    rw [ine, ilt_unpackY, ilt_unpackY, nirBool_inj, decide_eq_decide]
    exact not_congr nirBool_inj
  change bcsel _ (ineg (lowerUdiv64Mod64 (iabs m) (iabs d)).1)
    (lowerUdiv64Mod64 (iabs m) (iabs d)).1 c = _
  rw [bcsel, hnegate, ineg, hquot, tdiv_eq]
  by_cases h : decide ((m c).toInt < 0) = decide ((d c).toInt < 0)
  · rw [if_pos h, decide_eq_false (not_not.mpr h), if_neg (by decide), BitVec.ofInt_natCast]
  · rw [if_neg h, decide_eq_true h, if_pos (by decide), BitVec.ofInt_neg, BitVec.ofInt_natCast]

/-- The remainder with its sign, as `lower_irem64` and `lower_imod64` compute it. -/
theorem rem_apply (m d : Def n 64) {c : Fin n} (hd : d c ≠ 0) :
  bcsel (ilt (unpackY m) (imm 0)) (ineg (lowerUdiv64Mod64 (iabs m) (iabs d)).2)
      (lowerUdiv64Mod64 (iabs m) (iabs d)).2 c =
    BitVec.ofInt 64 ((m c).toInt.tmod (d c).toInt)
  := by
  have hrem := lowerUdiv64Mod64_mod (iabs m) (iabs d) (iabs_ne_zero hd)
  rw [toNat_iabs, toNat_iabs] at hrem
  rw [bcsel, ilt_unpackY, ineg, hrem, tmod_eq]
  by_cases h : (m c).toInt < 0
  · rw [if_pos h, decide_eq_true h, if_pos (by decide), BitVec.ofInt_neg, BitVec.ofInt_natCast]
  · rw [if_neg h, decide_eq_false h, if_neg (by decide), BitVec.ofInt_natCast]

theorem toInt_ne_zero {x : BitVec 64} (hx : x ≠ 0) :
  x.toInt ≠ 0
  := by
  intro h
  exact hx (BitVec.eq_of_toInt_eq h)

theorem lowerIrem64_apply (m d : Def n 64) {c : Fin n} (hd : d c ≠ 0) :
  lowerIrem64 m d c = BitVec.ofInt 64 ((m c).toInt.tmod (d c).toInt)
  := rem_apply m d hd

theorem lowerImod64_apply (m d : Def n 64) {c : Fin n} (hd : d c ≠ 0) :
  lowerImod64 m d c =
    if (m c).toInt.tmod (d c).toInt = 0 ∨ (0 ≤ (m c).toInt ↔ 0 ≤ (d c).toInt)
    then BitVec.ofInt 64 ((m c).toInt.tmod (d c).toInt)
    else BitVec.ofInt 64 ((m c).toInt.tmod (d c).toInt + (d c).toInt)
  := by
  have hrem := lowerUdiv64Mod64_mod (iabs m) (iabs d) (iabs_ne_zero hd)
  rw [toNat_iabs, toNat_iabs] at hrem
  have hsigns : ieq (ilt (unpackY m) (imm 0)) (ilt (unpackY d) (imm 0)) c =
      nirBool (decide (0 ≤ (m c).toInt ↔ 0 ≤ (d c).toInt)) := by
    rw [ieq, ilt_unpackY, ilt_unpackY, nirBool_inj, decide_eq_decide, nirBool_inj,
      decide_eq_decide]
    omega
  have hzero : ieq (lowerUdiv64Mod64 (iabs m) (iabs d)).2 (imm 0) c =
      nirBool (decide ((m c).toInt.tmod (d c).toInt = 0)) := by
    have hlt : (m c).toInt.natAbs % (d c).toInt.natAbs < 2 ^ 64 := by
      have hmod := Nat.mod_le (m c).toInt.natAbs (d c).toInt.natAbs
      have habs := (iabs m c).isLt
      rw [toNat_iabs] at habs
      omega
    rw [ieq, hrem, nirBool_inj, decide_eq_decide, ← BitVec.toNat_inj, BitVec.toNat_ofNat,
      Nat.mod_eq_of_lt hlt, tmod_eq, imm, show (0 : BitVec 64).toNat = 0 from rfl]
    split <;> omega
  change bcsel (ieq (lowerUdiv64Mod64 (iabs m) (iabs d)).2 (imm 0)) (imm 0)
    (bcsel (ieq (ilt (unpackY m) (imm 0)) (ilt (unpackY d) (imm 0)))
      (bcsel (ilt (unpackY m) (imm 0)) (ineg (lowerUdiv64Mod64 (iabs m) (iabs d)).2)
        (lowerUdiv64Mod64 (iabs m) (iabs d)).2)
      (iadd (bcsel (ilt (unpackY m) (imm 0)) (ineg (lowerUdiv64Mod64 (iabs m) (iabs d)).2)
        (lowerUdiv64Mod64 (iabs m) (iabs d)).2) d)) c = _
  have hrem := rem_apply m d hd
  rw [bcsel, hzero]
  by_cases h : (m c).toInt.tmod (d c).toInt = 0
  · rw [decide_eq_true h, if_pos (by decide), if_pos (Or.inl h), h]
    rfl
  · rw [decide_eq_false h, if_neg (by decide), bcsel, hsigns, iadd, hrem]
    by_cases hs : 0 ≤ (m c).toInt ↔ 0 ≤ (d c).toInt
    · rw [decide_eq_true hs, if_pos (by decide), if_pos (Or.inr hs)]
    · rw [decide_eq_false hs, if_neg (by decide), if_neg (not_or.mpr ⟨h, hs⟩), BitVec.ofInt_add,
        BitVec.ofInt_toInt]

/-! ### Every opcode -/

/-- The lowered sequence of an opcode computes its constant expression. -/
theorem lowerInt64AluInstr_eq (op : Op) (src : ℕ → Def n 64)
    (hsrc : op.divides = true → ∀ c, src 1 c ≠ 0) :
  lowerInt64AluInstr op src = fun c => constExpr op (src 0 c) (src 1 c)
  := by
  funext c
  have hnat : op.divides = true → (src 1 c).toNat ≠ 0 := by
    intro h hzero
    exact hsrc h c (BitVec.eq_of_toNat_eq hzero)
  cases op with
  | imul =>
      change lowerImul64 (src 0) (src 1) c = BitVec.ofInt 64 ((src 0 c).toInt * (src 1 c).toInt)
      rw [lowerImul64_apply, BitVec.ofInt_mul, BitVec.ofInt_toInt, BitVec.ofInt_toInt]
  | isign => exact lowerIsign64_apply (src 0) c
  | udiv => exact lowerUdiv64Mod64_div (src 0) (src 1) (hnat rfl)
  | idiv => exact lowerIdiv64_apply (src 0) (src 1) (hsrc rfl c)
  | umod =>
      have h := lowerUdiv64Mod64_mod (src 0) (src 1) (hnat rfl)
      exact h.trans (if_neg (hnat rfl)).symm
  | imod =>
      have h := lowerImod64_apply (src 0) (src 1) (hsrc rfl c)
      exact h.trans (if_neg (toInt_ne_zero (hsrc rfl c))).symm
  | irem =>
      have h := lowerIrem64_apply (src 0) (src 1) (hsrc rfl c)
      exact h.trans (if_neg (toInt_ne_zero (hsrc rfl c))).symm

/-- The most negative number, and a divisor that is negative too. -/
theorem lowerInt64AluInstr_eq_imod :
  lowerInt64AluInstr (n := 1) .imod (fun i => imm (if i = 0 then 1#64 <<< 63 else -3)) =
    fun _ => -2
  := by
  have h := lowerInt64AluInstr_eq (n := 1) .imod
    (fun i => imm (if i = 0 then 1#64 <<< 63 else -3)) ?_
  · rw [h]
    funext c
    rfl
  · intro _ c
    change (-3 : BitVec 64) ≠ 0
    decide

end Nir.LowerInt64
