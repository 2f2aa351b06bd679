import Mathlib.Data.Nat.Basic
import Mathlib.Tactic.Common

/-!
# Runs of bits

The maximal runs of numbers with a property below a bound, and how the bits of a word are scanned
for them: the first bit that is set begins a run, and the first one behind it that is not set ends
it.
-/

/-- A run of numbers below `n` with a property, which cannot be extended to either side. -/
structure IsRun (p : ℕ → Prop) (n start length : ℕ) : Prop where
  pos : 0 < length
  le : start + length ≤ n
  all : ∀ i, start ≤ i → i < start + length → p i
  before : ∀ i, i + 1 = start → ¬ p i
  after : start + length < n → ¬ p (start + length)

namespace IsRun

variable {p : ℕ → Prop} {n start length start' length' : ℕ}

theorem start_le (run : IsRun p n start length) (run' : IsRun p n start' length') {i : ℕ}
    (mem : start ≤ i ∧ i < start + length) (mem' : start' ≤ i) :
  start' ≤ start
  := by
  by_contra lt
  exact run'.before (start' - 1) (by omega) (run.all _ (by omega) (by omega))

theorem length_le (run : IsRun p n start length) (run' : IsRun p n start length') :
  length' ≤ length
  := by
  have le := run'.le
  by_contra lt
  exact run.after (by omega) (run'.all _ (by omega) (by omega))

/-- Two runs that have a number in common are the same. -/
theorem eq_of_common (run : IsRun p n start length) (run' : IsRun p n start' length') {i : ℕ}
    (mem : start ≤ i ∧ i < start + length) (mem' : start' ≤ i ∧ i < start' + length') :
  start = start' ∧ length = length'
  := by
  obtain rfl : start = start' :=
    Nat.le_antisymm (run'.start_le run mem' mem.1) (run.start_le run' mem mem'.1)
  exact ⟨rfl, Nat.le_antisymm (run'.length_le run) (run.length_le run')⟩

theorem congr {p' : ℕ → Prop} (run : IsRun p n start length) (same : ∀ i < n, p i ↔ p' i) :
  IsRun p' n start length
  := by
  have le := run.le
  refine ⟨run.pos, le, ?_, ?_, ?_⟩
  · intro i low high
    exact (same i (by omega)).mp (run.all i low high)
  · intro i eq there
    have pos := run.pos
    exact run.before i eq ((same i (by omega)).mpr there)
  · intro lt there
    exact run.after lt ((same _ lt).mpr there)

end IsRun

/-! ### Bits of a word -/

namespace BitVec

variable {w : ℕ}

/-- The number of the first bit that is set, counted from 1; it is 0 if there is none. -/
def findFirstSet (x : BitVec w) : ℕ := ((List.range w).find? fun i => x.getLsbD i).elim 0 (· + 1)

theorem findFirstSet_cases (x : BitVec w) :
  (x.findFirstSet = 0 ∧ ∀ i, x.getLsbD i = false) ∨
    ∃ i < w, x.findFirstSet = i + 1 ∧ x.getLsbD i = true ∧ ∀ j < i, x.getLsbD j = false
  := by
  cases found : (List.range w).find? fun i => x.getLsbD i with
  | none =>
    left
    refine ⟨by rw [findFirstSet, found, Option.elim_none], ?_⟩
    intro i
    by_cases lt : i < w
    · have := List.find?_eq_none.mp found i (List.mem_range.mpr lt)
      exact Bool.not_eq_true _ ▸ this
    · exact getLsbD_of_ge x i (by omega)
  | some i =>
    right
    obtain ⟨isSet, mem, first⟩ := List.find?_range_eq_some.mp found
    refine ⟨i, List.mem_range.mp mem, by rw [findFirstSet, found, Option.elim_some], isSet, ?_⟩
    intro j lt
    simpa using first j lt

/-- The bits below `n`. -/
theorem getLsbD_lowMask (n i : ℕ) :
  (1#w <<< n - 1#w).getLsbD i = (decide (i < n) && decide (i < w))
  := by
  by_cases inside : i < w
  case neg =>
    rw [getLsbD_of_ge _ i (by omega), decide_eq_false inside, Bool.and_false]
  case pos =>
    have one : 1 % 2 ^ w = 1 := Nat.mod_eq_of_lt (Nat.one_lt_two_pow (by omega))
    have pos := Nat.two_pow_pos w
    rw [decide_eq_true inside, Bool.and_true, ← testBit_toNat, toNat_sub, toNat_shiftLeft,
      toNat_ofNat, one, Nat.shiftLeft_eq, Nat.one_mul]
    by_cases short : n < w
    · have lt : 2 ^ n < 2 ^ w := Nat.pow_lt_pow_right (by decide) short
      have pos' := Nat.two_pow_pos n
      have value : (2 ^ w - 1 + 2 ^ n % 2 ^ w) % 2 ^ w = 2 ^ n - 1 := by
        rw [Nat.mod_eq_of_lt lt, show 2 ^ w - 1 + 2 ^ n = 2 ^ n - 1 + 2 ^ w by omega,
          Nat.add_mod_right, Nat.mod_eq_of_lt (by omega)]
      rw [value, Nat.testBit_two_pow_sub_one]
    · have zero : 2 ^ n % 2 ^ w = 0 := Nat.mod_eq_zero_of_dvd (Nat.pow_dvd_pow 2 (by omega))
      have low : i < n := by omega
      rw [zero, Nat.add_zero, Nat.mod_eq_of_lt (by omega), Nat.testBit_two_pow_sub_one,
        decide_eq_true inside, decide_eq_true low]

theorem getLsbD_clearBelow (x : BitVec w) (n i : ℕ) :
  (x &&& ~~~(1#w <<< n - 1#w)).getLsbD i = (x.getLsbD i && decide (n ≤ i))
  := by
  rw [getLsbD_and, getLsbD_not, getLsbD_lowMask]
  by_cases inside : i < w
  · by_cases low : i < n
    · simp [inside, low, Nat.not_le.mpr low]
    · simp [inside, low, Nat.le_of_not_lt low]
  · rw [getLsbD_of_ge x i (by omega), Bool.false_and, Bool.false_and]

/-- What is left of a word when it has been scanned for runs up to `q`. -/
structure Scanned (x rest : BitVec w) (q : ℕ) : Prop where
  bits : ∀ i, rest.getLsbD i = (x.getLsbD i && decide (q ≤ i))
  hole : q ≠ 0 → x.getLsbD q = false

theorem scanned_zero (x : BitVec w) :
  Scanned x x 0
  where
  bits := by simp
  hole := fun ne => (ne rfl).elim

/-- The runs of a word from a number on. -/
def RunFrom (x : BitVec w) (q start length : ℕ) : Prop :=
  IsRun (fun i => x.getLsbD i = true) w start length ∧ q ≤ start

/-- Nothing is left, or the first bit that is left begins a run: it goes to the first hole behind
it, or to the end of the word. -/
theorem Scanned.next {x rest : BitVec w} {q : ℕ} (scanned : Scanned x rest q) :
  (rest = 0#w ∧ ∀ start length, ¬ RunFrom x q start length) ∨
    rest ≠ 0#w ∧ ∃ first, rest.findFirstSet = first + 1 ∧ q ≤ first ∧ first < w ∧
      let holes := (~~~rest &&& ~~~(1#w <<< first - 1#w)).findFirstSet
      (holes = 0 ∧ ∀ start length,
        RunFrom x q start length ↔ start = first ∧ length = w - first) ∨
      ∃ hole, holes = hole + 1 ∧ first < hole ∧ hole < w ∧
        Scanned x (rest &&& ~~~(1#w <<< hole - 1#w)) hole ∧ ∀ start length,
          RunFrom x q start length ↔
            start = first ∧ length = hole - first ∨ RunFrom x hole start length
  := by
  have bits := scanned.bits
  have here : ∀ {start length : ℕ}, RunFrom x q start length → rest.getLsbD start = true := by
    rintro start length ⟨run, low⟩
    have pos := run.pos
    have isSet : x.getLsbD start = true := run.all start (le_refl start) (by omega)
    rw [bits, isSet, decide_eq_true low]
    rfl
  rcases findFirstSet_cases rest with ⟨none, clear⟩ | ⟨first, first_lt, found, isSet, clear⟩
  · left
    refine ⟨eq_of_getLsbD_eq fun i _ => by rw [clear, getLsbD_zero], ?_⟩
    intro start length run
    have := here run
    rw [clear] at this
    cases this
  right
  have ne : rest ≠ 0#w := by
    rintro rfl
    rw [getLsbD_zero] at isSet
    cases isSet
  rw [bits, Bool.and_eq_true, decide_eq_true_iff] at isSet
  obtain ⟨isSet, low⟩ := isSet
  refine ⟨ne, first, found, low, first_lt, ?_⟩
  dsimp only
  have before : ∀ i, i + 1 = first → ¬ x.getLsbD i = true := by
    intro i eq there
    by_cases near : q ≤ i
    · have := clear i (by omega)
      rw [bits, there, decide_eq_true near] at this
      cases this
    · obtain rfl : q = first := by omega
      have := scanned.hole (by omega)
      rw [isSet] at this
      cases this
  have atLeast : ∀ {start length : ℕ}, RunFrom x q start length → first ≤ start := by
    intro start length run
    by_contra lt
    have := here run
    rw [clear start (by omega)] at this
    cases this
  have holeBits : ∀ i, (~~~rest &&& ~~~(1#w <<< first - 1#w)).getLsbD i =
      (decide (i < w) && !x.getLsbD i && decide (first ≤ i)) := by
    intro i
    rw [getLsbD_clearBelow, getLsbD_not, bits]
    by_cases behind : first ≤ i
    · have : q ≤ i := by omega
      simp [this, behind]
    · simp [behind]
  rcases findFirstSet_cases (~~~rest &&& ~~~(1#w <<< first - 1#w)) with
    ⟨zero, filled⟩ | ⟨hole, hole_lt, eq, isHole, filled⟩
  · left
    have all : ∀ i, first ≤ i → i < w → x.getLsbD i = true := by
      intro i behind inside
      have := filled i
      rw [holeBits] at this
      simpa [behind, inside] using this
    have firstRun : IsRun (fun i => x.getLsbD i = true) w first (w - first) := by
      refine ⟨by omega, by omega, ?_, before, fun lt => by omega⟩
      exact fun i behind inside => all i behind (by omega)
    refine ⟨zero, ?_⟩
    intro start length
    constructor
    · intro run
      have := run.1.pos
      have := run.1.le
      have := atLeast run
      exact run.1.eq_of_common firstRun (i := start) (by omega) (by omega)
    · rintro ⟨rfl, rfl⟩
      exact ⟨firstRun, low⟩
  · right
    rw [holeBits] at isHole
    simp only [Bool.and_eq_true, decide_eq_true_iff, Bool.not_eq_true'] at isHole
    obtain ⟨⟨-, isHole⟩, behind_hole⟩ := isHole
    have lt : first < hole := by
      rcases Nat.lt_or_eq_of_le behind_hole with lt | rfl
      · exact lt
      · rw [isSet] at isHole
        cases isHole
    have all : ∀ i, first ≤ i → i < hole → x.getLsbD i = true := by
      intro i behind inside
      have := filled i inside
      have inside' : i < w := by omega
      rw [holeBits] at this
      simpa [behind, inside'] using this
    have firstRun : IsRun (fun i => x.getLsbD i = true) w first (hole - first) := by
      refine ⟨by omega, by omega, ?_, before, ?_⟩
      · exact fun i behind inside => all i behind (by omega)
      · intro _ there
        rw [Nat.add_sub_cancel' (Nat.le_of_lt lt), isHole] at there
        cases there
    refine ⟨hole, eq, lt, hole_lt, ⟨?_, fun _ => isHole⟩, ?_⟩
    · intro i
      rw [getLsbD_clearBelow, bits]
      by_cases far : hole ≤ i
      · have : q ≤ i := by omega
        simp [far, this]
      · simp [far]
    · intro start length
      constructor
      · intro run
        have pos := run.1.pos
        have := atLeast run
        by_cases far : hole ≤ start
        · exact .inr ⟨run.1, far⟩
        · exact .inl (run.1.eq_of_common firstRun (i := start) (by omega) (by omega))
      · rintro (⟨rfl, rfl⟩ | ⟨run, far⟩)
        · exact ⟨firstRun, low⟩
        · exact ⟨run, by omega⟩

end BitVec
