import Mathlib.Data.List.Basic

/-!
# Bitsets

Sets of numbers as the bits of a list of words, in which each word holds `w` of them.  Beyond the last
word there is nothing that could be set.
-/

namespace Bitset

variable {w : ℕ}

/-- Whether a bit is set. -/
def test (words : List (BitVec w)) (b : ℕ) : Bool := words[b / w]?.elim false (·.getLsbD (b % w))

/-- A bit is set, if its word is there. -/
def set (words : List (BitVec w)) (b : ℕ) : Option (List (BitVec w)) :=
  if b / w < words.length then some (words.modify (b / w) (· ||| BitVec.twoPow w (b % w))) else none

/-- Bits are set one after the other. -/
def setAll (words : List (BitVec w)) (bits : List ℕ) : Option (List (BitVec w)) :=
  bits.foldlM set words

theorem length_set {words words' : List (BitVec w)} {b : ℕ} (h : set words b = some words') :
  words'.length = words.length
  := by
  unfold set at h
  split at h
  · rw [← Option.some.inj h, List.length_modify]
  · cases h

/-- Setting a bit changes no other. -/
theorem test_set (positive : 0 < w) {words words' : List (BitVec w)} {b : ℕ}
    (h : set words b = some words') (c : ℕ) :
  test words' c = true ↔ test words c = true ∨ c = b
  := by
  unfold set at h
  split at h
  case isFalse => cases h
  case isTrue lt =>
    obtain rfl := Option.some.inj h
    have apart : c = b ↔ b / w = c / w ∧ b % w = c % w := by
      constructor
      · rintro rfl
        exact ⟨rfl, rfl⟩
      · rintro ⟨quotient, remainder⟩
        rw [← Nat.div_add_mod b w, ← Nat.div_add_mod c w, quotient, remainder]
    unfold test
    rw [List.getElem?_modify]
    cases word : words[c / w]? with
    | none =>
      have le : words.length ≤ c / w := List.getElem?_eq_none_iff.1 word
      have ne : c ≠ b := by
        rintro rfl
        omega
      simp [ne]
    | some x =>
      by_cases same : b / w = c / w
      · have inside : b % w < w := Nat.mod_lt b positive
        simp [same, apart, BitVec.getLsbD_twoPow, inside]
      · simp [same, apart]

/-- A bit that is set is in one of the words. -/
theorem lt_of_test {words : List (BitVec w)} (positive : 0 < w) {b : ℕ} (h : test words b = true) :
  b < w * words.length
  := by
  rw [Nat.mul_comm, ← Nat.div_lt_iff_lt_mul positive]
  by_contra le
  rw [test, List.getElem?_eq_none (Nat.le_of_not_lt le)] at h
  cases h

/-- All bits that are set are in one of the words. -/
theorem lt_of_setAll (positive : 0 < w) {words words' : List (BitVec w)} {bits : List ℕ}
    (h : setAll words bits = some words') :
  words'.length = words.length ∧ ∀ b ∈ bits, b < w * words.length
  := by
  induction bits generalizing words with
  | nil =>
    obtain rfl := Option.some.inj h
    exact ⟨rfl, fun b mem => absurd mem List.not_mem_nil⟩
  | cons b bits ih =>
    obtain ⟨words₁, first, rest⟩ := Option.bind_eq_some_iff.1 h
    obtain ⟨length, later⟩ := ih rest
    rw [length_set first] at length later
    refine ⟨length, ?_⟩
    intro c mem
    rcases List.mem_cons.1 mem with rfl | mem
    · unfold set at first
      split at first
      case isTrue lt => rwa [Nat.mul_comm, ← Nat.div_lt_iff_lt_mul positive]
      case isFalse => cases first
    · exact later c mem

theorem test_setAll (positive : 0 < w) {words words' : List (BitVec w)} {bits : List ℕ}
    (h : setAll words bits = some words') (c : ℕ) :
  test words' c = true ↔ test words c = true ∨ c ∈ bits
  := by
  induction bits generalizing words with
  | nil =>
    obtain rfl := Option.some.inj h
    simp
  | cons b bits ih =>
    obtain ⟨words₁, first, rest⟩ := Option.bind_eq_some_iff.1 h
    rw [ih rest, test_set positive first, List.mem_cons, or_assoc]

/-- Bits in the words can be set. -/
theorem exists_setAll (positive : 0 < w) {words : List (BitVec w)} {bits : List ℕ}
    (inside : ∀ b ∈ bits, b < w * words.length) :
  ∃ words', setAll words bits = some words'
  := by
  induction bits generalizing words with
  | nil => exact ⟨words, rfl⟩
  | cons b bits ih =>
    obtain ⟨words₁, first⟩ : ∃ words₁, set words b = some words₁ := by
      have lt := inside b List.mem_cons_self
      rw [Nat.mul_comm, ← Nat.div_lt_iff_lt_mul positive] at lt
      exact ⟨_, if_pos lt⟩
    obtain ⟨words', rest⟩ := @ih words₁ (by
      intro c mem
      rw [length_set first]
      exact inside c (List.mem_cons_of_mem _ mem))
    exact ⟨words', Option.bind_eq_some_iff.2 ⟨words₁, first, rest⟩⟩

end Bitset
