import Mesa.Data.Bitset

/-!
# Scanning bitsets

A bitset is scanned from a number on for a bit with a given value, word by word and in each word with
a mask that is shifted.  The bits that are passed have the other value.
-/

namespace Bitset

variable {w : ℕ}

/-! ### Clearing and growing -/

/-- A bit is cleared, if its word is there. -/
def clear (words : List (BitVec w)) (b : ℕ) : Option (List (BitVec w)) :=
  if b / w < words.length then some (words.modify (b / w) (· &&& ~~~(BitVec.twoPow w (b % w))))
  else none

theorem length_clear {words words' : List (BitVec w)} {b : ℕ} (h : clear words b = some words') :
  words'.length = words.length
  := by
  unfold clear at h
  split at h
  · rw [← Option.some.inj h, List.length_modify]
  · cases h

/-- Clearing a bit changes no other. -/
theorem test_clear (positive : 0 < w) {words words' : List (BitVec w)} {b : ℕ}
    (h : clear words b = some words') (c : ℕ) :
  test words' c = true ↔ test words c = true ∧ c ≠ b
  := by
  unfold clear at h
  split at h
  case isFalse => cases h
  case isTrue lt =>
    obtain rfl := Option.some.inj h
    unfold test
    rw [List.getElem?_modify]
    cases word : words[c / w]? with
    | none => simp
    | some x =>
      by_cases same : b / w = c / w
      · have apart : c = b ↔ c % w = b % w := by
          constructor
          · rintro rfl
            rfl
          · intro remainder
            rw [← Nat.div_add_mod b w, ← Nat.div_add_mod c w, same, remainder]
        have inside : c % w < w := Nat.mod_lt c positive
        simp [same, apart, inside]
      · have ne : c ≠ b := by
          rintro rfl
          exact same rfl
        simp [same, ne]

/-- Words without bits add nothing. -/
theorem test_append_zero (words : List (BitVec w)) (n b : ℕ) :
  test (words ++ List.replicate n 0#w) b = test words b
  := by
  unfold test
  by_cases old : b / w < words.length
  · rw [List.getElem?_append_left old]
  · rw [List.getElem?_append_right (Nat.le_of_not_lt old),
      List.getElem?_eq_none (Nat.le_of_not_lt old), List.getElem?_replicate]
    split <;> simp

theorem exists_set (positive : 0 < w) {words : List (BitVec w)} {b : ℕ}
    (inside : b < w * words.length) :
  ∃ words', set words b = some words'
  := by
  rw [Nat.mul_comm, ← Nat.div_lt_iff_lt_mul positive] at inside
  exact ⟨_, if_pos inside⟩

theorem exists_clear (positive : 0 < w) {words : List (BitVec w)} {b : ℕ}
    (inside : b < w * words.length) :
  ∃ words', clear words b = some words'
  := by
  rw [Nat.mul_comm, ← Nat.div_lt_iff_lt_mul positive] at inside
  exact ⟨_, if_pos inside⟩

/-! ### Scanning -/

/-- The scan of a word when the given number of bits is left: whether a bit with the value was found,
with its mask and its number. -/
def scanWord (value : Bool) (x : BitVec w) : ℕ → BitVec w → ℕ → Bool × BitVec w × ℕ
  | 0, mask, n => (false, mask, n)
  | left + 1, mask, n =>
    if decide (x &&& mask ≠ 0#w) = value then (true, mask, n)
    else scanWord value x left (mask <<< 1) (n + 1)

/-- The scan when the given number of words is left: the word, the mask and the number of the bit,
or those behind the last one.  There is no result if a word is not there. -/
def scanWords (value : Bool) (words : List (BitVec w)) :
    ℕ → ℕ → ℕ → BitVec w → ℕ → Option (Bool × ℕ × BitVec w × ℕ)
  | 0, word, _, mask, n => some (false, word, mask, n)
  | count + 1, word, left, mask, n =>
    words[word]?.bind fun x =>
      let r := scanWord value x left mask n
      if r.1 then some (true, word, r.2.1, r.2.2)
      else scanWords value words count (word + 1) w 1#w r.2.2

theorem and_mask_ne_zero_iff (x : BitVec w) (k : ℕ) :
  x &&& 1#w <<< k ≠ 0#w ↔ x.getLsbD k = true
  := by
  constructor
  · intro ne
    by_contra clear
    apply ne
    apply BitVec.eq_of_getLsbD_eq
    intro i lt
    rw [BitVec.getLsbD_and, ← BitVec.twoPow_eq, BitVec.getLsbD_twoPow, BitVec.getLsbD_zero]
    by_cases here : k = i
    · subst here
      simp [clear]
    · simp [here]
  · intro isSet zero
    have lt := BitVec.lt_of_getLsbD isSet
    have bit : (x &&& 1#w <<< k).getLsbD k = true := by
      rw [BitVec.getLsbD_and, ← BitVec.twoPow_eq, BitVec.getLsbD_twoPow]
      simp [isSet, lt]
    rw [zero, BitVec.getLsbD_zero] at bit
    cases bit

/-- By induction on the bits that are left. -/
theorem scanWord_spec (value : Bool) (x : BitVec w) {left k : ℕ} (n : ℕ) (bits : k + left = w) :
  ∃ d ≤ left, (∀ i < d, x.getLsbD (k + i) = !value) ∧
    ((d < left ∧ x.getLsbD (k + d) = value ∧
        scanWord value x left (1#w <<< k) n = (true, 1#w <<< (k + d), n + d)) ∨
      d = left ∧ ∃ mask, scanWord value x left (1#w <<< k) n = (false, mask, n + d))
  := by
  induction left generalizing k n with
  | zero => exact ⟨0, Nat.le_refl 0, fun i lt => by omega, .inr ⟨rfl, _, rfl⟩⟩
  | succ left ih =>
    have bit : decide (x &&& 1#w <<< k ≠ 0#w) = x.getLsbD k := by
      rw [Bool.eq_iff_iff, decide_eq_true_iff, and_mask_ne_zero_iff]
    rw [scanWord, bit]
    by_cases here : x.getLsbD k = value
    case pos =>
      refine ⟨0, Nat.zero_le _, fun i lt => by omega, .inl ⟨Nat.succ_pos left, here, ?_⟩⟩
      rw [if_pos here]
      rfl
    case neg =>
      obtain ⟨d, le, passed, result⟩ := @ih (k + 1) (n + 1) (by omega)
      have other : x.getLsbD k = !value := by
        cases value <;> simp_all
      refine ⟨d + 1, by omega, ?_, ?_⟩
      · intro i lt
        rcases i with _ | i
        · exact other
        · have := passed i (by omega)
          rwa [Nat.add_assoc, Nat.add_comm 1 i] at this
      · rw [if_neg here, ← BitVec.shiftLeft_add]
        rw [Nat.add_assoc k, Nat.add_assoc n, Nat.add_comm 1 d] at result
        rcases result with ⟨lt, found, eq⟩ | ⟨last, mask, eq⟩
        · exact .inl ⟨by omega, found, eq⟩
        · exact .inr ⟨by omega, mask, eq⟩

/-- A number in the same word. -/
theorem add_div_mod {n d : ℕ} (inside : n % w + d < w) :
  (n + d) / w = n / w ∧ (n + d) % w = n % w + d
  := by
  have parts : n + d = w * (n / w) + (n % w + d) := by
    rw [← Nat.add_assoc, Nat.div_add_mod]
  constructor
  · rw [parts, Nat.mul_add_div (by omega), Nat.div_eq_of_lt inside, Nat.add_zero]
  · rw [parts, Nat.mul_add_mod, Nat.mod_eq_of_lt inside]

/-- The scan comes to the first bit with the value, or to the end.  By induction on the words that
are left. -/
theorem scanWords_spec (positive : 0 < w) (value : Bool) (words : List (BitVec w)) {count n : ℕ}
    (le : n ≤ w * words.length) (left : n / w + count = words.length) :
  ∃ m, n ≤ m ∧ m ≤ w * words.length ∧ (∀ i, n ≤ i → i < m → test words i = !value) ∧
    (m < w * words.length → test words m = value) ∧
    scanWords value words count (n / w) (w - n % w) (1#w <<< (n % w)) n =
      some (decide (m < w * words.length), m / w, 1#w <<< (m % w), m)
  := by
  induction count generalizing n with
  | zero =>
    have last : n = w * words.length := by
      have := Nat.div_add_mod n w
      rw [Nat.add_zero] at left
      rw [left] at this
      omega
    refine ⟨n, Nat.le_refl n, le, fun i h h' => by omega, fun lt => by omega, ?_⟩
    rw [scanWords, decide_eq_false (by omega)]
  | succ count ih =>
    have inside := Nat.mod_lt n positive
    have word_lt : n / w < words.length := by omega
    have full : w * (n / w) + w ≤ w * words.length := by
      rw [← Nat.mul_succ]
      exact Nat.mul_le_mul_left w word_lt
    have parts := Nat.div_add_mod n w
    obtain ⟨d, d_le, passed, result⟩ :=
      scanWord_spec value words[n / w] n (show n % w + (w - n % w) = w by omega)
    have bit : ∀ i < w - n % w, test words (n + i) = words[n / w].getLsbD (n % w + i) := by
      intro i lt
      obtain ⟨quotient, remainder⟩ := add_div_mod (n := n) (d := i) (w := w) (by omega)
      rw [test, quotient, remainder, List.getElem?_eq_getElem word_lt]
      rfl
    have before : ∀ i, n ≤ i → i < n + d → test words i = !value := by
      intro i low high
      obtain ⟨j, rfl⟩ := Nat.exists_eq_add_of_le low
      rw [bit j (by omega), passed j (by omega)]
    rw [scanWords, List.getElem?_eq_getElem word_lt, Option.bind_some]
    rcases result with ⟨lt, found, eq⟩ | ⟨rfl, mask, eq⟩
    · obtain ⟨quotient, remainder⟩ := add_div_mod (n := n) (d := d) (w := w) (by omega)
      refine ⟨n + d, Nat.le_add_right n d, by omega, before, ?_, ?_⟩
      · intro _
        rw [bit d lt, found]
      · rw [eq, quotient, remainder, decide_eq_true (by omega)]
        rfl
    · have next : n + (w - n % w) = w * (n / w + 1) := by
        rw [Nat.mul_succ]
        omega
      have quotient : (n + (w - n % w)) / w = n / w + 1 := by
        rw [next, Nat.mul_div_cancel_left _ positive]
      have remainder : (n + (w - n % w)) % w = 0 := by
        rw [next, Nat.mul_mod_right]
      obtain ⟨m, low, high, passed', there, scanned⟩ :=
        @ih (n + (w - n % w)) (by omega) (by omega)
      refine ⟨m, by omega, high, ?_, there, ?_⟩
      · intro i h h'
        by_cases early : i < n + (w - n % w)
        · exact before i h early
        · exact passed' i (by omega) h'
      · rw [quotient, remainder, Nat.sub_zero, BitVec.shiftLeft_zero] at scanned
        rw [eq]
        exact scanned

end Bitset
