import Mathlib.Data.List.Basic
import Mathlib.Tactic.Ring

/-!
# Words and bytes

The bytes of a number in a word of a fixed size, in either order, and the parts of a list of bytes
that a copy of memory reads and writes.
-/

namespace Bits

/-! ### Words as bytes -/

/-- The `k` lowest bytes of a number, the lowest first. -/
@[simp]
def lowBytes : ℕ → ℕ → List UInt8
  | 0, _ => []
  | k + 1, n => UInt8.ofNat n :: lowBytes k (n / 256)

/-- The number that has the given bytes, the lowest first. -/
def ofLowBytes (l : List UInt8) : ℕ := l.foldr (fun b n => b.toNat + 256 * n) 0

/-- The bytes of a word of `k` bytes, in the order of the machine. -/
def wordBytes (bigEndian : Bool) (k n : ℕ) : List UInt8 :=
  if bigEndian then (lowBytes k n).reverse else lowBytes k n

/-- The word with the given bytes, in the order of the machine. -/
def ofWordBytes (bigEndian : Bool) (l : List UInt8) : ℕ :=
  ofLowBytes (if bigEndian then l.reverse else l)

@[simp]
theorem length_lowBytes (k n : ℕ) :
  (lowBytes k n).length = k
  := by
  induction k generalizing n with
  | zero => rfl
  | succ k ih => simp [lowBytes, ih]

@[simp]
theorem length_wordBytes (bigEndian : Bool) (k n : ℕ) :
  (wordBytes bigEndian k n).length = k
  := by
  cases bigEndian <;> simp [wordBytes]

theorem ofLowBytes_lowBytes (k n : ℕ) :
  ofLowBytes (lowBytes k n) = n % 256 ^ k
  := by
  induction k generalizing n with
  | zero => simp [lowBytes, ofLowBytes, Nat.mod_one]
  | succ k ih =>
    have split : n % 256 ^ (k + 1) = n % 256 + 256 * (n / 256 % 256 ^ k) := by
      rw [pow_succ', Nat.mod_mul]
    rw [split, ← ih (n / 256)]
    simp [lowBytes, ofLowBytes]

/-- A word is what its bytes say, cut to the size of the word. -/
theorem ofWordBytes_wordBytes (bigEndian : Bool) (k n : ℕ) :
  ofWordBytes bigEndian (wordBytes bigEndian k n) = n % 256 ^ k
  := by
  rw [← ofLowBytes_lowBytes]
  cases bigEndian <;> simp [ofWordBytes, wordBytes]

/-! ### Parts of a list -/

variable {α : Type}

/-- The `n` elements of a list from the given position on. -/
def slice (l : List α) (pos n : ℕ) : List α := (l.drop pos).take n

/-- The list with the elements from the given position on replaced. -/
def patch (l : List α) (pos : ℕ) (src : List α) : List α :=
  l.take pos ++ src ++ l.drop (pos + src.length)

theorem length_patch {l src : List α} {pos : ℕ} (h : pos + src.length ≤ l.length) :
  (patch l pos src).length = l.length
  := by
  simp only [patch, List.length_append, List.length_take, List.length_drop]
  omega

/-- Two lists agree on a part when they agree at each of its positions. -/
theorem slice_congr {l l' : List α} {pos n : ℕ}
    (h : ∀ i, pos ≤ i → i < pos + n → l[i]? = l'[i]?) :
  slice l pos n = slice l' pos n
  := by
  apply List.ext_getElem?
  intro i
  simp only [slice, List.getElem?_take, List.getElem?_drop]
  split
  · apply h <;> omega
  · rfl

theorem getElem?_patch {l src : List α} {pos : ℕ} (h : pos + src.length ≤ l.length) (i : ℕ) :
  (patch l pos src)[i]?
    = if pos ≤ i ∧ i < pos + src.length then src[i - pos]? else l[i]?
  := by
  have take_length : (l.take pos).length = pos := by
    rw [List.length_take]
    omega
  rw [patch, List.append_assoc]
  rcases Nat.lt_or_ge i pos with before | inside
  · rw [List.getElem?_append_left (by omega), if_neg (by omega), List.getElem?_take, if_pos before]
  rw [List.getElem?_append_right (by omega), take_length]
  rcases Nat.lt_or_ge i (pos + src.length) with within | after
  · rw [List.getElem?_append_left (by omega), if_pos ⟨inside, within⟩]
  · rw [List.getElem?_append_right (by omega), if_neg (by omega), List.getElem?_drop]
    congr 1
    omega

/-- What was put into a list is found there. -/
theorem slice_patch_self {l src : List α} {pos : ℕ} (h : pos + src.length ≤ l.length) :
  slice (patch l pos src) pos src.length = src
  := by
  apply List.ext_getElem?
  intro i
  rw [slice, List.getElem?_take, List.getElem?_drop, getElem?_patch h]
  split
  · rw [if_pos (by omega)]
    congr 1
    omega
  · rw [List.getElem?_eq_none (by omega)]

/-- What is put into a list does not change the parts before and after it. -/
theorem slice_patch_apart {l src : List α} {pos pos' n : ℕ} (h : pos + src.length ≤ l.length)
    (apart : pos' + n ≤ pos ∨ pos + src.length ≤ pos') :
  slice (patch l pos src) pos' n = slice l pos' n
  := by
  apply slice_congr
  intro i hi hi'
  rw [getElem?_patch h, if_neg (by omega)]

theorem slice_take {l : List α} {pos n m : ℕ} (h : pos + n ≤ m) :
  slice (l.take m) pos n = slice l pos n
  := by
  apply slice_congr
  intro i _ hi
  rw [List.getElem?_take, if_pos (by omega)]

end Bits
