import Mathlib.Data.List.Pairwise
import Mathlib.Data.Nat.Bitwise

/-!
# Fields of words

Words that consist of fields: reading a field, writing a list of fields one after the other, and
numbers that are put together from several fields.
-/

namespace Bits

variable {w : ℕ}

/-! ### Reading -/

/-- The number in the bits from `lo` up to `hi`. -/
def field (x : BitVec w) (hi lo : ℕ) : ℕ := (x.toNat >>> lo) % 2 ^ (hi - lo + 1)

theorem field_lt (x : BitVec w) (hi lo : ℕ) :
  field x hi lo < 2 ^ (hi - lo + 1)
  := by
  exact Nat.mod_lt _ (Nat.two_pow_pos _)

theorem testBit_field (x : BitVec w) (hi lo k : ℕ) :
  (field x hi lo).testBit k = (decide (k < hi - lo + 1) && x.getLsbD (lo + k))
  := by
  rw [field, Nat.testBit_mod_two_pow, Nat.testBit_shiftRight, BitVec.getLsbD]

/-- A field is determined by its bits. -/
theorem field_eq_of_bits {x : BitVec w} {hi lo v : ℕ} (hv : v < 2 ^ (hi - lo + 1))
  (h : ∀ k < hi - lo + 1, x.getLsbD (lo + k) = v.testBit k) :
  field x hi lo = v
  := by
  apply Nat.eq_of_testBit_eq
  intro k
  rw [testBit_field]
  by_cases hk : k < hi - lo + 1
  · simp [hk, h k hk]
  · have hout : v.testBit k = false := by
      apply Nat.testBit_lt_two_pow
      apply hv.trans_le
      exact Nat.pow_le_pow_right Nat.two_pos (Nat.le_of_not_lt hk)
    simp [hk, hout]

/-- Fields of words with the same bits there are the same. -/
theorem field_congr {w' : ℕ} {x : BitVec w} {y : BitVec w'} {hi lo : ℕ}
  (h : ∀ i, lo ≤ i → i ≤ hi → x.getLsbD i = y.getLsbD i) (hle : lo ≤ hi) :
  field x hi lo = field y hi lo
  := by
  apply field_eq_of_bits (field_lt _ _ _)
  intro k hk
  rw [testBit_field, h (lo + k) (by omega) (by omega)]
  simp [hk]

/-! ### Writing -/

/-- The value `val` is written to the bits from `lo` up to `hi`. -/
structure Write where
  hi : ℕ
  lo : ℕ
  val : ℕ

/-- The bit is written. -/
def Write.Covers (f : Write) (i : ℕ) : Prop := f.lo ≤ i ∧ i ≤ f.hi

instance (f : Write) (i : ℕ) : Decidable (f.Covers i) :=
  inferInstanceAs (Decidable (f.lo ≤ i ∧ i ≤ f.hi))

/-- The value fits in the bits, and the bits are in the word. -/
def Write.Fits (w : ℕ) (f : Write) : Prop := f.lo ≤ f.hi ∧ f.hi < w ∧ f.val < 2 ^ (f.hi - f.lo + 1)

/-- The word after a write. -/
def setField (x : BitVec w) (f : Write) : BitVec w :=
  (x &&& ~~~(BitVec.ofNat w (2 ^ (f.hi - f.lo + 1) - 1) <<< f.lo)) ||| (BitVec.ofNat w f.val <<< f.lo)

theorem getLsbD_setField (x : BitVec w) {f : Write} (hf : f.Fits w) {i : ℕ} (hi : i < w) :
  (setField x f).getLsbD i =
    if f.Covers i then f.val.testBit (i - f.lo) else x.getLsbD i
  := by
  obtain ⟨hle, hlt, hval⟩ := hf
  simp only [setField, BitVec.getLsbD_or, BitVec.getLsbD_and, BitVec.getLsbD_not,
    BitVec.getLsbD_shiftLeft, BitVec.getLsbD_ofNat, hi, decide_true, Bool.true_and,
    Nat.testBit_two_pow_sub_one]
  by_cases hlo : i < f.lo
  · have hnot : ¬f.Covers i := by
      rintro ⟨h, -⟩
      omega
    simp [hlo, hnot]
  · have hiw : i - f.lo < w := by omega
    by_cases hhi : i ≤ f.hi
    · have hcov : f.Covers i := ⟨by omega, hhi⟩
      have hin : i - f.lo < f.hi - f.lo + 1 := by omega
      simp [hlo, hcov, hiw, hin]
    · have hnot : ¬f.Covers i := by
        rintro ⟨-, h⟩
        omega
      have hout : ¬i - f.lo < f.hi - f.lo + 1 := by omega
      have hbit : f.val.testBit (i - f.lo) = false := by
        apply Nat.testBit_lt_two_pow
        apply hval.trans_le
        apply Nat.pow_le_pow_right Nat.two_pos
        omega
      simp [hlo, hnot, hout, hbit]

/-- The word after several writes. -/
def writes (x : BitVec w) (l : List Write) : BitVec w := l.foldl setField x

@[simp]
theorem writes_nil (x : BitVec w) :
  writes x [] = x
  := rfl

@[simp]
theorem writes_cons (x : BitVec w) (f : Write) (l : List Write) :
  writes x (f :: l) = writes (setField x f) l
  := rfl

theorem writes_append (x : BitVec w) (l l' : List Write) :
  writes x (l ++ l') = writes (writes x l) l'
  := by
  rw [writes, List.foldl_append, writes, writes]

/-- A bit that is not written stays. -/
theorem getLsbD_writes_of_not_covers {l : List Write} (hl : ∀ f ∈ l, f.Fits w) (x : BitVec w)
  {i : ℕ} (hi : i < w) (h : ∀ f ∈ l, ¬f.Covers i) :
  (writes x l).getLsbD i = x.getLsbD i
  := by
  induction l generalizing x with
  | nil => rfl
  | cons f l ih =>
      rw [List.forall_mem_cons] at hl h
      rw [writes_cons, ih hl.2 _ h.2, getLsbD_setField x hl.1 hi, if_neg h.1]

/-- A value that is written, and not written over, can be read back. -/
theorem field_writes {l l' : List Write} {f : Write} (hl : ∀ g ∈ l ++ f :: l', g.Fits w)
  (x : BitVec w) (h : ∀ g ∈ l', g.hi < f.lo ∨ f.hi < g.lo) :
  field (writes x (l ++ f :: l')) f.hi f.lo = f.val
  := by
  have hf : f.Fits w := hl f (by simp)
  obtain ⟨hle, hlt, hval⟩ := hf
  apply field_eq_of_bits hval
  intro k hk
  have hi : f.lo + k < w := by omega
  rw [writes_append, writes_cons, getLsbD_writes_of_not_covers _ _ hi,
    getLsbD_setField _ ⟨hle, hlt, hval⟩ hi, if_pos ⟨by omega, by omega⟩, Nat.add_sub_cancel_left]
  · rintro g hg ⟨hglo, hghi⟩
    rcases h g hg with hlt | hlt <;> omega
  · intro g hg
    exact hl g (by simp [hg])

/-- Every write writes the bits of `y`, or bits that are written again later. -/
def Correct (y : BitVec w) : List Write → Prop
  | [] => True
  | f :: l => (∀ i, f.Covers i → f.val.testBit (i - f.lo) = y.getLsbD i ∨ ∃ g ∈ l, g.Covers i) ∧
      Correct y l

/-- After correct writes, the bits that are written are those of `y`. -/
theorem Correct.getLsbD_writes {y : BitVec w} {l : List Write} (hl : ∀ f ∈ l, f.Fits w)
  (hy : Correct y l) (x : BitVec w) {i : ℕ} (hi : i < w) :
  (writes x l).getLsbD i = if ∃ f ∈ l, f.Covers i then y.getLsbD i else x.getLsbD i
  := by
  induction l generalizing x with
  | nil => simp
  | cons f l ih =>
      rw [List.forall_mem_cons] at hl
      obtain ⟨hf, hrest⟩ := hy
      rw [writes_cons, ih hl.2 hrest]
      by_cases hlater : ∃ g ∈ l, g.Covers i
      · have hany : ∃ g ∈ f :: l, g.Covers i := by
          obtain ⟨g, hg, hcov⟩ := hlater
          exact ⟨g, List.mem_cons_of_mem _ hg, hcov⟩
        rw [if_pos hlater, if_pos hany]
      · rw [if_neg hlater, getLsbD_setField x hl.1 hi]
        by_cases hcov : f.Covers i
        · have hany : ∃ g ∈ f :: l, g.Covers i := ⟨f, List.mem_cons_self, hcov⟩
          rw [if_pos hcov, if_pos hany]
          rcases hf i hcov with hbit | hlater'
          · exact hbit
          · exact absurd hlater' hlater
        · have hnone : ¬∃ g ∈ f :: l, g.Covers i := by
            rintro ⟨g, hg, hgcov⟩
            rcases List.mem_cons.mp hg with rfl | hg
            · exact hcov hgcov
            · exact hlater ⟨g, hg, hgcov⟩
          rw [if_neg hcov, if_neg hnone]

/-- The values that are written are those of the fields of `y`. -/
theorem correct_of_field {y : BitVec w} {l : List Write}
  (h : ∀ f ∈ l, f.lo ≤ f.hi ∧ f.val = field y f.hi f.lo) :
  Correct y l
  := by
  induction l with
  | nil => trivial
  | cons f l ih =>
      rw [List.forall_mem_cons] at h
      refine ⟨?_, ih h.2⟩
      rintro i ⟨hlo, hhi⟩
      left
      have hlt : i - f.lo < f.hi - f.lo + 1 := by omega
      rw [h.1.2, testBit_field, Nat.add_sub_cancel' hlo]
      simp [hlt]

theorem Correct.append {y : BitVec w} {l l' : List Write} (h : Correct y l) (h' : Correct y l') :
  Correct y (l ++ l')
  := by
  induction l with
  | nil => exact h'
  | cons f l ih =>
      refine ⟨?_, ih h.2⟩
      intro i hi
      rcases h.1 i hi with hbit | ⟨g, hg, hcov⟩
      · left
        exact hbit
      · right
        exact ⟨g, List.mem_append_left _ hg, hcov⟩

/-- Writes that are all written over later. -/
theorem correct_append_of_covers {y : BitVec w} {l l' : List Write} (h' : Correct y l')
  (h : ∀ f ∈ l, ∃ g ∈ l', g.lo ≤ f.lo ∧ f.hi ≤ g.hi) :
  Correct y (l ++ l')
  := by
  induction l with
  | nil => exact h'
  | cons f l ih =>
      rw [List.forall_mem_cons] at h
      refine ⟨?_, ih h.2⟩
      rintro i ⟨hlo, hhi⟩
      right
      obtain ⟨g, hg, hglo, hghi⟩ := h.1
      exact ⟨g, List.mem_append_right _ hg, by omega, by omega⟩

/-! ### Numbers put together from fields -/

/-- The bits from `lo` up to `hi`, which are shifted left by `shift` in the number. -/
structure Piece where
  hi : ℕ
  lo : ℕ
  shift : ℕ
deriving DecidableEq

/-- The number that consists of the pieces. -/
def gather (x : BitVec w) (ps : List Piece) : ℕ :=
  ps.foldr (fun p n => (field x p.hi p.lo <<< p.shift) ||| n) 0

theorem testBit_gather (x : BitVec w) (ps : List Piece) (k : ℕ) :
  (gather x ps).testBit k = true ↔
    ∃ p ∈ ps, p.shift ≤ k ∧ (field x p.hi p.lo).testBit (k - p.shift) = true
  := by
  induction ps with
  | nil => simp [gather]
  | cons p ps ih =>
      rw [gather, List.foldr_cons, Nat.testBit_or, Nat.testBit_shiftLeft, ← gather,
        Bool.or_eq_true, ih]
      simp

/-- The pieces do not overlap in the number. -/
def Piece.Apart (p q : Piece) : Prop :=
  p.shift + (p.hi - p.lo + 1) ≤ q.shift ∨ q.shift + (q.hi - q.lo + 1) ≤ p.shift

instance (p q : Piece) : Decidable (p.Apart q) :=
  inferInstanceAs (Decidable (_ ∨ _))

/-- A piece can be cut out of the number. -/
theorem gather_shiftRight_mod (x : BitVec w) {ps : List Piece} {p : Piece} (hp : p ∈ ps)
  (h : ∀ q ∈ ps, q = p ∨ q.Apart p) :
  (gather x ps >>> p.shift) % 2 ^ (p.hi - p.lo + 1) = field x p.hi p.lo
  := by
  apply Nat.eq_of_testBit_eq
  intro k
  rw [Nat.testBit_mod_two_pow, Nat.testBit_shiftRight, Bool.eq_iff_iff, Bool.and_eq_true,
    decide_eq_true_eq, testBit_gather]
  constructor
  · rintro ⟨hk, q, hq, hshift, hbit⟩
    rcases h q hq with rfl | hapart
    · rw [Nat.add_sub_cancel_left] at hbit
      exact hbit
    · rw [testBit_field, Bool.and_eq_true, decide_eq_true_eq] at hbit
      rcases hapart with hlt | hlt <;> omega
  · intro hbit
    have hk := hbit
    rw [testBit_field, Bool.and_eq_true, decide_eq_true_eq] at hk
    exact ⟨hk.1, p, hp, by omega, by rwa [Nat.add_sub_cancel_left]⟩

/-- The highest piece can be cut out by a shift alone. -/
theorem gather_shiftRight (x : BitVec w) {ps : List Piece} {p : Piece} (hp : p ∈ ps)
  (h : ∀ q ∈ ps, q = p ∨ q.shift + (q.hi - q.lo + 1) ≤ p.shift) :
  gather x ps >>> p.shift = field x p.hi p.lo
  := by
  rw [← gather_shiftRight_mod x hp (fun q hq => (h q hq).imp_right .inl), Nat.mod_eq_of_lt]
  apply Nat.lt_pow_two_of_testBit
  intro k hk
  rw [Nat.testBit_shiftRight, ← Bool.not_eq_true, testBit_gather]
  rintro ⟨q, hq, hshift, hbit⟩
  rw [testBit_field, Bool.and_eq_true, decide_eq_true_eq] at hbit
  rcases h q hq with rfl | hlt <;> omega

/-! ### Adding -/

/-- The word with a value added at the bits from `lo` on. -/
def add (x : BitVec w) (f : Write) : BitVec w := x ||| (BitVec.ofNat w f.val <<< f.lo)

/-- The word with several values added. -/
def adds (x : BitVec w) (l : List Write) : BitVec w := l.foldl add x

/-- The values are written to different bits. -/
def Write.Apart (f g : Write) : Prop := f.hi < g.lo ∨ g.hi < f.lo

instance (f g : Write) : Decidable (f.Apart g) :=
  inferInstanceAs (Decidable (_ ∨ _))

instance : Std.Symm Write.Apart := ⟨fun _ _ h => h.elim .inr .inl⟩

theorem getLsbD_add {x : BitVec w} {f : Write} {i : ℕ} (hi : i < w) :
  (add x f).getLsbD i = (x.getLsbD i || (decide (f.lo ≤ i) && f.val.testBit (i - f.lo)))
  := by
  have hiw : i - f.lo < w := by omega
  simp only [add, BitVec.getLsbD_or, BitVec.getLsbD_shiftLeft, BitVec.getLsbD_ofNat, hi, hiw,
    decide_true, Bool.true_and]
  by_cases hlo : i < f.lo
  · have hnot : ¬f.lo ≤ i := by omega
    simp [hlo, hnot]
  · have hle : f.lo ≤ i := by omega
    simp [hlo, hle]

/-- A bit of a word with values added is one of the word, or of one of the values. -/
theorem getLsbD_adds {l : List Write} {x : BitVec w} {i : ℕ} (hi : i < w) :
  (adds x l).getLsbD i =
    (x.getLsbD i || l.any fun f => decide (f.lo ≤ i) && f.val.testBit (i - f.lo))
  := by
  induction l generalizing x with
  | nil => simp [adds]
  | cons f l ih =>
    change (adds (add x f) l).getLsbD i = _
    rw [ih, getLsbD_add hi, List.any_cons, Bool.or_assoc]

/-- Values that are added at different bits of 0 can be read back. -/
theorem field_adds {l : List Write} (fits : ∀ g ∈ l, g.Fits w) (apart : l.Pairwise Write.Apart)
    {f : Write} (mem : f ∈ l) :
  field (adds 0#w l) f.hi f.lo = f.val
  := by
  obtain ⟨hle, hlt, hval⟩ := fits f mem
  apply field_eq_of_bits hval
  intro k hk
  rw [getLsbD_adds (by omega), BitVec.getLsbD_zero, Bool.false_or, Bool.eq_iff_iff,
    List.any_eq_true]
  constructor
  · rintro ⟨g, hg, hbit⟩
    obtain ⟨hglo, hbit⟩ := (Bool.and_eq_true _ _).mp hbit
    have hglo := of_decide_eq_true hglo
    rcases eq_or_ne g f with rfl | hne
    · rw [Nat.add_sub_cancel_left] at hbit
      exact hbit
    · -- the bit would be above the value
      obtain ⟨hgle, -, hgval⟩ := fits g hg
      have hin : f.lo + k - g.lo < g.hi - g.lo + 1 := by
        by_contra hout
        rw [Nat.testBit_lt_two_pow] at hbit
        · cases hbit
        · apply hgval.trans_le
          exact Nat.pow_le_pow_right Nat.two_pos (Nat.le_of_not_lt hout)
      have hapart := apart.forall hg mem hne
      rcases hapart with h | h <;> omega
  · intro hbit
    refine ⟨f, mem, (Bool.and_eq_true _ _).mpr ⟨decide_eq_true (by omega), ?_⟩⟩
    rw [Nat.add_sub_cancel_left]
    exact hbit

end Bits
