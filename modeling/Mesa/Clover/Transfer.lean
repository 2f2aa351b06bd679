import Mathlib.Data.Fin.VecNotation
import Mathlib.Data.Fintype.Basic
import Mathlib.Tactic.FinCases
import Mathlib.Tactic.Ring

/-!
# Transfers of buffers

The checks of `transfer.cpp` for buffer objects, and the bytes that a software copy reads and
writes.  Sizes are of 64 bits and wrap around.
-/

namespace Clover

namespace Transfer

/-! ### Vectors -/

/-- `vector_t`. -/
abbrev VectorT := Fin 3 → BitVec 64

/-- `dot`. -/
def dot (u v : VectorT) : BitVec 64 := (List.finRange 3).foldl (fun a i => a + u i * v i) 0

/-- The function `pitch`: a pitch of zero is the size of the dimension before. -/
def naturalPitch (region pitch : VectorT) : VectorT :=
  let row := if pitch 1 = 0 then region 0 * pitch 0 else pitch 1
  let slice := if pitch 2 = 0 then region 1 * row else pitch 2
  ![pitch 0, row, slice]

/-- `size`, the size of a region in bytes. -/
def size (pitch region : VectorT) : BitVec 64 :=
  if ∃ i, region i = 0 then 0 else dot pitch (region - ![0, 1, 1])

/-! ### Checks -/

/-- The errors that are thrown. -/
inductive Error where
  | invalidContext
  | invalidValue
deriving DecidableEq

/-- `validate_object` for a buffer object of the given size, which is of the context of the queue or
not. -/
def validateObject (sameContext : Bool) (memSize : BitVec 64) (origin pitch region : VectorT) :
    Except Error Unit :=
  if !sameContext then .error .invalidContext
  -- the region must fit within the pitch
  else if pitch 1 < pitch 0 * region 0 ∨ pitch 2 < pitch 1 * region 1 then .error .invalidValue
  -- and within the object
  else if memSize < dot pitch origin + size pitch region then .error .invalidValue
  else if ∃ i, region i = 0 then .error .invalidValue
  else .ok ()

/-! ### Copies -/

/-- One of the two objects of a transfer, with the origin and the pitch there. -/
structure Side where
  origin : VectorT
  pitch : VectorT

/-- What `soft_copy_op` is given.  The callers give both objects the same first pitch, which is 1 or
the size of a pixel. -/
structure Operands where
  dst : Side
  src : Side
  region : VectorT
  pitch_eq : dst.pitch 0 = src.pitch 0

/-- The object that is read, or the one that is written. -/
inductive Role where
  | dst | src

def Operands.side (t : Operands) : Role → Side
  | .dst => t.dst
  | .src => t.src

/-- A call of `memcpy`: where it begins in the two objects, and its length. -/
structure Memcpy where
  dst : ℕ
  src : ℕ
  len : ℕ

def Memcpy.pos (c : Memcpy) : Role → ℕ
  | .dst => c.dst
  | .src => c.src

/-- The vector `v` of `soft_copy_op` in the given rounds of its loops. -/
def rowVector (v₁ v₂ : ℕ) : VectorT := ![0, BitVec.ofNat 64 v₁, BitVec.ofNat 64 v₂]

/-- The position of a row in an object. -/
def Side.rowPos (s : Side) (v₁ v₂ : ℕ) : ℕ :=
  (dot s.pitch s.origin).toNat + (dot s.pitch (rowVector v₁ v₂)).toNat

/-- `soft_copy_op`. -/
def softCopyOp (t : Operands) : List Memcpy :=
  (List.range (t.region 2).toNat).flatMap fun v₂ =>
    (List.range (t.region 1).toNat).map fun v₁ =>
      ⟨t.dst.rowPos v₁ v₂, t.src.rowPos v₁ v₂, (t.src.pitch 0 * t.region 0).toNat⟩

/-- The operands of `soft_copy_op` in `clEnqueueReadBuffer`. -/
def enqueueReadBuffer (offset size : BitVec 64) : Operands :=
  let region : VectorT := ![size, 1, 1]
  let objPitch := naturalPitch region ![1, 0, 0]
  ⟨⟨![0, 0, 0], objPitch⟩, ⟨![offset, 0, 0], objPitch⟩, region, rfl⟩

/-! ### What the checks are for -/

/-- The dot product, without wrapping around. -/
def exactDot (u : VectorT) (w : Fin 3 → ℕ) : ℕ :=
  (u 0).toNat * w 0 + (u 1).toNat * w 1 + (u 2).toNat * w 2

/-- Every byte of an object that is read or written is in its memory. -/
def InBounds (t : Operands) (role : Role) (memSize : BitVec 64) : Prop :=
  ∀ c ∈ softCopyOp t, ∀ k < c.len, c.pos role + k < memSize.toNat

/-- Offsets and extents are those of the operands, without wrapping around. -/
def Exact (t : Operands) (role : Role) : Prop :=
  ∀ v₁ < (t.region 1).toNat, ∀ v₂ < (t.region 2).toNat,
    (t.side role).rowPos v₁ v₂ =
      exactDot (t.side role).pitch (fun i => ((t.side role).origin i).toNat) +
        exactDot (t.side role).pitch ![0, v₁, v₂] ∧
    (t.src.pitch 0 * t.region 0).toNat = (t.src.pitch 0).toNat * (t.region 0).toNat

/-- The offset of a transfer and its extent in an object, without wrapping around, are together below
2 ^ 64; so is each of them if rows are empty. -/
def Fits (t : Operands) (role : Role) : Prop :=
  let s := t.side role
  let offset := exactDot s.pitch fun i => (s.origin i).toNat
  let extent := exactDot s.pitch
    ![(t.region 0).toNat, (t.region 1).toNat - 1, (t.region 2).toNat - 1]
  if s.pitch 0 = 0 then offset < 2 ^ 64 ∧ extent < 2 ^ 64 else offset + extent < 2 ^ 64

/-! ### Sizes without wrapping around -/

theorem toNat_dot (u v : VectorT) :
  (dot u v).toNat = exactDot u (fun i => (v i).toNat) % 2 ^ 64
  := by
  have hdot : dot u v = 0 + u 0 * v 0 + u 1 * v 1 + u 2 * v 2 := rfl
  have hzero : (0 : BitVec 64).toNat = 0 := rfl
  rw [hdot]
  simp only [BitVec.toNat_add, BitVec.toNat_mul, hzero, exactDot, Nat.zero_add, Nat.mod_add_mod,
    Nat.add_mod_mod]

theorem toNat_dot_rowVector (u : VectorT) {v₁ v₂ : ℕ} (h₁ : v₁ < 2 ^ 64) (h₂ : v₂ < 2 ^ 64) :
  (dot u (rowVector v₁ v₂)).toNat = exactDot u ![0, v₁, v₂] % 2 ^ 64
  := by
  have hrow : (fun i => (rowVector v₁ v₂ i).toNat) = ![0, v₁, v₂] := by
    funext i
    fin_cases i
    · rfl
    · exact Nat.mod_eq_of_lt h₁
    · exact Nat.mod_eq_of_lt h₂
  rw [toNat_dot, hrow]

theorem exactDot_mono (u : VectorT) {w w' : Fin 3 → ℕ} (h : ∀ i, w i ≤ w' i) :
  exactDot u w ≤ exactDot u w'
  := by
  apply Nat.add_le_add
  · apply Nat.add_le_add
    · exact Nat.mul_le_mul_left _ (h 0)
    · exact Nat.mul_le_mul_left _ (h 1)
  · exact Nat.mul_le_mul_left _ (h 2)

theorem toNat_pos {x : BitVec 64} (h : x ≠ 0) :
  0 < x.toNat
  := by
  apply Nat.pos_of_ne_zero
  intro hx
  apply h
  exact BitVec.eq_of_toNat_eq hx

/-- The size of a region that is not empty. -/
theorem toNat_size {pitch region : VectorT} (h : ∀ i, region i ≠ 0) :
  (size pitch region).toNat = exactDot pitch
    ![(region 0).toNat, (region 1).toNat - 1, (region 2).toNat - 1] % 2 ^ 64
  := by
  have hne : ¬∃ i, region i = 0 := by
    rintro ⟨i, hi⟩
    exact h i hi
  have hsub : ∀ x : BitVec 64, x ≠ 0 → (x - 1).toNat = x.toNat - 1 := by
    intro x hx
    apply BitVec.toNat_sub_of_le
    exact toNat_pos hx
  have hlast : (fun i => ((region - ![0, 1, 1] : VectorT) i).toNat) =
      ![(region 0).toNat, (region 1).toNat - 1, (region 2).toNat - 1] := by
    funext i
    fin_cases i
    · exact congrArg BitVec.toNat (BitVec.sub_zero (region 0))
    · exact hsub _ (h 1)
    · exact hsub _ (h 2)
  rw [size, if_neg hne, toNat_dot, hlast]

/-- What is accepted is not empty, and its offset and its size, as they are computed, are within the
object. -/
theorem of_validateObject {sameContext : Bool} {memSize : BitVec 64} {origin pitch region : VectorT}
    (h : validateObject sameContext memSize origin pitch region = .ok ()) :
  (∀ i, region i ≠ 0) ∧ (dot pitch origin + size pitch region).toNat ≤ memSize.toNat
  := by
  unfold validateObject at h
  split_ifs at h with _ _ hsize hregion
  exact ⟨fun i hi => hregion ⟨i, hi⟩, Nat.le_of_not_lt hsize⟩

/-! ### Rows -/

theorem mem_softCopyOp {t : Operands} {c : Memcpy} :
  c ∈ softCopyOp t ↔ ∃ v₂ < (t.region 2).toNat, ∃ v₁ < (t.region 1).toNat,
    c = ⟨t.dst.rowPos v₁ v₂, t.src.rowPos v₁ v₂, (t.src.pitch 0 * t.region 0).toNat⟩
  := by
  simp only [softCopyOp, List.mem_flatMap, List.mem_range, List.mem_map]
  constructor
  · rintro ⟨v₂, h₂, v₁, h₁, rfl⟩
    exact ⟨v₂, h₂, v₁, h₁, rfl⟩
  · rintro ⟨v₂, h₂, v₁, h₁, rfl⟩
    exact ⟨v₂, h₂, v₁, h₁, rfl⟩

/-- Bytes are in bounds if they are in every row. -/
theorem inBounds_iff {t : Operands} {role : Role} {memSize : BitVec 64} :
  InBounds t role memSize ↔ ∀ v₂ < (t.region 2).toNat, ∀ v₁ < (t.region 1).toNat,
    ∀ k < (t.src.pitch 0 * t.region 0).toNat, (t.side role).rowPos v₁ v₂ + k < memSize.toNat
  := by
  constructor
  · intro h v₂ h₂ v₁ h₁ k hk
    have hrow := h _ (mem_softCopyOp.mpr ⟨v₂, h₂, v₁, h₁, rfl⟩) k hk
    cases role <;> exact hrow
  · intro h c hc k hk
    obtain ⟨v₂, h₂, v₁, h₁, rfl⟩ := mem_softCopyOp.mp hc
    have hrow := h v₂ h₂ v₁ h₁ k hk
    cases role <;> exact hrow

theorem Operands.side_pitch (t : Operands) (role : Role) :
  (t.side role).pitch 0 = t.src.pitch 0
  := by
  cases role with
  | dst => exact t.pitch_eq
  | src => rfl

/-- The extent is that of the last row and of the bytes in it. -/
theorem exactDot_extent (u : VectorT) (r₀ v₁ v₂ : ℕ) :
  exactDot u ![r₀, v₁, v₂] = exactDot u ![0, v₁, v₂] + (u 0).toNat * r₀
  := by
  simp only [exactDot, Matrix.cons_val]
  ring

/-! ### Accepted transfers -/

section Accepted

variable {t : Operands} {role : Role} {memSize : BitVec 64} {sameContext : Bool}
  (h : validateObject sameContext memSize (t.side role).origin (t.side role).pitch t.region =
    .ok ())

include h

/-- The last row is one of the rows. -/
theorem last_row :
  (t.region 1).toNat - 1 < (t.region 1).toNat ∧ (t.region 2).toNat - 1 < (t.region 2).toNat
  := by
  obtain ⟨hregion, -⟩ := of_validateObject h
  have h₁ := toNat_pos (hregion 1)
  have h₂ := toNat_pos (hregion 2)
  omega

theorem inBounds_of_fits (hfits : Fits t role) :
  InBounds t role memSize ∧ Exact t role
  := by
  obtain ⟨hregion, hsize⟩ := of_validateObject h
  unfold Fits at hfits
  simp only at hfits
  rw [BitVec.toNat_add, toNat_dot, toNat_size hregion] at hsize
  generalize hA : exactDot (t.side role).pitch (fun i => ((t.side role).origin i).toNat) = A
    at hfits hsize
  generalize hB : exactDot (t.side role).pitch
    ![(t.region 0).toNat, (t.region 1).toNat - 1, (t.region 2).toNat - 1] = B at hfits hsize
  have hparts : A < 2 ^ 64 ∧ B < 2 ^ 64 := by
    split_ifs at hfits
    · exact hfits
    · omega
  have hrow : ∀ v₁ < (t.region 1).toNat, ∀ v₂ < (t.region 2).toNat,
      exactDot (t.side role).pitch ![0, v₁, v₂] +
        (t.src.pitch 0).toNat * (t.region 0).toNat ≤ B := by
    intro v₁ h₁ v₂ h₂
    rw [← t.side_pitch role, ← exactDot_extent, ← hB]
    apply exactDot_mono
    intro i
    fin_cases i
    · exact Nat.le_refl _
    · exact Nat.le_sub_one_of_lt h₁
    · exact Nat.le_sub_one_of_lt h₂
  have hlen : (t.src.pitch 0 * t.region 0).toNat =
      (t.src.pitch 0).toNat * (t.region 0).toNat := by
    have hlast := hrow _ (last_row h).1 _ (last_row h).2
    rw [BitVec.toNat_mul]
    apply Nat.mod_eq_of_lt
    omega
  have hpos : ∀ v₁ < (t.region 1).toNat, ∀ v₂ < (t.region 2).toNat,
      (t.side role).rowPos v₁ v₂ = A + exactDot (t.side role).pitch ![0, v₁, v₂] := by
    intro v₁ h₁ v₂ h₂
    have hle := hrow v₁ h₁ v₂ h₂
    rw [Side.rowPos, toNat_dot, toNat_dot_rowVector _ (h₁.trans (t.region 1).isLt)
      (h₂.trans (t.region 2).isLt), hA, Nat.mod_eq_of_lt hparts.1, Nat.mod_eq_of_lt]
    omega
  constructor
  · rw [inBounds_iff]
    intro v₂ h₂ v₁ h₁ k hk
    have hle := hrow v₁ h₁ v₂ h₂
    rw [hpos v₁ h₁ v₂ h₂]
    have hpitch : ¬(t.side role).pitch 0 = 0 := by
      intro hzero
      rw [t.side_pitch role] at hzero
      rw [hlen, hzero] at hk
      exact absurd hk (by simp)
    rw [if_neg hpitch] at hfits
    rw [Nat.mod_eq_of_lt hparts.1, Nat.mod_eq_of_lt hparts.2, Nat.mod_eq_of_lt hfits] at hsize
    omega
  · intro v₁ h₁ v₂ h₂
    rw [hA]
    exact ⟨hpos v₁ h₁ v₂ h₂, hlen⟩

theorem fits_of_inBounds (hin : InBounds t role memSize) (hexact : Exact t role) :
  Fits t role
  := by
  obtain ⟨hregion, -⟩ := of_validateObject h
  obtain ⟨h₁, h₂⟩ := last_row h
  obtain ⟨hpos, hlen⟩ := hexact _ h₁ _ h₂
  rw [inBounds_iff] at hin
  have hbytes := hin _ h₂ _ h₁
  rw [hpos, hlen] at hbytes
  rw [Side.rowPos, toNat_dot, toNat_dot_rowVector _ (h₁.trans (t.region 1).isLt)
    (h₂.trans (t.region 2).isLt)] at hpos
  unfold Fits
  simp only
  rw [exactDot_extent, t.side_pitch role]
  generalize exactDot (t.side role).pitch (fun i => ((t.side role).origin i).toNat) = A
    at hpos hbytes
  generalize exactDot (t.side role).pitch
    ![0, (t.region 1).toNat - 1, (t.region 2).toNat - 1] = B at hpos hbytes
  have hA := Nat.mod_le A (2 ^ 64)
  have hB := Nat.mod_le B (2 ^ 64)
  split_ifs with hpitch
  · have hzero : (0 : BitVec 64).toNat = 0 := rfl
    rw [hpitch, hzero, Nat.zero_mul, Nat.add_zero]
    omega
  · have hlast : 0 < (t.src.pitch 0).toNat * (t.region 0).toNat :=
      Nat.mul_pos (toNat_pos hpitch) (toNat_pos (hregion 0))
    have hbyte := hbytes _ (Nat.sub_lt hlast Nat.one_pos)
    have hmem := memSize.isLt
    omega

end Accepted

end Transfer

end Clover
