import Mesa.Broadcom.QpuRoundTrip

/-!
# Branches that are packed and unpacked

A branch is packed without the low bits of its offset, and without what its destination does not
use.  What remains is unpacked again.
-/

namespace Broadcom

namespace Qpu

open Bits (Write add adds)

/-! ### What a branch holds -/

/-- The destination is addressed by the offset. -/
def BranchDest.usesOffset : BranchDest → Bool
  | .abs | .rel => true
  | _ => false

/-- The destination is packed with a register. -/
def BranchDest.usesRaddr : BranchDest → Bool
  | .abs | .rel | .regfile => true
  | _ => false

/-- A kind of destination under its own name. -/
def BranchDest.Named (dest : BranchDest) : Prop := BranchDest.ofNum dest.num = dest

instance (dest : BranchDest) : Decidable dest.Named :=
  inferInstanceAs (Decidable (_ = _))

theorem BranchDest.num_ofNum (n : ℕ) :
  (BranchDest.ofNum n).num = n
  := by
  unfold ofNum
  split <;> rfl

theorem BranchDest.named_ofNum (n : ℕ) :
  (BranchDest.ofNum n).Named
  := by
  unfold Named
  rw [num_ofNum]

/-- What a branch is, up to what the word does not hold: the destination for uniforms where the
uniforms stay as they are, the offset below eight bytes, the offset where the destination is in a
register, and the register where the destination is the link register. -/
def BranchInstr.normal (instr : BranchInstr) : BranchInstr :=
  { instr with
    bdu := if instr.ub then instr.bdu else .abs
    raddrA := if instr.bdi.usesRaddr then instr.raddrA else 0
    offset := if instr.bdi.usesOffset then instr.offset / 8 * 8 else 0 }

/-! ### The layout of a branch -/

/-- Values other than 0 decide what is added. -/
theorem adds_congr {w : ℕ} {l l' : List Write} (h : ∀ f, f.val ≠ 0 → (f ∈ l ↔ f ∈ l'))
    (x : BitVec w) :
  adds x l = adds x l'
  := by
  apply BitVec.eq_of_getLsbD_eq
  intro i hi
  rw [Bits.getLsbD_adds hi, Bits.getLsbD_adds hi]
  congr 1
  rw [Bool.eq_iff_iff, List.any_eq_true, List.any_eq_true]
  apply exists_congr
  intro f
  by_cases hf : f.val = 0
  · simp [hf]
  · rw [h f hf]

/-- Several fields are added. -/
def addAll (packed : BitVec 64) (l : List Write) : Option (BitVec 64) :=
  l.foldlM (fun packed f => addField packed f.hi f.lo f.val) packed

theorem addAll_eq_some {packed word : BitVec 64} {l : List Write} :
  addAll packed l = some word ↔
    (∀ f ∈ l, f.val < 2 ^ (f.hi - f.lo + 1)) ∧ adds packed l = word
  := by
  induction l generalizing packed with
  | nil => simp [addAll, adds]
  | cons f l ih =>
      unfold addAll at ih ⊢
      rw [List.foldlM_cons, List.forall_mem_cons, Option.bind_eq_bind]
      by_cases hf : f.val < 2 ^ (f.hi - f.lo + 1)
      · rw [addField, if_pos hf, Option.bind_some, ih]
        simp only [hf, true_and]
        rfl
      · rw [addField, if_neg hf, Option.bind_none]
        simp [hf]

/-- A field of 0 adds nothing. -/
@[simp]
theorem addField_zero (packed : BitVec 64) (hi lo : ℕ) :
  addField packed hi lo 0 = some packed
  := by
  rw [addField, if_pos (Nat.two_pow_pos _)]
  simp

/-- The condition of a branch in the word. -/
def BranchCond.packed (cond : BranchCond) : ℕ :=
  if cond = .always then 0 else 2 + (cond.num - BranchCond.a0.num)

/-- The fields of a packed branch, of which the upper bit of the signal alone is one. -/
def branchLayout (instr : BranchInstr) : List Write := [
  ⟨57, 57, 1⟩,
  ⟨34, 32, instr.cond.packed⟩,
  ⟨22, 21, instr.msfign.num⟩,
  ⟨13, 12, instr.bdi.num⟩,
  ⟨14, 14, instr.ub.toNat⟩,
  ⟨17, 15, if instr.ub then instr.bdu.num else 0⟩,
  ⟨55, 35, if instr.bdi.usesOffset then (instr.offset &&& 0xffffff) >>> 3 else 0⟩,
  ⟨31, 24, if instr.bdi.usesOffset then instr.offset >>> 24 else 0⟩,
  ⟨11, 6, if instr.bdi.usesRaddr then instr.raddrA else 0⟩]

theorem branchLayout_apart (instr : BranchInstr) :
  (branchLayout instr).Pairwise Write.Apart
  := by
  simp [branchLayout, Write.Apart]

/-- The fields in the order in which they are added, one of them twice. -/
def branchWrites (instr : BranchInstr) : List Write := [
  ⟨57, 57, 1⟩,
  ⟨34, 32, instr.cond.packed⟩,
  ⟨22, 21, instr.msfign.num⟩,
  ⟨13, 12, instr.bdi.num⟩,
  ⟨14, 14, instr.ub.toNat⟩,
  ⟨17, 15, if instr.ub then instr.bdu.num else 0⟩,
  ⟨22, 21, if instr.bdi.usesOffset then instr.msfign.num else 0⟩,
  ⟨55, 35, if instr.bdi.usesOffset then (instr.offset &&& 0xffffff) >>> 3 else 0⟩,
  ⟨31, 24, if instr.bdi.usesOffset then instr.offset >>> 24 else 0⟩,
  ⟨11, 6, if instr.bdi.usesRaddr then instr.raddrA else 0⟩]

theorem instrPackBranch_eq (instr : BranchInstr) :
  instrPackBranch instr 0#64 = addAll 0#64 (branchWrites instr)
  := by
  obtain ⟨cond, msfign, bdi, bdu, ub, raddrA, offset⟩ := instr
  have hsig : addField 0#64 57 53 16 = addField 0#64 57 57 1 := rfl
  unfold instrPackBranch branchWrites addAll
  rw [hsig]
  by_cases hc : cond = .always
  · cases ub <;> cases bdi <;>
      simp [hc, BranchCond.packed, BranchDest.usesOffset,
        BranchDest.usesRaddr]
  · cases ub <;> cases bdi <;>
      simp [hc, BranchCond.packed, BranchDest.usesOffset,
        BranchDest.usesRaddr]

theorem mem_branchWrites (instr : BranchInstr) {f : Write} (hf : f.val ≠ 0) :
  f ∈ branchWrites instr ↔ f ∈ branchLayout instr
  := by
  unfold branchWrites branchLayout
  cases instr.bdi.usesOffset with
  | true =>
      simp only [if_true, List.mem_cons]
      tauto
  | false =>
      have hne : f ≠ ⟨22, 21, 0⟩ := by
        rintro rfl
        exact hf rfl
      simp only [Bool.false_eq_true, if_false, List.mem_cons, hne, false_or]

/-- A packed branch has its fields. -/
theorem instrPackBranch_layout {instr : BranchInstr} {word : BitVec 64} :
  instrPackBranch instr 0#64 = some word ↔
    (∀ f ∈ branchLayout instr, f.Fits 64) ∧ adds 0#64 (branchLayout instr) = word
  := by
  have hbounds : ∀ f ∈ branchLayout instr, f.lo ≤ f.hi ∧ f.hi < 64 := by simp [branchLayout]
  rw [instrPackBranch_eq, addAll_eq_some, adds_congr fun f => mem_branchWrites instr]
  apply and_congr_left
  intro _
  constructor
  · intro hfits f hf
    refine ⟨(hbounds f hf).1, (hbounds f hf).2, ?_⟩
    by_cases hval : f.val = 0
    · rw [hval]
      exact Nat.two_pow_pos _
    · exact hfits f ((mem_branchWrites instr hval).mpr hf)
  · intro hfits f hf
    by_cases hval : f.val = 0
    · rw [hval]
      exact Nat.two_pow_pos _
    · exact (hfits f ((mem_branchWrites instr hval).mp hf)).2.2

/-! ### Round trips -/

/-- The word of a branch is taken for a branch, and not for another instruction. -/
theorem instrUnpack_branchLayout {instr : BranchInstr} (fits : ∀ f ∈ branchLayout instr, f.Fits 64)
    (alu : AluInstr) (old : BranchInstr) :
  instrUnpack (adds 0#64 (branchLayout instr)) alu old =
    (instrUnpackBranch (adds 0#64 (branchLayout instr)) old).map .branch
  := by
  have hbit : ∀ i, 56 ≤ i → i < 64 →
      (adds 0#64 (branchLayout instr)).getLsbD i = decide (i = 57) := by
    intro i hi hlt
    rw [Bits.getLsbD_adds hlt, BitVec.getLsbD_zero, Bool.false_or, Bool.eq_iff_iff, List.any_eq_true,
      decide_eq_true_eq]
    constructor
    · rintro ⟨f, hf, hbit⟩
      obtain ⟨hlo, hbit⟩ := (Bool.and_eq_true _ _).mp hbit
      have hlo := of_decide_eq_true hlo
      obtain ⟨hle, -, hval⟩ := fits f hf
      have hhi : i ≤ f.hi := by
        by_contra hnot
        rw [Nat.testBit_lt_two_pow] at hbit
        · cases hbit
        · apply hval.trans_le
          apply Nat.pow_le_pow_right Nat.two_pos
          omega
      have hall : ∀ f ∈ branchLayout instr, i ≤ f.hi → f.lo ≤ i → i = 57 := by
        simp only [branchLayout, List.forall_mem_cons]
        refine ⟨?_, ?_, ?_, ?_, ?_, ?_, ?_, ?_, ?_, ?_⟩
        all_goals first | omega | simp
      exact hall f hf hhi hlo
    · rintro rfl
      exact ⟨⟨57, 57, 1⟩, by simp [branchLayout], by decide⟩
  have hop : Bits.field (adds 0#64 (branchLayout instr)) 63 58 = 0 := by
    apply Bits.field_eq_of_bits (by decide)
    intro k hk
    rw [hbit (58 + k) (by omega) (by omega), Nat.zero_testBit]
    apply decide_eq_false
    omega
  have hsig : Bits.field (adds 0#64 (branchLayout instr)) 57 53 &&& 24 = 16 := by
    have hall : ∀ x < 32, x.testBit 4 = true → x.testBit 3 = false → x &&& 24 = 16 := by decide
    apply hall _ (Bits.field_lt _ 57 53)
    · rw [Bits.testBit_field, hbit 57 (by omega) (by omega)]
      rfl
    · rw [Bits.testBit_field, hbit 56 (by omega) (by omega)]
      rfl
  unfold instrUnpack
  rw [hop, if_neg (by decide), if_pos hsig]

theorem BranchCond.unpack_packed (cond : BranchCond) :
  (if cond.packed ≤ 1 then .always else BranchCond.ofNum (BranchCond.a0.num + (cond.packed - 2))) =
    cond
  := by
  cases cond <;> rfl

theorem Msfign.ofNum_num (msfign : Msfign) :
  msfign.num ≠ 3 ∧ Msfign.ofNum msfign.num = msfign
  := by
  cases msfign <;> decide

/-- The two parts of an offset. -/
theorem offset_parts (offset : ℕ) :
  (((offset &&& 0xffffff) >>> 3) <<< 3) + ((offset >>> 24) <<< 24) = offset / 8 * 8
  := by
  have hand : offset &&& 0xffffff = offset % 2 ^ 24 := Nat.and_two_pow_sub_one_eq_mod offset 24
  rw [hand, Nat.shiftRight_eq_div_pow, Nat.shiftRight_eq_div_pow, Nat.shiftLeft_eq, Nat.shiftLeft_eq]
  omega

/-- A packed branch is unpacked, up to what the word does not hold. -/
theorem instrUnpackBranch_layout {instr : BranchInstr}
    (fits : ∀ f ∈ branchLayout instr, f.Fits 64) (hbdi : instr.bdi.Named)
    (hbdu : instr.ub = true → instr.bdu.Named) (old : BranchInstr) :
  instrUnpackBranch (adds 0#64 (branchLayout instr)) old = some { instr with
    bdu := if instr.ub then instr.bdu else old.bdu
    raddrA := if instr.bdi.usesRaddr then instr.raddrA else 0
    offset := if instr.bdi.usesOffset then instr.offset / 8 * 8 else 0 }
  := by
  have read : ∀ f ∈ branchLayout instr,
      Bits.field (adds 0#64 (branchLayout instr)) f.hi f.lo = f.val := by
    intro f mem
    exact Bits.field_adds fits (branchLayout_apart instr) mem
  simp only [branchLayout, List.forall_mem_cons] at read
  obtain ⟨-, r₁, r₂, r₃, r₄, r₅, r₆, r₇, r₈, -⟩ := read
  have hub : decide (instr.ub.toNat ≠ 0) = instr.ub := toNat_ne_zero instr.ub
  obtain ⟨hmsfign, hofNum⟩ := Msfign.ofNum_num instr.msfign
  have hoffset : (if instr.bdi.usesOffset then (instr.offset &&& 0xffffff) >>> 3 else 0) <<< 3 +
      (if instr.bdi.usesOffset then instr.offset >>> 24 else 0) <<< 24 =
      if instr.bdi.usesOffset then instr.offset / 8 * 8 else 0 := by
    split_ifs
    · exact offset_parts instr.offset
    · rfl
  have hdest : (if instr.ub then BranchDest.ofNum (if instr.ub then instr.bdu.num else 0)
      else old.bdu) = if instr.ub then instr.bdu else old.bdu := by
    split_ifs with h
    · exact hbdu h
    · rfl
  unfold instrUnpackBranch branchLayout
  simp only [r₁, r₂, r₃, r₄, r₅, r₆, r₇, r₈, if_neg hmsfign, hub, hoffset, hdest, hofNum,
    BranchCond.unpack_packed]
  rw [hbdi]

/-- A branch that is packed is unpacked, up to what the word does not hold. -/
theorem instrUnpack_instrPack_branch {instr : BranchInstr} (hbdi : instr.bdi.Named)
    (hbdu : instr.ub = true → instr.bdu.Named) {word : BitVec 64}
    (pack : instrPack (.branch instr) = some word) (alu : AluInstr) (old : BranchInstr) :
  ∃ instr', instrUnpack word alu old = some (.branch instr') ∧ instr'.normal = instr.normal
  := by
  obtain ⟨fits, rfl⟩ := instrPackBranch_layout.mp pack
  rw [instrUnpack_branchLayout fits, instrUnpackBranch_layout fits hbdi hbdu]
  refine ⟨_, rfl, ?_⟩
  unfold BranchInstr.normal
  cases instr.ub <;> cases instr.bdi <;> simp [BranchDest.usesOffset, BranchDest.usesRaddr]

theorem BranchCond.packed_lt (cond : BranchCond) :
  cond.packed < 8
  := by
  cases cond <;> decide

theorem Msfign.num_lt (msfign : Msfign) :
  msfign.num < 4
  := by
  cases msfign <;> decide

/-- What an unpacked branch holds of the word. -/
theorem of_instrUnpackBranch {word : BitVec 64} {old instr : BranchInstr}
    (unpack : instrUnpackBranch word old = some instr) :
  instr.bdi = BranchDest.ofNum (Bits.field word 13 12) ∧
    (instr.ub = true → instr.bdu = BranchDest.ofNum (Bits.field word 17 15)) ∧
    instr.raddrA = Bits.field word 11 6 ∧
    instr.offset = (Bits.field word 55 35 <<< 3) + (Bits.field word 31 24 <<< 24)
  := by
  unfold instrUnpackBranch at unpack
  by_cases hmsfign : Bits.field word 22 21 = 3
  · rw [if_pos hmsfign] at unpack
    cases unpack
  · rw [if_neg hmsfign] at unpack
    obtain rfl := Option.some.inj unpack
    refine ⟨rfl, ?_, rfl, rfl⟩
    intro hub
    exact if_pos hub

theorem named_of_unpack {word : BitVec 64} {old instr : BranchInstr}
    (unpack : instrUnpackBranch word old = some instr) :
  instr.bdi.Named ∧ (instr.ub = true → instr.bdu.Named)
  := by
  obtain ⟨hbdi, hbdu, -, -⟩ := of_instrUnpackBranch unpack
  constructor
  · rw [hbdi]
    exact BranchDest.named_ofNum _
  · intro hub
    rw [hbdu hub]
    exact BranchDest.named_ofNum _

/-- What is unpacked as a branch is packed. -/
theorem instrPack_of_unpack {word : BitVec 64} {old instr : BranchInstr}
    (unpack : instrUnpackBranch word old = some instr) :
  ∃ word', instrPack (.branch instr) = some word'
  := by
  obtain ⟨hbdi, hbdu, hraddr, hoffset⟩ := of_instrUnpackBranch unpack
  have hlow := Bits.field_lt word 55 35
  have hhigh := Bits.field_lt word 31 24
  refine ⟨_, instrPackBranch_layout.mpr ⟨?_, rfl⟩⟩
  simp only [branchLayout, List.forall_mem_cons, Write.Fits]
  refine ⟨by decide, ⟨by decide, by decide, BranchCond.packed_lt _⟩,
    ⟨by decide, by decide, Msfign.num_lt _⟩, ⟨by decide, by decide, ?_⟩, ⟨by decide, by decide, ?_⟩,
    ⟨by decide, by decide, ?_⟩, ⟨by decide, by decide, ?_⟩, ⟨by decide, by decide, ?_⟩,
    ⟨by decide, by decide, ?_⟩, by simp⟩
  · rw [hbdi, BranchDest.num_ofNum]
    exact Bits.field_lt word 13 12
  · exact Bool.toNat_lt _
  · split_ifs with hub
    · rw [hbdu hub, BranchDest.num_ofNum]
      exact Bits.field_lt word 17 15
    · decide
  · split_ifs
    · have hand : ∀ n : ℕ, n &&& 0xffffff ≤ 0xffffff := fun n => Nat.and_le_right
      rw [Nat.shiftRight_eq_div_pow]
      apply (Nat.div_le_div_right (hand _)).trans_lt
      decide
    · decide
  · split_ifs
    · rw [hoffset, Nat.shiftRight_eq_div_pow, Nat.shiftLeft_eq, Nat.shiftLeft_eq]
      omega
    · decide
  · split_ifs
    · rw [hraddr]
      exact Bits.field_lt word 11 6
    · decide

/-- Exactly the branches are unpacked by `v3d_qpu_instr_unpack_branch`. -/
theorem instrUnpackBranch_of_unpack {word : BitVec 64} {alu : AluInstr} {old instr : BranchInstr}
    (unpack : instrUnpack word alu old = some (.branch instr)) :
  instrUnpackBranch word old = some instr
  := by
  unfold instrUnpack at unpack
  split_ifs at unpack
  · simp at unpack
  · simpa using unpack

/-- Branches with kinds of destinations that have names are unpacked after they have been packed, and
words that are unpacked as branches can be packed and unpacked again, up to what the word of a
branch does not hold. -/
theorem branch_roundTrip :
  (∀ (instr : BranchInstr) (word : BitVec 64), instr.bdi.Named → instr.bdu.Named →
    instrPack (.branch instr) = some word →
    ∀ alu old, ∃ instr', instrUnpack word alu old = some (.branch instr') ∧
      instr'.normal = instr.normal) ∧
  ∀ (word : BitVec 64) (alu : AluInstr) (old instr : BranchInstr),
    instrUnpack word alu old = some (.branch instr) →
    ∃ word', instrPack (.branch instr) = some word' ∧
      ∀ alu' old', ∃ instr', instrUnpack word' alu' old' = some (.branch instr') ∧
        instr'.normal = instr.normal
  := by
  constructor
  · intro instr word hbdi hbdu pack
    exact instrUnpack_instrPack_branch hbdi (fun _ => hbdu) pack
  · intro word alu old instr unpack
    have unpackBranch := instrUnpackBranch_of_unpack unpack
    obtain ⟨word', pack⟩ := instrPack_of_unpack unpackBranch
    obtain ⟨hbdi, hbdu⟩ := named_of_unpack unpackBranch
    exact ⟨word', pack, instrUnpack_instrPack_branch hbdi hbdu pack⟩

/-- `bu.a0  16, rf5`. -/
def regfileBranch : BranchInstr :=
  { cond := .a0, bdi := .rel, bdu := .regfile, ub := true, raddrA := 5, offset := 16 }

theorem branch_roundTrip_regfile :
  instrPack (.branch regfileBranch) = some 0x020000120001d140#64 ∧
    ∃ instr', instrUnpack 0x020000120001d140#64 nopInstr {} = some (.branch instr') ∧
      instr'.normal = regfileBranch.normal
  := by
  have pack : instrPack (.branch regfileBranch) = some 0x020000120001d140#64 := by decide
  exact ⟨pack, branch_roundTrip.1 regfileBranch _ (by decide) (by decide) pack nopInstr {}⟩

/-- A branch by four bytes is packed as one by none, and a word with an offset for the link register
is not the one that the unpacked branch is packed to. -/
theorem branch_loses_offset :
  (¬∀ (instr : BranchInstr) (word : BitVec 64), instr.bdi.Named → instr.bdu.Named →
    instrPack (.branch instr) = some word →
    ∀ alu, instrUnpack word alu instr = some (.branch instr)) ∧
  ¬∀ (word : BitVec 64) (alu : AluInstr) (old instr : BranchInstr),
    instrUnpack word alu old = some (.branch instr) →
    ∃ word', instrPack (.branch instr) = some word' ∧
      instrUnpack word' alu old = some (.branch instr)
  := by
  constructor
  · intro h
    have hunpack := h { offset := 4 } 0x0200000000000000#64 (by decide) (by decide) (by decide) nopInstr
    revert hunpack
    decide
  · intro h
    obtain ⟨word', hpack, hunpack⟩ := h 0x0200000001002000#64 nopInstr {}
      { bdi := .linkReg, offset := 0x1000000 } (by decide)
    have hword : word' = 0x0200000000002000#64 := by
      have heq : instrPack (.branch { bdi := .linkReg, offset := 0x1000000 }) =
          some 0x0200000000002000#64 := by decide
      exact Option.some.inj (hpack.symm.trans heq)
    subst hword
    revert hunpack
    decide

end Qpu

end Broadcom
