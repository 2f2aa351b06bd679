import Mathlib.Data.Sym.Sym2
import Mesa.Nir.OptCse

/-!
# Keys of instructions

What `nir_instrs_equal` compares of an instruction other than a phi is a key, so that on these
instructions it is an equivalence.
-/

namespace Nir.InstrSet

/-! ### Keys -/

/-- What is compared of a source of an ALU instruction. -/
@[ext]
structure SrcKey where
  abs : Bool
  negate : Bool
  swizzle : List ℕ
  src : ℕ

/-- What is compared of an instruction other than a phi. -/
inductive InstrKey where
  | alu (op numComponents bitSize : ℕ) (pair : Option (Sym2 SrcKey)) (srcs : List SrcKey)
  | tex (fields : TexFields) (srcs : List TexSrc)
  | loadConst (numComponents bitSize : ℕ) (value : List (BitVec 8))
  | intrinsic (op numComponents : ℕ) (dest : Option (ℕ × ℕ)) (srcs : List ℕ)
      (constIndex : List (BitVec 32))

section Key

variable (T : Infos)

/-- The key of a source. -/
def srcKey (i : AluInstr) (k : ℕ) : SrcKey where
  abs := (i.src k).abs
  negate := (i.src k).negate
  swizzle := (List.range (ssaAluInstrSrcComponents T i k)).map (i.src k).swizzle
  src := (i.src k).src

/-- The key of an instruction. -/
def instrKey : Instr → Option InstrKey
  | .alu i =>
      some (if (T.ops i.op).commutative then
        .alu i.op i.dest.numComponents i.dest.bitSize (some s(srcKey T i 0, srcKey T i 1)) []
      else
        .alu i.op i.dest.numComponents i.dest.bitSize none
          ((List.range (T.ops i.op).numInputs).map (srcKey T i)))
  | .tex i =>
      some (.tex { i.fields with destType := 0, texture := none, sampler := none }
        ((List.range i.numSrcs).map i.src))
  | .loadConst i =>
      some (.loadConst i.dest.numComponents i.dest.bitSize
        ((List.range (i.dest.numComponents * (i.dest.bitSize / 8))).map i.value))
  | .intrinsic i =>
      let info := T.intrinsics i.intrinsic
      some (.intrinsic i.intrinsic i.numComponents
        (if info.hasDest then some (i.dest.numComponents, i.dest.bitSize) else none)
        ((List.range info.numSrcs).map i.src) ((List.range info.numIndices).map i.constIndex))
  | .phi _ => none
  | .other _ _ _ => none

variable {T}

/-- Lists that are given by functions. -/
theorem map_range_eq_iff {α : Type*} {n m : ℕ} {f g : ℕ → α} :
  (List.range n).map f = (List.range m).map g ↔ n = m ∧ ∀ k < n, f k = g k
  := by
  constructor
  · intro h
    have hlen : n = m := by
      simpa using congrArg List.length h
    subst hlen
    exact ⟨rfl, fun k hk => List.map_inj_left.mp h k (List.mem_range.mpr hk)⟩
  · rintro ⟨rfl, h⟩
    apply List.map_congr_left
    intro k hk
    exact h k (List.mem_range.mp hk)

/-- Sources with the same number of components are equal just if they have the same key. -/
theorem srcKey_eq_iff {i j : AluInstr} {k l : ℕ}
  (hcomps : ssaAluInstrSrcComponents T i k = ssaAluInstrSrcComponents T j l) :
  srcKey T i k = srcKey T j l ↔ aluSrcsEqual T i j k l = true
  := by
  rw [aluSrcsEqual_iff, SrcKey.ext_iff]
  simp only [srcKey]
  rw [map_range_eq_iff]
  simp only [hcomps, true_and]

theorem aluKey_eq_iff {i j : AluInstr} :
  aluInstrsEqual T i j = true ↔ instrKey T (.alu i) = instrKey T (.alu j)
  := by
  have hsame : ∀ k l, i.op = j.op → i.dest.numComponents = j.dest.numComponents →
      (T.ops j.op).inputSizes k = (T.ops j.op).inputSizes l →
      (srcKey T i k = srcKey T j l ↔ aluSrcsEqual T i j k l = true) := by
    intro k l hop hcomps hsize
    exact srcKey_eq_iff (ssaAluInstrSrcComponents_congr hop hcomps hsize)
  constructor
  · intro h
    obtain ⟨hop, hcomps, hbits, ⟨hcomm, hsrcs⟩ | ⟨hcomm, hsrcs⟩⟩ := aluInstrsEqual_cases h
    · obtain ⟨-, hsize, -⟩ := T.comm_inputs j.op (hop ▸ hcomm)
      rw [← hsame 0 0 hop hcomps rfl, ← hsame 1 1 hop hcomps rfl, ← hsame 0 1 hop hcomps hsize,
        ← hsame 1 0 hop hcomps hsize.symm] at hsrcs
      simp only [instrKey, ← hop, hcomm, if_true, hcomps, hbits, Option.some.injEq,
        InstrKey.alu.injEq, true_and, and_true]
      exact Sym2.eq_iff.mpr hsrcs
    · simp only [instrKey, ← hop, hcomm, Bool.false_eq_true, if_false, hcomps, hbits,
        Option.some.injEq, InstrKey.alu.injEq, true_and]
      rw [map_range_eq_iff]
      exact ⟨rfl, fun k hk => (hsame k k hop hcomps rfl).mpr (hsrcs k hk)⟩
  · intro h
    simp only [instrKey] at h
    split_ifs at h with hi hj hj <;> simp only [Option.some.injEq, InstrKey.alu.injEq,
      reduceCtorEq, and_false, false_and, and_true, true_and] at h
    · obtain ⟨hop, hcomps, hbits, hsrcs⟩ := h
      obtain ⟨-, hsize, -⟩ := T.comm_inputs j.op hj
      have hsrcs := Sym2.eq_iff.mp hsrcs
      rw [hsame 0 0 hop hcomps rfl, hsame 1 1 hop hcomps rfl, hsame 0 1 hop hcomps hsize,
        hsame 1 0 hop hcomps hsize.symm] at hsrcs
      simp only [aluInstrsEqual, hop, hcomps, hbits, ne_eq, not_true_eq_false, if_false, hj,
        if_true, Bool.or_eq_true, Bool.and_eq_true]
      exact hsrcs
    · obtain ⟨hop, hcomps, hbits, hsrcs⟩ := h
      rw [map_range_eq_iff] at hsrcs
      simp only [aluInstrsEqual, hop, hcomps, hbits, ne_eq, not_true_eq_false, if_false, hj,
        Bool.false_eq_true, decide_eq_true_eq]
      intro k hk
      exact (hsame k k hop hcomps rfl).mp (hsrcs.2 k (hop ▸ hk))

theorem texKey_eq_iff {i j : TexInstr} :
  texInstrsEqual i j = true ↔ instrKey T (.tex i) = instrKey T (.tex j)
  := by
  constructor
  · intro h
    obtain ⟨hnum, hsrcs, hfields⟩ := texInstrsEqual_cases h
    simp only [instrKey, Option.some.injEq, InstrKey.tex.injEq]
    refine ⟨by rw [hfields], map_range_eq_iff.mpr ⟨hnum, ?_⟩⟩
    intro k hk
    obtain ⟨htype, hsrc⟩ := hsrcs k hk
    cases hi : i.src k
    cases hj : j.src k
    simp only [hi, hj] at htype hsrc
    rw [htype, hsrc]
  · intro h
    simp only [instrKey, Option.some.injEq, InstrKey.tex.injEq, TexFields.mk.injEq, true_and,
      and_true, map_range_eq_iff] at h
    obtain ⟨⟨hdim, hop, hcoord, harray, hshadow, hnew, hcomp, htex, hsize, hsampler⟩, hnum,
      hsrcs⟩ := h
    have hall : ∀ k < i.numSrcs, (i.src k).srcType = (j.src k).srcType ∧
        (i.src k).src = (j.src k).src := by
      intro k hk
      rw [hsrcs k hk]
      exact ⟨rfl, rfl⟩
    simpa [texInstrsEqual, hdim, hop, hcoord, harray, hshadow, hnew, hcomp, htex, hsize, hsampler,
      ← hnum] using hall

theorem intrinsicKey_eq_iff {i j : IntrinsicInstr} :
  intrinsicInstrsEqual T i j = true ↔ instrKey T (.intrinsic i) = instrKey T (.intrinsic j)
  := by
  constructor
  · intro h
    obtain ⟨hop, hnum, hdest, hsrcs, hindices⟩ := intrinsicInstrsEqual_cases h
    simp only [instrKey, ← hop, hnum, Option.some.injEq, InstrKey.intrinsic.injEq, true_and,
      map_range_eq_iff]
    refine ⟨?_, hsrcs, hindices⟩
    split_ifs with hd
    · obtain ⟨hcomps, hbits⟩ := hdest hd
      rw [hcomps, hbits]
    · rfl
  · intro h
    simp only [instrKey, Option.some.injEq, InstrKey.intrinsic.injEq, map_range_eq_iff] at h
    obtain ⟨hop, hnum, hdest, ⟨-, hsrcs⟩, -, hindices⟩ := h
    rw [← hop] at hdest
    cases hd : (T.intrinsics i.intrinsic).hasDest with
    | false => simpa [intrinsicInstrsEqual, ← hop, hnum, hd] using ⟨hsrcs, hindices⟩
    | true =>
        simp only [hd, if_true, Option.some.injEq, Prod.mk.injEq] at hdest
        simpa [intrinsicInstrsEqual, ← hop, hnum, hdest.1, hdest.2] using ⟨hsrcs, hindices⟩

theorem loadConstKey_eq_iff {i j : LoadConstInstr} :
  loadConstInstrsEqual i j = true ↔ instrKey T (.loadConst i) = instrKey T (.loadConst j)
  := by
  rw [loadConstInstrsEqual_iff]
  simp only [instrKey, Option.some.injEq, InstrKey.loadConst.injEq, map_range_eq_iff]
  constructor
  · rintro ⟨hcomps, hbits, hvalue⟩
    exact ⟨hcomps, hbits, by rw [hcomps, hbits], hvalue⟩
  · rintro ⟨hcomps, hbits, -, hvalue⟩
    exact ⟨hcomps, hbits, hvalue⟩

/-- Instructions other than phis are equal just if they have the same key. -/
theorem instrsEqual_iff_key {i j : Instr} (hphi : i.isPhi = false) :
  instrsEqual T i j = true ↔ instrKey T i ≠ none ∧ instrKey T i = instrKey T j
  := by
  cases i with
  | phi i => simp [Instr.isPhi] at hphi
  | other kind dest srcs => simp [instrsEqual, instrKey]
  | alu i =>
      cases j with
      | alu j => simp [instrsEqual, aluKey_eq_iff, instrKey]
      | _ => simp only [instrsEqual, instrKey]; split_ifs <;> simp
  | tex i =>
      cases j with
      | tex j => simp [instrsEqual, texKey_eq_iff (T := T), instrKey]
      | alu j => simp only [instrsEqual, instrKey]; split_ifs <;> simp
      | _ => simp [instrsEqual, instrKey]
  | loadConst i =>
      cases j with
      | loadConst j => simp [instrsEqual, loadConstKey_eq_iff (T := T), instrKey]
      | alu j => simp only [instrsEqual, instrKey]; split_ifs <;> simp
      | _ => simp [instrsEqual, instrKey]
  | intrinsic i =>
      cases j with
      | intrinsic j => simp [instrsEqual, intrinsicKey_eq_iff, instrKey]
      | alu j => simp only [instrsEqual, instrKey]; split_ifs <;> simp
      | _ => simp [instrsEqual, instrKey]

/-- An instruction in which no source changes has the same key. -/
theorem instrKey_rename {i : Instr} {f : ℕ → ℕ} (hf : ∀ d ∈ i.srcs T, f d = d) :
  instrKey T (i.rename f) = instrKey T i
  := by
  cases i with
  | phi i => rfl
  | other kind dest srcs => rfl
  | loadConst i => rfl
  | alu i =>
      have hsrc : ∀ k < (T.ops i.op).numInputs,
          srcKey T { i with src := fun k => { i.src k with src := f (i.src k).src } } k =
            srcKey T i k := by
        intro k hk
        have h := hf _ (List.mem_map_of_mem (List.mem_range.mpr hk))
        simp only [srcKey, h, ssaAluInstrSrcComponents]
      simp only [Instr.rename, instrKey]
      split_ifs with hcomm
      · obtain ⟨hnum, -⟩ := T.comm_inputs i.op hcomm
        rw [hsrc 0 (by omega), hsrc 1 (by omega)]
      · rw [map_range_eq_iff.mpr ⟨rfl, hsrc⟩]
  | tex i =>
      simp only [Instr.rename, instrKey, Option.some.injEq, InstrKey.tex.injEq, true_and,
        map_range_eq_iff]
      intro k hk
      rw [hf _ (List.mem_map_of_mem (List.mem_range.mpr hk))]
  | intrinsic i =>
      simp only [Instr.rename, instrKey, Option.some.injEq, InstrKey.intrinsic.injEq, true_and,
        and_true, map_range_eq_iff]
      intro k hk
      exact hf _ (List.mem_map_of_mem (List.mem_range.mpr hk))

/-- A source with its value renamed. -/
def SrcKey.rename (f : ℕ → ℕ) (key : SrcKey) : SrcKey := { key with src := f key.src }

/-- A key with the sources renamed. -/
def InstrKey.rename (f : ℕ → ℕ) : InstrKey → InstrKey
  | .alu op n b pair srcs =>
      .alu op n b (pair.map (Sym2.map (SrcKey.rename f))) (srcs.map (SrcKey.rename f))
  | .tex fields srcs => .tex fields (srcs.map (fun s => { s with src := f s.src }))
  | .loadConst n b value => .loadConst n b value
  | .intrinsic op n dest srcs indices => .intrinsic op n dest (srcs.map f) indices

theorem InstrKey.rename_rename {f g : ℕ → ℕ} (key : InstrKey) :
  (key.rename f).rename g = key.rename (g ∘ f)
  := by
  have hsrc : SrcKey.rename g ∘ SrcKey.rename f = SrcKey.rename (g ∘ f) := rfl
  cases key <;> simp [InstrKey.rename, ← Sym2.map_comp, hsrc]

theorem instrKey_rename_eq (i : Instr) (f : ℕ → ℕ) :
  instrKey T (i.rename f) = (instrKey T i).map (InstrKey.rename f)
  := by
  cases i with
  | alu i =>
      have hsrc : srcKey T
            { i with src := fun k => { i.src k with src := f (i.src k).src } } =
          SrcKey.rename f ∘ srcKey T i := rfl
      simp only [Instr.rename, instrKey, hsrc]
      split_ifs <;> simp [InstrKey.rename]
  | tex i => simp [Instr.rename, instrKey, InstrKey.rename, Function.comp_def]
  | intrinsic i => simp [Instr.rename, instrKey, InstrKey.rename, Function.comp_def]
  | _ => rfl

theorem isPhi_rename (i : Instr) (f : ℕ → ℕ) :
  (i.rename f).isPhi = i.isPhi
  := by
  cases i <;> rfl

theorem instrKey_ne_none {i : Instr} (hr : instrCanRewrite T i = true) (hphi : i.isPhi = false) :
  instrKey T i ≠ none
  := by
  cases i <;> simp [instrKey, instrCanRewrite, Instr.isPhi] at hr hphi ⊢

theorem isPhi_of_instrKey {i : Instr} (h : instrKey T i ≠ none) :
  i.isPhi = false
  := by
  cases i <;> simp [instrKey, Instr.isPhi] at h ⊢

/-- Equal instructions stay equal when their sources are renamed. -/
theorem instrsEqual_rename {i j : Instr} (h : instrsEqual T i j = true) (hphi : i.isPhi = false)
  (f : ℕ → ℕ) :
  instrsEqual T (i.rename f) (j.rename f) = true
  := by
  obtain ⟨hne, heq⟩ := (instrsEqual_iff_key hphi).mp h
  rw [instrsEqual_iff_key ((isPhi_rename i f).trans hphi), instrKey_rename_eq, instrKey_rename_eq,
    ← heq]
  refine ⟨?_, rfl⟩
  rw [ne_eq, Option.map_eq_none_iff]
  exact hne

end Key

end Nir.InstrSet
