import Mesa.Brw.Compact

/-!
# Compaction loses nothing

An instruction that is compacted is restored bit for bit, and one that is not compacted leaves the
destination as it was.
-/

namespace Brw

open Bits

/-! ### Writing and looking up -/

section Steps

theorem bind_eq_ok {ε α β : Type} {x : Except ε α} {f : α → Except ε β} {b : β} :
  (x >>= f) = .ok b ↔ ∃ a, x = .ok a ∧ f a = .ok b
  := by
  cases x <;> simp [bind, Except.bind]

theorem setFields_eq_ok {w : ℕ} {x y : BitVec w} {l : List Write} :
  setFields x l = .ok y ↔ (∀ f ∈ l, f.val < 2 ^ (f.hi - f.lo + 1)) ∧ writes x l = y
  := by
  rw [setFields]
  split_ifs with h
  · rw [Except.ok.injEq]
    exact ⟨fun hy => ⟨h, hy⟩, And.right⟩
  · simp [h]

/-- An index that is found is that of the value. -/
theorem lookup_eq_ok {table : List ℕ} {v i : ℕ} (h : lookup table v = .ok i) :
  i < table.length ∧ table.getD i 0 = v
  := by
  rw [lookup] at h
  cases hfind : table.findIdx? (· == v) with
  | none => simp [hfind] at h
  | some j =>
      simp only [hfind, Except.ok.injEq] at h
      subst h
      obtain ⟨hlt, heq, -⟩ := List.findIdx?_eq_some_iff_getElem.mp hfind
      refine ⟨hlt, ?_⟩
      rw [List.getD_eq_getElem _ _ hlt]
      exact beq_iff_eq.mp heq

/-- Values written to different places can all be read back. -/
theorem field_writes_of_mem {w : ℕ} {l : List Write} (hl : ∀ f ∈ l, f.Fits w)
  (hd : l.Pairwise (fun f g => g.hi < f.lo ∨ f.hi < g.lo)) (x : BitVec w) {f : Write}
  (hf : f ∈ l) :
  field (writes x l) f.hi f.lo = f.val
  := by
  obtain ⟨l₁, l₂, rfl⟩ := List.append_of_mem hf
  apply field_writes hl
  intro g hg
  exact (List.pairwise_cons.mp (List.pairwise_append.mp hd).2.1).1 g hg

/-- A field of zeros. -/
theorem getLsbD_of_field_eq_zero {w : ℕ} {x : BitVec w} {hi lo i : ℕ} (h : field x hi lo = 0)
  (hlo : lo ≤ i) (hhi : i ≤ hi) :
  x.getLsbD i = false
  := by
  have hbit := testBit_field x hi lo (i - lo)
  rw [h, Nat.zero_testBit, Nat.add_sub_cancel' hlo] at hbit
  have hlt : i - lo < hi - lo + 1 := by omega
  simpa [hlt] using hbit.symm

/-- The write is that of a field of the word. -/
def Right (src : Inst) (f : Write) : Prop :=
  f.lo ≤ f.hi ∧ f.hi < 128 ∧ f.val = field src f.hi f.lo

theorem Right.fits {src : Inst} {f : Write} (h : Right src f) :
  f.Fits 128
  := by
  obtain ⟨hle, hlt, hval⟩ := h
  refine ⟨hle, hlt, ?_⟩
  rw [hval]
  exact field_lt _ _ _

theorem correct_of_right {src : Inst} {l : List Write} (h : ∀ f ∈ l, Right src f) :
  Correct src l
  := by
  apply correct_of_field
  intro f hf
  exact ⟨(h f hf).1, (h f hf).2.2⟩

/-- The piece can be cut out of what the pieces are put together to. -/
def Cut (ps : List Piece) (p : Piece × Bool) : Prop :=
  p.1.lo ≤ p.1.hi ∧ p.1.hi < 128 ∧ p.1 ∈ ps ∧ ∀ q ∈ ps, q = p.1 ∨
    if p.2 then q.Apart p.1 else q.shift + (q.hi - q.lo + 1) ≤ p.1.shift

instance (ps : List Piece) (p : Piece × Bool) : Decidable (Cut ps p) :=
  inferInstanceAs (Decidable (_ ∧ _))

/-- What was put together is written back. -/
theorem spread_gather (src : Inst) {ps : List Piece} {ps' : List (Piece × Bool)}
  (h : ∀ p ∈ ps', Cut ps p) :
  ∀ f ∈ spread (gather src ps) ps', Right src f
  := by
  intro f hf
  obtain ⟨⟨p, masked⟩, hp, rfl⟩ := List.mem_map.mp hf
  obtain ⟨hle, hlt, hmem, hcut⟩ := h _ hp
  refine ⟨hle, hlt, ?_⟩
  cases masked with
  | true => exact gather_shiftRight_mod src hmem hcut
  | false => exact gather_shiftRight src hmem hcut

/-- A word is restored when all bits that are written are its own and the others are zero. -/
theorem writes_eq {src : Inst} {l : List Write} (hfits : ∀ f ∈ l, f.Fits 128)
  (hcorrect : Correct src l) (zeros : List ℕ)
  (hcover : ∀ i < 128, i ∈ zeros ∨ ∃ r ∈ l.map (fun f => (f.hi, f.lo)), r.2 ≤ i ∧ i ≤ r.1)
  (hzeros : ∀ i ∈ zeros, src.getLsbD i = false) :
  writes 0 l = src
  := by
  apply BitVec.eq_of_getLsbD_eq
  intro i hi
  rw [hcorrect.getLsbD_writes hfits 0 hi]
  split_ifs with hany
  · rfl
  · rcases hcover i hi with hzero | ⟨r, hr, hlo, hhi⟩
    · rw [hzeros i hzero]
      simp
    · obtain ⟨f, hf, rfl⟩ := List.mem_map.mp hr
      exact absurd ⟨f, hf, hlo, hhi⟩ hany

end Steps

/-! ### The tables -/

section Tables

variable (dev : DevInfo)

theorem length_controlIndexTable :
  dev.controlIndexTable.length = 32
  := by
  rw [DevInfo.controlIndexTable]
  split_ifs <;> rfl

theorem length_datatypeTable :
  dev.datatypeTable.length = 32
  := by
  rw [DevInfo.datatypeTable]
  split_ifs <;> rfl

theorem length_subregTable :
  dev.subregTable.length = 32
  := by
  rw [DevInfo.subregTable]
  split_ifs <;> rfl

theorem length_srcIndexTable :
  dev.srcIndexTable.length = 32
  := by
  rw [DevInfo.srcIndexTable]
  split_ifs <;> rfl

/-- The control bits are put together and written back alike. -/
theorem cut_control :
  ∀ p ∈ uncompactedControl dev, Cut (controlPieces dev) p
  := by
  by_cases h8 : 8 ≤ dev.gen
  · simp only [uncompactedControl, controlPieces, if_pos h8]
    decide
  · by_cases h7 : dev.gen = 7
    · simp only [uncompactedControl, controlPieces, if_neg h8, if_pos h7]
      decide
    · simp only [uncompactedControl, controlPieces, if_neg h8, if_neg h7]
      decide

theorem cut_datatype :
  ∀ p ∈ uncompactedDatatype dev, Cut (datatypePieces dev) p
  := by
  by_cases h8 : 8 ≤ dev.gen
  · simp only [uncompactedDatatype, datatypePieces, if_pos h8]
    decide
  · simp only [uncompactedDatatype, datatypePieces, if_neg h8]
    decide

theorem cut_subreg :
  ∀ p ∈ uncompactedSubreg, Cut (subregPieces false) p
  := by
  decide

theorem cut_3srcControl :
  ∀ p ∈ uncompacted3srcControl dev, Cut (control3srcPieces dev) p
  := by
  cases hwide : dev.wide3src with
  | true =>
      simp only [uncompacted3srcControl, control3srcPieces, hwide, if_true]
      decide
  | false =>
      simp only [uncompacted3srcControl, control3srcPieces, hwide]
      decide

theorem cut_3srcSource :
  ∀ p ∈ uncompacted3srcSource dev, Cut (source3srcPieces dev) p
  := by
  cases hwide : dev.wide3src with
  | true =>
      simp only [uncompacted3srcSource, source3srcPieces, hwide, if_true]
      decide
  | false =>
      simp only [uncompacted3srcSource, source3srcPieces, hwide]
      decide

end Tables

/-! ### Instructions with up to two sources -/

section TwoSources

variable {dev : DevInfo} {src : Inst} {c : CompactInst}

/-- What an instruction that is compacted has passed. -/
structure Compacted (dev : DevInfo) (src : Inst) (c : CompactInst)
    (control datatype subreg src0 src1 : ℕ) : Prop where
  immediate : src.isImmediate dev = true → 6 ≤ dev.gen ∧ isCompactableImmediate src.immUd = true
  unmapped : hasUnmappedBits dev src = .ok false
  control_eq : lookup dev.controlIndexTable (gather src (controlPieces dev)) = .ok control
  datatype_eq : lookup dev.datatypeTable (gather src (datatypePieces dev)) = .ok datatype
  subreg_eq : lookup dev.subregTable (gather src (subregPieces (src.isImmediate dev))) = .ok subreg
  src0_eq : lookup dev.srcIndexTable (field src 88 77) = .ok src0
  src1_eq : src1Index dev src (src.isImmediate dev) = .ok src1
  fields_eq : setFields 0 (compactFields dev src control datatype subreg src0 src1) = .ok c

theorem exists_compacted (h : tryCompact2srcInstruction dev src = .ok c) :
  ∃ control datatype subreg src0 src1, Compacted dev src c control datatype subreg src0 src1
  := by
  rw [tryCompact2srcInstruction] at h
  split_ifs at h with himm
  obtain ⟨unmapped, hunmapped, h⟩ := bind_eq_ok.mp h
  cases unmapped with
  | true => simp at h
  | false =>
      simp only [Bool.false_eq_true, if_false] at h
      obtain ⟨control, hcontrol, h⟩ := bind_eq_ok.mp h
      obtain ⟨datatype, hdatatype, h⟩ := bind_eq_ok.mp h
      obtain ⟨subreg, hsubreg, h⟩ := bind_eq_ok.mp h
      obtain ⟨src0, hsrc0, h⟩ := bind_eq_ok.mp h
      obtain ⟨src1, hsrc1, h⟩ := bind_eq_ok.mp h
      refine ⟨control, datatype, subreg, src0, src1, ?_, hunmapped, hcontrol, hdatatype, hsubreg,
        hsrc0, hsrc1, h⟩
      intro hi
      simp only [hi, Bool.true_and, Bool.or_eq_true, decide_eq_true_eq, Bool.not_eq_true',
        not_or, Bool.not_eq_false] at himm
      exact ⟨by omega, himm.2⟩

/-- What `has_unmapped_bits` has checked when it returns `false`. -/
theorem hasUnmappedBits_eq_false (h : hasUnmappedBits dev src = .ok false) :
  mappedReserved dev src = true ∧
    if 8 ≤ dev.gen then field src 95 95 = 0 ∧ field src 47 47 = 0 ∧ field src 11 11 = 0
    else field src 95 91 = 0 ∧ field src 47 47 = 0
  := by
  rw [hasUnmappedBits] at h
  split_ifs at h with heot hres h8
  · simp at h
  · rw [if_pos h8]
    simp only [Except.ok.injEq, Bool.or_eq_false_iff, bne_eq_false_iff_eq] at h
    exact ⟨by simpa using hres, h.1.1, h.1.2, h.2⟩
  · rw [if_neg h8]
    simp only [Except.ok.injEq, Bool.or_eq_false_iff, bne_eq_false_iff_eq] at h
    exact ⟨by simpa using hres, h.1, h.2⟩

/-- The places of the fields of a compacted instruction. -/
theorem pairwise_compactFields (dev : DevInfo) (src : Inst)
  (control datatype subreg src0 src1 : ℕ) :
  (compactFields dev src control datatype subreg src0 src1).Pairwise
    (fun f g => g.hi < f.lo ∨ f.hi < g.lo)
  := by
  rw [compactFields]
  split_ifs <;> simp

/-- A source that is compacted has an index that fits. -/
theorem src1Index_lt {imm : Bool} {src1 : ℕ} (h : src1Index dev src imm = .ok src1) :
  src1 < 2 ^ 5
  := by
  rw [src1Index] at h
  split_ifs at h
  · rw [Except.ok.injEq] at h
    rw [← h]
    exact Nat.mod_lt _ (by omega)
  · have hlt := (lookup_eq_ok h).1
    rw [length_srcIndexTable] at hlt
    exact hlt

/-- All values fit, so that no assertion fails. -/
theorem fits_compactFields {control datatype subreg src0 src1 : ℕ}
  (hcontrol : lookup dev.controlIndexTable (gather src (controlPieces dev)) = .ok control)
  (hdatatype : lookup dev.datatypeTable (gather src (datatypePieces dev)) = .ok datatype)
  (hsubreg : lookup dev.subregTable (gather src (subregPieces (src.isImmediate dev))) = .ok subreg)
  (hsrc0 : lookup dev.srcIndexTable (field src 88 77) = .ok src0)
  (hsrc1 : src1Index dev src (src.isImmediate dev) = .ok src1) :
  ∀ f ∈ compactFields dev src control datatype subreg src0 src1, f.Fits 64
  := by
  have h1 := (lookup_eq_ok hcontrol).1
  have h2 := (lookup_eq_ok hdatatype).1
  have h3 := (lookup_eq_ok hsubreg).1
  have h4 := (lookup_eq_ok hsrc0).1
  have h5 := src1Index_lt hsrc1
  rw [length_controlIndexTable] at h1
  rw [length_datatypeTable] at h2
  rw [length_subregTable] at h3
  rw [length_srcIndexTable] at h4
  have hreg : (if src.isImmediate dev then src.immUd % 2 ^ 8 else field src 108 101) < 2 ^ 8 := by
    split_ifs
    · exact Nat.mod_lt _ (by omega)
    · exact field_lt src 108 101
  have hflag : ∀ f ∈ (if dev.gen ≤ 6 then [(⟨28, 28, field src 89 89⟩ : Write)] else []),
      f.Fits 64 := by
    intro f hf
    split_ifs at hf
    · rw [List.mem_singleton] at hf
      rw [hf]
      exact ⟨by simp, by simp, field_lt src 89 89⟩
    · exact absurd hf List.not_mem_nil
  rw [compactFields]
  simp only [List.forall_mem_append, List.forall_mem_cons, List.not_mem_nil, false_imp_iff,
    implies_true, and_true]
  refine ⟨⟨⟨?_, ?_, ?_, ?_, ?_, ?_, ?_⟩, hflag⟩, ?_, ?_, ?_, ?_, ?_, ?_⟩
  · exact ⟨by simp, by simp, field_lt src 6 0⟩
  · exact ⟨by simp, by simp, field_lt src 30 30⟩
  · exact ⟨by simp, by simp, h1⟩
  · exact ⟨by simp, by simp, h2⟩
  · exact ⟨by simp, by simp, h3⟩
  · exact ⟨by simp, by simp, field_lt src 28 28⟩
  · exact ⟨by simp, by simp, field_lt src 27 24⟩
  · exact ⟨by simp, by simp, by simp⟩
  · exact ⟨by simp, by simp, h4⟩
  · exact ⟨by simp, by simp, h5⟩
  · exact ⟨by simp, by simp, field_lt src 60 53⟩
  · exact ⟨by simp, by simp, field_lt src 76 69⟩
  · exact ⟨by simp, by simp, hreg⟩

namespace Compacted

variable {control datatype subreg src0 src1 : ℕ}
  (h : Compacted dev src c control datatype subreg src0 src1)
include h

/-- The fields of the compacted instruction. -/
theorem field_eq :
  ∀ f ∈ compactFields dev src control datatype subreg src0 src1, field c f.hi f.lo = f.val
  := by
  intro f hf
  rw [← (setFields_eq_ok.mp h.fields_eq).2]
  apply field_writes_of_mem _ (pairwise_compactFields ..) _ hf
  exact fits_compactFields h.control_eq h.datatype_eq h.subreg_eq h.src0_eq h.src1_eq

theorem control_value :
  dev.controlIndexTable.getD (field c 12 8) 0 = gather src (controlPieces dev)
  := by
  have hf := h.field_eq ⟨12, 8, control⟩ (by simp [compactFields])
  rw [hf]
  exact (lookup_eq_ok h.control_eq).2

theorem datatype_value :
  dev.datatypeTable.getD (field c 17 13) 0 = gather src (datatypePieces dev)
  := by
  have hf := h.field_eq ⟨17, 13, datatype⟩ (by simp [compactFields])
  rw [hf]
  exact (lookup_eq_ok h.datatype_eq).2

theorem subreg_value :
  dev.subregTable.getD (field c 22 18) 0 = gather src (subregPieces (src.isImmediate dev))
  := by
  have hf := h.field_eq ⟨22, 18, subreg⟩ (by simp [compactFields])
  rw [hf]
  exact (lookup_eq_ok h.subreg_eq).2

/-- The fields of the compacted instruction that are not indices into the tables of the control, the
data type and the subregisters. -/
theorem rest_eq :
  field c 23 23 = field src 28 28 ∧ field c 27 24 = field src 27 24 ∧
    (dev.gen ≤ 6 → field c 28 28 = field src 89 89) ∧ field c 34 30 = src0 ∧
    field c 39 35 = src1 ∧ field c 47 40 = field src 60 53 ∧ field c 55 48 = field src 76 69 ∧
    field c 63 56 = if src.isImmediate dev then src.immUd % 2 ^ 8 else field src 108 101
  := by
  have hall := h.field_eq
  rw [compactFields, List.forall_mem_append, List.forall_mem_append] at hall
  obtain ⟨⟨hfirst, hflag⟩, hlast⟩ := hall
  simp only [List.forall_mem_cons] at hfirst hlast
  obtain ⟨-, -, -, -, -, hacc, hcond, -⟩ := hfirst
  obtain ⟨-, hs0, hs1, hdst, hr0, hr1, -⟩ := hlast
  refine ⟨hacc, hcond, ?_, hs0, hs1, hdst, hr0, hr1⟩
  intro h6
  rw [if_pos h6, List.forall_mem_singleton] at hflag
  exact hflag

/-- The flag register is written right. -/
theorem right_flag :
  ∀ f ∈ (if dev.gen ≤ 6 then [(⟨89, 89, field c 28 28⟩ : Write)] else []), Right src f
  := by
  intro f hf
  split_ifs at hf with h6
  · rw [List.mem_singleton] at hf
    rw [hf, h.rest_eq.2.2.1 h6]
    exact ⟨by simp, by simp, rfl⟩
  · exact absurd hf List.not_mem_nil

/-- The writes up to the sources are right. -/
theorem right_first :
  ∀ f ∈ uncompactedFirst dev c, Right src f
  := by
  have hop := h.field_eq ⟨6, 0, field src 6 0⟩ (by simp [compactFields])
  have hdebug := h.field_eq ⟨7, 7, field src 30 30⟩ (by simp [compactFields])
  rw [uncompactedFirst, h.control_value, h.datatype_value, hop, hdebug]
  simp only [List.forall_mem_append, List.forall_mem_cons, List.not_mem_nil, false_imp_iff,
    implies_true, and_true]
  refine ⟨⟨⟨?_, ?_⟩, ?_⟩, ?_⟩
  · exact ⟨by simp, by simp, rfl⟩
  · exact ⟨by simp, by simp, rfl⟩
  · exact spread_gather src (cut_control dev)
  · exact spread_gather src (cut_datatype dev)

/-- The bits of the register files are known after these writes. -/
theorem isImmediate_first :
  Inst.isImmediate dev (writes 0 (uncompactedFirst dev c)) = src.isImmediate dev
  := by
  have hbit : ∀ i < 128, (∃ f ∈ uncompactedFirst dev c, f.Covers i) →
      (writes (0 : Inst) (uncompactedFirst dev c)).getLsbD i = src.getLsbD i := by
    intro i hi hcov
    rw [(correct_of_right h.right_first).getLsbD_writes (fun f hf => (h.right_first f hf).fits) _ hi,
      if_pos hcov]
  have hfile : ∀ hi lo, lo ≤ hi → hi < 128 →
      (∃ p ∈ uncompactedDatatype dev, p.1.lo ≤ lo ∧ hi ≤ p.1.hi) →
      field (writes (0 : Inst) (uncompactedFirst dev c)) hi lo = field src hi lo := by
    rintro hi lo hle hlt ⟨p, hp, hplo, hphi⟩
    apply field_congr _ hle
    intro i hlo hhi
    apply hbit i (by omega)
    refine ⟨_, List.mem_append_right _ (List.mem_map_of_mem hp), ?_, ?_⟩
    · exact hplo.trans hlo
    · exact hhi.trans hphi
  rw [Inst.isImmediate, Inst.isImmediate, Inst.src0RegFile, Inst.src0RegFile, Inst.src1RegFile,
    Inst.src1RegFile]
  by_cases h8 : 8 ≤ dev.gen
  · rw [uncompactedDatatype, if_pos h8] at hfile
    rw [if_pos h8, if_pos h8, if_pos h8, if_pos h8,
      hfile 42 41 (by omega) (by omega) (by decide), hfile 90 89 (by omega) (by omega) (by decide)]
  · rw [uncompactedDatatype, if_neg h8] at hfile
    rw [if_neg h8, if_neg h8, if_neg h8, if_neg h8,
      hfile 38 37 (by omega) (by omega) (by decide), hfile 43 42 (by omega) (by omega) (by decide)]

/-- The bits that no field is written to are zero. -/
theorem unwritten (hcmpt : field src 29 29 = 0) :
  ∀ i ∈ [7, 29, 47, 95] ++
      (if 8 ≤ dev.gen then [11] else if dev.gen = 7 then [91, 92, 93, 94]
        else [90, 91, 92, 93, 94]),
    src.getLsbD i = false
  := by
  obtain ⟨hres, hun⟩ := hasUnmappedBits_eq_false h.unmapped
  by_cases h8 : 8 ≤ dev.gen
  · simp only [mappedReserved, if_pos h8, beq_iff_eq] at hres
    rw [if_pos h8] at hun ⊢
    simp only [List.forall_mem_append, List.forall_mem_cons, List.not_mem_nil, false_imp_iff,
      implies_true, and_true]
    exact ⟨⟨getLsbD_of_field_eq_zero hres (by omega) (by omega),
      getLsbD_of_field_eq_zero hcmpt (by omega) (by omega),
      getLsbD_of_field_eq_zero hun.2.1 (by omega) (by omega),
      getLsbD_of_field_eq_zero hun.1 (by omega) (by omega)⟩,
      getLsbD_of_field_eq_zero hun.2.2 (by omega) (by omega)⟩
  · simp only [mappedReserved, if_neg h8, Bool.and_eq_true, beq_iff_eq, Bool.not_eq_true',
      Bool.and_eq_false_iff, decide_eq_false_iff_not, bne_eq_false_iff_eq] at hres
    rw [if_neg h8] at hun ⊢
    have hlow : ∀ i ∈ [7, 29, 47, 95], src.getLsbD i = false := by
      simp only [List.forall_mem_cons, List.not_mem_nil, false_imp_iff, implies_true, and_true]
      exact ⟨getLsbD_of_field_eq_zero hres.1 (by omega) (by omega),
        getLsbD_of_field_eq_zero hcmpt (by omega) (by omega),
        getLsbD_of_field_eq_zero hun.2 (by omega) (by omega),
        getLsbD_of_field_eq_zero hun.1 (by omega) (by omega)⟩
    have hhigh : ∀ i, 91 ≤ i → i ≤ 95 → src.getLsbD i = false := by
      intro i hlo hhi
      exact getLsbD_of_field_eq_zero hun.1 hlo hhi
    rw [List.forall_mem_append]
    refine ⟨hlow, ?_⟩
    split_ifs with h7
    · intro i hi
      simp only [List.mem_cons, List.not_mem_nil, or_false] at hi
      exact hhigh i (by omega) (by omega)
    · intro i hi
      simp only [List.mem_cons, List.not_mem_nil, or_false] at hi
      rcases hi with rfl | hi
      · rcases hres.2 with hgen | hflag
        · omega
        · exact getLsbD_of_field_eq_zero hflag (by omega) (by omega)
      · exact hhigh i (by omega) (by omega)

/-- The remaining writes of an instruction without an immediate are right. -/
theorem right_second_register (himm : src.isImmediate dev = false) :
  ∀ f ∈ uncompactedSecond dev c false ++ [⟨108, 101, field c 63 56⟩], Right src f
  := by
  obtain ⟨hacc, hcond, -, hs0, hs1, hdst, hr0, hr1⟩ := h.rest_eq
  rw [himm, if_neg Bool.false_ne_true] at hr1
  have hsrc1 := h.src1_eq
  rw [himm, src1Index, if_neg Bool.false_ne_true] at hsrc1
  have hflag := h.right_flag
  rw [uncompactedSecond, h.subreg_value, himm, hacc, hcond, hs0, hs1, hdst, hr0, hr1,
    (lookup_eq_ok h.src0_eq).2, (lookup_eq_ok hsrc1).2, if_neg Bool.false_ne_true]
  simp only [List.forall_mem_append, List.forall_mem_cons, List.not_mem_nil, false_imp_iff,
    implies_true, and_true]
  refine ⟨⟨⟨⟨⟨⟨spread_gather src cut_subreg, ?_, ?_⟩, hflag⟩, ?_⟩, ?_⟩, ?_, ?_⟩, ?_⟩
  all_goals exact ⟨by simp, by simp, rfl⟩

omit h in
/-- All bits are written, but for those that are zero. -/
theorem cover_register :
  ∀ i < 128, i ∈ ([7, 29, 47, 95] ++
      (if 8 ≤ dev.gen then [11] else if dev.gen = 7 then [91, 92, 93, 94]
        else [90, 91, 92, 93, 94])) ++ [121, 122, 123, 124, 125, 126, 127] ∨
    ∃ r ∈ (uncompactedFirst dev c ++ (uncompactedSecond dev c false ++
        [(⟨108, 101, field c 63 56⟩ : Write)])).map (fun f => (f.hi, f.lo)), r.2 ≤ i ∧ i ≤ r.1
  := by
  by_cases h8 : 8 ≤ dev.gen
  · have h6 : ¬dev.gen ≤ 6 := by omega
    simp only [uncompactedFirst, uncompactedSecond, spread, uncompactedControl,
      uncompactedDatatype, uncompactedSubreg, if_pos h8, if_neg h6, List.map_append, List.map_cons,
      List.map_nil, Bool.false_eq_true, if_false]
    decide
  · by_cases h7 : dev.gen = 7
    · have h6 : ¬dev.gen ≤ 6 := by omega
      simp only [uncompactedFirst, uncompactedSecond, spread, uncompactedControl,
        uncompactedDatatype, uncompactedSubreg, if_neg h8, if_pos h7, if_neg h6, List.map_append,
        List.map_cons, List.map_nil, Bool.false_eq_true, if_false]
      decide
    · have h6 : dev.gen ≤ 6 := by omega
      simp only [uncompactedFirst, uncompactedSecond, spread, uncompactedControl,
        uncompactedDatatype, uncompactedSubreg, if_neg h8, if_neg h7, if_pos h6, List.map_append,
        List.map_cons, List.map_nil, Bool.false_eq_true, if_false]
      decide

/-- An instruction without an immediate is restored. -/
theorem uncompact_register (hcmpt : field src 29 29 = 0) (himm : src.isImmediate dev = false)
  (htop : field src 127 121 = 0) (h3 : dev.is3src src.opcode = false) :
  uncompactInstruction dev c = .ok src
  := by
  have hop := h.field_eq ⟨6, 0, field src 6 0⟩ (by simp [compactFields])
  have hnot : ¬(8 ≤ dev.gen ∧ dev.is3src (field c 6 0) = true) := by
    rintro ⟨-, hsrc⟩
    rw [hop] at hsrc
    rw [Inst.opcode] at h3
    rw [h3] at hsrc
    exact Bool.false_ne_true hsrc
  have hright := h.right_second_register himm
  have hall : ∀ f ∈ uncompactedFirst dev c ++ (uncompactedSecond dev c false ++
      [⟨108, 101, field c 63 56⟩]), Right src f := by
    rw [List.forall_mem_append]
    exact ⟨h.right_first, hright⟩
  rw [List.forall_mem_append] at hright
  rw [uncompactInstruction, if_neg hnot]
  apply bind_eq_ok.mpr
  refine ⟨_, setFields_eq_ok.mpr ⟨fun f hf => (h.right_first f hf).fits.2.2, rfl⟩, ?_⟩
  simp only [h.isImmediate_first, himm, Bool.false_eq_true, if_false]
  apply bind_eq_ok.mpr
  refine ⟨_, setFields_eq_ok.mpr ⟨fun f hf => (hright.1 f hf).fits.2.2, rfl⟩, ?_⟩
  apply setFields_eq_ok.mpr
  refine ⟨fun f hf => (hright.2 f hf).fits.2.2, ?_⟩
  rw [← writes_append, ← writes_append]
  have hcover := @cover_register dev c
  apply writes_eq (fun f hf => (hall f hf).fits) (correct_of_right hall) _ hcover
  rw [List.forall_mem_append]
  refine ⟨h.unwritten hcmpt, ?_⟩
  intro i hi
  simp only [List.mem_cons, List.not_mem_nil, or_false] at hi
  exact getLsbD_of_field_eq_zero htop (by omega) (by omega)

end Compacted

theorem fits_immediate {v : ℕ} (h : v < 2 ^ 32) :
  (⟨127, 96, v⟩ : Write).Fits 128
  := by
  exact ⟨by simp, by simp, h⟩

/-- An immediate that is written, and then only other fields. -/
theorem field_immediate {x : Inst} {l l' : List Write} {v : ℕ}
  (hfits : ∀ f ∈ l ++ ⟨127, 96, v⟩ :: l', f.Fits 128) (h : ∀ g ∈ l', g.hi < 96) :
  field (writes x (l ++ ⟨127, 96, v⟩ :: l')) 127 96 = v
  := by
  apply field_writes hfits
  intro g hg
  left
  exact h g hg

/-- Twelve bits of an immediate, and one that is repeated, are the immediate. -/
theorem highImmediate_or {imm : ℕ} (h : isCompactableImmediate imm = true) :
  highImmediate ((imm >>> 8) % 2 ^ 5) ||| imm % 2 ^ 8 = imm
  := by
  have hhigh : ∀ high5 < 32, highImmediate high5 =
      2 ^ 8 * (if high5 < 16 then high5 else 0xffffe0 + high5) := by
    decide
  have hlt5 : imm >>> 8 % 2 ^ 5 < 32 := Nat.mod_lt _ (by omega)
  have hlt8 : imm % 2 ^ 8 < 2 ^ 8 := Nat.mod_lt _ (by omega)
  rw [hhigh _ hlt5, ← Nat.two_pow_add_eq_or_of_lt hlt8, Nat.shiftRight_eq_div_pow]
  simp only [isCompactableImmediate, Bool.or_eq_true, beq_iff_eq] at h
  rcases h with hzero | hones
  · have hsmall : imm / 2 ^ 8 % 2 ^ 5 < 16 := by omega
    rw [if_pos hsmall]
    omega
  · have hbig : ¬imm / 2 ^ 8 % 2 ^ 5 < 16 := by omega
    rw [if_neg hbig]
    omega

namespace Compacted

variable {control datatype subreg src0 src1 : ℕ}
  (h : Compacted dev src c control datatype subreg src0 src1)
include h

/-- The writes of an instruction with an immediate: the bits of the immediate are first written with
others, and then with its own. -/
theorem second_immediate (himm : src.isImmediate dev = true) :
  ∃ l l', uncompactedSecond dev c true = ⟨100, 96, 0⟩ :: l ++
      ⟨127, 96, highImmediate ((src.immUd >>> 8) % 2 ^ 5)⟩ :: l' ∧
    (∀ f ∈ l, Right src f) ∧ (∀ f ∈ l', Right src f ∧ f.hi < 96)
  := by
  obtain ⟨hacc, hcond, -, hs0, hs1, hdst, hr0, -⟩ := h.rest_eq
  have hsrc1 := h.src1_eq
  rw [himm, src1Index, if_pos rfl, Except.ok.injEq] at hsrc1
  have hflag := h.right_flag
  have hsub : spread (gather src (subregPieces true)) uncompactedSubreg =
      ⟨100, 96, 0⟩ :: spread (gather src (subregPieces true))
        [(⟨68, 64, 5⟩, true), (⟨52, 48, 0⟩, true)] := by
    have hzero : gather src (subregPieces true) >>> 10 = 0 := by
      apply Nat.eq_of_testBit_eq
      intro k
      rw [Nat.zero_testBit, Nat.testBit_shiftRight, ← Bool.not_eq_true, testBit_gather]
      rintro ⟨p, hp, hshift, hbit⟩
      rw [testBit_field, Bool.and_eq_true, decide_eq_true_eq] at hbit
      simp only [subregPieces, if_true, List.append_nil, List.mem_cons, List.not_mem_nil,
        or_false] at hp
      rcases hp with rfl | rfl <;> simp at hbit <;> omega
    simp only [uncompactedSubreg, spread, List.map_cons, List.map_nil, Bool.false_eq_true, if_false,
      hzero]
  rw [uncompactedSecond, h.subreg_value, himm, hacc, hcond, hs0, hs1, hdst, hr0, ← hsrc1,
    (lookup_eq_ok h.src0_eq).2, if_pos rfl, hsub]
  refine ⟨spread (gather src (subregPieces true)) [(⟨68, 64, 5⟩, true), (⟨52, 48, 0⟩, true)] ++
      [⟨28, 28, field src 28 28⟩, ⟨27, 24, field src 27 24⟩] ++
      (if dev.gen ≤ 6 then [⟨89, 89, field c 28 28⟩] else []) ++ [⟨88, 77, field src 88 77⟩],
    [⟨60, 53, field src 60 53⟩, ⟨76, 69, field src 76 69⟩], ?_, ?_, ?_⟩
  · simp
  · simp only [List.forall_mem_append, List.forall_mem_cons, List.not_mem_nil, false_imp_iff,
      implies_true, and_true]
    refine ⟨⟨⟨spread_gather src (by decide), ?_, ?_⟩, hflag⟩, ?_⟩
    all_goals exact ⟨by simp, by simp, rfl⟩
  · simp only [List.forall_mem_cons, List.not_mem_nil, false_imp_iff, implies_true, and_true]
    refine ⟨⟨⟨?_, ?_, rfl⟩, ?_⟩, ⟨?_, ?_, rfl⟩, ?_⟩ <;> simp

omit h in
/-- All bits are written, but for those that are zero. -/
theorem cover_immediate (last : Write) (hlast : last.hi = 127 ∧ last.lo = 96) (h6 : 6 ≤ dev.gen) :
  ∀ i < 128, i ∈ [7, 29, 47, 95] ++
      (if 8 ≤ dev.gen then [11] else if dev.gen = 7 then [91, 92, 93, 94]
        else [90, 91, 92, 93, 94]) ∨
    ∃ r ∈ (uncompactedFirst dev c ++ (uncompactedSecond dev c true ++ [last])).map
      (fun f => (f.hi, f.lo)), r.2 ≤ i ∧ i ≤ r.1
  := by
  by_cases h8 : 8 ≤ dev.gen
  · have h6' : ¬dev.gen ≤ 6 := by omega
    simp only [uncompactedFirst, uncompactedSecond, spread, uncompactedControl,
      uncompactedDatatype, uncompactedSubreg, if_pos h8, if_neg h6', List.map_append, List.map_cons,
      List.map_nil, if_true, hlast]
    decide
  · by_cases h7 : dev.gen = 7
    · have h6' : ¬dev.gen ≤ 6 := by omega
      simp only [uncompactedFirst, uncompactedSecond, spread, uncompactedControl,
        uncompactedDatatype, uncompactedSubreg, if_neg h8, if_pos h7, if_neg h6', List.map_append,
        List.map_cons, List.map_nil, if_true, hlast]
      decide
    · have h6' : dev.gen ≤ 6 := by omega
      simp only [uncompactedFirst, uncompactedSecond, spread, uncompactedControl,
        uncompactedDatatype, uncompactedSubreg, if_neg h8, if_neg h7, if_pos h6', List.map_append,
        List.map_cons, List.map_nil, if_true, hlast]
      decide

/-- An instruction with an immediate is restored. -/
theorem uncompact_immediate (hcmpt : field src 29 29 = 0) (himm : src.isImmediate dev = true)
  (h3 : dev.is3src src.opcode = false) :
  uncompactInstruction dev c = .ok src
  := by
  have hop := h.field_eq ⟨6, 0, field src 6 0⟩ (by simp [compactFields])
  have hr1 := h.field_eq ⟨63, 56, src.immUd % 2 ^ 8⟩ (by simp [compactFields, himm])
  have hnot : ¬(8 ≤ dev.gen ∧ dev.is3src (field c 6 0) = true) := by
    rintro ⟨-, hsrc⟩
    rw [hop] at hsrc
    rw [Inst.opcode] at h3
    rw [h3] at hsrc
    exact Bool.false_ne_true hsrc
  obtain ⟨hgen, hcompact⟩ := h.immediate himm
  have hor := highImmediate_or hcompact
  obtain ⟨l, l', hsecond, hl, hl'⟩ := h.second_immediate himm
  have hhigh : highImmediate ((src.immUd >>> 8) % 2 ^ 5) < 2 ^ 32 := by
    rw [highImmediate]
    exact BitVec.isLt _
  have hfits : ∀ f ∈ uncompactedSecond dev c true, f.Fits 128 := by
    rw [hsecond]
    simp only [List.cons_append, List.forall_mem_cons, List.forall_mem_append]
    exact ⟨⟨by simp, by simp, by simp⟩, fun f hf => (hl f hf).fits, fits_immediate hhigh,
      fun f hf => (hl' f hf).1.fits⟩
  -- the last write reads the immediate back and completes it
  have hread : field (writes (writes (0 : Inst) (uncompactedFirst dev c))
      (uncompactedSecond dev c true)) 127 96 = highImmediate ((src.immUd >>> 8) % 2 ^ 5) := by
    rw [hsecond] at hfits ⊢
    exact field_immediate hfits (fun g hg => (hl' g hg).2)
  have hlast : Right src ⟨127, 96, src.immUd⟩ := ⟨by simp, by simp, rfl⟩
  rw [uncompactInstruction, if_neg hnot]
  apply bind_eq_ok.mpr
  refine ⟨_, setFields_eq_ok.mpr ⟨fun f hf => (h.right_first f hf).fits.2.2, rfl⟩, ?_⟩
  simp only [h.isImmediate_first, himm, if_true]
  apply bind_eq_ok.mpr
  refine ⟨_, setFields_eq_ok.mpr ⟨fun f hf => (hfits f hf).2.2, rfl⟩, ?_⟩
  rw [hread, hr1, hor]
  apply setFields_eq_ok.mpr
  constructor
  · intro f hf
    rw [List.mem_singleton] at hf
    rw [hf]
    exact hlast.fits.2.2
  · rw [← writes_append, ← writes_append]
    apply writes_eq _ _ _ (cover_immediate _ ⟨rfl, rfl⟩ hgen) (h.unwritten hcmpt)
    · intro f hf
      rw [List.mem_append, List.mem_append, List.mem_singleton] at hf
      rcases hf with hf | hf | rfl
      · exact (h.right_first f hf).fits
      · exact hfits f hf
      · exact hlast.fits
    · apply (correct_of_right h.right_first).append
      have htail : Correct src (l' ++ [⟨127, 96, src.immUd⟩]) := by
        apply correct_of_right
        rw [List.forall_mem_append]
        refine ⟨fun f hf => (hl' f hf).1, ?_⟩
        intro f hf
        rw [List.mem_singleton] at hf
        rw [hf]
        exact hlast
      have hmid : Correct src ([⟨127, 96, highImmediate ((src.immUd >>> 8) % 2 ^ 5)⟩] ++
          (l' ++ [⟨127, 96, src.immUd⟩])) := by
        apply correct_append_of_covers htail
        simp
      have hall : Correct src ([⟨100, 96, 0⟩] ++ (l ++
          ([⟨127, 96, highImmediate ((src.immUd >>> 8) % 2 ^ 5)⟩] ++
            (l' ++ [⟨127, 96, src.immUd⟩])))) := by
        apply correct_append_of_covers ((correct_of_right hl).append hmid)
        intro f hf
        rw [List.mem_singleton] at hf
        rw [hf]
        exact ⟨⟨127, 96, src.immUd⟩, by simp, by simp, by simp⟩
      rw [hsecond]
      simpa using hall

end Compacted

end TwoSources

/-! ### Instructions with three sources -/

section ThreeSources

variable {dev : DevInfo} {src : Inst} {c : CompactInst} {control source : ℕ}

theorem pairwise_compact3srcFields (src : Inst) (control source : ℕ) :
  (compact3srcFields src control source).Pairwise (fun f g => g.hi < f.lo ∨ f.hi < g.lo)
  := by
  simp [compact3srcFields]

/-- A field whose highest bit is zero needs one bit less. -/
theorem field_lt_of_top {w : ℕ} {x : BitVec w} {hi lo : ℕ} (hle : lo ≤ hi)
  (h : x.getLsbD hi = false) :
  field x hi lo < 2 ^ (hi - lo)
  := by
  apply Nat.lt_pow_two_of_testBit
  intro k hk
  rw [testBit_field]
  by_cases heq : k = hi - lo
  · rw [heq, Nat.add_sub_cancel' hle, h, Bool.and_false]
  · have hnot : ¬k < hi - lo + 1 := by omega
    simp [hnot]

/-- The source bits in the table: the highest bits of the register numbers are zero. -/
theorem source_top (hsource : lookup gen83srcSourceIndexTable (gather src (source3srcPieces dev)) =
  .ok source) :
  src.getLsbD 83 = false ∧ src.getLsbD 104 = false ∧ src.getLsbD 125 = false
  := by
  obtain ⟨hlt, hvalue⟩ := lookup_eq_ok hsource
  have htable : ∀ k < 6, (gather src (source3srcPieces dev)).testBit (43 + k) = false := by
    rw [← hvalue]
    have hlen : gen83srcSourceIndexTable.length = 4 := rfl
    rw [hlen] at hlt
    have hall : ∀ i < 4, ∀ k < 6, (gen83srcSourceIndexTable.getD i 0).testBit (43 + k) = false := by
      decide
    exact hall source hlt
  -- a bit of the word that is put at a place of the entry
  have hbit : ∀ p ∈ source3srcPieces dev, ∀ i, p.lo ≤ i → i ≤ p.hi →
      (∃ k < 6, p.shift + (i - p.lo) = 43 + k) → src.getLsbD i = false := by
    rintro p hp i hlo hhi ⟨k, hk, hplace⟩
    have hfalse := htable k hk
    rw [← hplace, ← Bool.not_eq_true, testBit_gather] at hfalse
    by_contra hne
    rw [Bool.not_eq_false] at hne
    apply hfalse
    refine ⟨p, hp, by omega, ?_⟩
    have hlt' : p.shift + (i - p.lo) - p.shift < p.hi - p.lo + 1 := by omega
    have hidx : p.lo + (p.shift + (i - p.lo) - p.shift) = i := by omega
    rw [testBit_field, hidx, hne, decide_eq_true hlt', Bool.true_and]
  rw [source3srcPieces] at hbit
  cases hwide : dev.wide3src with
  | true =>
      rw [hwide, if_pos rfl] at hbit
      exact ⟨hbit ⟨83, 83, 43⟩ (by simp) 83 (by simp) (by simp) ⟨0, by simp⟩,
        hbit ⟨105, 104, 45⟩ (by simp) 104 (by simp) (by simp) ⟨2, by simp⟩,
        hbit ⟨126, 125, 47⟩ (by simp) 125 (by simp) (by simp) ⟨4, by simp⟩⟩
  | false =>
      rw [hwide, if_neg Bool.false_ne_true] at hbit
      exact ⟨hbit ⟨83, 83, 43⟩ (by simp) 83 (by simp) (by simp) ⟨0, by simp⟩,
        hbit ⟨104, 104, 44⟩ (by simp) 104 (by simp) (by simp) ⟨1, by simp⟩,
        hbit ⟨125, 125, 45⟩ (by simp) 125 (by simp) (by simp) ⟨2, by simp⟩⟩

/-- All values fit if the highest bit of the destination register is zero. -/
theorem fits_compact3srcFields
  (hcontrol : lookup gen83srcControlIndexTable (gather src (control3srcPieces dev)) = .ok control)
  (hsource : lookup gen83srcSourceIndexTable (gather src (source3srcPieces dev)) = .ok source)
  (hdst : field src 63 63 = 0) :
  ∀ f ∈ compact3srcFields src control source, f.Fits 64
  := by
  have h1 : control < 2 ^ 2 := (lookup_eq_ok hcontrol).1
  have h2 : source < 2 ^ 2 := (lookup_eq_ok hsource).1
  obtain ⟨htop0, htop1, htop2⟩ := source_top hsource
  have hr : field src 63 56 < 2 ^ 7 :=
    field_lt_of_top (by omega) (getLsbD_of_field_eq_zero hdst (by omega) (by omega))
  have hr0 : field src 83 76 < 2 ^ 7 := field_lt_of_top (by omega) htop0
  have hr1 : field src 104 97 < 2 ^ 7 := field_lt_of_top (by omega) htop1
  have hr2 : field src 125 118 < 2 ^ 7 := field_lt_of_top (by omega) htop2
  simp only [compact3srcFields, List.forall_mem_cons, List.not_mem_nil, false_imp_iff,
    implies_true, and_true]
  refine ⟨?_, ?_, ?_, ?_, ?_, ?_, ?_, ?_, ?_, ?_, ?_, ?_, ?_, ?_, ?_, ?_⟩
  · exact ⟨by simp, by simp, field_lt src 6 0⟩
  · exact ⟨by simp, by simp, h1⟩
  · exact ⟨by simp, by simp, h2⟩
  · exact ⟨by simp, by simp, hr⟩
  · exact ⟨by simp, by simp, field_lt src 64 64⟩
  · exact ⟨by simp, by simp, by simp⟩
  · exact ⟨by simp, by simp, field_lt src 30 30⟩
  · exact ⟨by simp, by simp, field_lt src 31 31⟩
  · exact ⟨by simp, by simp, field_lt src 85 85⟩
  · exact ⟨by simp, by simp, field_lt src 106 106⟩
  · exact ⟨by simp, by simp, hr0⟩
  · exact ⟨by simp, by simp, hr1⟩
  · exact ⟨by simp, by simp, hr2⟩
  · exact ⟨by simp, by simp, field_lt src 75 73⟩
  · exact ⟨by simp, by simp, field_lt src 96 94⟩
  · exact ⟨by simp, by simp, field_lt src 117 115⟩

/-- The bits that no field is written to are zero. -/
theorem unwritten3src (h : mapped3srcReserved dev src = true) :
  ∀ i ∈ (if dev.wide3src then [7, 127] else [7, 35, 36, 84, 105, 126, 127]),
    src.getLsbD i = false
  := by
  rw [mapped3srcReserved] at h
  split_ifs at h ⊢ with hwide
  · simp only [Bool.and_eq_true, beq_iff_eq] at h
    intro i hi
    simp only [List.mem_cons, List.not_mem_nil, or_false] at hi
    rcases hi with rfl | rfl
    · exact getLsbD_of_field_eq_zero h.2 (by omega) (by omega)
    · exact getLsbD_of_field_eq_zero h.1 (by omega) (by omega)
  · simp only [Bool.and_eq_true, beq_iff_eq] at h
    obtain ⟨⟨⟨⟨h127, h105⟩, h84⟩, h36⟩, h7⟩ := h
    intro i hi
    simp only [List.mem_cons, List.not_mem_nil, or_false] at hi
    rcases hi with rfl | rfl | rfl | rfl | rfl | rfl | rfl
    · exact getLsbD_of_field_eq_zero h7 (by omega) (by omega)
    · exact getLsbD_of_field_eq_zero h36 (by omega) (by omega)
    · exact getLsbD_of_field_eq_zero h36 (by omega) (by omega)
    · exact getLsbD_of_field_eq_zero h84 (by omega) (by omega)
    · exact getLsbD_of_field_eq_zero h105 (by omega) (by omega)
    · exact getLsbD_of_field_eq_zero h127 (by omega) (by omega)
    · exact getLsbD_of_field_eq_zero h127 (by omega) (by omega)

/-- All bits are written, but for those that are zero. -/
theorem cover3src (dev : DevInfo) (c : CompactInst) :
  ∀ i < 128, i ∈ (if dev.wide3src then [7, 127] else [7, 35, 36, 84, 105, 126, 127]) ∨
    ∃ r ∈ (uncompacted3srcFields dev c).map (fun f => (f.hi, f.lo)), r.2 ≤ i ∧ i ≤ r.1
  := by
  cases hwide : dev.wide3src with
  | true =>
      simp only [uncompacted3srcFields, uncompacted3srcControl, uncompacted3srcSource, spread,
        hwide, List.map_append, List.map_cons, List.map_nil, if_true]
      decide
  | false =>
      simp only [uncompacted3srcFields, uncompacted3srcControl, uncompacted3srcSource, spread,
        hwide, List.map_append, List.map_cons, List.map_nil, Bool.false_eq_true, if_false]
      decide

/-- The fields of the compacted instruction. -/
theorem field_compact3src (h : setFields 0 (compact3srcFields src control source) = .ok c) :
  ∀ f ∈ compact3srcFields src control source, field c f.hi f.lo = f.val
  := by
  obtain ⟨hvals, rfl⟩ := setFields_eq_ok.mp h
  intro f hf
  apply field_writes_of_mem _ (pairwise_compact3srcFields ..) _ hf
  intro g hg
  refine ⟨?_, ?_, hvals g hg⟩
  all_goals
    simp only [compact3srcFields, List.mem_cons, List.not_mem_nil, or_false] at hg
    rcases hg with rfl | rfl | rfl | rfl | rfl | rfl | rfl | rfl | rfl | rfl | rfl | rfl | rfl |
      rfl | rfl | rfl <;> simp

/-- A three-source instruction is restored. -/
theorem uncompact3src (hcmpt : field src 29 29 = 0) (hgen : 8 ≤ dev.gen)
  (h3 : dev.is3src src.opcode = true) (h : tryCompact3srcInstruction dev src = .ok c) :
  uncompactInstruction dev c = .ok src
  := by
  rw [tryCompact3srcInstruction] at h
  split_ifs at h with hreserved
  obtain ⟨control, hcontrol, h⟩ := bind_eq_ok.mp h
  obtain ⟨source, hsource, h⟩ := bind_eq_ok.mp h
  have hread := field_compact3src h
  obtain ⟨hvals, rfl⟩ := setFields_eq_ok.mp h
  simp only [compact3srcFields, List.forall_mem_cons, List.not_mem_nil, false_imp_iff,
    implies_true, and_true] at hread
  rw [← compact3srcFields] at hread
  obtain ⟨r1, r2, r3, r4, r5, -, r7, r8, r9, r10, r11, r12, r13, r14, r15, r16⟩ := hread
  have hright : ∀ f ∈ uncompacted3srcFields dev
      (writes 0 (compact3srcFields src control source)), Right src f := by
    rw [uncompacted3srcFields, r1, r2, r3, r4, r5, r7, r8, r9, r10, r11, r12, r13, r14, r15, r16,
      (lookup_eq_ok hcontrol).2, (lookup_eq_ok hsource).2]
    simp only [List.forall_mem_append, List.forall_mem_cons, List.not_mem_nil, false_imp_iff,
      implies_true, and_true]
    refine ⟨⟨⟨?_, spread_gather src (cut_3srcControl dev)⟩,
      spread_gather src (cut_3srcSource dev)⟩, ?_, ?_, ⟨by simp, by simp, hcmpt.symm⟩, ?_, ?_, ?_,
      ?_, ?_, ?_, ?_, ?_, ?_, ?_⟩
    all_goals exact ⟨by simp, by simp, rfl⟩
  rw [uncompactInstruction, if_pos]
  · apply setFields_eq_ok.mpr
    refine ⟨fun f hf => (hright f hf).fits.2.2, ?_⟩
    exact writes_eq (fun f hf => (hright f hf).fits) (correct_of_right hright) _ (cover3src dev _)
      (unwritten3src hreserved)
  · rw [r1]
    exact ⟨hgen, h3⟩

end ThreeSources

/-! ### Compacting and restoring -/

section RoundTrip

variable {dev : DevInfo} {src : Inst}

theorem lookup_ne_assertion {table : List ℕ} {v : ℕ} :
  lookup table v ≠ .error .assertion
  := by
  rw [lookup]
  cases table.findIdx? (· == v) <;> simp

theorem bind_eq_error {ε α β : Type} {x : Except ε α} {f : α → Except ε β} {e : ε} :
  (x >>= f) = .error e ↔ x = .error e ∨ ∃ a, x = .ok a ∧ f a = .error e
  := by
  cases x <;> simp [bind, Except.bind]

theorem setFields_ne_assertion {w : ℕ} {x : BitVec w} {l : List Write} (h : ∀ f ∈ l, f.Fits w) :
  setFields x l ≠ .error .assertion
  := by
  rw [setFields, if_pos (fun f hf => (h f hf).2.2)]
  simp

/-- With the reserved bits zero, no assertion fails. -/
theorem tryCompact2src_ne_assertion (h : mappedReserved dev src = true) :
  tryCompact2srcInstruction dev src ≠ .error .assertion
  := by
  intro herr
  rw [tryCompact2srcInstruction] at herr
  split_ifs at herr
  · simp at herr
  · rcases bind_eq_error.mp herr with hun | ⟨unmapped, -, herr⟩
    · rw [hasUnmappedBits, h] at hun
      simp only [Bool.not_true, Bool.false_eq_true, if_false] at hun
      split_ifs at hun
    · cases unmapped with
      | true => simp at herr
      | false =>
          simp only [Bool.false_eq_true, if_false] at herr
          rcases bind_eq_error.mp herr with herr | ⟨control, hcontrol, herr⟩
          · exact lookup_ne_assertion herr
          rcases bind_eq_error.mp herr with herr | ⟨datatype, hdatatype, herr⟩
          · exact lookup_ne_assertion herr
          rcases bind_eq_error.mp herr with herr | ⟨subreg, hsubreg, herr⟩
          · exact lookup_ne_assertion herr
          rcases bind_eq_error.mp herr with herr | ⟨src0, hsrc0, herr⟩
          · exact lookup_ne_assertion herr
          rcases bind_eq_error.mp herr with herr | ⟨src1, hsrc1, herr⟩
          · rw [src1Index] at herr
            split_ifs at herr
            exact lookup_ne_assertion herr
          · exact setFields_ne_assertion
              (fits_compactFields hcontrol hdatatype hsubreg hsrc0 hsrc1) herr

/-- An assertion fails for a destination register that the compacted instruction has no bit for. -/
theorem tryCompact3src_eq_assertion (h : mapped3srcReserved dev src = true)
  (herr : tryCompact3srcInstruction dev src = .error .assertion) :
  field src 63 63 ≠ 0
  := by
  intro hdst
  rw [tryCompact3srcInstruction, if_pos h] at herr
  rcases bind_eq_error.mp herr with herr | ⟨control, hcontrol, herr⟩
  · exact lookup_ne_assertion herr
  rcases bind_eq_error.mp herr with herr | ⟨source, hsource, herr⟩
  · exact lookup_ne_assertion herr
  · exact setFields_ne_assertion (fits_compact3srcFields hcontrol hsource hdst) herr

/-- The instruction is restored if it is compacted, and the destination is left if it is not.  With
the reserved bits zero, an assertion fails only for an instruction that is compacted already, or that
has three sources and a destination register above 127. -/
theorem tryCompactInstruction_roundTrip (dev : DevInfo) (dst : CompactInst) (src : Inst)
  (h3src : dev.is3src src.opcode = true → 8 ≤ dev.gen → mapped3srcReserved dev src = true)
  (h2src : dev.is3src src.opcode = false → mappedReserved dev src = true)
  (htop : dev.is3src src.opcode = false → src.isImmediate dev = false → field src 127 121 = 0) :
  (∀ c, tryCompactInstruction dev dst src = some (true, c) →
    uncompactInstruction dev c = .ok src) ∧
  (∀ d, tryCompactInstruction dev dst src = some (false, d) → d = dst) ∧
  (tryCompactInstruction dev dst src = none →
    field src 29 29 ≠ 0 ∨
      (dev.is3src src.opcode = true ∧ 8 ≤ dev.gen ∧ field src 63 63 ≠ 0))
  := by
  rw [tryCompactInstruction]
  by_cases hcmpt : field src 29 29 = 0
  · have hbne : (field src 29 29 != 0) = false := by
      simp [hcmpt]
    simp only [hbne, Bool.false_eq_true, if_false]
    cases h3 : dev.is3src src.opcode with
    | true =>
        by_cases hgen : 8 ≤ dev.gen
        · simp only [if_true, if_pos hgen]
          cases htry : tryCompact3srcInstruction dev src with
          | ok c' =>
              refine ⟨?_, by simp, by simp⟩
              intro c hc
              obtain rfl : c' = c := by simpa using hc
              exact uncompact3src hcmpt hgen h3 htry
          | error e =>
              cases e with
              | returnFalse => simp
              | assertion =>
                  refine ⟨by simp, by simp, ?_⟩
                  intro _
                  right
                  exact ⟨trivial, hgen, tryCompact3src_eq_assertion (h3src h3 hgen) htry⟩
        · simp [if_neg hgen]
    | false =>
        simp only [Bool.false_eq_true, if_false]
        cases htry : tryCompact2srcInstruction dev src with
        | ok c' =>
            refine ⟨?_, by simp, by simp⟩
            intro c hc
            obtain rfl : c' = c := by simpa using hc
            obtain ⟨control, datatype, subreg, src0, src1, hcompacted⟩ := exists_compacted htry
            cases himm : src.isImmediate dev with
            | false => exact hcompacted.uncompact_register hcmpt himm (htop h3 himm) h3
            | true => exact hcompacted.uncompact_immediate hcmpt himm h3
        | error e =>
            cases e with
            | returnFalse => simp
            | assertion => exact absurd htry (tryCompact2src_ne_assertion (h2src h3))
  · have hbne : (field src 29 29 != 0) = true := by
      simp [hcmpt]
    simp [hbne, hcmpt]

/-- The first generation with compacted three-source instructions. -/
def broadwell : DevInfo := ⟨8, false, false, false⟩

/-- A `mad` is compacted and restored. -/
theorem tryCompactInstruction_mad :
  tryCompactInstruction broadwell 0 0x01472008390031c8111e00400060015b =
      some (true, 0x0a1018002001155b) ∧
    uncompactInstruction broadwell 0x0a1018002001155b = .ok 0x01472008390031c8111e00400060015b
  := by
  have htry : tryCompactInstruction broadwell 0 0x01472008390031c8111e00400060015b =
      some (true, 0x0a1018002001155b) := by
    decide
  exact ⟨htry, (tryCompactInstruction_roundTrip broadwell 0 0x01472008390031c8111e00400060015b
    (by decide) (by decide) (by decide)).1 _ htry⟩

end RoundTrip

end Brw
