import Mesa.Nir.LoopAnalyze

/-!
# The trip count against the run of the loop

A run of a loop gives every SSA definition its value in every pass: constants and ALU
instructions by their own equation, the phis in the loop header from outside the loop in the
first pass and from the previous pass afterwards.  We show that the exit condition of a
terminator on a 32-bit integer induction variable is, pass by pass, what `test_iterations`
computes, and from this exactly when the trip count found is the number of passes the loop
makes before that terminator breaks.
-/

namespace Nir

/-! ### Runs -/

namespace LoopFn

variable (F : FloatArith) (L : LoopFn)

/-- What SSA form guarantees of the function: the operands of an ALU instruction have the
same bit size, which is also that of a sum, and a phi of which some source is computed from
the phi itself is in the loop header.  Such a phi has one source for the entry of the loop,
defined before it, and one for its back edge (code after a jump has been removed). -/
structure Valid : Prop where
  alu_size : ∀ {d op x y}, L.parent d = .alu op [x, y] → L.bitSize x = L.bitSize y
  iadd_size : ∀ {d x y}, L.parent d = .alu .iadd [x, y] → L.bitSize d = L.bitSize x
  phi_header : ∀ {d srcs s op x y}, L.parent d = .phi srcs → s ∈ srcs →
    L.parent s.src = .alu op [x, y] → x = d ∨ y = d →
    ∃ e b, L.inLoop e = false ∧
      (srcs = [⟨false, e⟩, ⟨true, b⟩] ∨ srcs = [⟨true, b⟩, ⟨false, e⟩])

/-- A run of the loop: `env k d` is the value of `d` in pass `k`.  Of the ALU instructions,
those in the outermost part of the loop run in every pass, as do the ones computing the
conditions of the terminators. -/
structure Run (terminators : List Terminator) where
  env : ℕ → ℕ → ConstValue
  const_eq : ∀ {k d v}, L.constant? d = some v → env k d = v
  alu_eq : ∀ {k d op x y}, L.parent d = .alu op [x, y] →
    d ∈ L.outermost ∨ d ∈ terminators.map Terminator.cond →
    env k d = evalConstOpcode F op (L.bitSize x) (env k x) (env k y)
  phi_entry : ∀ {d e b srcs}, L.parent d = .phi srcs →
    srcs = [⟨false, e⟩, ⟨true, b⟩] ∨ srcs = [⟨true, b⟩, ⟨false, e⟩] →
    env 0 d = env 0 e
  phi_continue : ∀ {k d e b srcs}, L.parent d = .phi srcs →
    srcs = [⟨false, e⟩, ⟨true, b⟩] ∨ srcs = [⟨true, b⟩, ⟨false, e⟩] →
    env (k + 1) d = env k b

variable {F L} in
/-- Whether the test of a terminator in pass `k` takes its break. -/
def Run.exits {terminators : List Terminator} (R : L.Run F terminators) (t : Terminator)
    (k : ℕ) : Bool :=
  if t.continueFromThen then (R.env k t.cond).i32 == 0#32 else (R.env k t.cond).i32 != 0#32

end LoopFn

/-! ### Integer arithmetic at 32 bits -/

/-- The comparisons of integers. -/
def AluOp.isIntComparison : AluOp → Bool
  | .ige | .ilt | .ieq | .ine | .uge | .ult => true
  | _ => false

/-- The outcome of an integer comparison at 32 bits. -/
def AluOp.compare32 (op : AluOp) (x y : BitVec 32) : Bool :=
  match op with
  | .ige => y.sle x
  | .ilt => x.slt y
  | .ieq => x == y
  | .ine => x != y
  | .uge => y.ule x
  | .ult => x.ult y
  | _ => false

theorem ConstValue.i32_ofI32 (x : BitVec 32) :
  (ConstValue.ofI32 x).i32 = x
  := by
  simp [ConstValue.ofI32, ConstValue.i32]

theorem nirBool_i32_ne_zero (b : Bool) :
  ((nirBool b).i32 != 0#32) = b
  := by
  cases b <;> rfl

theorem nirBool_i32_eq_zero (b : Bool) :
  ((nirBool b).i32 == 0#32) = !b
  := by
  cases b <;> rfl

section

variable (F : FloatArith)

theorem evalConstOpcode_comparison {op : AluOp} (h : op.isIntComparison) (a b : ConstValue) :
  evalConstOpcode F op 32 a b = nirBool (op.compare32 a.i32 b.i32)
  := by
  cases op <;> first | rfl | simp [AluOp.isIntComparison] at h

theorem evalConstOpcode_iadd (a b : ConstValue) :
  (evalConstOpcode F .iadd 32 a b).i32 = a.i32 + b.i32
  := by
  simp [evalConstOpcode, ConstValue.i32]

theorem evalConstOpcode_imul (a b : ConstValue) :
  (evalConstOpcode F .imul 32 a b).i32 = a.i32 * b.i32
  := by
  simp [evalConstOpcode, ConstValue.i32]

namespace Counter

/-- The counter steps a 32-bit integer and compares it as an integer. -/
structure IsInt32 (c : Counter) : Prop where
  aluOp : c.aluOp = .iadd
  bitSize : c.bitSize = 32
  condOp : c.condOp.isIntComparison

/-- The exit condition at the value `v` of the induction variable. -/
def exitAt (c : Counter) (v : BitVec 32) : Bool :=
  let result :=
    if c.limitRhs then c.condOp.compare32 v c.limit.i32 else c.condOp.compare32 c.limit.i32 v
  if c.invertCond then !result else result

/-- The number of steps the value the condition reads is ahead of the passes made. -/
def offset (c : Counter) : ℕ := if c.readsAluDef then 1 else 0

/-- The value of the induction variable after `i` steps. -/
def valueAfter (c : Counter) (i : ℕ) : BitVec 32 :=
  Flow.Counter.value c.initial.i32 c.step.i32 i

variable {F} {c : Counter}

theorem testIterations_eq (hc : c.IsInt32) (i : ℕ) :
  c.testIterations F (BitVec.ofNat 32 i) = c.exitAt (c.valueAfter i)
  := by
  have hvalue : (evalConstOpcode F .iadd 32
      (evalConstOpcode F .imul 32 (ConstValue.ofI32 (BitVec.ofNat 32 i)) c.step)
      c.initial).i32 = c.valueAfter i := by
    rw [evalConstOpcode_iadd, evalConstOpcode_imul, ConstValue.i32_ofI32]
    rfl
  have hfloat : AluOp.iadd.outputType ≠ .float := by decide
  simp only [testIterations, hc.aluOp, hc.bitSize, hfloat, if_false, exitAt]
  cases c.limitRhs <;> cases c.invertCond <;>
    simp only [evalConstOpcode_comparison F hc.condOp, hvalue, nirBool_i32_ne_zero,
      nirBool_i32_eq_zero, if_true, if_false, Bool.false_eq_true]

/-- An exit condition on signed numbers depends only on the side of the limit. -/
theorem exitAt_signed (h : c.condOp = .ige ∨ c.condOp = .ilt ∨ c.condOp = .ieq ∨ c.condOp = .ine)
    {v w : BitVec 32}
    (hvw : Flow.Counter.signedSide v c.limit.i32 = Flow.Counter.signedSide w c.limit.i32) :
  c.exitAt v = c.exitAt w
  := by
  have hlt : v.toInt < c.limit.i32.toInt ↔ w.toInt < c.limit.i32.toInt := by
    rw [← Int.compare_eq_lt, ← Int.compare_eq_lt]
    simp only [Flow.Counter.signedSide] at hvw
    rw [hvw]
  have hgt : c.limit.i32.toInt < v.toInt ↔ c.limit.i32.toInt < w.toInt := by
    rw [← Int.compare_eq_gt, ← Int.compare_eq_gt]
    simp only [Flow.Counter.signedSide] at hvw
    rw [hvw]
  have heq : v = c.limit.i32 ↔ w = c.limit.i32 := by
    rw [← BitVec.toInt_inj, ← BitVec.toInt_inj]
    omega
  rcases h with h | h | h | h <;>
    simp only [exitAt, h, AluOp.compare32, BitVec.sle_eq_decide, BitVec.slt_eq_decide, bne,
      Bool.beq_eq_decide_eq, ← not_lt, hlt, hgt, heq, eq_comm (a := c.limit.i32)]

/-- An exit condition on unsigned numbers depends only on the side of the limit. -/
theorem exitAt_unsigned (h : c.condOp = .uge ∨ c.condOp = .ult) {v w : BitVec 32}
    (hvw : Flow.Counter.unsignedSide v c.limit.i32 = Flow.Counter.unsignedSide w c.limit.i32) :
  c.exitAt v = c.exitAt w
  := by
  have hlt : v.toNat < c.limit.i32.toNat ↔ w.toNat < c.limit.i32.toNat := by
    rw [← Nat.compare_eq_lt, ← Nat.compare_eq_lt]
    simp only [Flow.Counter.unsignedSide] at hvw
    rw [hvw]
  have hgt : c.limit.i32.toNat < v.toNat ↔ c.limit.i32.toNat < w.toNat := by
    rw [← Nat.compare_eq_gt, ← Nat.compare_eq_gt]
    simp only [Flow.Counter.unsignedSide] at hvw
    rw [hvw]
  rcases h with h | h <;>
    simp only [exitAt, h, AluOp.compare32, BitVec.ule_eq_decide, BitVec.ult_eq_decide, ← not_lt,
      hlt, hgt]

/-- Before the quotient is reached, the exit condition changes at most once. -/
theorem exitAt_eq (hc : c.IsInt32) {iter : BitVec 32} (hiter : c.getIteration F = some iter)
    (hpos : ¬ iter.slt 0#32) {o i m : ℕ} (hoi : o ≤ i) (him : i ≤ m) (hm : m < iter.toNat) :
  c.exitAt (c.valueAfter i) = c.exitAt (c.valueAfter o)
    ∨ c.exitAt (c.valueAfter i) = c.exitAt (c.valueAfter m)
  := by
  have hcond := hc.condOp
  have hsigned : c.condOp = .ige ∨ c.condOp = .ilt ∨ c.condOp = .ieq ∨ c.condOp = .ine →
      c.exitAt (c.valueAfter i) = c.exitAt (c.valueAfter o)
        ∨ c.exitAt (c.valueAfter i) = c.exitAt (c.valueAfter m) := by
    intro h
    have hdiv : iter = (c.limit.i32 - c.initial.i32).sdiv c.step.i32
        ∧ ¬ (c.limit.i32 - c.initial.i32 = BitVec.intMin 32 ∧ c.step.i32 = -1#32) := by
      rcases h with h | h | h | h <;>
      · simp only [getIteration, h] at hiter
        split_ifs at hiter
        simp_all
    have htoInt : (iter.toNat : ℤ) = iter.toInt := by
      rw [BitVec.toInt_eq_toNat_cond]
      simp only [BitVec.slt, BitVec.toInt_eq_toNat_cond, decide_eq_true_eq] at hpos
      simp at hpos ⊢
      omega
    rcases Flow.Counter.signedSide_eq (q := iter.toInt) (by rw [hdiv.1]) hdiv.2 hoi him
      (by omega) with hside | hside
    · left
      apply exitAt_signed h hside
    · right
      apply exitAt_signed h hside
  have hunsigned : c.condOp = .uge ∨ c.condOp = .ult →
      c.exitAt (c.valueAfter i) = c.exitAt (c.valueAfter o)
        ∨ c.exitAt (c.valueAfter i) = c.exitAt (c.valueAfter m) := by
    intro h
    have hdiv : iter = (c.limit.i32 - c.initial.i32) / c.step.i32 := by
      rcases h with h | h <;>
      · simp only [getIteration, h] at hiter
        split_ifs at hiter
        simp_all
    rcases Flow.Counter.unsignedSide_eq (q := iter.toNat) (by rw [hdiv]) hoi him hm
      with hside | hside
    · left
      apply exitAt_unsigned h hside
    · right
      apply exitAt_unsigned h hside
  revert hcond
  cases hop : c.condOp <;> simp_all [AluOp.isIntComparison]

end Counter

end

/-! ### What the analysis has found -/

namespace LoopFn

variable {F : FloatArith} {L : LoopFn}

/-- Every induction variable recorded belongs to a phi in the outermost part of the loop,
and is recorded for that phi or for the instruction incrementing it. -/
theorem computeInductionInformation_spec {vars : List ℕ} {ind : ℕ → Option BasicInductionVar}
    {P : ℕ → BasicInductionVar → Prop}
    (hind : ∀ d biv, ind d = some biv → P d biv)
    (hphi : ∀ phi ∈ vars, ∀ biv, L.phiInduction phi = some biv → P phi biv ∧ P biv.aluDef biv)
    {d : ℕ} {biv : BasicInductionVar}
    (h : L.computeInductionInformation vars ind d = some biv) :
  P d biv
  := by
  induction vars generalizing ind with
  | nil => apply hind d biv h
  | cons var rest ih =>
      have hrest : ∀ phi ∈ rest, ∀ biv, L.phiInduction phi = some biv →
          P phi biv ∧ P biv.aluDef biv := fun phi hmem => hphi phi (List.mem_cons_of_mem _ hmem)
      cases hnew : L.phiInduction var with
      | none =>
          simp only [computeInductionInformation, hnew] at h
          apply ih hind hrest h
      | some new =>
          simp only [computeInductionInformation, hnew] at h
          have hP := hphi var List.mem_cons_self new hnew
          apply ih _ hrest h
          intro d' biv' hd'
          by_cases hvar : d' = var
          · subst hvar
            rw [Function.update_self] at hd'
            cases hd'
            apply hP.1
          · rw [Function.update_of_ne hvar] at hd'
            by_cases halu : d' = new.aluDef
            · subst halu
              rw [Function.update_self] at hd'
              cases hd'
              apply hP.2
            · rw [Function.update_of_ne halu] at hd'
              apply hind d' biv' hd'

theorem ind_spec {d : ℕ} {biv : BasicInductionVar} (h : L.ind d = some biv) :
  ∃ phi, L.phiInduction phi = some biv ∧ (d = phi ∨ d = biv.aluDef)
  := by
  apply computeInductionInformation_spec (L := L)
    (P := fun d biv => ∃ phi, L.phiInduction phi = some biv ∧ (d = phi ∨ d = biv.aluDef)) _ _ h
  · intro d biv hd
    cases hd
  · intro phi _ biv hphi
    exact ⟨⟨phi, hphi, .inl rfl⟩, ⟨phi, hphi, .inr rfl⟩⟩

/-- What the walk over the sources of a phi leaves in the fields of the induction variable,
given what was there before. -/
structure ScanSpec (L : LoopFn) (phi : ℕ) (srcs : List PhiSrc) (old new : PartialBiv) :
    Prop where
  alu : ∀ {op a}, new.alu = some (op, a) → old.alu = some (op, a) ∨
    ∃ s ∈ srcs, s.src = a ∧ a ∈ L.outermost ∧ ∃ x y, L.parent a = .alu op [x, y]
  outside : ∀ {d}, new.defOutsideLoop = some d → old.defOutsideLoop = some d ∨
    ∃ s ∈ srcs, s.src = d ∧ L.inLoop d = false
  invariant : ∀ {d}, new.invariant = some d → old.invariant = some d ∨
    ∃ s ∈ srcs, L.inLoop s.src = true ∧ (L.constant? d).isSome ∧
      ∃ op, L.parent s.src = .alu op [d, phi] ∨ L.parent s.src = .alu op [phi, d]

theorem ScanSpec.mono {phi : ℕ} {s : PhiSrc} {srcs : List PhiSrc} {old mid new : PartialBiv}
    (h₁ : ScanSpec L phi [s] old mid) (h₂ : ScanSpec L phi srcs mid new) :
  ScanSpec L phi (s :: srcs) old new
  := by
  constructor
  · intro op a h
    rcases h₂.alu h with h | ⟨s', hs', h⟩
    · rcases h₁.alu h with h | ⟨s', hs', h⟩
      · exact .inl h
      · exact .inr ⟨s', by simp_all, h⟩
    · exact .inr ⟨s', List.mem_cons_of_mem _ hs', h⟩
  · intro d h
    rcases h₂.outside h with h | ⟨s', hs', h⟩
    · rcases h₁.outside h with h | ⟨s', hs', h⟩
      · exact .inl h
      · exact .inr ⟨s', by simp_all, h⟩
    · exact .inr ⟨s', List.mem_cons_of_mem _ hs', h⟩
  · intro d h
    rcases h₂.invariant h with h | ⟨s', hs', h⟩
    · rcases h₁.invariant h with h | ⟨s', hs', h⟩
      · exact .inl h
      · exact .inr ⟨s', by simp_all, h⟩
    · exact .inr ⟨s', List.mem_cons_of_mem _ hs', h⟩

theorem ScanSpec.same (phi : ℕ) (srcs : List PhiSrc) (biv : PartialBiv) :
  ScanSpec L phi srcs biv biv
  := ⟨.inl, .inl, .inl⟩

theorem invariantOperand_spec {phi x y d : ℕ} {old : Option ℕ}
    (h : L.invariantOperand phi x y old = some d) :
  old = some d ∨ ((L.constant? d).isSome ∧ ((x = d ∧ y = phi) ∨ (x = phi ∧ y = d)))
  := by
  simp only [invariantOperand, Bool.and_eq_true, beq_iff_eq] at h
  split_ifs at h <;> simp_all

theorem scanPhiSrcs_spec (phi : ℕ) (srcs : List PhiSrc) (biv : PartialBiv) :
  ScanSpec L phi srcs biv (L.scanPhiSrcs phi srcs biv)
  := by
  induction srcs generalizing biv with
  | nil => apply ScanSpec.same
  | cons s rest ih =>
      by_cases hnested : L.inControlFlow s.src
      · simp only [scanPhiSrcs, hnested, if_true]
        apply ScanSpec.same
      by_cases hloop : L.inLoop s.src
      · have hmem : s.src ∈ L.outermost := by
          simp_all [inLoop, inControlFlow]
        simp only [scanPhiSrcs, hnested, hloop, Bool.not_true, Bool.false_eq_true, if_false]
        split
        · rename_i op x y hparent
          split
          · apply ScanSpec.mono _ (ih _)
            constructor
            · intro op' a h
              simp only [Option.some.injEq, Prod.mk.injEq] at h
              obtain ⟨rfl, rfl⟩ := h
              exact .inr ⟨s, by simp, rfl, hmem, x, y, hparent⟩
            · exact .inl
            · intro d h
              rcases invariantOperand_spec h with h | ⟨hconst, ⟨rfl, rfl⟩ | ⟨rfl, rfl⟩⟩
              · exact .inl h
              · exact .inr ⟨s, by simp, hloop, hconst, op, .inl hparent⟩
              · exact .inr ⟨s, by simp, hloop, hconst, op, .inr hparent⟩
          · apply ScanSpec.mono (ScanSpec.same ..) (ih _)
        · apply ScanSpec.mono (ScanSpec.same ..) (ih _)
      · simp only [scanPhiSrcs, hnested, hloop, Bool.not_false, Bool.false_eq_true, if_false,
          if_true]
        apply ScanSpec.mono _ (ih _)
        refine ⟨.inl, ?_, .inl⟩
        intro d h
        simp only [Option.some.injEq] at h
        exact .inr ⟨s, by simp, h, by rw [← h]; simpa using hloop⟩

/-- A phi that is an induction variable is in the loop header; on entry it has the constant
value `initial`, and along the back edge it receives its own value plus a constant. -/
theorem phiInduction_spec (hv : L.Valid) {phi : ℕ} {biv : BasicInductionVar}
    (h : L.phiInduction phi = some biv) :
  (∃ srcs, L.parent phi = .phi srcs ∧
    (srcs = [⟨false, biv.defOutsideLoop⟩, ⟨true, biv.aluDef⟩]
      ∨ srcs = [⟨true, biv.aluDef⟩, ⟨false, biv.defOutsideLoop⟩]))
  ∧ biv.aluDef ∈ L.outermost
  ∧ (L.parent biv.aluDef = .alu biv.aluOp [biv.invariant, phi]
    ∨ L.parent biv.aluDef = .alu biv.aluOp [phi, biv.invariant])
  := by
  cases hparent : L.parent phi with
  | loadConst | alu | other => simp [phiInduction, hparent] at h
  | phi srcs =>
  have hspec := scanPhiSrcs_spec (L := L) phi srcs {}
  simp only [phiInduction, hparent] at h
  split at h
  case h_2 => cases h
  rename_i op alu outside inv halu houtside hinv
  split at h
  case isFalse => cases h
  cases h
  have halu := hspec.alu halu
  have houtside := hspec.outside houtside
  have hinv := hspec.invariant hinv
  simp only [reduceCtorEq, false_or] at halu houtside hinv
  obtain ⟨sa, hsa, rfl, hmem, x, y, hparent_alu⟩ := halu
  obtain ⟨so, hso, rfl, hout⟩ := houtside
  obtain ⟨si, hsi, hloop, hconst, op', hop'⟩ := hinv
  have hself : ∃ a b, L.parent si.src = .alu op' [a, b] ∧ (a = phi ∨ b = phi) := by
    rcases hop' with hop' | hop'
    · exact ⟨_, _, hop', .inr rfl⟩
    · exact ⟨_, _, hop', .inl rfl⟩
  obtain ⟨a, b, hab, hself⟩ := hself
  obtain ⟨e, back, he, hsrcs⟩ := hv.phi_header hparent hsi hab hself
  have hinLoop : L.inLoop sa.src = true := by simp [inLoop, hmem]
  -- of the two sources the one defined in the loop is that of the back edge
  have hsource : ∀ s ∈ srcs, s = ⟨false, e⟩ ∨ s = ⟨true, back⟩ := by
    rcases hsrcs with rfl | rfl <;> simp [or_comm]
  have hback : ∀ s ∈ srcs, L.inLoop s.src = true → s = ⟨true, back⟩ := by
    intro s hs hloop
    rcases hsource s hs with rfl | rfl
    · simp [he] at hloop
    · rfl
  obtain rfl := hback sa hsa hinLoop
  obtain rfl := hback si hsi hloop
  obtain rfl : so = ⟨false, e⟩ := by
    rcases hsource so hso with rfl | rfl
    · rfl
    · simp [hout] at hloop
  rw [hparent_alu] at hop' ⊢
  refine ⟨⟨srcs, rfl, hsrcs⟩, hmem, ?_⟩
  simp_all

/-- What a counter found for a terminator says about the instructions of the loop. -/
theorem counter_spec {t : Terminator} {c : Counter} (h : L.counter t = some c) :
  ∃ (x y phi : ℕ) (biv : BasicInductionVar) (limit : ℕ),
    L.parent t.cond = .alu c.condOp [x, y]
    ∧ L.phiInduction phi = some biv
    ∧ (if c.limitRhs then y = limit else x = limit)
    ∧ (if c.limitRhs then x else y) = (if c.readsAluDef then biv.aluDef else phi)
    ∧ L.constant? biv.defOutsideLoop = some c.initial
    ∧ L.constant? biv.invariant = some c.step
    ∧ L.constant? limit = some c.limit
    ∧ (∃ a rest, L.parent biv.aluDef = .alu c.aluOp (a :: rest) ∧ L.bitSize a = c.bitSize)
    ∧ c.invertCond = t.continueFromThen ∧ c.condOp.isComparison
  := by
  simp only [counter] at h
  split at h
  case h_2 => cases h
  rename_i op x y hcond
  split at h
  case isFalse => cases h
  rename_i hcmp
  split at h
  case h_2 => cases h
  rename_i biv limitVal hind hlimit
  split at h
  case h_2 => cases h
  rename_i initialVal stepVal hinitial hstep
  split at h
  case h_2 => cases h
  rename_i aluOp a rest halu
  cases h
  obtain ⟨phi, hphi, hdef⟩ := ind_spec hind
  refine ⟨x, y, phi, biv, if (L.ind x).isSome then y else x, hcond, hphi, ?_, ?_, hinitial,
    hstep, hlimit, ⟨a, rest, halu, rfl⟩, rfl, hcmp⟩
  · split <;> rfl
  · -- the other operand is a constant, so it is not the incrementing instruction
    have hlimit_ne : ∀ l, L.constant? l = some limitVal → l ≠ biv.aluDef := by
      rintro l hl rfl
      simp [constant?, halu] at hl
    cases hx : (L.ind x).isSome with
    | true =>
        simp only [hx, if_true] at hdef hlimit ⊢
        rcases hdef with rfl | rfl
        · by_cases hxa : x = biv.aluDef
          · simp [hxa]
          · simp [hxa, hlimit_ne y hlimit]
        · simp
    | false =>
        simp only [hx, Bool.false_eq_true, if_false] at hdef hlimit ⊢
        rcases hdef with rfl | rfl
        · by_cases hya : y = biv.aluDef
          · simp [hya]
          · simp [hya, hlimit_ne x hlimit]
        · simp

/-! ### The run of the induction variable -/

section

variable {terminators : List Terminator} (R : L.Run F terminators)

/-- In pass `k` a 32-bit induction phi has been stepped `k` times, and the instruction
incrementing it gives the value after one more step. -/
theorem Run.phi_value (hv : L.Valid) {phi : ℕ} {biv : BasicInductionVar}
    (h : L.phiInduction phi = some biv) {initial step : ConstValue}
    (hinitial : L.constant? biv.defOutsideLoop = some initial)
    (hstep : L.constant? biv.invariant = some step)
    (hop : biv.aluOp = .iadd) (hsize : L.bitSize phi = 32) (k : ℕ) :
  (R.env k phi).i32 = Flow.Counter.value initial.i32 step.i32 k
    ∧ (R.env k biv.aluDef).i32 = Flow.Counter.value initial.i32 step.i32 (k + 1)
  := by
  obtain ⟨⟨srcs, hparent, hsrcs⟩, halu_mem, halu⟩ := phiInduction_spec hv h
  have hincrement : ∀ k, (R.env k biv.aluDef).i32 = (R.env k phi).i32 + step.i32 := by
    intro k
    rw [hop] at halu
    rcases halu with halu | halu
    · rw [R.alu_eq halu (.inl halu_mem), hv.alu_size halu, hsize, evalConstOpcode_iadd,
        R.const_eq hstep, BitVec.add_comm]
    · rw [R.alu_eq halu (.inl halu_mem), hsize, evalConstOpcode_iadd, R.const_eq hstep]
  have hphi : (R.env k phi).i32 = Flow.Counter.value initial.i32 step.i32 k := by
    induction k with
    | zero => rw [R.phi_entry hparent hsrcs, R.const_eq hinitial, Flow.Counter.value_zero]
    | succ k ih =>
        rw [R.phi_continue hparent hsrcs, hincrement, ih, Flow.Counter.value_succ]
  constructor
  · apply hphi
  · rw [hincrement, hphi, Flow.Counter.value_succ]

/-- The test of a terminator in pass `k` is its exit condition at the value of the induction
variable after `k` steps, or after one more if it reads the incremented value. -/
theorem Run.exits_eq (hv : L.Valid) {t : Terminator} (ht : t ∈ terminators) {c : Counter}
    (h : L.counter t = some c) (hc : c.IsInt32) (k : ℕ) :
  R.exits t k = c.exitAt (c.valueAfter (k + c.offset))
  := by
  obtain ⟨x, y, phi, biv, limit, hcond, hphi, hlimit, hread, hinitial, hstep, hconst,
    ⟨a, rest, halu, ha⟩, hinvert, -⟩ := counter_spec h
  obtain ⟨-, -, hself⟩ := phiInduction_spec hv hphi
  have hop : biv.aluOp = .iadd := by
    rw [← hc.aluOp]
    rcases hself with hself | hself <;> simp_all
  rw [hop] at hself
  have hsizes : L.bitSize phi = 32 ∧ L.bitSize biv.aluDef = 32 := by
    rw [hc.bitSize] at ha
    rcases hself with hself | hself
    · have h₁ := hv.alu_size hself
      have h₂ := hv.iadd_size hself
      simp_all
    · have h₂ := hv.iadd_size hself
      simp_all
  have hvalue := R.phi_value hv hphi hinitial hstep hop hsizes.1 k
  -- the operand that is not the limit
  have hoperand : (R.env k (if c.limitRhs then x else y)).i32 = c.valueAfter (k + c.offset)
      ∧ L.bitSize (if c.limitRhs then x else y) = 32 := by
    rw [hread]
    cases hr : c.readsAluDef with
    | true => simpa [Counter.offset, hr, Counter.valueAfter, hsizes.2] using hvalue.2
    | false => simpa [Counter.offset, hr, Counter.valueAfter, hsizes.1] using hvalue.1
  have hsize : L.bitSize x = 32 := by
    have := hv.alu_size hcond
    cases hr : c.limitRhs <;> simp_all
  have hmem : t.cond ∈ terminators.map Terminator.cond := List.mem_map_of_mem ht
  have henv := R.alu_eq (k := k) hcond (.inr hmem)
  rw [hsize, evalConstOpcode_comparison F hc.condOp] at henv
  have hl := R.const_eq (k := k) hconst
  simp only [Run.exits, ← hinvert, henv, nirBool_i32_eq_zero, nirBool_i32_ne_zero, Counter.exitAt]
  cases hr : c.limitRhs <;> simp_all

end

end LoopFn

/-! ### When the trip count is exact -/

namespace Counter

variable {F : FloatArith} {c : Counter}

/-- The truncated quotient of the span of the counter by its step. -/
def quotient (c : Counter) : BitVec 32 :=
  match c.condOp with
  | .uge | .ult => (c.limit.i32 - c.initial.i32) / c.step.i32
  | _ => (c.limit.i32 - c.initial.i32).sdiv c.step.i32

/-- Whether the exit condition holds after `i` steps. -/
def exitsAfter (c : Counter) (i : ℕ) : Bool := c.exitAt (c.valueAfter i)

/-- The condition under which the bias search finds the pass that really takes the break.
Where the search stops at the initial value, or beyond the range of a 32-bit integer, the
very first test of the loop must be an exit.  Otherwise neither the first test nor the last
one the search leaves out may be an exit. -/
def StopsExactly (c : Counter) : Prop :=
  let q := c.quotient.toNat
  if (q ≤ 1 ∧ c.exitsAfter 0)
      ∨ (q = 2 ^ 31 - 1 ∧ ¬ c.exitsAfter (q - 1) ∧ ¬ c.exitsAfter q) then
    c.exitsAfter c.offset = true
  else
    q ≤ c.offset + 1 ∨ (¬ c.exitsAfter c.offset ∧ ¬ c.exitsAfter (q - 2))

/-- The number of passes a count of iterations stands for. -/
def passes (n : BitVec 32) : ℕ := if (-1#32).slt n then n.toNat else 0

theorem getIteration_eq_quotient (hc : c.IsInt32) {iter : BitVec 32}
    (h : c.getIteration F = some iter) :
  iter = c.quotient
  := by
  have hcond := hc.condOp
  cases hop : c.condOp <;> simp_all [getIteration, quotient, AluOp.isIntComparison]

/-- The count returned when the search stops `b` steps after the initial value. -/
theorem passes_of_lt {b : ℕ} (hb : b < 2 ^ 31) :
  passes (if (0#32).slt (BitVec.ofNat 32 b) then BitVec.ofNat 32 b - c.tripOffset
    else BitVec.ofNat 32 b) = if b = 0 then 0 else b - c.offset
  := by
  have hb' : (BitVec.ofNat 32 b).toInt = b := by
    rw [BitVec.toInt_ofNat', Int.bmod_def]
    omega
  rcases Nat.eq_zero_or_pos b with rfl | hpos
  · rfl
  · have hslt : (0#32).slt (BitVec.ofNat 32 b) = true := by
      simp [BitVec.slt, hb']
      omega
    have hoff : BitVec.ofNat 32 b - c.tripOffset = BitVec.ofNat 32 (b - c.offset) := by
      apply BitVec.eq_of_toNat_eq
      simp only [tripOffset, offset]
      split
      · simp
        omega
      · simp
    have hsub : (BitVec.ofNat 32 (b - c.offset)).toInt = (b - c.offset : ℕ) := by
      rw [BitVec.toInt_ofNat', Int.bmod_def]
      omega
    have hneg : (-1#32).slt (BitVec.ofNat 32 (b - c.offset)) = true := by
      simp only [BitVec.slt, hsub, decide_eq_true_eq]
      simp
      omega
    rw [if_pos hslt, hoff, passes, if_pos hneg, if_neg (by omega)]
    simp
    omega

/-- A count that has left the range of a 32-bit integer stands for no passes. -/
theorem passes_of_eq {b : ℕ} (hb : b = 2 ^ 31) :
  passes (if (0#32).slt (BitVec.ofNat 32 b) then BitVec.ofNat 32 b - c.tripOffset
    else BitVec.ofNat 32 b) = 0
  := by
  have hb' : (BitVec.ofNat 32 b).toInt = -2 ^ 31 := by
    rw [BitVec.toInt_ofNat', Int.bmod_def]
    omega
  have hneg : ¬ (0#32).slt (BitVec.ofNat 32 b) := by
    simp [BitVec.slt, hb']
  have hneg' : ¬ (-1#32).slt (BitVec.ofNat 32 b) := by
    simp [BitVec.slt, hb']
  rw [if_neg hneg, passes, if_neg hneg']

theorem add_neg_one {x : BitVec 32} {i : ℕ} (h : x.toNat = i + 1) :
  x + -1#32 = BitVec.ofNat 32 i
  := by
  have hx : x = BitVec.ofNat 32 i + 1#32 := by
    rw [← BitVec.ofNat_add, ← h, BitVec.ofNat_toNat, BitVec.setWidth_eq]
  rw [hx, BitVec.add_assoc]
  simp

/-- The three places at which the search can stop. -/
theorem searchBias_cases (hc : c.IsInt32) {iter n : BitVec 32} (hiter : iter.toNat < 2 ^ 31)
    (h : c.searchBias F iter [-1#32, 0#32, 1#32] = n) (hn : n ≠ -1#32) :
  ∃ b, c.exitsAfter b ∧ iter.toNat ≤ b + 1 ∧ b ≤ iter.toNat + 1
    ∧ (∀ i < b, iter.toNat ≤ i + 1 → ¬ c.exitsAfter i)
    ∧ passes n = if b = 0 ∨ b = 2 ^ 31 then 0 else b - c.offset
  := by
  set q := iter.toNat with hq
  have hiter_eq : iter = BitVec.ofNat 32 q := by simp [hq]
  have hzero : iter + 0#32 = BitVec.ofNat 32 q := by simp [hq]
  have hone : iter + 1#32 = BitVec.ofNat 32 (q + 1) := by
    rw [BitVec.ofNat_add, ← hiter_eq]
  have hstop : ∀ b, b < 2 ^ 31 ∨ b = 2 ^ 31 →
      passes (if (0#32).slt (BitVec.ofNat 32 b) then BitVec.ofNat 32 b - c.tripOffset
        else BitVec.ofNat 32 b) = if b = 0 ∨ b = 2 ^ 31 then 0 else b - c.offset := by
    rintro b (hb | hb)
    · have : b ≠ 2 ^ 31 := by omega
      simp only [passes_of_lt hb, this, or_false]
    · rw [passes_of_eq hb, if_pos (.inr hb)]
  simp only [searchBias, hzero, hone, testIterations_eq hc] at h
  -- one step short of the quotient; from zero steps that is a count the caller gives up on
  by_cases hfirst : c.testIterations F (iter + -1#32) = true
  · rw [if_pos hfirst] at h
    rcases Nat.eq_zero_or_pos q with h0 | hpos
    · have hiter0 : iter + -1#32 = -1#32 := by simp [hiter_eq, h0]
      have hneg : ¬ (0#32).slt (-1#32) := by decide
      rw [hiter0, if_neg hneg] at h
      exact absurd h.symm hn
    · have hpred : iter + -1#32 = BitVec.ofNat 32 (q - 1) := add_neg_one (by omega)
      rw [hpred, testIterations_eq hc] at hfirst
      rw [hpred] at h
      refine ⟨q - 1, hfirst, by omega, by omega, ?_, ?_⟩
      · intro i hi hi'
        omega
      · rw [← h, hstop _ (by omega)]
  rw [if_neg hfirst] at h
  have hbelow : ∀ i, q = i + 1 → ¬ c.exitsAfter i := by
    intro i hi
    have hpred : iter + -1#32 = BitVec.ofNat 32 i := add_neg_one (by omega)
    rw [hpred, testIterations_eq hc] at hfirst
    apply hfirst
  by_cases hsecond : c.exitAt (c.valueAfter q) = true
  · rw [if_pos hsecond] at h
    refine ⟨q, hsecond, by omega, by omega, ?_, ?_⟩
    · intro i hi hi'
      apply hbelow
      omega
    · rw [← h, hstop _ (by omega)]
  rw [if_neg hsecond] at h
  by_cases hthird : c.exitAt (c.valueAfter (q + 1)) = true
  · rw [if_pos hthird] at h
    refine ⟨q + 1, hthird, by omega, by omega, ?_, ?_⟩
    · intro i hi hi'
      rcases Nat.lt_or_ge i q with hiq | hiq
      · apply hbelow
        omega
      · have : i = q := by omega
        rw [this]
        apply hsecond
    · rw [← h, hstop _ (by omega)]
  rw [if_neg hthird] at h
  exact absurd h.symm hn

/-- The count of iterations found is the number of passes before the break exactly under
`StopsExactly`. -/
theorem calculateIterations_exact_iff (hc : c.IsInt32) {n : BitVec 32}
    (h : c.calculateIterations F = some n) (hn : n ≠ -1#32) :
  ((∀ k < passes n, ¬ c.exitsAfter (k + c.offset)) ∧ c.exitsAfter (passes n + c.offset))
    ↔ c.StopsExactly
  := by
  simp only [calculateIterations, Option.bind_eq_bind] at h
  split_ifs at h with h₁ h₂
  · simp at h
    exact absurd h.symm hn
  obtain ⟨iter, hiter, h⟩ := Option.bind_eq_some_iff.mp h
  split_ifs at h with hneg
  · simp at h
    exact absurd h.symm hn
  simp only [Option.some.injEq] at h
  have hlt : iter.toNat < 2 ^ 31 := by
    simp only [BitVec.slt, BitVec.toInt_eq_toNat_cond, decide_eq_true_eq] at hneg
    simp at hneg
    omega
  have hoffset : c.offset ≤ 1 := by
    simp only [offset]
    split <;> omega
  obtain ⟨b, hb, hqb, hbq, hbefore, hpasses⟩ := searchBias_cases hc hlt h hn
  rw [hpasses]
  have hquot : c.quotient.toNat = iter.toNat := by rw [getIteration_eq_quotient hc hiter]
  simp only [StopsExactly, hquot]
  generalize hq : iter.toNat = q at *
  have hmono : ∀ {i m}, c.offset ≤ i → i ≤ m → m < q →
      c.exitsAfter i = c.exitsAfter c.offset ∨ c.exitsAfter i = c.exitsAfter m := by
    intro i m hi him hm
    apply exitAt_eq hc hiter hneg hi him
    omega
  by_cases hb0 : b = 0
  · subst hb0
    have hcond : (q ≤ 1 ∧ c.exitsAfter 0) := ⟨by omega, hb⟩
    simp [hcond]
  by_cases hbmax : b = 2 ^ 31
  · have hqmax : q = 2 ^ 31 - 1 := by omega
    have h₃ := hbefore (q - 1) (by omega) (by omega)
    have h₄ := hbefore q (by omega) (by omega)
    have hcond : (q = 2 ^ 31 - 1 ∧ ¬ c.exitsAfter (q - 1) ∧ ¬ c.exitsAfter q) := ⟨hqmax, h₃, h₄⟩
    rw [if_pos (.inr hbmax), if_pos (.inr hcond)]
    simp
  -- the search has stopped at a positive count in range
  have hcond : ¬ ((q ≤ 1 ∧ c.exitsAfter 0)
      ∨ (q = 2 ^ 31 - 1 ∧ ¬ c.exitsAfter (q - 1) ∧ ¬ c.exitsAfter q)) := by
    rintro (⟨hq1, h0⟩ | ⟨hqmax, h₃, h₄⟩)
    · exact hbefore 0 (by omega) (by omega) h0
    · have : b = q - 1 ∨ b = q ∨ b = q + 1 := by omega
      rcases this with rfl | rfl | rfl
      · exact h₃ hb
      · exact h₄ hb
      · omega
  rw [if_neg hcond, if_neg (by omega)]
  have hsum : b - c.offset + c.offset = b := by omega
  rw [hsum]
  constructor
  · rintro ⟨hall, -⟩
    by_cases hshort : q ≤ c.offset + 1
    · exact .inl hshort
    · right
      constructor
      · have := hall 0 (by omega)
        rwa [Nat.zero_add] at this
      · have := hall (q - 2 - c.offset) (by omega)
        rwa [Nat.sub_add_cancel (by omega)] at this
  · intro hstop
    refine ⟨?_, hb⟩
    intro k hk
    by_cases hnear : q ≤ k + c.offset + 1
    · apply hbefore _ (by omega) hnear
    · rcases hstop with hshort | ⟨hfirst, hlast⟩
      · omega
      · rcases hmono (i := k + c.offset) (m := q - 2) (by omega) (by omega) (by omega)
          with heq | heq
        · rwa [heq]
        · rwa [heq]

end Counter

namespace LoopFn

variable {F : FloatArith} {L : LoopFn}

/-- The counter of a terminator whose number of iterations could be computed. -/
theorem iterations_eq {t : Terminator} {n : BitVec 32} (h : L.iterations F t = some n)
    (hn : n ≠ -1#32) :
  ∃ c, L.counter t = some c ∧ c.calculateIterations F = some n
  := by
  unfold iterations at h
  split at h
  · cases h
    contradiction
  · rename_i c hc
    use c

end LoopFn

/-! ### A counting loop -/

/-- The loop `for (i = initial; ; i += step)` with a terminator comparing `i` with `limit`. -/
def countingLoop (initial step limit : BitVec 32) (condOp : AluOp) : LoopFn where
  parent
    | 0 => .loadConst (ConstValue.ofI32 initial)
    | 1 => .loadConst (ConstValue.ofI32 step)
    | 2 => .loadConst (ConstValue.ofI32 limit)
    | 3 => .phi [⟨false, 0⟩, ⟨true, 4⟩]
    | 4 => .alu .iadd [3, 1]
    | 5 => .alu condOp [3, 2]
    | _ => .other
  bitSize _ := 32
  outermost := [3, 5, 4]
  nested := []

theorem countingLoop_valid (initial step limit : BitVec 32) (condOp : AluOp) :
  (countingLoop initial step limit condOp).Valid
  := by
  refine ⟨fun _ => rfl, fun _ => rfl, ?_⟩
  intro d srcs s op x y hphi hs halu hself
  match d with
  | 3 =>
      cases hphi
      exact ⟨0, 4, rfl, .inl rfl⟩
  | 0 | 1 | 2 | 4 | 5 | _ + 6 => cases hphi

/-- The run of the counting loop. -/
def countingRun (F : FloatArith) (initial step limit : BitVec 32) (condOp : AluOp)
    (terminators : List Terminator) :
    (countingLoop initial step limit condOp).Run F terminators where
  env k d :=
    let i := ConstValue.ofI32 (Flow.Counter.value initial step k)
    match d with
    | 0 => ConstValue.ofI32 initial
    | 1 => ConstValue.ofI32 step
    | 2 => ConstValue.ofI32 limit
    | 3 => i
    | 4 => evalConstOpcode F .iadd 32 i (ConstValue.ofI32 step)
    | 5 => evalConstOpcode F condOp 32 i (ConstValue.ofI32 limit)
    | _ => 0
  const_eq := by
    intro k d v h
    match d with
    | 0 | 1 | 2 =>
        cases h
        rfl
    | 3 | 4 | 5 | _ + 6 => cases h
  alu_eq := by
    intro k d op x y h _
    match d with
    | 4 | 5 =>
        cases h
        rfl
    | 0 | 1 | 2 | 3 | _ + 6 => cases h
  phi_entry := by
    intro d e b srcs h hsrcs
    match d with
    | 3 =>
        cases h
        rcases hsrcs with hsrcs | hsrcs
        · cases hsrcs
          simp [Flow.Counter.value_zero]
        · cases hsrcs
    | 0 | 1 | 2 | 4 | 5 | _ + 6 => cases h
  phi_continue := by
    intro k d e b srcs h hsrcs
    match d with
    | 3 =>
        cases h
        rcases hsrcs with hsrcs | hsrcs
        · cases hsrcs
          simp [Flow.Counter.value_succ, evalConstOpcode, ConstValue.ofI32]
        · cases hsrcs
    | 0 | 1 | 2 | 4 | 5 | _ + 6 => cases h

/-- A floating-point arithmetic, for loops that do not use any. -/
def noFloats : FloatArith := ⟨fun _ _ _ => 0, fun _ => 0, fun _ _ _ _ => 0⟩

end Nir
