import Mesa.Broadcom.QpuPack

/-!
# Packing and unpacking QPU instructions

What is packed is unpacked again, up to the operands that are exchanged and up to what an operation
does not use.
-/

namespace Broadcom

namespace Qpu

/-! ### Signals -/

theorem sigUnpack_of_index : ∀ n < 32, ∀ sig ∈ v33SigMap[n]?, sigPack sig = some n →
    sig.ucb = false → sig.rotate = false → sigUnpack n = some sig
  := by
  decide

/-- A signal is unpacked again, unless all its flags are in the second byte. -/
theorem sigUnpack_sigPack {sig : Sig} {n : ℕ} (pack : sigPack sig = some n)
    (ucb : sig.ucb = false) (rotate : sig.rotate = false) :
  sigUnpack n = some sig
  := by
  obtain ⟨lt, same, -⟩ := List.findIdx?_eq_some_iff_getElem.1 pack
  apply sigUnpack_of_index n lt sig _ pack ucb rotate
  rw [List.getElem?_eq_getElem lt, of_decide_eq_true same]
  rfl

/-! ### Flags -/

/-- The flags that can be packed together. -/
inductive Flags.Joint : Flags → Prop where
  | apf (apf : Pf) : Joint { apf := apf }
  | auf (auf : Uf) : Joint { auf := auf }
  | mpf (mpf : Pf) : Joint { mpf := mpf }
  | muf (muf : Uf) : Joint { muf := muf }
  | ac (ac : Cond) (mpf : Pf) : Joint { ac := ac, mpf := mpf }
  | mc (mc : Cond) (apf : Pf) : Joint { mc := mc, apf := apf }
  | both (ac mc : Cond) : Joint { ac := ac, mc := mc }
  | update (mc : Cond) (auf : Uf) : Joint { mc := mc, auf := auf }

theorem joint_of_flagsPack {cond : Flags} {n : ℕ} (pack : flagsPack cond = some n) :
  cond.Joint
  := by
  obtain ⟨entry, found, -⟩ := Option.bind_eq_some_iff.1 pack
  have mem := List.mem_of_find?_eq_some found
  have same := List.find?_some found
  clear found pack
  obtain ⟨ac, mc, apf, mpf, auf, muf⟩ := cond
  simp only [flagsTable, List.mem_cons, List.not_mem_nil, or_false] at mem
  -- the flags that are not present are none
  rcases mem with rfl | rfl | rfl | rfl | rfl | rfl | rfl | rfl | rfl | rfl | rfl
  all_goals
    simp only [decide_eq_true_eq, Present.mk.injEq, eq_comm (a := true), eq_comm (a := false),
      decide_eq_false_iff_not, not_not] at same
    obtain ⟨hac, hmc, hapf, hmpf, hauf, hmuf⟩ := same
    subst_vars
    constructor

/-- Flags are unpacked again, unless both operations have a condition and that of the add operation
is not the first one. -/
theorem flagsUnpack_flagsPack {cond : Flags} {n : ℕ} (pack : flagsPack cond = some n)
    (ifa : cond.ac ≠ .none → cond.mc ≠ .none → cond.ac = .ifa) :
  flagsUnpack n = some cond
  := by
  have joint := joint_of_flagsPack pack
  suffices same : (flagsPack cond).bind flagsUnpack = some cond by
    rw [pack] at same
    exact same
  cases joint with
  | apf apf => cases apf <;> rfl
  | auf auf => cases auf <;> rfl
  | mpf mpf => cases mpf <;> rfl
  | muf muf => cases muf <;> rfl
  | ac ac mpf => cases ac <;> cases mpf <;> rfl
  | mc mc apf => cases mc <;> cases apf <;> rfl
  | both ac mc =>
    cases mc with
    | none => cases ac <;> rfl
    | _ =>
      cases ac with
      | none => rfl
      | ifa => rfl
      | _ => cases ifa (by decide) (by decide)
  | update mc auf => cases mc <;> cases auf <;> rfl

/-! ### Normal forms -/

namespace Alu

variable {Op : Type}

/-- The operands are exchanged. -/
def exchange (instr : Alu Op) : Alu Op :=
  { instr with
    a := instr.b
    b := instr.a
    aUnpack := instr.bUnpack
    bUnpack := instr.aUnpack }

/-- What an operation with some number of operands does not use is forgotten. -/
def trim (nsrc : ℕ) (instr : Alu Op) : Alu Op :=
  { instr with
    a := if nsrc < 1 then .r0 else instr.a
    aUnpack := if nsrc < 1 then .none else instr.aUnpack
    b := if nsrc < 2 then .r0 else instr.b
    bUnpack := if nsrc < 2 then .none else instr.bUnpack }

end Alu

/-- The number by which the operands of an operation are ordered. -/
def operandKey (unpack : InputUnpack) (mux : Mux) : ℕ :=
  (float32UnpackPack unpack).getD 0 * 8 + mux.num

/-- Operands that may be exchanged are put in the order that tells the operation apart; this order
does not tell operations of equal operands apart. -/
def ordered (instr : Alu AddOp) : Alu AddOp :=
  let first := operandKey instr.aUnpack instr.a
  let second := operandKey instr.bUnpack instr.b
  match instr.op with
  | .fadd | .fmin => if first > second then instr.exchange else instr
  | .faddnf | .fmax =>
    if first > second then instr
    else if first = second then { instr with op := if instr.op = .faddnf then .fadd else .fmin }
    else instr.exchange
  | _ => instr

/-- What an add operation is, up to the exchange of operands: its unused operands, the write address
of the `stvpm` operations and the output pack of `nop` are forgotten. -/
def addNormal (instr : Alu AddOp) : Alu AddOp :=
  let instr := (ordered instr).trim (addOpNumSrc instr.op)
  { instr with
    waddr := if instr.op = .stvpmv ∨ instr.op = .stvpmd ∨ instr.op = .stvpmp then 0 else instr.waddr
    outputPack := if instr.op = .nop then .none else instr.outputPack }

/-- What a mul operation is: its unused operands and the output pack of `nop` are forgotten. -/
def mulNormal (instr : Alu MulOp) : Alu MulOp :=
  let instr := instr.trim (mulOpNumSrc instr.op)
  { instr with outputPack := if instr.op = .nop then .none else instr.outputPack }

/-! ### Lookups -/

@[simp]
theorem Mux.ofNum_num (m : Mux) :
  Mux.ofNum m.num = m
  := by
  cases m <;> rfl

theorem Mux.num_lt (m : Mux) :
  m.num < 8
  := by
  cases m <;> decide

theorem Mux.num_inj {m m' : Mux} (h : m.num = m'.num) :
  m = m'
  := by
  rw [← Mux.ofNum_num m, h, Mux.ofNum_num]

theorem anymux_mem : ∀ m < 8, (anymux &&& (1 <<< m) != 0) = true
  := by
  decide

/-- An opcode whose first description takes any mux is found whatever the muxes are. -/
theorem lookupOpcode_anymux {Op : Type} {opcodes : List (OpcodeDesc Op)} {opcode : ℕ}
    {desc : OpcodeDesc Op} (found : opcodes.find? (·.inRange opcode) = some desc)
    (maskB : desc.muxBMask = anymux) (maskA : desc.muxAMask = anymux) {muxA muxB : ℕ}
    (hA : muxA < 8) (hB : muxB < 8) :
  lookupOpcode opcodes opcode muxA muxB = some desc
  := by
  induction opcodes with
  | nil => cases found
  | cons first opcodes ih =>
    unfold lookupOpcode
    rw [List.find?_cons] at found ⊢
    cases inRange : first.inRange opcode with
    | true =>
      rw [inRange] at found
      obtain rfl := Option.some.inj found
      have inMasks : first.inMasks muxA muxB = true := by
        unfold OpcodeDesc.inMasks
        rw [maskB, maskA, anymux_mem muxA hA, anymux_mem muxB hB]
        rfl
      rw [inMasks]
      rfl
    | false =>
      rw [inRange] at found
      exact ih found

theorem desc_of_find {Op : Type} [DecidableEq Op] {opcodes : List (OpcodeDesc Op)} {op : Op}
    {desc : OpcodeDesc Op} (found : opcodes.find? (·.op = op) = some desc) :
  desc ∈ opcodes ∧ desc.op = op
  := by
  have same := List.find?_some found
  exact ⟨List.mem_of_find?_eq_some found, of_decide_eq_true same⟩

/-- An operation that is not told apart by the order of its operands is the one that is found. -/
theorem addOpUnpack_of_lookup {fields : OpFields} {desc : OpcodeDesc AddOp}
    (found : lookupOpcode addOps (mapOpcode fields.opcode) fields.muxA fields.muxB = some desc)
    (same : desc.op.reversed = desc.op) :
  addOpUnpack fields = desc.op.withWaddr fields.waddr
  := by
  unfold addOpUnpack
  rw [found]
  change (if _ then desc.op.reversed else desc.op).withWaddr fields.waddr = _
  rw [same, ite_self]

/-! ### Two floats -/

/-- Only some operations have a write address of their own. -/
theorem waddr_of_case {op : AddOp} (case : op.case ≠ .default) (waddr : ℕ) :
  op.packWaddr waddr = waddr ∧ op.withWaddr waddr = some op
  := by
  cases op <;> first | exact ⟨rfl, rfl⟩ | exact absurd rfl case

/-- The opcode of an operation on two floats. -/
def float2Code (first outputPack aUnpack bUnpack : ℕ) : ℕ :=
  first ||| (outputPack <<< 4) ||| (aUnpack <<< 2) ||| bUnpack

/-- The operation by which an operation on two floats is found. -/
def AddOp.base : AddOp → AddOp
  | faddnf => fadd
  | fmax => fmin
  | op => op

/-- What the opcode of an operation on two floats gives back. -/
def Float2 (op : AddOp) (code p x y : ℕ) : Prop :=
  mapOpcode code = code ∧
    ((addOps.find? (·.inRange code)).any fun desc =>
      desc.op = op.base ∧ desc.muxBMask = anymux ∧ desc.muxAMask = anymux) = true ∧
    (code >>> 4) &&& 0x3 = p ∧ (code >>> 2) &&& 0x3 = x ∧ code &&& 0x3 = y

instance (op : AddOp) (code p x y : ℕ) : Decidable (Float2 op code p x y) :=
  inferInstanceAs (Decidable (_ ∧ _))

theorem float2_all : ∀ op ∈ [AddOp.fadd, .faddnf, .fsub, .fmin, .fmax, .fcmp],
    ∀ desc ∈ addOps.filter (·.op = op), ∀ p < 3, ∀ x < 4, ∀ y < 4,
    Float2 op (float2Code desc.opcodeFirst p x y) p x y
  := by
  decide

theorem float2_mem {op : AddOp} (case : op.case = .float2) :
  op ∈ [AddOp.fadd, .faddnf, .fsub, .fmin, .fmax, .fcmp]
  := by
  cases op <;> first | decide | cases case

theorem case_base_reversed {op : AddOp} (case : op.case = .float2) :
  op.base.case = .float2 ∧ op.base.reversed.case = .float2
  := by
  cases op <;> first | exact ⟨rfl, rfl⟩ | cases case

theorem addOpNumSrc_float2 {op : AddOp} (case : op.case = .float2) :
  addOpNumSrc op = 2
  := by
  cases op <;> first | rfl | cases case

/-- The unpacks of floats are unpacked again. -/
theorem float32UnpackUnpack_pack {unpack : InputUnpack} {n : ℕ}
    (pack : float32UnpackPack unpack = some n) :
  n < 4 ∧ float32UnpackUnpack n = some unpack
  := by
  cases unpack <;> cases pack <;> exact ⟨by decide, rfl⟩

theorem outputPack_pack {pack : OutputPack} {n : ℕ} (h : float32PackPack pack = some n) :
  n < 3 ∧ OutputPack.ofNum n = pack
  := by
  cases pack <;> cases h <;> exact ⟨by decide, rfl⟩

/-- The operation on two floats that is unpacked. -/
theorem addFieldsUnpack_float2 {op : AddOp} (case : op.case = .float2) {desc : OpcodeDesc AddOp}
    (mem : desc ∈ addOps) (same : desc.op = op) {p x y : ℕ} {pack : OutputPack}
    {aUnpack bUnpack : InputUnpack} (hp : float32PackPack pack = some p)
    (hx : float32UnpackPack aUnpack = some x) (hy : float32UnpackPack bUnpack = some y)
    (muxA muxB : Mux) (waddr : ℕ) (magicWrite : Bool) (old : Alu AddOp) :
  addFieldsUnpack ⟨float2Code desc.opcodeFirst p x y, muxA.num, muxB.num, waddr⟩ magicWrite old
    = some {
    op := if x * 8 + muxA.num > y * 8 + muxB.num then op.base.reversed else op.base
    a := muxA
    b := muxB
    waddr := waddr
    magicWrite := magicWrite
    outputPack := pack
    aUnpack := aUnpack
    bUnpack := bUnpack }
  := by
  obtain ⟨hp, packed⟩ := outputPack_pack hp
  obtain ⟨hx, aUnpacked⟩ := float32UnpackUnpack_pack hx
  obtain ⟨hy, bUnpacked⟩ := float32UnpackUnpack_pack hy
  have filtered : desc ∈ addOps.filter (·.op = op) :=
    List.mem_filter.2 ⟨mem, decide_eq_true same⟩
  obtain ⟨map, found, h₁, h₂, h₃⟩ := float2_all op (float2_mem case) desc filtered p hp x hx y hy
  generalize float2Code desc.opcodeFirst p x y = code at map found h₁ h₂ h₃
  obtain ⟨base, found, spec⟩ := (Option.any_eq_true _ _).1 found
  obtain ⟨hbase, maskB, maskA⟩ := of_decide_eq_true spec
  have lookup := lookupOpcode_anymux found maskB maskA muxA.num_lt muxB.num_lt
  obtain ⟨caseBase, caseReversed⟩ := case_base_reversed case
  have opUnpack : addOpUnpack ⟨code, muxA.num, muxB.num, waddr⟩
      = some (if x * 8 + muxA.num > y * 8 + muxB.num then op.base.reversed else op.base) := by
    unfold addOpUnpack
    dsimp only
    rw [map, lookup, h₂, h₃]
    change (if _ then base.op.reversed else base.op).withWaddr waddr = _
    rw [hbase]
    split
    · exact (waddr_of_case (by rw [caseReversed]; decide) waddr).2
    · exact (waddr_of_case (by rw [caseBase]; decide) waddr).2
  have caseOp : (if x * 8 + muxA.num > y * 8 + muxB.num then op.base.reversed else op.base).case
      = .float2 := by
    split
    · exact caseReversed
    · exact caseBase
  unfold addFieldsUnpack
  rw [opUnpack]
  dsimp only [bind, Option.bind]
  rw [caseOp, h₁, h₂, h₃, aUnpacked, bUnpacked, packed]
  simp

/-- The fields of an operation on two floats. -/
theorem addFields_float2 {instr : Alu AddOp} (case : instr.op.case = .float2) {fields : OpFields}
    (pack : addFields instr = some fields) :
  ∃ desc ∈ addOps, desc.op = instr.op ∧ ∃ p x y, float32PackPack instr.outputPack = some p ∧
    float32UnpackPack instr.aUnpack = some x ∧ float32UnpackPack instr.bUnpack = some y ∧
    fields =
      if outOfOrder instr.op (decide (x * 8 + instr.a.num > y * 8 + instr.b.num)) then
        ⟨float2Code desc.opcodeFirst p y x, instr.b.num, instr.a.num, instr.waddr⟩
      else ⟨float2Code desc.opcodeFirst p x y, instr.a.num, instr.b.num, instr.waddr⟩
  := by
  obtain ⟨desc, found, pack⟩ := Option.bind_eq_some_iff.1 pack
  obtain ⟨mem, same⟩ := desc_of_find found
  refine ⟨desc, mem, same, ?_⟩
  rw [addOpNumSrc_float2 case, case, (waddr_of_case (by rw [case]; decide) instr.waddr).1] at pack
  obtain ⟨p, hp, pack⟩ := Option.bind_eq_some_iff.1 pack
  obtain ⟨x, hx, pack⟩ := Option.bind_eq_some_iff.1 pack
  obtain ⟨y, hy, pack⟩ := Option.bind_eq_some_iff.1 pack
  refine ⟨p, x, y, hp, hx, hy, ?_⟩
  change (if outOfOrder instr.op (decide (x * 8 + instr.a.num > y * 8 + instr.b.num)) = true then
      some ⟨float2Code desc.opcodeFirst p y x, instr.b.num, instr.a.num, instr.waddr⟩
    else some ⟨float2Code desc.opcodeFirst p x y, instr.a.num, instr.b.num, instr.waddr⟩)
      = some fields at pack
  rw [← apply_ite some] at pack
  exact (Option.some.inj pack).symm

theorem operandKey_eq {unpack : InputUnpack} {x : ℕ} (h : float32UnpackPack unpack = some x)
    (mux : Mux) :
  operandKey unpack mux = x * 8 + mux.num
  := by
  rw [operandKey, h]
  rfl

/-- Operands with the same key are the same. -/
theorem eq_of_key_eq {unpack unpack' : InputUnpack} {x x' : ℕ}
    (h : float32UnpackPack unpack = some x) (h' : float32UnpackPack unpack' = some x')
    {mux mux' : Mux} (same : x * 8 + mux.num = x' * 8 + mux'.num) :
  unpack = unpack' ∧ mux = mux'
  := by
  have lt := mux.num_lt
  have lt' := mux'.num_lt
  have codes : x = x' := by omega
  have nums : mux.num = mux'.num := by omega
  obtain ⟨-, back⟩ := float32UnpackUnpack_pack h
  obtain ⟨-, back'⟩ := float32UnpackUnpack_pack h'
  rw [codes, back'] at back
  exact ⟨(Option.some.inj back).symm, Mux.num_inj nums⟩

/-- Different operands of an operation that is told apart by their order may be exchanged. -/
theorem addNormal_exchange {instr : Alu AddOp}
    (commutes : instr.op ∈ [AddOp.fadd, .faddnf, .fmin, .fmax])
    (different : operandKey instr.aUnpack instr.a ≠ operandKey instr.bUnpack instr.b) :
  addNormal instr.exchange = addNormal instr
  := by
  have same : ordered instr.exchange = ordered instr := by
    obtain ⟨op, muxA, muxB, waddr, magicWrite, outputPack, aUnpack, bUnpack⟩ := instr
    simp only [List.mem_cons, List.not_mem_nil, or_false] at commutes
    dsimp only at different
    rcases Nat.lt_or_gt_of_ne different with lt | gt
    · have asymm := Nat.lt_asymm lt
      rcases commutes with rfl | rfl | rfl | rfl
      all_goals simp [ordered, Alu.exchange, lt, asymm, different]
    · have asymm := Nat.lt_asymm gt
      rcases commutes with rfl | rfl | rfl | rfl
      all_goals simp [ordered, Alu.exchange, gt, asymm, different.symm]
  unfold addNormal
  rw [same]
  rfl

/-- An operation on two floats is unpacked again, up to the exchange of its operands. -/
theorem add_roundTrip_float2 {instr : Alu AddOp} (case : instr.op.case = .float2)
    {fields : OpFields} (pack : addFields instr = some fields) (old : Alu AddOp) :
  ∃ instr', addFieldsUnpack fields instr.magicWrite old = some instr' ∧
    addNormal instr' = addNormal instr
  := by
  obtain ⟨desc, mem, same, p, x, y, hp, hx, hy, rfl⟩ := addFields_float2 case pack
  have ops := float2_mem case
  obtain ⟨op, muxA, muxB, waddr, magicWrite, outputPack, aUnpack, bUnpack⟩ := instr
  dsimp only at *
  have straight := addFieldsUnpack_float2 case mem same hp hx hy muxA muxB waddr magicWrite old
  have crossed := addFieldsUnpack_float2 case mem same hp hy hx muxB muxA waddr magicWrite old
  have keyA := operandKey_eq hx muxA
  have keyB := operandKey_eq hy muxB
  have exchanged : ∀ op ∈ [AddOp.fadd, .faddnf, .fmin, .fmax],
      x * 8 + muxA.num ≠ y * 8 + muxB.num →
      addNormal ⟨op, muxB, muxA, waddr, magicWrite, outputPack, bUnpack, aUnpack⟩
        = addNormal ⟨op, muxA, muxB, waddr, magicWrite, outputPack, aUnpack, bUnpack⟩ := by
    intro op commutes different
    rw [← keyA, ← keyB] at different
    exact @addNormal_exchange ⟨op, muxA, muxB, waddr, magicWrite, outputPack, aUnpack, bUnpack⟩
      commutes different
  simp only [List.mem_cons, List.not_mem_nil, or_false] at ops
  rcases Nat.lt_trichotomy (x * 8 + muxA.num) (y * 8 + muxB.num) with lt | eq | gt
  · have notGt := Nat.lt_asymm lt
    rw [if_neg notGt] at straight
    rw [if_pos lt] at crossed
    rw [decide_eq_false notGt]
    rcases ops with rfl | rfl | rfl | rfl | rfl | rfl
    · exact ⟨_, straight, rfl⟩
    · exact ⟨_, crossed, exchanged _ (by decide) (Nat.ne_of_lt lt)⟩
    · exact ⟨_, straight, rfl⟩
    · exact ⟨_, straight, rfl⟩
    · exact ⟨_, crossed, exchanged _ (by decide) (Nat.ne_of_lt lt)⟩
    · exact ⟨_, straight, rfl⟩
  · -- the order does not tell the operations apart
    obtain ⟨rfl, rfl⟩ := eq_of_key_eq hx hy eq
    have notGt := Nat.not_lt_of_ge (Nat.le_of_eq eq)
    have notLt := Nat.not_lt_of_ge (Nat.le_of_eq eq.symm)
    rw [if_neg notGt] at straight
    rw [if_neg notLt] at crossed
    rw [decide_eq_false notGt]
    rcases ops with rfl | rfl | rfl | rfl | rfl | rfl
    · exact ⟨_, straight, rfl⟩
    · refine ⟨_, crossed, ?_⟩
      simp [addNormal, ordered, AddOp.base, Alu.trim, addOpNumSrc]
    · exact ⟨_, straight, rfl⟩
    · exact ⟨_, straight, rfl⟩
    · refine ⟨_, crossed, ?_⟩
      simp [addNormal, ordered, AddOp.base, Alu.trim, addOpNumSrc]
    · exact ⟨_, straight, rfl⟩
  · have notLt := Nat.lt_asymm gt
    rw [if_pos gt] at straight
    rw [if_neg notLt] at crossed
    rw [decide_eq_true gt]
    rcases ops with rfl | rfl | rfl | rfl | rfl | rfl
    · exact ⟨_, crossed, exchanged _ (by decide) (Nat.ne_of_gt gt)⟩
    · exact ⟨_, straight, rfl⟩
    · exact ⟨_, straight, rfl⟩
    · exact ⟨_, crossed, exchanged _ (by decide) (Nat.ne_of_gt gt)⟩
    · exact ⟨_, straight, rfl⟩
    · exact ⟨_, straight, rfl⟩

/-! ### Other add operations -/

theorem ordered_of_case {instr : Alu AddOp} (case : instr.op.case ≠ .float2) :
  ordered instr = instr
  := by
  obtain ⟨op, muxA, muxB, waddr, magicWrite, outputPack, aUnpack, bUnpack⟩ := instr
  cases op <;> first | rfl | exact absurd rfl case

/-- The first mux does not matter if the descriptions of the opcode take any. -/
theorem lookupOpcode_muxA {Op : Type} {opcodes : List (OpcodeDesc Op)} {opcode : ℕ}
    (maskA : ∀ desc ∈ opcodes, desc.inRange opcode = true → desc.muxAMask = anymux) {muxA : ℕ}
    (hA : muxA < 8) (muxB : ℕ) :
  lookupOpcode opcodes opcode muxA muxB = lookupOpcode opcodes opcode 0 muxB
  := by
  induction opcodes with
  | nil => rfl
  | cons desc opcodes ih =>
    have rest := ih fun desc mem => maskA desc (List.mem_cons_of_mem _ mem)
    have same : (desc.inRange opcode && desc.inMasks muxA muxB)
        = (desc.inRange opcode && desc.inMasks 0 muxB) := by
      cases inRange : desc.inRange opcode with
      | false => rfl
      | true =>
        unfold OpcodeDesc.inMasks
        rw [maskA desc List.mem_cons_self inRange, anymux_mem muxA hA, anymux_mem 0 (by decide)]
    unfold lookupOpcode at rest ⊢
    rw [List.find?_cons, List.find?_cons, same, rest]

/-- What the fields of an operation on one float give back. -/
def Float1 (op : AddOp) (code muxB x : ℕ) : Prop :=
  (∀ desc ∈ addOps, desc.inRange (mapOpcode code) = true → desc.muxAMask = anymux) ∧
    (lookupOpcode addOps (mapOpcode code) 0 muxB).any (·.op = op) = true ∧
    (code >>> 2) &&& 0x3 = x

instance (op : AddOp) (code muxB x : ℕ) : Decidable (Float1 op code muxB x) :=
  inferInstanceAs (Decidable (_ ∧ _))

theorem float1_all : ∀ op ∈ [AddOp.ffloor, .fround, .ftrunc, .fceil, .fdx, .fdy],
    ∀ desc ∈ addOps.filter (·.op = op), ∀ x ∈ [1, 3], ∀ p < 3,
    Float1 op (desc.opcodeFirst ||| (x <<< 2)) ((ffs desc.muxBMask - 1) ||| p) x ∧
      ((ffs desc.muxBMask - 1) ||| p) &&& 0x3 = p
  := by
  decide

theorem toInt_all : ∀ op ∈ [AddOp.ftoin, .ftoiz, .ftouz, .ftoc],
    ∀ desc ∈ addOps.filter (·.op = op), ∀ x ∈ [1, 3],
    Float1 op (desc.opcodeFirst ||| (x <<< 2)) (ffs desc.muxBMask - 1) x
  := by
  decide

/-- The operation on one float that is found. -/
theorem Float1.addOpUnpack {op : AddOp} {code muxB x : ℕ} (h : Float1 op code muxB x)
    (case : op.case = .float1 ∨ op.case = .toInt) {muxA : ℕ} (hA : muxA < 8) (waddr : ℕ) :
  addOpUnpack ⟨code, muxA, muxB, waddr⟩ = some op
  := by
  obtain ⟨masks, found, -⟩ := h
  obtain ⟨desc, lookup, same⟩ := (Option.any_eq_true _ _).1 found
  obtain rfl := of_decide_eq_true same
  rw [← lookupOpcode_muxA masks hA] at lookup
  have notDefault : desc.op.case ≠ .default := by
    rcases case with case | case <;> rw [case] <;> decide
  have straight : desc.op.reversed = desc.op := by
    generalize desc.op = op at case
    cases op <;> first | rfl | (rcases case with case | case <;> cases case)
  rw [@addOpUnpack_of_lookup ⟨code, muxA, muxB, waddr⟩ desc lookup straight]
  exact (waddr_of_case notDefault waddr).2

theorem float1_mem {op : AddOp} (case : op.case = .float1) :
  op ∈ [AddOp.ffloor, .fround, .ftrunc, .fceil, .fdx, .fdy]
  := by
  cases op <;> first | decide | cases case

theorem toInt_mem {op : AddOp} (case : op.case = .toInt) :
  op ∈ [AddOp.ftoin, .ftoiz, .ftouz, .ftoc]
  := by
  cases op <;> first | decide | cases case

theorem addOpNumSrc_float1 {op : AddOp} (case : op.case = .float1 ∨ op.case = .toInt) :
  addOpNumSrc op = 1
  := by
  cases op <;> first | rfl | (rcases case with case | case <;> cases case)

/-- The unpacks of one float that are unpacked again. -/
theorem float1_unpack {unpack : InputUnpack} {x : ℕ} (h : float32UnpackPack unpack = some x)
    (notZero : x ≠ 0) (notL : unpack ≠ .l) :
  x ∈ [1, 3]
  := by
  cases unpack <;> cases h <;> first | decide | exact absurd rfl notZero | exact absurd rfl notL

/-- An operation on one float is unpacked again, unless it takes the lower half of its operand. -/
theorem add_roundTrip_float1 {instr : Alu AddOp} (case : instr.op.case = .float1)
    (notL : instr.aUnpack ≠ .l) {fields : OpFields} (pack : addFields instr = some fields)
    (old : Alu AddOp) :
  ∃ instr', addFieldsUnpack fields instr.magicWrite old = some instr' ∧
    addNormal instr' = addNormal instr
  := by
  have nsrc := addOpNumSrc_float1 (.inl case)
  have waddr := (waddr_of_case (by rw [case]; decide) instr.waddr).1
  obtain ⟨desc, found, pack⟩ := Option.bind_eq_some_iff.1 pack
  obtain ⟨mem, same⟩ := desc_of_find found
  rw [nsrc, case, waddr] at pack
  obtain ⟨p, hp, pack⟩ := Option.bind_eq_some_iff.1 pack
  obtain ⟨x, hx, pack⟩ := Option.bind_eq_some_iff.1 pack
  split at pack
  · cases pack
  rename_i notZero
  obtain rfl := Option.some.inj pack
  obtain ⟨hp, packed⟩ := outputPack_pack hp
  have filtered : desc ∈ addOps.filter (·.op = instr.op) :=
    List.mem_filter.2 ⟨mem, decide_eq_true same⟩
  obtain ⟨float1, muxB⟩ := float1_all _ (float1_mem case) desc filtered x
    (float1_unpack hx notZero notL) p hp
  obtain ⟨-, unpacked⟩ := float32UnpackUnpack_pack hx
  have op := float1.addOpUnpack (.inl case) instr.a.num_lt instr.waddr
  refine ⟨{ instr with b := Mux.ofNum ((ffs desc.muxBMask - 1) ||| p), bUnpack := old.bUnpack },
    ?_, ?_⟩
  · change addFieldsUnpack ⟨desc.opcodeFirst ||| (x <<< 2), instr.a.num,
      (ffs desc.muxBMask - 1) ||| p, instr.waddr⟩ _ _ = _
    unfold addFieldsUnpack
    rw [op]
    dsimp only [bind, Option.bind]
    rw [case, float1.2.2, unpacked, muxB, packed]
    simp
  · unfold addNormal
    dsimp only
    rw [ordered_of_case (by rw [case]; decide), ordered_of_case (by rw [case]; decide), nsrc]
    rfl

/-- A conversion to integers is unpacked again, unless it takes the lower half of its operand. -/
theorem add_roundTrip_toInt {instr : Alu AddOp} (case : instr.op.case = .toInt)
    (notL : instr.aUnpack ≠ .l) {fields : OpFields} (pack : addFields instr = some fields)
    (old : Alu AddOp) :
  ∃ instr', addFieldsUnpack fields instr.magicWrite old = some instr' ∧
    addNormal instr' = addNormal instr
  := by
  have nsrc := addOpNumSrc_float1 (.inr case)
  have waddr := (waddr_of_case (by rw [case]; decide) instr.waddr).1
  obtain ⟨desc, found, pack⟩ := Option.bind_eq_some_iff.1 pack
  obtain ⟨mem, same⟩ := desc_of_find found
  rw [nsrc, case, waddr] at pack
  dsimp only at pack
  split at pack
  · cases pack
  rename_i noPack
  obtain ⟨x, hx, pack⟩ := Option.bind_eq_some_iff.1 pack
  split at pack
  · cases pack
  rename_i notZero
  obtain rfl := Option.some.inj pack
  have filtered : desc ∈ addOps.filter (·.op = instr.op) :=
    List.mem_filter.2 ⟨mem, decide_eq_true same⟩
  have float1 := toInt_all _ (toInt_mem case) desc filtered x (float1_unpack hx notZero notL)
  obtain ⟨-, unpacked⟩ := float32UnpackUnpack_pack hx
  have op := float1.addOpUnpack (.inr case) instr.a.num_lt instr.waddr
  refine ⟨{ instr with b := Mux.ofNum (ffs desc.muxBMask - 1), bUnpack := old.bUnpack }, ?_, ?_⟩
  · change addFieldsUnpack ⟨desc.opcodeFirst ||| (x <<< 2), instr.a.num,
      ffs desc.muxBMask - 1, instr.waddr⟩ _ _ = _
    unfold addFieldsUnpack
    rw [op]
    dsimp only [bind, Option.bind]
    rw [case, float1.2.2, unpacked]
    simp [not_not.1 noPack]
  · unfold addNormal
    dsimp only
    rw [ordered_of_case (by rw [case]; decide), ordered_of_case (by rw [case]; decide), nsrc]
    rfl

theorem half_all : ∀ op ∈ [AddOp.vfmin, .vfmax], ∀ desc ∈ addOps.filter (·.op = op), ∀ x < 5,
    mapOpcode (desc.opcodeFirst ||| x) = desc.opcodeFirst ||| x ∧
      (addOps.find? (·.inRange (desc.opcodeFirst ||| x))).any (fun desc =>
        desc.op = op ∧ desc.muxBMask = anymux ∧ desc.muxAMask = anymux) = true ∧
      (desc.opcodeFirst ||| x) &&& 0x7 = x
  := by
  decide

theorem half_mem {op : AddOp} (case : op.case = .half) :
  op ∈ [AddOp.vfmin, .vfmax] ∧ addOpNumSrc op = 2 ∧ op.reversed = op
  := by
  cases op <;> first | decide | cases case

theorem float16UnpackUnpack_pack {unpack : InputUnpack} {n : ℕ}
    (pack : float16UnpackPack unpack = some n) :
  n < 5 ∧ float16UnpackUnpack n = some unpack
  := by
  cases unpack <;> cases pack <;> exact ⟨by decide, rfl⟩

/-- An operation on pairs of half floats is unpacked again. -/
theorem add_roundTrip_half {instr : Alu AddOp} (case : instr.op.case = .half) {fields : OpFields}
    (pack : addFields instr = some fields) (old : Alu AddOp) :
  addFieldsUnpack fields instr.magicWrite old = some instr
  := by
  obtain ⟨ops, nsrc, straight⟩ := half_mem case
  have waddr := waddr_of_case (by rw [case]; decide) instr.waddr
  obtain ⟨desc, found, pack⟩ := Option.bind_eq_some_iff.1 pack
  obtain ⟨mem, same⟩ := desc_of_find found
  rw [nsrc, case, waddr.1] at pack
  dsimp only at pack
  split at pack
  · cases pack
  rename_i noPack
  obtain ⟨noOutput, noB⟩ := not_or.1 noPack
  obtain ⟨x, hx, pack⟩ := Option.bind_eq_some_iff.1 pack
  obtain rfl := Option.some.inj pack
  obtain ⟨hx, unpacked⟩ := float16UnpackUnpack_pack hx
  have filtered : desc ∈ addOps.filter (·.op = instr.op) :=
    List.mem_filter.2 ⟨mem, decide_eq_true same⟩
  obtain ⟨map, range, code⟩ := half_all _ ops desc filtered x hx
  obtain ⟨desc', range, spec⟩ := (Option.any_eq_true _ _).1 range
  obtain ⟨sameOp, maskB, maskA⟩ := of_decide_eq_true spec
  have lookup := lookupOpcode_anymux range maskB maskA instr.a.num_lt instr.b.num_lt
  rw [← map] at lookup
  rw [← sameOp] at straight
  have op := @addOpUnpack_of_lookup
    ⟨desc.opcodeFirst ||| x, instr.a.num, instr.b.num, instr.waddr⟩ desc' lookup straight
  rw [sameOp] at op
  change addFieldsUnpack ⟨desc.opcodeFirst ||| x, instr.a.num, instr.b.num, instr.waddr⟩ _ _ = _
  unfold addFieldsUnpack
  rw [op]
  dsimp only
  rw [waddr.2]
  dsimp only [bind, Option.bind]
  rw [case, code, unpacked, Mux.ofNum_num, Mux.ofNum_num]
  have unchanged : { instr with outputPack := .none, bUnpack := .none } = instr := by
    rw [← not_not.1 noOutput, ← not_not.1 noB]
  exact congrArg some unchanged

/-- The operation by which an operation is found. -/
def AddOp.found : AddOp → AddOp
  | stvpmd | stvpmp => stvpmv
  | op => op

/-- The write address tells the operations apart that are found by the same one. -/
theorem found_of_default {op : AddOp} (case : op.case = .default) (waddr : ℕ) :
  op.found.withWaddr (op.packWaddr waddr) = some op ∧ op.found.reversed = op.found
  := by
  cases op <;> first | exact ⟨rfl, rfl⟩ | cases case

/-- The description of an operation with some number of operands is found again. -/
def Default (desc : OpcodeDesc AddOp) : Prop :=
  mapOpcode desc.opcodeFirst = desc.opcodeFirst ∧
    (addOpNumSrc desc.op = 0 → (lookupOpcode addOps desc.opcodeFirst (ffs desc.muxAMask - 1)
      (ffs desc.muxBMask - 1)).any (·.op = desc.op.found) = true) ∧
    (addOpNumSrc desc.op = 1 → ∀ muxA < 8, (lookupOpcode addOps desc.opcodeFirst muxA
      (ffs desc.muxBMask - 1)).any (·.op = desc.op.found) = true) ∧
    (addOpNumSrc desc.op = 2 → (addOps.find? (·.inRange desc.opcodeFirst)).any (fun desc' =>
      desc'.op = desc.op.found ∧ desc'.muxBMask = anymux ∧ desc'.muxAMask = anymux) = true)

instance (desc : OpcodeDesc AddOp) : Decidable (Default desc) :=
  inferInstanceAs (Decidable (_ ∧ _))

theorem default_all : ∀ desc ∈ addOps, desc.op.case = .default → Default desc
  := by
  decide

theorem addOpNumSrc_le (op : AddOp) :
  addOpNumSrc op = 0 ∨ addOpNumSrc op = 1 ∨ addOpNumSrc op = 2
  := by
  cases op <;> decide

/-- The other operations are found again. -/
theorem addOpUnpack_default {instr : Alu AddOp} (case : instr.op.case = .default)
    {desc : OpcodeDesc AddOp} (mem : desc ∈ addOps) (same : desc.op = instr.op) :
  addOpUnpack {
    opcode := desc.opcodeFirst
    muxA := if addOpNumSrc instr.op < 1 then ffs desc.muxAMask - 1 else instr.a.num
    muxB := if addOpNumSrc instr.op < 2 then ffs desc.muxBMask - 1 else instr.b.num
    waddr := instr.op.packWaddr instr.waddr } = some instr.op
  := by
  rw [← same] at case
  obtain ⟨map, h₀, h₁, h₂⟩ := default_all desc mem case
  obtain ⟨waddr, straight⟩ := found_of_default case instr.waddr
  have lookup : ∃ desc', desc'.op = desc.op.found ∧ lookupOpcode addOps desc.opcodeFirst
      (if addOpNumSrc desc.op < 1 then ffs desc.muxAMask - 1 else instr.a.num)
      (if addOpNumSrc desc.op < 2 then ffs desc.muxBMask - 1 else instr.b.num) = some desc' := by
    rcases addOpNumSrc_le desc.op with nsrc | nsrc | nsrc
    · obtain ⟨desc', found, op⟩ := (Option.any_eq_true _ _).1 (h₀ nsrc)
      rw [nsrc]
      exact ⟨desc', of_decide_eq_true op, found⟩
    · obtain ⟨desc', found, op⟩ := (Option.any_eq_true _ _).1 (h₁ nsrc instr.a.num instr.a.num_lt)
      rw [nsrc]
      exact ⟨desc', of_decide_eq_true op, found⟩
    · obtain ⟨desc', range, spec⟩ := (Option.any_eq_true _ _).1 (h₂ nsrc)
      obtain ⟨op, maskB, maskA⟩ := of_decide_eq_true spec
      rw [nsrc]
      exact ⟨desc', op, lookupOpcode_anymux range maskB maskA instr.a.num_lt instr.b.num_lt⟩
  obtain ⟨desc', op, lookup⟩ := lookup
  rw [← same]
  generalize (if addOpNumSrc desc.op < 1 then ffs desc.muxAMask - 1 else instr.a.num) = muxA
    at lookup ⊢
  generalize (if addOpNumSrc desc.op < 2 then ffs desc.muxBMask - 1 else instr.b.num) = muxB
    at lookup ⊢
  rw [← map] at lookup
  rw [← op] at waddr straight
  rw [@addOpUnpack_of_lookup ⟨desc.opcodeFirst, muxA, muxB, _⟩ desc' lookup straight]
  exact waddr

theorem trim_mux (unused : Prop) [Decidable unused] (n : ℕ) (mux : Mux) :
  (if unused then .r0 else Mux.ofNum (if unused then n else mux.num))
    = if unused then .r0 else mux
  := by
  split
  · rfl
  · exact Mux.ofNum_num mux

theorem trim_waddr (op : AddOp) (waddr : ℕ) :
  (if op = .stvpmv ∨ op = .stvpmd ∨ op = .stvpmp then 0 else op.packWaddr waddr)
    = if op = .stvpmv ∨ op = .stvpmd ∨ op = .stvpmp then 0 else waddr
  := by
  cases op <;> rfl

/-- The other operations are unpacked again. -/
theorem add_roundTrip_default {instr : Alu AddOp} (case : instr.op.case = .default)
    {fields : OpFields} (pack : addFields instr = some fields) (old : Alu AddOp) :
  ∃ instr', addFieldsUnpack fields instr.magicWrite old = some instr' ∧
    addNormal instr' = addNormal instr
  := by
  obtain ⟨desc, found, pack⟩ := Option.bind_eq_some_iff.1 pack
  obtain ⟨mem, same⟩ := desc_of_find found
  rw [case] at pack
  dsimp only at pack
  split at pack
  · cases pack
  rename_i noPack
  obtain rfl := Option.some.inj pack
  have op := addOpUnpack_default case mem same
  unfold addFieldsUnpack
  rw [op]
  dsimp only [bind, Option.bind]
  rw [case]
  refine ⟨_, rfl, ?_⟩
  have packs : instr.op = .nop ∨
      (instr.outputPack = .none ∧ instr.aUnpack = .none ∧ instr.bUnpack = .none) := by
    rcases Classical.em (instr.op = .nop) with nop | notNop
    · exact .inl nop
    · obtain ⟨output, inputs⟩ := not_or.1 (not_and.1 noPack notNop)
      obtain ⟨first, second⟩ := not_or.1 inputs
      exact .inr ⟨not_not.1 output, not_not.1 first, not_not.1 second⟩
  unfold addNormal
  rw [ordered_of_case (by exact ne_of_eq_of_ne case (by decide)),
    ordered_of_case (by exact ne_of_eq_of_ne case (by decide))]
  apply Alu.ext
  · rfl
  · exact trim_mux _ _ _
  · exact trim_mux _ _ _
  · exact trim_waddr _ _
  · rfl
  · change (if instr.op = .nop then OutputPack.none else .none)
      = if instr.op = .nop then _ else instr.outputPack
    rcases packs with nop | packs
    · rw [if_pos nop, if_pos nop]
    · rw [packs.1]
  · change (if addOpNumSrc instr.op < 1 then InputUnpack.none else .none)
      = if addOpNumSrc instr.op < 1 then _ else instr.aUnpack
    rcases packs with nop | packs
    · rw [nop]
      rfl
    · rw [packs.2.1]
  · change (if addOpNumSrc instr.op < 2 then InputUnpack.none else .none)
      = if addOpNumSrc instr.op < 2 then _ else instr.bUnpack
    rcases packs with nop | packs
    · rw [nop]
      rfl
    · rw [packs.2.2]

/-- An add operation is unpacked again, unless it takes the lower half of a single float. -/
theorem add_roundTrip {instr : Alu AddOp}
    (notL : instr.op.case = .float1 ∨ instr.op.case = .toInt → instr.aUnpack ≠ .l)
    {fields : OpFields} (pack : addFields instr = some fields) (old : Alu AddOp) :
  ∃ instr', addFieldsUnpack fields instr.magicWrite old = some instr' ∧
    addNormal instr' = addNormal instr
  := by
  cases case : instr.op.case with
  | float2 => exact add_roundTrip_float2 case pack old
  | float1 => exact add_roundTrip_float1 case (notL (.inl case)) pack old
  | toInt => exact add_roundTrip_toInt case (notL (.inr case)) pack old
  | half => exact ⟨instr, add_roundTrip_half case pack old, rfl⟩
  | default => exact add_roundTrip_default case pack old

/-! ### The mul operation -/

/-- The packs that a mul operation does not encode are not used. -/
def MulPlain (instr : Alu MulOp) : Prop :=
  instr.op ≠ .fmul → instr.op ≠ .fmov → instr.op ≠ .nop →
    instr.outputPack = .none ∧ instr.aUnpack = .none ∧ instr.bUnpack = .none

/-- The opcode of a float multiplication. -/
def fmulCode (p x y : ℕ) : ℕ := (16 + (p <<< 4)) ||| (x <<< 2) ||| y

theorem fmul_all : ∀ p < 3, ∀ x < 4, ∀ y < 4,
    (mulOps.find? (·.inRange (fmulCode p x y))).any (fun desc =>
      desc.op = .fmul ∧ desc.muxBMask = anymux ∧ desc.muxAMask = anymux) = true ∧
    ((fmulCode p x y >>> 4) &&& 0x3) - 1 = p ∧ (fmulCode p x y >>> 2) &&& 0x3 = x ∧
    fmulCode p x y &&& 0x3 = y
  := by
  decide

/-- The opcode and the second mux of a float move. -/
def fmovCode (p : ℕ) : ℕ := 14 ||| ((p >>> 1) &&& 1)

def fmovMux (p x : ℕ) : ℕ := ((p &&& 1) <<< 2) ||| x

theorem fmov_all : ∀ p < 3, ∀ x < 4,
    (∀ muxA < 8, (lookupOpcode mulOps (fmovCode p) muxA (fmovMux p x)).any (·.op = .fmov) = true) ∧
    ((fmovCode p &&& 1) <<< 1) + ((fmovMux p x >>> 2) &&& 1) = p ∧ fmovMux p x &&& 0x3 = x
  := by
  decide

/-- The other mul operations are found again. -/
theorem mulDefault_all : ∀ desc ∈ mulOps, desc.op ≠ .fmul → desc.op ≠ .fmov →
    ∀ muxA < 8, ∀ muxB < 8, (lookupOpcode mulOps desc.opcodeFirst
      (if mulOpNumSrc desc.op < 1 then ffs desc.muxAMask - 1 else muxA)
      (if mulOpNumSrc desc.op < 2 then ffs desc.muxBMask - 1 else muxB)).any (·.op = desc.op) = true
  := by
  decide

/-- A float multiplication is unpacked again. -/
theorem mul_roundTrip_fmul {instr : Alu MulOp} (fmul : instr.op = .fmul) {fields : OpFields}
    (pack : mulFields instr = some fields) (old : Alu MulOp) :
  mulFieldsUnpack fields instr.magicWrite old = some instr
  := by
  obtain ⟨op, muxA, muxB, waddr, magicWrite, outputPack, aUnpack, bUnpack⟩ := instr
  obtain rfl := fmul
  obtain ⟨p, hp, pack⟩ := Option.bind_eq_some_iff.1 pack
  obtain ⟨x, hx, pack⟩ := Option.bind_eq_some_iff.1 pack
  obtain ⟨y, hy, pack⟩ := Option.bind_eq_some_iff.1 pack
  obtain rfl := Option.some.inj pack
  obtain ⟨hp, packed⟩ := outputPack_pack hp
  obtain ⟨hx, aUnpacked⟩ := float32UnpackUnpack_pack hx
  obtain ⟨hy, bUnpacked⟩ := float32UnpackUnpack_pack hy
  obtain ⟨range, h₁, h₂, h₃⟩ := fmul_all p hp x hx y hy
  obtain ⟨desc, range, spec⟩ := (Option.any_eq_true _ _).1 range
  obtain ⟨op, maskB, maskA⟩ := of_decide_eq_true spec
  have lookup := lookupOpcode_anymux range maskB maskA muxA.num_lt muxB.num_lt
  change mulFieldsUnpack ⟨fmulCode p x y, muxA.num, muxB.num, waddr⟩ magicWrite old = _
  unfold mulFieldsUnpack
  dsimp only
  rw [lookup]
  dsimp only [bind, Option.bind]
  rw [op]
  dsimp only
  rw [h₁, h₂, h₃, aUnpacked, bUnpacked, packed, Mux.ofNum_num, Mux.ofNum_num]
  rfl

/-- A float move is unpacked again. -/
theorem mul_roundTrip_fmov {instr : Alu MulOp} (fmov : instr.op = .fmov) {fields : OpFields}
    (pack : mulFields instr = some fields) (old : Alu MulOp) :
  ∃ instr', mulFieldsUnpack fields instr.magicWrite old = some instr' ∧
    mulNormal instr' = mulNormal instr
  := by
  obtain ⟨op, muxA, muxB, waddr, magicWrite, outputPack, aUnpack, bUnpack⟩ := instr
  obtain rfl := fmov
  obtain ⟨p, hp, pack⟩ := Option.bind_eq_some_iff.1 pack
  obtain ⟨x, hx, pack⟩ := Option.bind_eq_some_iff.1 pack
  obtain rfl := Option.some.inj pack
  obtain ⟨hp, packed⟩ := outputPack_pack hp
  obtain ⟨hx, unpacked⟩ := float32UnpackUnpack_pack hx
  obtain ⟨found, h₁, h₂⟩ := fmov_all p hp x hx
  obtain ⟨desc, lookup, op⟩ := (Option.any_eq_true _ _).1 (found muxA.num muxA.num_lt)
  refine ⟨⟨.fmov, muxA, Mux.ofNum (fmovMux p x), waddr, magicWrite, outputPack, aUnpack,
    old.bUnpack⟩, ?_, rfl⟩
  change mulFieldsUnpack ⟨fmovCode p, muxA.num, fmovMux p x, waddr⟩ magicWrite old = _
  unfold mulFieldsUnpack
  dsimp only
  rw [lookup]
  dsimp only [bind, Option.bind]
  rw [of_decide_eq_true op]
  dsimp only
  rw [h₁, h₂, unpacked, packed, Mux.ofNum_num]
  rfl

theorem mulFields_default {instr : Alu MulOp} (notFmul : instr.op ≠ .fmul)
    (notFmov : instr.op ≠ .fmov) :
  mulFields instr = (mulOps.find? (·.op = instr.op)).bind fun desc => some {
    opcode := desc.opcodeFirst
    muxA := if mulOpNumSrc instr.op < 1 then ffs desc.muxAMask - 1 else instr.a.num
    muxB := if mulOpNumSrc instr.op < 2 then ffs desc.muxBMask - 1 else instr.b.num
    waddr := instr.waddr }
  := by
  obtain ⟨op, muxA, muxB, waddr, magicWrite, outputPack, aUnpack, bUnpack⟩ := instr
  cases op <;> first | rfl | exact absurd rfl notFmul | exact absurd rfl notFmov

theorem mulFieldsUnpack_default {fields : OpFields} {desc : OpcodeDesc MulOp}
    (lookup : lookupOpcode mulOps fields.opcode fields.muxA fields.muxB = some desc)
    (notFmul : desc.op ≠ .fmul) (notFmov : desc.op ≠ .fmov) (magicWrite : Bool)
    (old : Alu MulOp) :
  mulFieldsUnpack fields magicWrite old = some {
    op := desc.op
    a := Mux.ofNum fields.muxA
    b := Mux.ofNum fields.muxB
    waddr := fields.waddr
    magicWrite := magicWrite }
  := by
  unfold mulFieldsUnpack
  rw [lookup]
  obtain ⟨first, last, maskB, maskA, op⟩ := desc
  cases op <;> first | rfl | exact absurd rfl notFmul | exact absurd rfl notFmov

/-- The other mul operations are unpacked again. -/
theorem mul_roundTrip_default {instr : Alu MulOp} (notFmul : instr.op ≠ .fmul)
    (notFmov : instr.op ≠ .fmov) (plain : MulPlain instr) {fields : OpFields}
    (pack : mulFields instr = some fields) (old : Alu MulOp) :
  ∃ instr', mulFieldsUnpack fields instr.magicWrite old = some instr' ∧
    mulNormal instr' = mulNormal instr
  := by
  rw [mulFields_default notFmul notFmov] at pack
  obtain ⟨desc, found, pack⟩ := Option.bind_eq_some_iff.1 pack
  obtain ⟨mem, same⟩ := desc_of_find found
  obtain rfl := Option.some.inj pack
  rw [← same] at notFmul notFmov
  have all := mulDefault_all desc mem notFmul notFmov _ instr.a.num_lt _ instr.b.num_lt
  obtain ⟨desc', lookup, op⟩ := (Option.any_eq_true _ _).1 all
  have op := of_decide_eq_true op
  rw [← op] at notFmul notFmov
  rw [same] at lookup op
  have unpack := @mulFieldsUnpack_default ⟨_, _, _, instr.waddr⟩ desc' lookup notFmul notFmov
    instr.magicWrite old
  refine ⟨_, unpack, ?_⟩
  rw [op]
  have packs : instr.op = .nop ∨
      (instr.outputPack = .none ∧ instr.aUnpack = .none ∧ instr.bUnpack = .none) := by
    rw [op] at notFmul notFmov
    rcases Classical.em (instr.op = .nop) with nop | notNop
    · exact .inl nop
    · exact .inr (plain notFmul notFmov notNop)
  apply Alu.ext
  · rfl
  · exact trim_mux _ _ _
  · exact trim_mux _ _ _
  · rfl
  · rfl
  · change (if instr.op = .nop then OutputPack.none else .none)
      = if instr.op = .nop then _ else instr.outputPack
    rcases packs with nop | packs
    · rw [if_pos nop, if_pos nop]
    · rw [packs.1]
  · change (if mulOpNumSrc instr.op < 1 then InputUnpack.none else .none)
      = if mulOpNumSrc instr.op < 1 then _ else instr.aUnpack
    rcases packs with nop | packs
    · rw [nop]
      rfl
    · rw [packs.2.1]
  · change (if mulOpNumSrc instr.op < 2 then InputUnpack.none else .none)
      = if mulOpNumSrc instr.op < 2 then _ else instr.bUnpack
    rcases packs with nop | packs
    · rw [nop]
      rfl
    · rw [packs.2.2]

/-- A mul operation is unpacked again, unless it has packs that it does not encode. -/
theorem mul_roundTrip {instr : Alu MulOp} (plain : MulPlain instr) {fields : OpFields}
    (pack : mulFields instr = some fields) (old : Alu MulOp) :
  ∃ instr', mulFieldsUnpack fields instr.magicWrite old = some instr' ∧
    mulNormal instr' = mulNormal instr
  := by
  by_cases fmul : instr.op = .fmul
  · exact ⟨instr, mul_roundTrip_fmul fmul pack old, rfl⟩
  by_cases fmov : instr.op = .fmov
  · exact mul_roundTrip_fmov fmov pack old
  · exact mul_roundTrip_default fmul fmov plain pack old

/-- A word with a mul operation is not one of a branch. -/
theorem mulFields_opcode_ne_zero {instr : Alu MulOp} {fields : OpFields}
    (pack : mulFields instr = some fields) :
  fields.opcode ≠ 0
  := by
  have first : ∀ desc ∈ mulOps, desc.opcodeFirst ≠ 0 := by decide
  by_cases fmul : instr.op = .fmul
  · obtain ⟨op, muxA, muxB, waddr, magicWrite, outputPack, aUnpack, bUnpack⟩ := instr
    obtain rfl := fmul
    obtain ⟨p, hp, pack⟩ := Option.bind_eq_some_iff.1 pack
    obtain ⟨x, hx, pack⟩ := Option.bind_eq_some_iff.1 pack
    obtain ⟨y, hy, pack⟩ := Option.bind_eq_some_iff.1 pack
    obtain rfl := Option.some.inj pack
    dsimp only
    rw [ne_eq, Nat.or_eq_zero_iff, Nat.or_eq_zero_iff]
    omega
  by_cases fmov : instr.op = .fmov
  · obtain ⟨op, muxA, muxB, waddr, magicWrite, outputPack, aUnpack, bUnpack⟩ := instr
    obtain rfl := fmov
    obtain ⟨p, hp, pack⟩ := Option.bind_eq_some_iff.1 pack
    obtain ⟨x, hx, pack⟩ := Option.bind_eq_some_iff.1 pack
    obtain rfl := Option.some.inj pack
    dsimp only
    rw [ne_eq, Nat.or_eq_zero_iff]
    omega
  · rw [mulFields_default fmul fmov] at pack
    obtain ⟨desc, found, pack⟩ := Option.bind_eq_some_iff.1 pack
    obtain rfl := Option.some.inj pack
    exact first desc (desc_of_find found).1

/-! ### Words -/

theorem addField_eq_some {packed packed' : BitVec 64} {hi lo value : ℕ}
    (h : addField packed hi lo value = some packed') :
  value < 2 ^ (hi - lo + 1) ∧ Bits.add packed ⟨hi, lo, value⟩ = packed'
  := by
  unfold addField at h
  split at h
  · rename_i lt
    exact ⟨lt, Option.some.inj h⟩
  · cases h

/-- The fields of a packed instruction, in the order in which they are added. -/
def layout (instr : AluInstr) (sig flags : ℕ) (add mul : OpFields) : List Bits.Write := [
  ⟨57, 53, sig⟩,
  ⟨11, 6, instr.raddrA⟩,
  ⟨5, 0, instr.raddrB⟩,
  ⟨14, 12, add.muxA⟩,
  ⟨17, 15, add.muxB⟩,
  ⟨31, 24, add.opcode⟩,
  ⟨37, 32, add.waddr⟩,
  ⟨44, 44, instr.add.magicWrite.toNat⟩,
  ⟨20, 18, mul.muxA⟩,
  ⟨23, 21, mul.muxB⟩,
  ⟨63, 58, mul.opcode⟩,
  ⟨43, 38, mul.waddr⟩,
  ⟨45, 45, instr.mul.magicWrite.toNat⟩,
  ⟨52, 46, flags⟩]

theorem layout_apart (instr : AluInstr) (sig flags : ℕ) (add mul : OpFields) :
  (layout instr sig flags add mul).Pairwise Bits.Write.Apart
  := by
  simp [layout, Bits.Write.Apart]

/-- A packed word has the fields of the instruction. -/
theorem instrPackAlu_layout {instr : AluInstr} {word : BitVec 64}
    (pack : instrPackAlu instr 0#64 = some word) :
  ∃ sig flags add mul, sigPack instr.sig = some sig ∧ flagsPack instr.flags = some flags ∧
    addFields instr.add = some add ∧ mulFields instr.mul = some mul ∧
    (∀ f ∈ layout instr sig flags add mul, f.Fits 64) ∧
    word = Bits.adds 0#64 (layout instr sig flags add mul)
  := by
  obtain ⟨sig, hsig, pack⟩ := Option.bind_eq_some_iff.1 pack
  obtain ⟨w₁, h₁, pack⟩ := Option.bind_eq_some_iff.1 pack
  obtain ⟨w₂, h₂, pack⟩ := Option.bind_eq_some_iff.1 pack
  obtain ⟨w₃, h₃, pack⟩ := Option.bind_eq_some_iff.1 pack
  obtain ⟨w₈, hadd, pack⟩ := Option.bind_eq_some_iff.1 pack
  obtain ⟨add, fieldsAdd, hadd⟩ := Option.bind_eq_some_iff.1 hadd
  obtain ⟨w₄, h₄, hadd⟩ := Option.bind_eq_some_iff.1 hadd
  obtain ⟨w₅, h₅, hadd⟩ := Option.bind_eq_some_iff.1 hadd
  obtain ⟨w₆, h₆, hadd⟩ := Option.bind_eq_some_iff.1 hadd
  obtain ⟨w₇, h₇, h₈⟩ := Option.bind_eq_some_iff.1 hadd
  obtain ⟨w₁₃, hmul, pack⟩ := Option.bind_eq_some_iff.1 pack
  obtain ⟨mul, fieldsMul, hmul⟩ := Option.bind_eq_some_iff.1 hmul
  obtain ⟨w₉, h₉, hmul⟩ := Option.bind_eq_some_iff.1 hmul
  obtain ⟨w₁₀, h₁₀, hmul⟩ := Option.bind_eq_some_iff.1 hmul
  obtain ⟨w₁₁, h₁₁, hmul⟩ := Option.bind_eq_some_iff.1 hmul
  obtain ⟨w₁₂, h₁₂, h₁₃⟩ := Option.bind_eq_some_iff.1 hmul
  obtain ⟨flags, hflags, h₁₄⟩ := Option.bind_eq_some_iff.1 pack
  obtain ⟨lt₁, rfl⟩ := addField_eq_some h₁
  obtain ⟨lt₂, rfl⟩ := addField_eq_some h₂
  obtain ⟨lt₃, rfl⟩ := addField_eq_some h₃
  obtain ⟨lt₄, rfl⟩ := addField_eq_some h₄
  obtain ⟨lt₅, rfl⟩ := addField_eq_some h₅
  obtain ⟨lt₆, rfl⟩ := addField_eq_some h₆
  obtain ⟨lt₇, rfl⟩ := addField_eq_some h₇
  obtain ⟨lt₈, rfl⟩ := addField_eq_some h₈
  obtain ⟨lt₉, rfl⟩ := addField_eq_some h₉
  obtain ⟨lt₁₀, rfl⟩ := addField_eq_some h₁₀
  obtain ⟨lt₁₁, rfl⟩ := addField_eq_some h₁₁
  obtain ⟨lt₁₂, rfl⟩ := addField_eq_some h₁₂
  obtain ⟨lt₁₃, rfl⟩ := addField_eq_some h₁₃
  obtain ⟨lt₁₄, rfl⟩ := addField_eq_some h₁₄
  refine ⟨sig, flags, add, mul, hsig, hflags, fieldsAdd, fieldsMul, ?_, rfl⟩
  simp only [layout, List.forall_mem_cons, Bits.Write.Fits]
  refine ⟨⟨by decide, by decide, lt₁⟩, ⟨by decide, by decide, lt₂⟩, ⟨by decide, by decide, lt₃⟩,
    ⟨by decide, by decide, lt₄⟩, ⟨by decide, by decide, lt₅⟩, ⟨by decide, by decide, lt₆⟩,
    ⟨by decide, by decide, lt₇⟩, ⟨by decide, by decide, lt₈⟩, ⟨by decide, by decide, lt₉⟩,
    ⟨by decide, by decide, lt₁₀⟩, ⟨by decide, by decide, lt₁₁⟩, ⟨by decide, by decide, lt₁₂⟩,
    ⟨by decide, by decide, lt₁₃⟩, ⟨by decide, by decide, lt₁₄⟩, ?_⟩
  intro f mem
  cases mem

/-! ### Instructions -/

/-- What an instruction is, up to the exchange of operands and to what its operations do not use. -/
def AluInstr.normal (instr : AluInstr) : AluInstr :=
  { instr with
    add := addNormal instr.add
    mul := mulNormal instr.mul }

/-- An instruction without the combinations that share the encoding of others, or that are taken for
reserved ones. -/
structure AluInstr.Distinct (instr : AluInstr) : Prop where
  /-- the flags of the signal in its second byte are not set -/
  ucb : instr.sig.ucb = false
  rotate : instr.sig.rotate = false
  /-- a condition of the add operation besides one of the mul operation is the first one -/
  ifa : instr.flags.ac ≠ .none → instr.flags.mc ≠ .none → instr.flags.ac = .ifa
  /-- an operation on one float does not take the lower half of its operand -/
  notL : instr.add.op.case = .float1 ∨ instr.add.op.case = .toInt → instr.add.aUnpack ≠ .l
  /-- a mul operation has no packs that it does not encode -/
  plain : MulPlain instr.mul

theorem toNat_ne_zero (b : Bool) :
  decide (b.toNat ≠ 0) = b
  := by
  cases b <;> rfl

theorem instrUnpack_instrPack {instr : AluInstr} (distinct : instr.Distinct) {word : BitVec 64}
    (pack : instrPack (.alu instr) = some word) (old : AluInstr) (branch : BranchInstr) :
  ∃ instr', instrUnpack word old branch = some (.alu instr') ∧ instr'.normal = instr.normal
  := by
  obtain ⟨sig, flags, add, mul, hsig, hflags, hadd, hmul, fits, rfl⟩ := instrPackAlu_layout pack
  have read : ∀ f ∈ layout instr sig flags add mul,
      Bits.field (Bits.adds 0#64 (layout instr sig flags add mul)) f.hi f.lo = f.val := by
    intro f mem
    exact Bits.field_adds fits (layout_apart instr sig flags add mul) mem
  simp only [layout, List.forall_mem_cons] at read
  obtain ⟨r₁, r₂, r₃, r₄, r₅, r₆, r₇, r₈, r₉, r₁₀, r₁₁, r₁₂, r₁₃, r₁₄, -⟩ := read
  obtain ⟨add', unpackAdd, normalAdd⟩ := add_roundTrip distinct.notL hadd old.add
  obtain ⟨mul', unpackMul, normalMul⟩ := mul_roundTrip distinct.plain hmul old.mul
  have unpackSig := sigUnpack_sigPack hsig distinct.ucb distinct.rotate
  have unpackFlags := flagsUnpack_flagsPack hflags distinct.ifa
  refine ⟨⟨instr.sig, instr.raddrA, instr.raddrB, instr.flags, add', mul'⟩, ?_, ?_⟩
  · unfold instrUnpack instrUnpackAlu addUnpack mulUnpack layout
    rw [r₁₁, if_pos (mulFields_opcode_ne_zero hmul), r₁, r₂, r₃, r₄, r₅, r₆, r₇, r₈, r₉, r₁₀, r₁₂,
      r₁₃, r₁₄, unpackSig, unpackFlags, toNat_ne_zero, toNat_ne_zero]
    dsimp only [bind, Option.bind]
    rw [unpackAdd]
    dsimp only
    rw [unpackMul]
    rfl
  · unfold AluInstr.normal
    dsimp only
    rw [normalAdd, normalMul]

/-- An instruction is unpacked again, and instructions that share an encoding are the same, up to the
exchange of operands and to what the operations do not use. -/
theorem unpack_pack {instr : AluInstr} (distinct : instr.Distinct) {word : BitVec 64}
    (pack : instrPack (.alu instr) = some word) :
  (∀ old branch, ∃ instr', instrUnpack word old branch = some (.alu instr') ∧
    instr'.normal = instr.normal) ∧
  ∀ other : AluInstr, other.Distinct → instrPack (.alu other) = some word →
    other.normal = instr.normal
  := by
  refine ⟨instrUnpack_instrPack distinct pack, ?_⟩
  intro other distinct' pack'
  obtain ⟨instr', unpack, same⟩ := instrUnpack_instrPack distinct pack instr {}
  obtain ⟨instr'', unpack', same'⟩ := instrUnpack_instrPack distinct' pack' instr {}
  rw [unpack] at unpack'
  obtain rfl := Instr.alu.inj (Option.some.inj unpack')
  exact same'.symm.trans same

/-- An instruction with two operations that do nothing. -/
def nopInstr : AluInstr where
  raddrA := 0
  raddrB := 0
  add := ⟨.nop, .r0, .r0, 6, true, .none, .none, .none⟩
  mul := ⟨.nop, .r0, .r0, 6, true, .none, .none, .none⟩

/-- `fadd r1, r1, r5` with a thread switch. -/
def faddInstr : AluInstr :=
  { nopInstr with
    sig := { thrsw := true }
    add := ⟨.fadd, .r5, .r1, 1, true, .none, .none, .none⟩ }

theorem unpack_pack_fadd :
  faddInstr.Distinct ∧ instrPack (.alu faddInstr) = some 0x3c20318105829000#64 ∧
    ∃ instr', instrUnpack 0x3c20318105829000#64 nopInstr {} = some (.alu instr') ∧
      instr'.normal = faddInstr.normal
  := by
  have distinct : faddInstr.Distinct := by
    refine ⟨rfl, rfl, ?_, ?_, ?_⟩
    · decide
    · decide
    · intro _ _ notNop
      exact absurd rfl notNop
  have pack : instrPack (.alu faddInstr) = some 0x3c20318105829000#64 := by
    decide
  exact ⟨distinct, pack, (unpack_pack distinct pack).1 nopInstr {}⟩

/-- Operands that are not used are not unpacked again, and operations of equal operands share an
encoding; so do two sets of flags, two unpacks of a float and two packs of a mul operation, and a
signal is packed but not unpacked. -/
theorem shared_encodings :
  let notInstr := { nopInstr with add := ⟨.not, .r0, .r5, 0, false, .none, .none, .none⟩ }
  let fmin := { nopInstr with add := ⟨.fmin, .r0, .r0, 0, false, .none, .none, .none⟩ }
  let fmax := { nopInstr with add := ⟨.fmax, .r0, .r0, 0, false, .none, .none, .none⟩ }
  let ifb := { nopInstr with flags := { ac := .ifb, mc := .ifa } }
  let andz := { nopInstr with flags := { mc := .ifa, auf := .andz } }
  let lower := { nopInstr with add := ⟨.ffloor, .r0, .r0, 0, false, .none, .l, .none⟩ }
  let upper := { nopInstr with add := ⟨.ffloor, .r0, .r0, 0, false, .none, .h, .none⟩ }
  let packed := { nopInstr with mul := ⟨.add, .r0, .r0, 0, false, .l, .none, .none⟩ }
  let plain := { nopInstr with mul := ⟨.add, .r0, .r0, 0, false, .none, .none, .none⟩ }
  let ucb := { nopInstr with sig := { ucb := true } }
  (∃ word, instrPack (.alu notInstr) = some word ∧
    instrUnpack word nopInstr {} ≠ some (.alu notInstr)) ∧
  (∃ word, instrPack (.alu fmin) = some word ∧ instrPack (.alu fmax) = some word) ∧
  (∃ word, instrPack (.alu ifb) = some word ∧ instrPack (.alu andz) = some word) ∧
  (∃ word, instrPack (.alu lower) = some word ∧ instrPack (.alu upper) = some word) ∧
  (∃ word, instrPack (.alu packed) = some word ∧ instrPack (.alu plain) = some word) ∧
  ∃ word, instrPack (.alu ucb) = some word ∧ instrUnpack word nopInstr {} = none
  := by
  refine ⟨⟨_, rfl, ?_⟩, ⟨_, rfl, ?_⟩, ⟨_, rfl, ?_⟩, ⟨_, rfl, ?_⟩, ⟨_, rfl, ?_⟩, ⟨_, rfl, ?_⟩⟩
  all_goals decide

end Qpu

end Broadcom
