import Mesa.Flow.Dominance
import Mesa.Nir.InstrSet

/-!
# Replacing an instruction by an equal one

Functions in SSA form as graphs of blocks, their runs, and the step of `nir_opt_cse`: an instruction
whose uses are rewritten to those of an equal instruction that dominates it, and that is removed.
-/

namespace Nir.InstrSet

open Flow (Path Dom Before)

/-! ### Functions -/

/-- How a block ends: the successors are those of `nir_block`, and a branch is on the condition of
the if that follows. -/
inductive Exit where
  | stop
  | goto (b : ℕ)
  | branch (cond b b' : ℕ)

/-- The blocks of a function. -/
structure Function where
  entry : ℕ
  instrs : ℕ → List Instr
  exit : ℕ → Exit

/-- The SSA value that an instruction defines. -/
def Instr.def? (T : Infos) : Instr → Option ℕ
  | .alu i => some i.dest.addr
  | .tex i => some i.dest.addr
  | .loadConst i => some i.dest.addr
  | .phi i => some i.dest.addr
  | .intrinsic i => if (T.intrinsics i.intrinsic).hasDest then some i.dest.addr else none
  | .other _ dest _ => dest.map Def.addr

/-- The values an instruction reads; a phi reads them at the end of the predecessors. -/
def Instr.srcs (T : Infos) : Instr → List ℕ
  | .alu i => (List.range (T.ops i.op).numInputs).map (fun k => (i.src k).src)
  | .tex i => (List.range i.numSrcs).map (fun k => (i.src k).src)
  | .loadConst _ => []
  | .phi _ => []
  | .intrinsic i => (List.range (T.intrinsics i.intrinsic).numSrcs).map i.src
  | .other _ _ srcs => srcs

namespace Function

/-- The instruction at a position. -/
def At (F : Function) (p : ℕ × ℕ) (i : Instr) : Prop := (F.instrs p.1)[p.2]? = some i

/-- The edges of the graph. -/
def Edge (F : Function) (b c : ℕ) : Prop :=
  match F.exit b with
  | .stop => False
  | .goto b' => c = b'
  | .branch _ b' b'' => c = b' ∨ c = b''

/-- The position after the last instruction of a block. -/
def last (F : Function) (b : ℕ) : ℕ × ℕ := (b, (F.instrs b).length)

/-- One position comes before another on every path. -/
def Before (F : Function) (p q : ℕ × ℕ) : Prop := Flow.Before F.Edge F.entry p q

/-- The value `d` is defined before the position. -/
def Defined (T : Infos) (F : Function) (d : ℕ) (p : ℕ × ℕ) : Prop :=
  ∃ q i, F.At q i ∧ i.def? T = some d ∧ F.Before q p

/-- A function in SSA form: no value is defined twice, definitions dominate uses, and the
instructions are valid. -/
structure Ssa (T : Infos) (F : Function) : Prop where
  unique : ∀ {p q i j d}, F.At p i → F.At q j → i.def? T = some d → j.def? T = some d → p = q
  srcs_defined : ∀ {p i}, F.At p i → ∀ d ∈ i.srcs T, F.Defined T d p
  phi_defined : ∀ {p i}, F.At p (.phi i) → ∀ src ∈ i.srcs, F.Defined T src.src (F.last src.pred)
  cond_defined : ∀ {b cond b' b''}, F.exit b = .branch cond b' b'' →
    F.Defined T cond (F.last b)
  valid : ∃ preds : ℕ → List ℕ, (∀ b c, c ∈ preds b ↔ F.Edge c b) ∧
    ∀ {p i}, F.At p i → i.Valid T preds
  phi_block : ∀ {p i}, F.At p (.phi i) → i.block = p.1

end Function

/-! ### Runs -/

section Run

variable {T : Infos} {Mem : Type*} (M : Meaning T Mem)

/-- The values of the SSA values, and the memory. -/
structure State (Mem : Type*) where
  env : Env
  mem : Mem

/-- One instruction of a block that was entered in the state `start` from `prev`. -/
def execInstr (start : Env) (prev : Option ℕ) (s : State Mem) (i : Instr) : State Mem :=
  let r := i.exec M start s.env prev s.mem
  ⟨match i.def? T with
    | some d => Function.update s.env d r.1
    | none => s.env, r.2⟩

namespace Function

variable (F : Function)

/-- The state before the instruction with index `m` of a block. -/
def stateAt (prev : Option ℕ) (s : State Mem) (b m : ℕ) : State Mem :=
  ((F.instrs b).take m).foldl (execInstr M s.env prev) s

/-- A whole block. -/
def execBlock (prev : Option ℕ) (s : State Mem) (b : ℕ) : State Mem :=
  (F.instrs b).foldl (execInstr M s.env prev) s

/-- The block that control goes to. -/
def next (b : ℕ) (env : Env) : Option ℕ :=
  match F.exit b with
  | .stop => none
  | .goto b' => some b'
  | .branch cond b' b'' => some (if (env cond).comps.headD 0 ≠ 0 then b' else b'')

/-- The block that is executed after `n` others, and the state after it. -/
def run (init : State Mem) : ℕ → Option (ℕ × State Mem)
  | 0 => some (F.entry, F.execBlock M none init F.entry)
  | n + 1 => (run init n).bind (fun (b, s) =>
      (F.next b s.env).map (fun c => (c, F.execBlock M (some b) s c)))

end Function

end Run

/-! ### Rewriting uses -/

/-- An instruction with its sources renamed. -/
def Instr.rename (f : ℕ → ℕ) : Instr → Instr
  | .alu i => .alu { i with src := fun k => { i.src k with src := f (i.src k).src } }
  | .tex i => .tex { i with src := fun k => { i.src k with src := f (i.src k).src } }
  | .loadConst i => .loadConst i
  | .phi i => .phi { i with srcs := i.srcs.map (fun s => { s with src := f s.src }) }
  | .intrinsic i => .intrinsic { i with src := fun k => f (i.src k) }
  | .other kind dest srcs => .other kind dest (srcs.map f)

/-- Another value in the place of one. -/
def subst (old new d : ℕ) : ℕ := if d = old then new else d

/-- The flag `exact` of an ALU instruction is set. -/
def Instr.setExact : Instr → Instr
  | .alu i => .alu { i with exact := true }
  | i => i

/-- Is it an ALU instruction with the flag `exact`? -/
def Instr.isExact : Instr → Bool
  | .alu i => i.exact
  | _ => false

/-- An instruction of the function in which the uses of `old` are rewritten to those of `new`. -/
def rewriteInstr (T : Infos) (old new : ℕ) (exact : Bool) (i : Instr) : Instr :=
  (if exact && i.def? T == some new then i.setExact else i).rename (subst old new)

namespace Function

/-- What `nir_instr_set_add_or_rewrite` and `nir_instr_remove` do with an instruction that defines
`old` when there is a match that defines `new`: the match becomes exact if the instruction is, the
uses are rewritten, and the instruction is removed. -/
def rewrite (T : Infos) (F : Function) (old new : ℕ) (exact : Bool) : Function where
  entry := F.entry
  instrs b := ((F.instrs b).filter (fun i => i.def? T != some old)).map
    (rewriteInstr T old new exact)
  exit b :=
    match F.exit b with
    | .stop => .stop
    | .goto b' => .goto b'
    | .branch cond b' b'' => .branch (subst old new cond) b' b''

end Function

/-! ### What an instruction depends on -/

section Depends

variable {T : Infos} {Mem : Type*} (M : Meaning T Mem)

/-- Is it a phi? -/
def Instr.isPhi : Instr → Bool
  | .phi _ => true
  | _ => false

/-- An instruction depends on the values it reads, and a phi on the one it chooses. -/
theorem exec_congr_env (i : Instr) {start start' env env' : Env} (f : ℕ → ℕ)
  (hsrcs : ∀ d ∈ i.srcs T, env' (f d) = env d) (prev : Option ℕ) (mem : Mem)
  (hphi : ∀ p, i = .phi p → ∀ src ∈ p.srcs, some src.pred = prev →
    start' (f src.src) = start src.src) :
  (i.rename f).exec M start' env' prev mem = i.exec M start env prev mem
  := by
  cases i with
  | alu i =>
      have hvalue : ∀ k < (T.ops i.op).numInputs, env' (f (i.src k).src) = env (i.src k).src := by
        intro k hk
        apply hsrcs
        exact List.mem_map_of_mem (List.mem_range.mpr hk)
      have hargs : (List.range (T.ops i.op).numInputs).map (aluSrcValue T env'
            { i with src := fun k => { i.src k with src := f (i.src k).src } }) =
          (List.range (T.ops i.op).numInputs).map (aluSrcValue T env i) := by
        apply List.map_congr_left
        intro k hk
        simp only [aluSrcValue, hvalue k (List.mem_range.mp hk), ssaAluInstrSrcComponents]
      simp only [Instr.rename, Instr.exec, aluValue, hargs]
  | tex i =>
      have hargs : (List.range i.numSrcs).map
            (fun k => ((i.src k).srcType, env' (f (i.src k).src))) =
          (List.range i.numSrcs).map (fun k => ((i.src k).srcType, env (i.src k).src)) := by
        apply List.map_congr_left
        intro k hk
        rw [hsrcs]
        exact List.mem_map_of_mem hk
      simp only [Instr.rename, Instr.exec, texValue, hargs]
  | loadConst i => rfl
  | phi i =>
      have hfind : (i.srcs.map (fun s => { s with src := f s.src })).find?
            (fun src => some src.pred == prev) =
          (i.srcs.find? (fun src => some src.pred == prev)).map
            (fun s => { s with src := f s.src }) := by
        rw [List.find?_map]
        rfl
      simp only [Instr.rename, Instr.exec, phiValue, hfind]
      cases hsome : i.srcs.find? (fun src => some src.pred == prev) with
      | none => rfl
      | some src =>
          have hprev : some src.pred = prev := by
            simpa using List.find?_some hsome
          simp only [Option.map_some]
          rw [hphi i rfl src (List.mem_of_find?_eq_some hsome) hprev]
  | intrinsic i =>
      have hargs : (List.range (T.intrinsics i.intrinsic).numSrcs).map
            (fun k => env' (f (i.src k))) =
          (List.range (T.intrinsics i.intrinsic).numSrcs).map (fun k => env (i.src k)) := by
        apply List.map_congr_left
        intro k hk
        rw [hsrcs]
        exact List.mem_map_of_mem hk
      simp only [Instr.rename, Instr.exec, intrinsicValue, hargs]
  | other kind dest srcs =>
      have hargs : (srcs.map f).map env' = srcs.map env := by
        rw [List.map_map]
        apply List.map_congr_left
        exact hsrcs
      simp only [Instr.rename, Instr.exec, hargs]

/-- Renaming by the identity. -/
theorem rename_id (i : Instr) :
  i.rename (fun d => d) = i
  := by
  cases i <;> simp [Instr.rename]

/-- An instruction that can be rewritten, and is no phi, depends on the values it reads only. -/
theorem exec_of_canRewrite {i : Instr} (hr : instrCanRewrite T i = true) (hphi : i.isPhi = false)
  (start start' env env' : Env) (hsrcs : ∀ d ∈ i.srcs T, env' d = env d)
  (prev prev' : Option ℕ) (mem mem' : Mem) :
  i.exec M start' env' prev' mem' = ((i.exec M start env prev mem).1, mem')
  := by
  have hmem : i.exec M start env prev' mem' = ((i.exec M start env prev mem).1, mem') := by
    cases i with
    | alu i => rfl
    | tex i => rfl
    | loadConst i => rfl
    | phi i => simp [Instr.isPhi] at hphi
    | intrinsic i =>
        simp only [instrCanRewrite, Bool.and_eq_true] at hr
        simp only [Instr.exec, intrinsicValue]
        obtain ⟨v, hv⟩ := M.intrinsic_reorder i.intrinsic i.numComponents
          ((List.range (T.intrinsics i.intrinsic).numIndices).map i.constIndex)
          ((List.range (T.intrinsics i.intrinsic).numVariables).map i.derefVars)
          (if (T.intrinsics i.intrinsic).hasDest then i.dest.numComponents else 0)
          ((List.range (T.intrinsics i.intrinsic).numSrcs).map (fun k => env (i.src k)))
          hr.1.1 hr.1.2
        rw [hv, hv]
    | other kind dest srcs => simp [instrCanRewrite] at hr
  rw [← hmem]
  have hne : ∀ p, i = .phi p → ∀ src ∈ p.srcs, some src.pred = prev' →
      start' src.src = start src.src := by
    rintro p rfl
    simp [Instr.isPhi] at hphi
  have h := exec_congr_env M i (fun d => d) hsrcs prev' mem' hne
  rw [rename_id] at h
  exact h

end Depends

/-! ### Values stay what they are -/

section Invariant

variable {T : Infos} {Mem : Type*} {M : Meaning T Mem} {F : Function}

/-- An instruction changes the value it defines and no other. -/
theorem execInstr_env_of_ne {start : Env} {prev : Option ℕ} {s : State Mem} {i : Instr} {d : ℕ}
  (h : i.def? T ≠ some d) :
  (execInstr M start prev s i).env d = s.env d
  := by
  rw [execInstr]
  cases hdef : i.def? T with
  | none => rfl
  | some e =>
      rw [hdef] at h
      simp only
      rw [Function.update_of_ne]
      intro heq
      exact h (heq ▸ rfl)

theorem execInstr_env_self {start : Env} {prev : Option ℕ} {s : State Mem} {i : Instr} {d : ℕ}
  (h : i.def? T = some d) :
  (execInstr M start prev s i).env d = (i.exec M start s.env prev s.mem).1
  := by
  rw [execInstr, h]
  simp

namespace Function

theorem stateAt_zero (prev : Option ℕ) (s : State Mem) (b : ℕ) :
  F.stateAt M prev s b 0 = s
  := by
  rw [stateAt, List.take_zero, List.foldl_nil]

theorem stateAt_succ {prev : Option ℕ} {s : State Mem} {b m : ℕ} {i : Instr} (h : F.At (b, m) i) :
  F.stateAt M prev s b (m + 1) = execInstr M s.env prev (F.stateAt M prev s b m) i
  := by
  have h' : (F.instrs b)[m]? = some i := h
  rw [stateAt, List.take_add_one, h', Option.toList_some, List.foldl_append, List.foldl_cons,
    List.foldl_nil, stateAt]

theorem stateAt_length (prev : Option ℕ) (s : State Mem) (b : ℕ) :
  F.stateAt M prev s b (F.instrs b).length = F.execBlock M prev s b
  := by
  rw [stateAt, List.take_length, execBlock]

/-- Before the end of a block there is an instruction. -/
theorem exists_at {b m : ℕ} (h : m < (F.instrs b).length) :
  ∃ i, F.At (b, m) i
  := by
  exact ⟨(F.instrs b)[m], List.getElem?_eq_getElem h⟩

theorem At.lt_length {p : ℕ × ℕ} {i : Instr} (h : F.At p i) :
  p.2 < (F.instrs p.1).length
  := by
  exact (List.getElem?_eq_some_iff.mp h).1

/-- A property of the state at the positions of a block that every instruction keeps. -/
theorem stateAt_induction {prev : Option ℕ} {s : State Mem} {b : ℕ} (P : ℕ → State Mem → Prop)
  (hzero : P 0 s)
  (hstep : ∀ m i, F.At (b, m) i → P m (F.stateAt M prev s b m) →
    P (m + 1) (execInstr M s.env prev (F.stateAt M prev s b m) i)) :
  ∀ m ≤ (F.instrs b).length, P m (F.stateAt M prev s b m)
  := by
  intro m
  induction m with
  | zero =>
      intro _
      rw [stateAt_zero]
      exact hzero
  | succ m ih =>
      intro hm
      obtain ⟨i, hi⟩ := exists_at hm
      rw [stateAt_succ hi]
      exact hstep m i hi (ih (Nat.le_of_succ_le hm))

/-- Every instruction before the position that can be rewritten, and is no phi, would give the value
that it has given. -/
def Holds (M : Meaning T Mem) (F : Function) (p : ℕ × ℕ) (s : State Mem) : Prop :=
  ∀ {q i d}, F.At q i → instrCanRewrite T i = true → i.isPhi = false → i.def? T = some d →
    F.Before q p → ∀ start prev mem, i.exec M start s.env prev mem = (s.env d, mem)

variable (hF : F.Ssa T)
include hF

/-- What is defined at a position is not defined, and not read, by what comes before it. -/
theorem Ssa.def_ne {p q : ℕ × ℕ} {i j : Instr} {d : ℕ} (hi : F.At p i) (hj : F.At q j)
  (hd : j.def? T = some d) (hne : q ≠ p) :
  i.def? T ≠ some d
  := by
  intro h
  exact hne (hF.unique hj hi hd h)

theorem Ssa.src_ne {p q : ℕ × ℕ} {l : List ℕ} (hl : Path F.Edge F.entry p.1 l) {i j : Instr}
  {d : ℕ} (hi : F.At p i) (hj : F.At q j) (hd : d ∈ j.srcs T) (hq : F.Before q p ∨ q = p) :
  i.def? T ≠ some d
  := by
  obtain ⟨r, k, hr, hdef, hbefore⟩ := hF.srcs_defined hj d hd
  apply hF.def_ne hi hr hdef
  rintro rfl
  rcases hq with hq | rfl
  · exact Flow.Before.asymm hl hq hbefore
  · exact Flow.Before.irrefl hbefore

/-- The invariant is kept by an instruction. -/
theorem Holds.execInstr {b m : ℕ} {l : List ℕ} (hl : Path F.Edge F.entry b l) {s : State Mem}
  {x : Instr} (hx : F.At (b, m) x) (start : Env) (prev : Option ℕ)
  (h : Holds M F (b, m) s) :
  Holds M F (b, m + 1) (execInstr M start prev s x)
  := by
  intro q i d hi hr hphi hd hbefore start' prev' mem'
  have hq := Flow.before_succ_iff.mp hbefore
  have hsrcs : ∀ e ∈ i.srcs T, (InstrSet.execInstr M start prev s x).env e = s.env e := by
    intro e he
    exact execInstr_env_of_ne (hF.src_ne hl hx hi he hq)
  rw [exec_of_canRewrite M hr hphi start start' s.env _ hsrcs prev prev' s.mem mem']
  rcases hq with hq | rfl
  · have hne : q ≠ (b, m) := by
      rintro rfl
      exact Flow.Before.irrefl hq
    rw [h hi hr hphi hd hq, execInstr_env_of_ne (hF.def_ne hx hi hd hne)]
  · have heq : i = x := by
      have hi' : (F.instrs b)[m]? = some i := hi
      have hx' : (F.instrs b)[m]? = some x := hx
      exact Option.some.inj (hi'.symm.trans hx')
    subst heq
    rw [execInstr_env_self hd]

/-- The value of a phi of the block that is being executed. -/
theorem stateAt_phi (prev : Option ℕ) (s : State Mem) {b k : ℕ} {i : PhiInstr}
  (hi : F.At (b, k) (.phi i)) :
  ∀ m ≤ (F.instrs b).length, k < m →
    (F.stateAt M prev s b m).env i.dest.addr = phiValue s.env prev i
  := by
  apply stateAt_induction (fun m s' => k < m → s'.env i.dest.addr = phiValue s.env prev i)
  · intro h
    exact absurd h (Nat.not_lt_zero _)
  · intro m x hx ih hkm
    rcases Nat.lt_succ_iff_lt_or_eq.mp hkm with hlt | rfl
    · have hne : (b, k) ≠ (b, m) := by
        intro heq
        exact absurd (Prod.ext_iff.mp heq).2 (Nat.ne_of_lt hlt)
      rw [execInstr_env_of_ne (hF.def_ne hx hi rfl hne)]
      exact ih hlt
    · have heq : Instr.phi i = x := by
        have hi' : (F.instrs b)[k]? = some (.phi i) := hi
        have hx' : (F.instrs b)[k]? = some x := hx
        exact Option.some.inj (hi'.symm.trans hx')
      subst heq
      exact execInstr_env_self rfl

end Function

end Invariant

/-! ### Replacing an instruction -/

section Replace

variable {T : Infos} {Mem : Type*} {M : Meaning T Mem} {F : Function}

/-- An instruction that defines `old`, and a match before it that defines `new` and computes the
same. -/
structure Match (M : Meaning T Mem) (F : Function) (old new : ℕ) where
  oldPos : ℕ × ℕ
  newPos : ℕ × ℕ
  oldInstr : Instr
  newInstr : Instr
  old_at : F.At oldPos oldInstr
  new_at : F.At newPos newInstr
  old_def : oldInstr.def? T = some old
  new_def : newInstr.def? T = some new
  before : F.Before newPos oldPos
  new_canRewrite : instrCanRewrite T newInstr = true
  phi_block : ∀ i j, oldInstr = .phi i → newInstr = .phi j → i.block = j.block
  phi_iff : oldInstr.isPhi = newInstr.isPhi
  exec_eq : ∀ start env prev mem,
    oldInstr.exec M start env prev mem = newInstr.exec M start env prev mem

/-- Where the old instruction has been executed, it has the value of the new one. -/
def Agree (F : Function) (oldPos : ℕ × ℕ) (old new : ℕ) (p : ℕ × ℕ) (s : State Mem) : Prop :=
  F.Before oldPos p → s.env old = s.env new

/-- The states of the function and of the rewritten one differ in the old value only. -/
def Sim (old : ℕ) (s s' : State Mem) : Prop :=
  s'.mem = s.mem ∧ ∀ d ≠ old, s'.env d = s.env d

namespace Match

variable {old new : ℕ} (hF : F.Ssa T) (m : Match M F old new)
include hF m

theorem new_ne_old :
  new ≠ old
  := by
  rintro rfl
  have hpos := hF.unique m.new_at m.old_at m.new_def m.old_def
  have hbefore := m.before
  rw [hpos] at hbefore
  exact Flow.Before.irrefl hbefore

/-- The old instruction would give the value that the new one has given. -/
theorem exec_old {prev : Option ℕ} {s : State Mem} {b k : ℕ} (hk : k ≤ (F.instrs b).length)
  (hpos : m.oldPos = (b, k)) (h : Function.Holds M F (b, k) (F.stateAt M prev s b k)) :
  m.oldInstr.exec M s.env (F.stateAt M prev s b k).env prev (F.stateAt M prev s b k).mem =
    ((F.stateAt M prev s b k).env new, (F.stateAt M prev s b k).mem)
  := by
  have hbefore := m.before
  rw [hpos] at hbefore
  rw [m.exec_eq]
  cases hphi : m.newInstr.isPhi with
  | false => exact h m.new_at m.new_canRewrite hphi m.new_def hbefore _ _ _
  | true =>
      -- both are phis of this block
      have hnew : ∃ i, m.newInstr = .phi i := by
        cases hcase : m.newInstr <;> rw [hcase] at hphi <;> simp [Instr.isPhi] at hphi
        exact ⟨_, rfl⟩
      have hold : ∃ i, m.oldInstr = .phi i := by
        have hphi' := m.phi_iff.trans hphi
        cases hcase : m.oldInstr <;> rw [hcase] at hphi' <;> simp [Instr.isPhi] at hphi'
        exact ⟨_, rfl⟩
      obtain ⟨i, hi⟩ := hnew
      obtain ⟨j, hj⟩ := hold
      have hat := m.new_at
      have hat' := m.old_at
      have hdef := m.new_def
      rw [hi] at hat hdef ⊢
      rw [hj] at hat'
      have hblock : m.newPos.1 = b := by
        rw [← hF.phi_block hat, ← m.phi_block j i hj hi, hF.phi_block hat', hpos]
      rcases hbefore with ⟨hne, -⟩ | ⟨-, hlt⟩
      · exact absurd hblock hne
      · have hat'' : F.At (b, m.newPos.2) (.phi i) := hblock ▸ hat
        have hvalue := Function.stateAt_phi hF (M := M) prev s hat'' k hk hlt
        have haddr : i.dest.addr = new := Option.some.inj hdef
        rw [haddr] at hvalue
        rw [Instr.exec, hvalue]

/-- A value that is read, and is the old one, has been defined. -/
theorem before_of_defined {p : ℕ × ℕ} (h : F.Defined T old p) :
  F.Before m.oldPos p
  := by
  obtain ⟨q, i, hq, hdef, hbefore⟩ := h
  rw [hF.unique m.old_at hq m.old_def hdef]
  exact hbefore

/-- In related states the rewritten use has the same value. -/
theorem subst_eq {s s' : State Mem} {p : ℕ × ℕ} {d : ℕ} (hsim : Sim old s s')
  (hagree : Agree F m.oldPos old new p s) (hd : F.Defined T d p) :
  s'.env (subst old new d) = s.env d
  := by
  rw [subst]
  split_ifs with heq
  · rw [heq, hagree (m.before_of_defined hF (heq ▸ hd)), hsim.2 new (m.new_ne_old hF)]
  · exact hsim.2 d heq

/-- After the old instruction the two values agree, and no other instruction changes them. -/
theorem agree_execInstr {prev : Option ℕ} {s : State Mem} {b k : ℕ} {l : List ℕ} {x : Instr}
  (hl : Path F.Edge F.entry b l) (hx : F.At (b, k) x)
  (h : Function.Holds M F (b, k) (F.stateAt M prev s b k))
  (hagree : Agree F m.oldPos old new (b, k) (F.stateAt M prev s b k)) :
  Agree F m.oldPos old new (b, k + 1) (execInstr M s.env prev (F.stateAt M prev s b k) x)
  := by
  intro hbefore
  rcases Flow.before_succ_iff.mp hbefore with hbefore | hpos
  · have hold : x.def? T ≠ some old := by
      apply hF.def_ne hx m.old_at m.old_def
      intro heq
      rw [heq] at hbefore
      exact Flow.Before.irrefl hbefore
    have hnew : x.def? T ≠ some new := by
      apply hF.def_ne hx m.new_at m.new_def
      intro heq
      have hfirst := m.before
      rw [heq] at hfirst
      exact Flow.Before.asymm hl hbefore hfirst
    rw [execInstr_env_of_ne hold, execInstr_env_of_ne hnew]
    exact hagree hbefore
  · have hx' : x = m.oldInstr := by
      have hat := m.old_at
      rw [hpos] at hat
      exact Option.some.inj (hx.symm.trans hat)
    have hne : x.def? T ≠ some new := by
      rw [hx', m.old_def]
      intro heq
      exact m.new_ne_old hF (Option.some.inj heq).symm
    rw [execInstr_env_of_ne hne, hx', execInstr_env_self m.old_def,
      m.exec_old hF (Nat.le_of_lt hx.lt_length) hpos h]

omit hF m in
theorem def?_rewriteInstr (exact : Bool) (i : Instr) :
  (rewriteInstr T old new exact i).def? T = i.def? T
  := by
  rw [rewriteInstr]
  split_ifs
  · cases i <;> rfl
  · cases i <;> rfl

omit hF m in
theorem exec_rewriteInstr (exact : Bool) (i : Instr) (start env : Env) (prev : Option ℕ)
  (mem : Mem) :
  (rewriteInstr T old new exact i).exec M start env prev mem =
    (i.rename (subst old new)).exec M start env prev mem
  := by
  rw [rewriteInstr]
  split_ifs
  · cases i <;> rfl
  · rfl

omit hF m in
/-- Where an instruction gives the same in related states, it leads to related states. -/
theorem sim_execInstr {s s' : State Mem} (hsim : Sim old s s') {x x' : Instr} {start start' : Env}
  {prev : Option ℕ} (hdef : x'.def? T = x.def? T)
  (hexec : x'.exec M start' s'.env prev s'.mem = x.exec M start s.env prev s.mem) :
  Sim old (execInstr M start prev s x) (execInstr M start' prev s' x')
  := by
  constructor
  · simp only [execInstr, hexec]
  · intro d hd
    by_cases hx : x.def? T = some d
    · rw [execInstr_env_self hx, execInstr_env_self (hdef.trans hx), hexec]
    · rw [execInstr_env_of_ne hx, execInstr_env_of_ne (hdef ▸ hx), hsim.2 d hd]

/-- Related states at the start of a block lead to related states at its end. -/
theorem sim_execBlock (exact : Bool) (prev : Option ℕ) {s s' : State Mem} {b : ℕ} {l : List ℕ}
  (hl : Path F.Edge F.entry b l) (hsim : Sim old s s') (hholds : Function.Holds M F (b, 0) s)
  (hagree : Agree F m.oldPos old new (b, 0) s)
  (hprev : ∀ p, prev = some p → Agree F m.oldPos old new (F.last p) s) :
  Sim old (F.execBlock M prev s b) ((F.rewrite T old new exact).execBlock M prev s' b) ∧
    Function.Holds M F (F.last b) (F.execBlock M prev s b) ∧
    Agree F m.oldPos old new (F.last b) (F.execBlock M prev s b)
  := by
  -- the instructions of the rewritten function up to a position of the function
  let rest := fun k => (((F.instrs b).take k).filter (fun i => i.def? T != some old)).map
    (rewriteInstr T old new exact)
  have hall : ∀ k ≤ (F.instrs b).length,
      Sim old (F.stateAt M prev s b k) ((rest k).foldl (execInstr M s'.env prev) s') ∧
        Function.Holds M F (b, k) (F.stateAt M prev s b k) ∧
        Agree F m.oldPos old new (b, k) (F.stateAt M prev s b k) := by
    apply Function.stateAt_induction (fun k st =>
      Sim old st ((rest k).foldl (execInstr M s'.env prev) s') ∧
        Function.Holds M F (b, k) st ∧ Agree F m.oldPos old new (b, k) st)
    · exact ⟨hsim, hholds, hagree⟩
    · rintro k x hx ⟨hsim', hholds', hagree'⟩
      refine ⟨?_, Function.Holds.execInstr hF hl hx _ _ hholds',
        m.agree_execInstr hF hl hx hholds' hagree'⟩
      have hx' : (F.instrs b)[k]? = some x := hx
      have hrest : rest (k + 1) = rest k ++
          (if x.def? T = some old then [] else [rewriteInstr T old new exact x]) := by
        simp only [rest, List.take_add_one, hx', Option.toList_some, List.filter_append,
          List.map_append, List.filter_cons, List.filter_nil, bne_iff_ne, ne_eq, ite_not]
        split_ifs <;> rfl
      rw [hrest, List.foldl_append]
      split_ifs with hold
      · -- the old instruction gives the value of the new one and does nothing else
        have hpos : m.oldPos = (b, k) := hF.unique m.old_at hx m.old_def hold
        have hxold : x = m.oldInstr := by
          have hat := m.old_at
          rw [hpos] at hat
          exact Option.some.inj (hx'.symm.trans hat)
        have hexec := m.exec_old hF (Nat.le_of_lt hx.lt_length) hpos hholds'
        rw [List.foldl_nil]
        constructor
        · rw [hsim'.1, execInstr, hxold, hexec]
        · intro d hd
          rw [execInstr_env_of_ne, hsim'.2 d hd]
          rw [hold]
          intro heq
          exact hd (Option.some.inj heq).symm
      · rw [List.foldl_cons, List.foldl_nil]
        apply sim_execInstr hsim' (def?_rewriteInstr exact x)
        rw [exec_rewriteInstr, hsim'.1]
        apply exec_congr_env
        · intro d hd
          exact m.subst_eq hF hsim' hagree' (hF.srcs_defined hx d hd)
        · rintro p rfl src hsrc hpred
          exact m.subst_eq hF hsim (hprev _ hpred.symm) (hF.phi_defined hx src hsrc)
  obtain ⟨hsim', hholds', hagree'⟩ := hall (F.instrs b).length (Nat.le_refl _)
  rw [Function.stateAt_length] at hsim' hholds' hagree'
  refine ⟨?_, hholds', hagree'⟩
  simp only [rest, List.take_length] at hsim'
  exact hsim'

/-- The rewritten function takes the same way. -/
theorem next_rewrite (exact : Bool) {s s' : State Mem} {b : ℕ} (hsim : Sim old s s')
  (hagree : Agree F m.oldPos old new (F.last b) s) :
  (F.rewrite T old new exact).next b s'.env = F.next b s.env
  := by
  rw [Function.next, Function.next, Function.rewrite]
  simp only
  cases hexit : F.exit b with
  | stop => rfl
  | goto b' => rfl
  | branch cond b' b'' =>
      simp only
      rw [m.subst_eq hF hsim hagree (hF.cond_defined hexit)]

omit hF m in
/-- Control follows the edges. -/
theorem edge_of_next {b c : ℕ} {env : Env} (h : F.next b env = some c) :
  F.Edge b c
  := by
  rw [Function.next] at h
  rw [Function.Edge]
  cases hexit : F.exit b with
  | stop => simp [hexit] at h
  | goto b' =>
      simp only [hexit, Option.some.injEq] at h
      exact h.symm
  | branch cond b' b'' =>
      simp only [hexit, Option.some.injEq] at h
      simp only
      rw [← h]
      split_ifs
      · left
        rfl
      · right
        rfl

omit hF m in
/-- Nothing comes before the start of the entry. -/
theorem not_before_entry (p : ℕ × ℕ) :
  ¬F.Before p (F.entry, 0)
  := by
  rintro (⟨hne, hdom⟩ | ⟨-, hlt⟩)
  · have hmem := hdom [F.entry] Path.entry
    exact hne (List.mem_singleton.mp hmem)
  · exact Nat.not_lt_zero _ hlt

/-- After any number of blocks, the function and the rewritten one are at the same block with the
same values, the old one apart, or have both ended. -/
theorem run_rewrite (exact : Bool) (init : State Mem) (n : ℕ) :
  (F.run M init n = none ∧ (F.rewrite T old new exact).run M init n = none) ∨
    ∃ b s s' l, F.run M init n = some (b, s) ∧
      (F.rewrite T old new exact).run M init n = some (b, s') ∧
      Sim old s s' ∧ Path F.Edge F.entry b l ∧ Function.Holds M F (F.last b) s ∧
      Agree F m.oldPos old new (F.last b) s
  := by
  induction n with
  | zero =>
      right
      have hholds : Function.Holds M F (F.entry, 0) init := by
        intro q i d _ _ _ _ hbefore
        exact absurd hbefore (not_before_entry q)
      obtain ⟨hsim, hholds', hagree⟩ := m.sim_execBlock hF exact none
        Path.entry (⟨rfl, fun _ _ => rfl⟩ : Sim old init init) hholds
        (fun hbefore => absurd hbefore (not_before_entry _)) (by simp)
      exact ⟨F.entry, _, _, _, rfl, rfl, hsim, Path.entry, hholds', hagree⟩
  | succ n ih =>
      rcases ih with ⟨hnone, hnone'⟩ | ⟨b, s, s', l, hrun, hrun', hsim, hl, hholds, hagree⟩
      · left
        simp [Function.run, hnone, hnone']
      · have hnext := m.next_rewrite hF exact hsim hagree
        cases hc : F.next b s.env with
        | none =>
            left
            simp [Function.run, hrun, hrun', hnext, hc]
        | some c =>
            right
            have hedge := edge_of_next hc
            have hholds0 : Function.Holds M F (c, 0) s := by
              intro q i d hi hr hphi hd hbefore
              apply hholds hi hr hphi hd
              apply Flow.Before.of_edge hbefore hedge
              rintro rfl
              exact hi.lt_length
            have hagree0 : Agree F m.oldPos old new (c, 0) s := by
              intro hbefore
              apply hagree
              apply Flow.Before.of_edge hbefore hedge
              rintro rfl
              exact m.old_at.lt_length
            obtain ⟨hsim', hholds', hagree'⟩ := m.sim_execBlock hF exact (some b)
              (hl.step hedge) hsim hholds0 hagree0
              (fun p hp => (Option.some.inj hp) ▸ hagree)
            refine ⟨c, _, _, _, ?_, ?_, hsim', hl.step hedge, hholds', hagree'⟩
            · simp [Function.run, hrun, hc]
            · simp [Function.run, hrun', hnext, hc]

end Match

end Replace

/-! ### Equal instructions can be replaced -/

/-- Two runs are at the same block with the same memory and the same values, `old` apart, or have
both ended. -/
def SameRun {Mem : Type*} (old : ℕ) : Option (ℕ × State Mem) → Option (ℕ × State Mem) → Prop
  | none, none => True
  | some (b, s), some (b', s') => b = b' ∧ Sim old s s'
  | _, _ => False

section Equal

variable {T : Infos} {preds : ℕ → List ℕ}

/-- Equal instructions are of the same type, and phis are in the same block. -/
theorem isPhi_eq_of_instrsEqual {i j : Instr} (h : instrsEqual T i j = true) :
  i.isPhi = j.isPhi ∧ ∀ p q, i = .phi p → j = .phi q → p.block = q.block
  := by
  cases i <;> cases j <;> simp only [instrsEqual, Bool.false_eq_true] at h
  case phi.phi i j =>
    refine ⟨rfl, ?_⟩
    rintro p q ⟨⟩ ⟨⟩
    rw [phiInstrsEqual] at h
    split_ifs at h with hblock
    exact not_not.mp hblock
  all_goals
    refine ⟨rfl, ?_⟩
    rintro p q ⟨⟩

/-- A match that computes the same can take the place of an instruction. -/
theorem run_rewrite_of_exec_eq {Mem : Type*} {M : Meaning T Mem} {F : Function} (hF : F.Ssa T)
  {i j : Instr} {p q : ℕ × ℕ} {old new : ℕ} (hi : F.At p i) (hj : F.At q j) (hpq : F.Before p q)
  (hdi : i.def? T = some new) (hdj : j.def? T = some old) (hri : instrCanRewrite T i = true)
  (hphi : j.isPhi = i.isPhi) (hblock : ∀ a b, j = .phi a → i = .phi b → a.block = b.block)
  (hexec : ∀ start env prev mem, j.exec M start env prev mem = i.exec M start env prev mem)
  (exact : Bool) (init : State Mem) (n : ℕ) :
  SameRun old (F.run M init n) ((F.rewrite T old new exact).run M init n)
  := by
  let m : Match M F old new :=
    ⟨q, p, j, i, hj, hi, hdj, hdi, hpq, hri, hblock, hphi, hexec⟩
  rcases m.run_rewrite hF exact init n with ⟨h, h'⟩ | ⟨b, s, s', -, h, h', hsim, -⟩
  · rw [h, h']
    trivial
  · rw [h, h']
    exact ⟨rfl, hsim⟩

/-- Without saturation, the number two; with saturation, the number one. -/
theorem fsat_two {b : ℕ} (hb : b = 16 ∨ b = 32 ∨ b = 64) :
  ∃ x, fsat b x ≠ x
  := by
  rcases hb with rfl | rfl | rfl
  · exact ⟨0x4000, by decide⟩
  · exact ⟨0x40000000, by decide⟩
  · exact ⟨0x4000000000000000, by decide⟩

/-- The opcodes that give constants, and so are commutative. -/
def constMeaning (T : Infos) (alu : ℕ → ℕ) (tex : TexFields → ℕ) : Meaning T Unit where
  alu _ n b _ := List.replicate n (alu b)
  alu_comm _ _ _ _ _ _ := rfl
  tex f n _ := List.replicate n (tex f)
  intrinsic _ _ _ _ _ _ mem := ([], mem)
  intrinsic_reorder _ _ _ _ _ _ _ _ := ⟨[], fun _ => rfl⟩
  other _ _ mem := (⟨0, []⟩, mem)

/-- A texture instruction has a result. -/
theorem texInstrDestSize_ne_zero (f : TexFields) :
  texInstrDestSize f ≠ 0
  := by
  rw [texInstrDestSize]
  split
  · split <;> omega
  · omega
  · omega
  · omega
  · omega
  · split_ifs <;> omega

/-- Instructions that give the same under every meaning agree in the fields the equality leaves
out. -/
theorem sameResult_of_exec_eq {i j : Instr} (hi : i.Valid T preds) (hj : j.Valid T preds)
  (heq : instrsEqual T i j = true)
  (h : ∀ (M : Meaning T Unit) (start env : Env) (prev : Option ℕ),
    i.exec M start env prev () = j.exec M start env prev ()) :
  SameResult i j
  := by
  cases i <;> cases j <;> simp only [instrsEqual, Bool.false_eq_true] at heq <;> try trivial
  case alu.alu i j =>
    obtain ⟨hop, hcomps, hbits, -⟩ := aluInstrsEqual_cases heq
    by_contra hne
    have hne' : i.saturate ≠ j.saturate := hne
    have hfloat : (T.ops i.op).outputType = .float := by
      cases hsi : i.saturate with
      | true => exact hi.2.1 hsi
      | false =>
          have hsj : j.saturate = true := by
            cases hsj : j.saturate with
            | true => rfl
            | false => exact absurd (hsi.trans hsj.symm) hne'
          rw [hop]
          exact hj.2.1 hsj
    obtain ⟨x, hx⟩ := fsat_two (hi.2.2 hfloat)
    have hval := congrArg (fun r => r.1.comps)
      (h (constMeaning T (fun _ => x) (fun _ => 0)) (fun _ => ⟨0, []⟩) (fun _ => ⟨0, []⟩) none)
    obtain ⟨n, hn⟩ := Nat.exists_eq_succ_of_ne_zero (Nat.pos_iff_ne_zero.mp hi.1)
    simp only [Instr.exec, aluValue, constMeaning, ← hcomps, ← hbits, hn, List.map_replicate]
      at hval
    cases hsi : i.saturate <;> cases hsj : j.saturate <;>
      simp only [hsi, hsj, if_true, Bool.false_eq_true, if_false] at hval hne'
    · exact hne' rfl
    · exact hx (List.replicate_right_injective (Nat.succ_ne_zero n) hval).symm
    · exact hx (List.replicate_right_injective (Nat.succ_ne_zero n) hval)
    · exact hne' rfl
  case tex.tex i j =>
    have hrun := h (constMeaning T (fun _ => 0) TexFields.destType) (fun _ => ⟨0, []⟩)
      (fun _ => ⟨0, []⟩) none
    simp only [Instr.exec, texValue, constMeaning, Prod.mk.injEq, Value.mk.injEq, and_true] at hrun
    refine ⟨?_, hrun.1⟩
    have hi' : i.dest.numComponents ≠ 0 := by
      rw [hi]
      exact texInstrDestSize_ne_zero _
    have hj' : j.dest.numComponents ≠ 0 := by
      rw [hj]
      exact texInstrDestSize_ne_zero _
    have hhead := congrArg List.head? hrun.2
    rw [List.head?_replicate, List.head?_replicate, if_neg hi', if_neg hj'] at hhead
    exact Option.some.inj hhead

end Equal

/-! ### The output modifier -/

/-- A table in which opcode 0 is `fadd`. -/
def faddInfos : Infos where
  ops _ := ⟨2, .float, fun _ => 0, fun _ => .float, true⟩
  intrinsics _ := ⟨0, false, 0, 0, false, false⟩
  comm_inputs _ _ := ⟨rfl, rfl, rfl⟩

/-- The sum of two values of 32 bits, the operands being the values with the given addresses. -/
def fadd (addr src0 src1 : ℕ) (saturate : Bool) : Instr :=
  .alu ⟨0, false, ⟨addr, 1, 32⟩, saturate, 1,
    fun k => ⟨if k = 0 then src0 else src1, false, false, fun _ => 0⟩⟩

end Nir.InstrSet
