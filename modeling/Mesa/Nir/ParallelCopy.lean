import Mathlib.Data.List.Basic

/-!
# Parallel copies

Phis become registers that are copied at the same time.  `resolve_parallel_copy` of
`nir_from_ssa.c` replaces such a copy by a sequence of movs, with temporary registers where the
copies form a cycle.
-/

namespace Nir.FromSsa

/-! ### Registers and movs -/

/-- `nir_register` -/
structure Register where
  index : ℕ
  numComponents : ℕ
  bitSize : ℕ
  deriving DecidableEq

/-- `nir_ssa_def` -/
structure SsaDef where
  index : ℕ
  numComponents : ℕ
  bitSize : ℕ
  deriving DecidableEq

/-- `nir_src`, without indirect accesses.  Two of them are equal for `nir_srcs_equal` when they are
the same definition or the same register. -/
inductive Src where
  | ssa (d : SsaDef)
  | reg (r : Register)
  deriving DecidableEq

def Src.numComponents : Src → ℕ
  | .ssa d => d.numComponents
  | .reg r => r.numComponents

def Src.bitSize : Src → ℕ
  | .ssa d => d.bitSize
  | .reg r => r.bitSize

/-- The contents of the definitions and of the registers: the bits of each component. -/
structure Machine where
  ssa : (d : SsaDef) → ℕ → BitVec d.bitSize
  regs : (r : Register) → ℕ → BitVec r.bitSize

/-- A component that is read. -/
def Machine.read (machine : Machine) : Src → ℕ → ℕ
  | .ssa d, c => (machine.ssa d c).toNat
  | .reg r, c => (machine.regs r c).toNat

/-- A `nir_op_imov` with all components of a register in its write mask. -/
structure Mov where
  src : Src
  dest : Register
  deriving DecidableEq

/-- A register takes as many bits as it has. -/
def Mov.exec (machine : Machine) (mov : Mov) : Machine :=
  { machine with
    regs := fun r c =>
      if r = mov.dest ∧ c < mov.dest.numComponents then
        BitVec.ofNat r.bitSize (machine.read mov.src c)
      else machine.regs r c }

def execMovs (machine : Machine) (movs : List Mov) : Machine := movs.foldl Mov.exec machine

/-! ### The shell game -/

/-- `nir_parallel_copy_entry` -/
structure Entry where
  src : Src
  dest : Register
  deriving DecidableEq

/-- The local variables of `resolve_parallel_copy`, the movs emitted so far, and the counter of the
registers of the function.  The two arrays of indices hold nothing where they hold `-1`. -/
structure Shuffle where
  values : List Src
  loc : ℕ → Option ℕ
  pred : ℕ → Option ℕ
  toDo : List ℕ
  ready : List ℕ
  emitted : List Mov
  regAlloc : ℕ

/-- The loops that search a value: the last index at which it is found. -/
def findValue (values : List Src) (src : Src) : Option ℕ :=
  (List.range values.length).foldl
    (fun found i => if values[i]? = some src then some i else found) none

/-- The index of a value, which is added when it is not found. -/
def Shuffle.valueIndex (s : Shuffle) (src : Src) : Shuffle × ℕ :=
  match findValue s.values src with
  | some i => (s, i)
  | none => ({ s with values := s.values ++ [src] }, s.values.length)

/-- An entry is recorded.  There is no result when the assertion fails that its destination has no
predecessor yet. -/
def Shuffle.addEntry (s : Shuffle) (entry : Entry) : Option Shuffle :=
  let (s, srcIdx) := s.valueIndex entry.src
  let destSrc := Src.reg entry.dest
  if (List.range s.values.length).any
      (fun i => s.values[i]? = some destSrc ∧ (s.pred i).isSome) then none
  else
    let (s, destIdx) := s.valueIndex destSrc
    some { s with
      loc := Function.update s.loc srcIdx (some srcIdx)
      pred := Function.update s.pred destIdx (some srcIdx)
      toDo := destIdx :: s.toDo }

/-- The destinations that contain no data are ready. -/
def Shuffle.markReady (s : Shuffle) : Shuffle :=
  { s with
    ready := (List.range s.values.length).foldl
      (fun ready i => if (s.pred i).isSome ∧ s.loc i = none then i :: ready else ready) s.ready }

/-- `emit_copy`, with its assertions. -/
def Shuffle.emitCopy (s : Shuffle) (src destSrc : Src) : Option Shuffle :=
  match destSrc with
  | .ssa _ => none
  | .reg dest =>
    if dest.numComponents ≤ src.numComponents then
      some { s with emitted := s.emitted ++ [{ src, dest }] }
    else none

/-- A ready destination is filled. -/
def Shuffle.fill (s : Shuffle) (b : ℕ) (ready : List ℕ) : Option Shuffle := do
  let a ← s.pred b
  let l ← s.loc a
  let s ← { s with ready }.emitCopy (← s.values[l]?) (← s.values[b]?)
  let s := { s with loc := Function.update s.loc a (some b), pred := Function.update s.pred b none }
  pure (if (s.pred a).isSome then { s with ready := a :: s.ready } else s)

/-- `nir_local_reg_create`, with the number of components that is set afterwards. -/
def copyTemp (regAlloc numComponents : ℕ) : Register where
  index := regAlloc
  numComponents := numComponents
  bitSize := 32

/-- The value of a destination that is part of a cycle is saved in a temporary register.  There is
no result when the assertion fails that there is room for it. -/
def Shuffle.breakCycle (s : Shuffle) (numCopies b : ℕ) (toDo : List ℕ) : Option Shuffle := do
  if s.values.length < numCopies * 2 then
    let value ← s.values[b]?
    let temp := Src.reg (copyTemp s.regAlloc value.numComponents)
    let t := s.values.length
    let s ← { s with
      toDo
      values := s.values ++ [temp]
      regAlloc := s.regAlloc + 1 }.emitCopy value temp
    pure { s with loc := Function.update s.loc b (some t), ready := b :: s.ready }
  else none

/-- One iteration of the inner loop, or what follows that loop in the outer one. -/
def Shuffle.step (numCopies : ℕ) (s : Shuffle) : Option Shuffle :=
  match s.toDo, s.ready with
  | [], _ => some s
  | _ :: _, b :: ready => s.fill b ready
  | b :: toDo, [] =>
    if s.pred b = none then some { s with toDo } else s.breakCycle numCopies b toDo

/-- The loops, with a bound on the number of iterations. -/
def Shuffle.loop (numCopies : ℕ) : ℕ → Shuffle → Option Shuffle
  | 0, s => if s.toDo = [] then some s else none
  | n + 1, s => if s.toDo = [] then some s else (s.step numCopies).bind (loop numCopies n)

/-- The entries that are copies. -/
def copies (entries : List Entry) : List Entry := entries.filter fun e => e.src ≠ .reg e.dest

/-- What is set up before the loops. -/
def setUp (regAlloc : ℕ) (entries : List Entry) : Option Shuffle := do
  let s : Shuffle := {
    values := [], loc := fun _ => none, pred := fun _ => none
    toDo := [], ready := [], emitted := [], regAlloc }
  let s ← (copies entries).foldlM Shuffle.addEntry s
  pure s.markReady

/-- `resolve_parallel_copy`, with a bound on the number of iterations. -/
def resolveParallelCopy (regAlloc : ℕ) (entries : List Entry) (bound : ℕ) : Option (List Mov) := do
  let numCopies := (copies entries).length
  if numCopies = 0 then pure []
  else
    let s ← setUp regAlloc entries
    let s ← s.loop numCopies bound
    pure s.emitted

/-! ### What the movs are for -/

/-- A parallel copy with distinct destinations, whose sources have the shape of their destinations
and whose registers have been created. -/
structure Valid (regAlloc : ℕ) (entries : List Entry) : Prop where
  nodup : (entries.map Entry.dest).Nodup
  numComponents : ∀ e ∈ entries, e.src.numComponents = e.dest.numComponents
  bitSize : ∀ e ∈ entries, e.src.bitSize = e.dest.bitSize
  components : ∀ e ∈ entries, 0 < e.dest.numComponents
  dest : ∀ e ∈ entries, e.dest.index < regAlloc
  src : ∀ e ∈ entries, ∀ r, e.src = .reg r → r.index < regAlloc

/-- The movs give each destination what its source had, and leave the other registers alone but for
those that are created meanwhile. -/
structure Copies (regAlloc : ℕ) (entries : List Entry) (before after : Machine) : Prop where
  copied : ∀ e ∈ entries, ∀ c < e.dest.numComponents,
    after.read (.reg e.dest) c = before.read e.src c
  kept : ∀ r : Register, r.index < regAlloc → r ∉ entries.map Entry.dest →
    after.regs r = before.regs r

/-- The loops end, no assertion fails, and the movs do what the parallel copy says. -/
def Resolves (regAlloc : ℕ) (entries : List Entry) : Prop :=
  ∃ bound movs, resolveParallelCopy regAlloc entries bound = some movs ∧
    ∀ machine, Copies regAlloc entries machine (execMovs machine movs)

/-- The copies rotate some registers, and no other register is given what these hold. -/
structure Rotation (entries : List Entry) (regs : Set Register) : Prop where
  source : ∀ r ∈ regs, ∃ e ∈ copies entries, e.dest = r ∧ ∃ r' ∈ regs, e.src = .reg r'
  used : ∀ r ∈ regs, ∃ e ∈ copies entries, e.src = .reg r
  closed : ∀ e ∈ copies entries, ∀ r ∈ regs, e.src = .reg r → e.dest ∈ regs

end Nir.FromSsa
