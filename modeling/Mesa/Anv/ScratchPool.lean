import Mesa.Flow.Transition
import Mathlib.Algebra.Group.Nat.Defs

/-!
# Scratch pools

`anv_scratch_pool_alloc` of `anv_allocator.c`, which gives out a buffer object for each size and each
stage, and makes it when it is asked for the first time.  Every access to the flag `exists`, every
operation on the mutex, the call of the kernel and each group of stores to the buffer object is one
step of a thread, and the steps of the threads may be taken in any order.

Besides what is in the source, a state records how often a buffer object was made for each slot, and
what has been returned.
-/

namespace Anv.ScratchPool

/-! ### States -/

/-- `gl_shader_stage`, as far as there are scratch buffers. -/
inductive ShaderStage where
  | vertex | tessCtrl | tessEval | geometry | fragment | compute
deriving DecidableEq

/-- What is read of the device. -/
structure Device where
  maxVsThreads : ℕ
  maxTcsThreads : ℕ
  maxTesThreads : ℕ
  maxGsThreads : ℕ
  maxWmThreads : ℕ
  maxCsThreads : ℕ
  subsliceTotal : ℕ
  isHaswell : Bool
  hasExecAsync : Bool

/-- `max_threads`. -/
def Device.maxThreads (device : Device) : ShaderStage → ℕ
  | .vertex => device.maxVsThreads
  | .tessCtrl => device.maxTcsThreads
  | .tessEval => device.maxTesThreads
  | .geometry => device.maxGsThreads
  | .fragment => device.maxWmThreads
  | .compute =>
    (if device.isHaswell then 16 * 8 else device.maxCsThreads) * max device.subsliceTotal 1

/-- `struct anv_bo`. -/
structure Bo where
  gemHandle : ℕ := 0
  index : ℕ := 0
  offset : ℕ := 0
  size : ℕ := 0
  map : ℕ := 0
  flags : ℕ := 0
deriving DecidableEq

/-- `struct anv_scratch_bo`. -/
structure ScratchBo where
  /-- `exists` -/
  present : Bool := false
  bo : Bo := {}
deriving DecidableEq

/-- `ffs`, on 32 bits. -/
def ffs (value : ℕ) : ℕ := ((List.range 32).find? fun i => value.testBit i).elim 0 (· + 1)

/-- The indices of `bos`. -/
structure Slot where
  scratchSizeLog2 : ℕ
  stage : ShaderStage
deriving DecidableEq

/-- The arguments of a call. -/
structure Call where
  stage : ShaderStage
  perThreadScratch : ℕ
deriving DecidableEq

def Call.slot (c : Call) : Slot := ⟨ffs (c.perThreadScratch / 2048), c.stage⟩

/-- The size of the buffer object that is made in a call. -/
def Call.size (device : Device) (c : Call) : ℕ :=
  c.perThreadScratch * device.maxThreads c.stage % 2 ^ 32

/-- Where a thread is.  The names tell what it does next. -/
inductive Pc where
  | idle
  | readExists (c : Call)
  | lock (c : Call)
  | recheck (c : Call)
  | gemCreate (c : Call)
  | init (c : Call) (handle : ℕ)
  | setFlags (c : Call)
  | setExists (c : Call)
  | unlock (c : Call)
deriving DecidableEq

/-- Whether a thread has the mutex. -/
def Pc.locked : Pc → Bool
  | .idle | .readExists _ | .lock _ => false
  | _ => true

/-- A buffer object that was returned. -/
structure Returned where
  slot : Slot
  bo : Bo
deriving DecidableEq

/-- The mutex of the device, the scratch pool and the threads. -/
structure State where
  bos : Slot → ScratchBo := fun _ => {}
  mutex : Option ℕ := none
  threads : ℕ → Pc := fun _ => .idle
  inits : Slot → ℕ := fun _ => 0
  returned : List Returned := []

namespace State

def goto (s : State) (t : ℕ) (pc : Pc) : State :=
  { s with threads := Function.update s.threads t pc }

def setBo (s : State) (slot : Slot) (bo : ScratchBo) : State :=
  { s with bos := Function.update s.bos slot bo }

/-- A call returns. -/
def leave (s : State) (t : ℕ) (slot : Slot) : State :=
  { s with returned := ⟨slot, (s.bos slot).bo⟩ :: s.returned }.goto t .idle

/-! ### Steps -/

/-- The next step of a thread that is inside of a call; `handle` is what `anv_gem_create` returns,
which is zero when it fails. -/
def run (device : Device) (s : State) (t handle : ℕ) : Option State :=
  match s.threads t with
  | .idle => none
  | .readExists c => if (s.bos c.slot).present then some (s.leave t c.slot) else some (s.goto t (.lock c))
  | .lock c => if s.mutex = none then some ({ s with mutex := some t }.goto t (.recheck c)) else none
  -- the mutex is not unlocked here
  | .recheck c =>
    if (s.bos c.slot).present then some (s.leave t c.slot) else some (s.goto t (.gemCreate c))
  -- the result of `anv_bo_init_new` is not used
  | .gemCreate c =>
    let s := { s with inits := Function.update s.inits c.slot (s.inits c.slot + 1) }
    if handle = 0 then some (s.goto t (.setFlags c)) else some (s.goto t (.init c handle))
  | .init c handle =>
    some ((s.setBo c.slot
      { s.bos c.slot with
        bo := { gemHandle := handle, offset := 2 ^ 64 - 1, size := c.size device } }).goto t
      (.setFlags c))
  | .setFlags c =>
    let bo := (s.bos c.slot).bo
    -- `EXEC_OBJECT_SUPPORTS_48B_ADDRESS`
    if bo.flags.testBit 3 then none
    else
      let flags := if device.hasExecAsync then bo.flags ||| 2 ^ 6 else bo.flags
      some ((s.setBo c.slot { s.bos c.slot with bo := { bo with flags := flags } }).goto t
        (.setExists c))
  | .setExists c =>
    some ((s.setBo c.slot { s.bos c.slot with present := true }).goto t (.unlock c))
  | .unlock c => some ({ s with mutex := none }.leave t c.slot)

end State

/-- What the threads do. -/
inductive Action where
  /-- `anv_scratch_pool_alloc` is called -/
  | call (t : ℕ) (c : Call)
  | run (t handle : ℕ)

/-- One step.  Without scratch space a call returns at once, and the sizes are such that the slot
exists, as is asserted. -/
def step (device : Device) (s : State) : Action → Option State
  | .call t c =>
    if s.threads t = .idle then
      if c.perThreadScratch = 0 then some s
      else if c.slot.scratchSizeLog2 < 16 then some (s.goto t (.readExists c)) else none
    else none
  | .run t handle => s.run device t handle

/-! ### What is asked of the pool -/

/-- The buffer object was made in a call for its slot, and all of it is set. -/
def Complete (device : Device) (slot : Slot) (bo : Bo) : Prop :=
  ∃ c : Call, ∃ handle, c.slot = slot ∧ handle ≠ 0
    ∧ bo = { gemHandle := handle, offset := 2 ^ 64 - 1, size := c.size device,
             flags := if device.hasExecAsync then 2 ^ 6 else 0 }

/-- Threads that have returned do not have the mutex; no slot is made twice; and what was returned
for a slot is complete and remains what it was. -/
structure Sound (device : Device) (s : State) : Prop where
  unlocked : ∀ t, s.mutex = some t → s.threads t ≠ .idle
  once : ∀ slot, s.inits slot ≤ 1
  same : ∀ r ∈ s.returned, s.bos r.slot = ⟨true, r.bo⟩ ∧ Complete device r.slot r.bo

/-- No thread that has the mutex finds that the buffer object exists by now, and the kernel creates
the objects that it is asked for. -/
def Careful (s : State) : Action → Prop
  | .call _ _ => True
  | .run t handle =>
    match s.threads t with
    | .recheck c => (s.bos c.slot).present = false
    | .gemCreate _ => handle ≠ 0
    | _ => True

instance (s : State) (a : Action) : Decidable (Careful s a) := by
  cases a with
  | call => exact .isTrue trivial
  | run t handle =>
    unfold Careful
    dsimp only
    split
    · infer_instance
    · infer_instance
    · exact .isTrue trivial

end Anv.ScratchPool
