import Mathlib.Data.Nat.Log
import Mesa.Flow.Transition
import Mathlib.Algebra.Group.Nat.Defs

/-!
# Slabs of buffers

The slab manager of `pb_slab.c`.  What happens with the mutex held is one step.  `pb_slab_alloc`
drops the mutex while it creates a slab, and other threads may take any steps in the meantime; the
new slab becomes known to them when the mutex is held again.

Slabs are numbered in the order in which they are added, and an entry is known by its slab and its
index in it.  The callbacks are left to the program: which entries can be reclaimed is given with
each step, and so is the order in which `slab_alloc` puts the entries of a slab on its free list.
Besides the fields of the source, a state records which entries were handed out and for which slabs
`slab_free` was called.
-/

namespace Gallium

namespace PbSlab

/-! ### States -/

/-- `struct pb_slab_entry`. -/
structure Entry where
  slab : ℕ
  index : ℕ
deriving DecidableEq

/-- `struct pb_slab`.  The group is that of its entries, and `linked` tells whether `head.next` is
not `NULL`. -/
structure Slab where
  group : ℕ := 0
  entries : List ℕ := []
  free : List ℕ := []
  numFree : ℕ := 0
  linked : Bool := false

/-- `num_entries`. -/
def Slab.numEntries (slab : Slab) : ℕ := slab.entries.length

/-- The members of `struct pb_slabs` that are set by `pb_slabs_init`. -/
structure Config where
  minOrder : ℕ
  numOrders : ℕ
  numHeaps : ℕ

/-- The group for a size and a heap, if the assertions of `pb_slab_alloc` hold. -/
def Config.groupIndex (c : Config) (size heap : ℕ) : Option ℕ :=
  let order := max c.minOrder (Nat.clog 2 size)
  if order < c.minOrder + c.numOrders ∧ heap < c.numHeaps then
    some (heap * c.numOrders + (order - c.minOrder))
  else none

/-- `struct pb_slabs`, with the threads that are inside of `slab_alloc` and the groups they need a
slab for. -/
structure State where
  groups : ℕ → List ℕ := fun _ => []
  slabs : ℕ → Slab := fun _ => {}
  numSlabs : ℕ := 0
  reclaim : List Entry := []
  threads : ℕ → Option ℕ := fun _ => none
  /-- the entries that were handed out, and were not passed to `pb_slab_free` -/
  held : List Entry := []
  /-- the slabs that were passed to `slab_free` -/
  freed : List ℕ := []

namespace State

def setSlab (s : State) (i : ℕ) (slab : Slab) : State :=
  { s with slabs := Function.update s.slabs i slab }

def setGroup (s : State) (g : ℕ) (slabs : List ℕ) : State :=
  { s with groups := Function.update s.groups g slabs }

/-! ### Steps -/

/-- `pb_slab_reclaim`, until the slab is linked. -/
def relink (s : State) (e : Entry) : State :=
  let slab := s.slabs e.slab
  let s := { s with reclaim := s.reclaim.erase e }.setSlab e.slab
    { slab with
      free := e.index :: slab.free
      numFree := (slab.numFree + 1) % 2 ^ 32
      linked := true }
  if slab.linked then s else s.setGroup slab.group (s.groups slab.group ++ [e.slab])

/-- The end of `pb_slab_reclaim`. -/
def release (s : State) (i : ℕ) : State :=
  let slab := s.slabs i
  if slab.numEntries ≤ slab.numFree then
    { s with freed := i :: s.freed }.setSlab i { slab with linked := false }
      |>.setGroup slab.group ((s.groups slab.group).erase i)
  else s

/-- `pb_slab_reclaim`. -/
def reclaimEntry (s : State) (e : Entry) : State := (s.relink e).release e.slab

/-- The loop of `pb_slabs_reclaim_locked`, over the entries that are on the reclaim list. -/
def reclaimLoop (canReclaim : Entry → Bool) : List Entry → State → State
  | [], s => s
  | e :: es, s => if canReclaim e then reclaimLoop canReclaim es (s.reclaimEntry e) else s

/-- `pb_slabs_reclaim_locked`. -/
def reclaimLocked (s : State) (canReclaim : Entry → Bool) : State :=
  reclaimLoop canReclaim s.reclaim s

/-- The loop of `pb_slab_alloc` that removes the slabs without free entries from a group. -/
def unlinkLoop (g : ℕ) : List ℕ → State → State
  | [], s => s
  | i :: is, s =>
    if (s.slabs i).free = [] then
      unlinkLoop g is ((s.setSlab i { s.slabs i with linked := false }).setGroup g is)
    else s

/-- The end of `pb_slab_alloc`: the first free entry of a slab is handed out. -/
def take (s : State) (i : ℕ) : State :=
  let slab := s.slabs i
  match slab.free with
  | [] => s
  | e :: free =>
    { s with held := ⟨i, e⟩ :: s.held }.setSlab i
      { slab with free := free, numFree := (slab.numFree + 2 ^ 32 - 1) % 2 ^ 32 }

/-- The first slab of a group has no free entries, or there is none. -/
def needsReclaim (s : State) (g : ℕ) : Bool :=
  match s.groups g with
  | [] => true
  | i :: _ => (s.slabs i).free.isEmpty

/-- `pb_slab_alloc`, until the mutex is released. -/
def alloc (s : State) (t g : ℕ) (canReclaim : Entry → Bool) : State :=
  let s := if s.needsReclaim g then s.reclaimLocked canReclaim else s
  let s := unlinkLoop g (s.groups g) s
  match s.groups g with
  | [] => { s with threads := Function.update s.threads t (some g) }
  | i :: _ => s.take i

/-- `pb_slab_alloc`, after `slab_alloc` has returned a slab with the given entries. -/
def addSlab (s : State) (t g : ℕ) (entries : List ℕ) : State :=
  let i := s.numSlabs
  let s := { s with
      numSlabs := i + 1
      threads := Function.update s.threads t none }.setSlab i
    ⟨g, entries, entries, entries.length, true⟩
  (s.setGroup g (i :: s.groups g)).take i

/-- `pb_slab_free`. -/
def free (s : State) (e : Entry) : State :=
  { s with held := s.held.erase e, reclaim := s.reclaim ++ [e] }

end State

/-- What the threads of the program do. -/
inductive Action where
  /-- `pb_slab_alloc` is called by a thread and holds the mutex for the first time -/
  | alloc (t size heap : ℕ) (canReclaim : Entry → Bool)
  /-- `slab_alloc` has returned a slab with the given entries, and the mutex is held again -/
  | created (t : ℕ) (entries : List ℕ)
  /-- `slab_alloc` has failed -/
  | failed (t : ℕ)
  /-- `pb_slab_free` -/
  | free (e : Entry)
  /-- `pb_slabs_reclaim` -/
  | reclaim (canReclaim : Entry → Bool)

/-- One step.  Only entries that were handed out are freed, and a slab has entries, fewer than an
`unsigned` can count. -/
def step (c : Config) (s : State) : Action → Option State
  | .alloc t size heap canReclaim =>
    if s.threads t = none then (c.groupIndex size heap).map fun g => s.alloc t g canReclaim
    else none
  | .created t entries =>
    if entries ≠ [] ∧ entries.Nodup ∧ entries.length < 2 ^ 32 then
      (s.threads t).map fun g => s.addSlab t g entries
    else none
  | .failed t =>
    (s.threads t).map fun _ => { s with threads := Function.update s.threads t none }
  | .free e => if e ∈ s.held then some (s.free e) else none
  | .reclaim canReclaim => some (s.reclaimLocked canReclaim)

end PbSlab

end Gallium
