import Mesa.Data.Ranges
import Mesa.Flow.Transition

/-!
# Descriptor sets of radv

The descriptor pools of `radv_descriptor_set.c`.  A pool has a buffer of GPU memory, of which every
set that needs any gets a part: at the current offset of the pool as long as there is room behind
it, and else in the first gap that is wide enough between the sets of `vram_list`.  In a pool whose
sets are not freed one by one, the sets themselves are in memory that belongs to the pool.

The place of a set is given by the distance of its `mapped_ptr` from that of the pool.  A set is live
from its creation until it is destroyed or the pool is reset; besides the fields of the source, a
state records these sets.
-/

namespace Radv

/-! ### States -/

/-- The members of `struct radv_descriptor_set_layout` that determine the memory of a set. -/
structure Layout where
  size : ℕ
  bufferCount : ℕ := 0
  dynamicOffsetCount : ℕ := 0

/-- `mem_size` in `radv_descriptor_set_create`, an `unsigned`. -/
def Layout.memSize (layout : Layout) : ℕ :=
  (64 + 8 * layout.bufferCount + 16 * layout.dynamicOffsetCount) % 2 ^ 32

/-- `struct radv_descriptor_set`, with the number of its creation. -/
structure DescriptorSet where
  id : ℕ
  /-- `mapped_ptr`, from that of the pool on -/
  start : ℕ
  size : ℕ
deriving DecidableEq

/-- The GPU memory of a set. -/
def DescriptorSet.range (set : DescriptorSet) : Range ℕ := ⟨set.start, set.start + set.size⟩

/-- The host memory of a pool whose sets are not freed one by one: `host_memory_ptr` and
`host_memory_end`, from `host_memory_base` on. -/
structure HostMemory where
  ptr : ℕ
  size : ℕ

/-- `struct radv_descriptor_pool`. -/
structure Pool where
  size : ℕ
  currentOffset : ℕ
  vramList : List DescriptorSet
  host : Option HostMemory

structure State where
  pool : Pool
  created : ℕ := 0
  live : List DescriptorSet := []

/-- `radv_CreateDescriptorPool`, for a buffer and host memory of the given sizes. -/
def createDescriptorPool (size : ℕ) (hostSize : Option ℕ) : State where
  pool := ⟨size, 0, [], hostSize.map (HostMemory.mk 0)⟩

/-- `VkResult`, as far as it occurs. -/
inductive Error where
  | outOfPoolMemory | outOfHostMemory
deriving DecidableEq

/-! ### Operations -/

/-- `align_u32`, for a power of two `a`. -/
def alignU32 (v a : ℕ) : ℕ := (v + a - 1) % 2 ^ 32 / a * a

/-- The loop of `radv_descriptor_set_create` over `vram_list`: the sets before the gap, its offset,
and the sets behind it.  The difference is that of two `uint64_t`. -/
def findGap (layoutSize : ℕ) (offset : ℕ) :
    List DescriptorSet → List DescriptorSet × ℕ × List DescriptorSet
  | [] => ([], offset, [])
  | cur :: rest =>
    if layoutSize ≤ (cur.start + 2 ^ 64 - offset) % 2 ^ 64 then ([], offset, cur :: rest)
    else
      let (before, offset, after) := findGap layoutSize (cur.start + cur.size) rest
      (cur :: before, offset, after)

namespace State

/-- The end of a successful `radv_descriptor_set_create`. -/
def addSet (s : State) (set : DescriptorSet) (pool : Pool) : Except Error DescriptorSet × State :=
  (.ok set, ⟨pool, s.created + 1, set :: s.live⟩)

/-- `radv_descriptor_set_create`, when there is memory for the set itself. -/
def place (s : State) (layout : Layout) : Except Error DescriptorSet × State :=
  let pool := s.pool
  if layout.size = 0 then s.addSet ⟨s.created, 0, 0⟩ pool
  else
    let layoutSize := alignU32 layout.size 32
    if pool.currentOffset + layoutSize ≤ pool.size then
      let set : DescriptorSet := ⟨s.created, pool.currentOffset, layout.size⟩
      s.addSet set
        { pool with
          currentOffset := pool.currentOffset + layoutSize
          vramList := pool.vramList ++ [set] }
    else
      match pool.host with
      | none =>
        let (before, offset, after) := findGap layoutSize 0 pool.vramList
        if (pool.size + 2 ^ 64 - offset) % 2 ^ 64 < layoutSize then (.error .outOfPoolMemory, s)
        else
          let set : DescriptorSet := ⟨s.created, offset, layout.size⟩
          s.addSet set { pool with vramList := before ++ set :: after }
      | some _ => (.error .outOfPoolMemory, s)

/-- `radv_descriptor_set_create`, with the result of `vk_alloc2`. -/
def create (s : State) (layout : Layout) (memory : Bool) : Except Error DescriptorSet × State :=
  match s.pool.host with
  | some host =>
    if host.size - host.ptr < layout.memSize then (.error .outOfPoolMemory, s)
    else
      { s with pool := { s.pool with host := some { host with ptr := host.ptr + layout.memSize } }
        }.place layout
  | none => if memory then s.place layout else (.error .outOfHostMemory, s)

/-- `radv_descriptor_set_destroy`, with `free_bo`. -/
def destroy (s : State) (set : DescriptorSet) : State :=
  { s with
    pool :=
      if set.size = 0 then s.pool else { s.pool with vramList := s.pool.vramList.erase set }
    live := s.live.erase set }

/-- `radv_FreeDescriptorSets`. -/
def freeDescriptorSets (s : State) (sets : List DescriptorSet) : State :=
  match s.pool.host with
  | none => sets.foldl destroy s
  | some _ => s

/-- The loop of `radv_AllocateDescriptorSets`, with the sets created so far: whether all could be
created. -/
def allocateLoop (s : State) (sets : List DescriptorSet) :
    List (Layout × Bool) → Bool × List DescriptorSet × State
  | [] => (true, sets, s)
  | (layout, memory) :: rest =>
    match s.create layout memory with
    | (.ok set, s) => s.allocateLoop (sets ++ [set]) rest
    | (.error _, s) => (false, sets, s)

/-- `radv_AllocateDescriptorSets`. -/
def allocateDescriptorSets (s : State) (layouts : List (Layout × Bool)) : State :=
  match s.allocateLoop [] layouts with
  | (true, _, s) => s
  | (false, sets, s) => s.freeDescriptorSets sets

/-- `radv_ResetDescriptorPool`. -/
def resetDescriptorPool (s : State) : State :=
  { s with
    pool :=
      { s.pool with
        vramList := []
        currentOffset := 0
        host := s.pool.host.map fun host => { host with ptr := 0 } }
    live := [] }

end State

/-- What a program does with a pool. -/
inductive Action where
  /-- sets of several layouts are allocated; for each of them there may be memory -/
  | allocate (layouts : List (Layout × Bool))
  /-- sets are freed -/
  | free (sets : List DescriptorSet)
  | reset

/-- One step.  Only live sets are freed, and each only once. -/
def step (s : State) : Action → Option State
  | .allocate layouts => some (s.allocateDescriptorSets layouts)
  | .free sets =>
    if sets.Nodup ∧ ∀ set ∈ sets, set ∈ s.live then some (s.freeDescriptorSets sets) else none
  | .reset => some s.resetDescriptorPool

end Radv
