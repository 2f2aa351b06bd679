import Mesa.Anv.StatePool

/-!
# Descriptor sets of anv

The descriptor pools of `anv_descriptor_set.c`.  A set is a piece of the memory of its pool: behind
what was handed out before, or else a piece that was freed.  The pieces that were freed are linked
through their own memory.  The surface states of the buffers of a set come from a stream, which gets
its blocks from a state pool, or from the sets that were freed.

The memory of a pool is given by the entry of the free list that is read at each offset.  What the
program stores in a set is arbitrary.  The blocks the state pool has to offer are given with each
request; they do not overlap the blocks the stream has, since those were not freed.
-/

namespace Anv

/-! ### Surface states -/

/-- `struct anv_state_stream`: the current block, the offset of the next state in it, and all blocks
of the stream. -/
structure StateStream where
  blockSize : ℕ
  block : AnvState := ⟨0, 0⟩
  next : ℕ
  blockList : List AnvState := []

/-- `anv_state_stream_init`. -/
def StateStream.init (blockSize : ℕ) : StateStream where
  blockSize := blockSize
  next := blockSize

/-- `anv_state_stream_alloc`, with the size of the header of a block and the blocks the state pool has
to offer.  There is no result when the state pool does not return, or the block it returns is too
small for the assertion. -/
def StateStream.alloc (stream : StateStream) (header size alignment : ℕ) (fresh : List AnvState) :
    Option (AnvState × StateStream × List AnvState) :=
  let offset := alignU32 stream.next alignment
  let take (stream : StateStream) (offset : ℕ) : AnvState × StateStream :=
    (⟨stream.block.offset + offset, size⟩, { stream with next := offset + size })
  if stream.block.allocSize < offset + size then
    match fresh with
    | [] => none
    | block :: fresh =>
      let stream := { stream with block := block, blockList := block :: stream.blockList }
      let offset := alignU32 header alignment
      if offset + size ≤ block.allocSize then
        let (state, stream) := take stream offset
        some (state, stream, fresh)
      else none
  else
    let (state, stream) := take stream offset
    some (state, stream, fresh)

/-! ### Pools -/

/-- The sizes of the structures of the source.  A piece that is free can hold an entry of the free
list, and the header of a block leaves room for states. -/
structure Abi where
  set : ℕ
  descriptor : ℕ
  bufferView : ℕ
  streamBlock : ℕ
  eight_le : 8 ≤ set
  header_le : streamBlock ≤ 64

/-- The members of `struct anv_descriptor_set_layout` that determine the size of a set, which are
`uint16_t`. -/
structure SetLayout where
  size : ℕ
  bufferCount : ℕ
  size_lt : size < 2 ^ 16
  bufferCount_lt : bufferCount < 2 ^ 16

/-- `anv_descriptor_set_layout_size`. -/
def SetLayout.setSize (layout : SetLayout) (abi : Abi) : ℕ :=
  abi.set + layout.size * abi.descriptor + layout.bufferCount * abi.bufferView

/-- `struct anv_descriptor_set`: its offset in the memory of the pool, its size, and the surface
states of its buffer views. -/
structure DescriptorSet where
  index : ℕ
  size : ℕ
  states : List AnvState
deriving DecidableEq

def DescriptorSet.range (set : DescriptorSet) : Range ℤ := ⟨set.index, set.index + set.size⟩

/-- `struct pool_free_list_entry`. -/
structure PoolFreeListEntry where
  next : ℕ
  size : ℕ

/-- `EMPTY`. -/
def poolEmpty : ℕ := 1

/-- `struct anv_descriptor_pool`, with its memory and the live sets. -/
structure DescriptorPool where
  size : ℕ
  next : ℕ := 0
  freeList : ℕ := poolEmpty
  data : ℕ → PoolFreeListEntry
  stream : StateStream := .init 4096
  surfaceStateFreeList : List AnvState := []
  live : List DescriptorSet := []

/-- `VkResult`, as far as it occurs. -/
inductive PoolError where
  | fragmentedPool | outOfPoolMemory
deriving DecidableEq

namespace DescriptorPool

/-- The memory after arbitrary values were stored from `start` on and before `finish`. -/
def overwrite (data : ℕ → PoolFreeListEntry) (start finish : ℕ) (values : ℕ → PoolFreeListEntry) :
    ℕ → PoolFreeListEntry :=
  fun o => if o < finish ∧ start < o + 8 then values o else data o

/-- The loop of `anv_descriptor_set_create` over the free list: the entry before the one that was
found, if any, and the one that was found.  Every entry of the list has its own place, so that there
are no more rounds than places. -/
def search (p : DescriptorPool) (size : ℕ) : ℕ → Option ℕ → ℕ → Option (Option ℕ × ℕ)
  | 0, _, _ => none
  | rounds + 1, link, f =>
    if f = poolEmpty then none
    else if size ≤ (p.data f).size then some (link, f)
    else p.search size rounds (some f) (p.data f).next

/-- `*link = entry->next`. -/
def unlink (p : DescriptorPool) (f : ℕ) : Option ℕ → DescriptorPool
  | none => { p with freeList := (p.data f).next }
  | some link =>
    { p with
      data := Function.update p.data link { p.data link with next := (p.data f).next } }

/-- The place of a new set. -/
def place (p : DescriptorPool) (size : ℕ) : Except PoolError (ℕ × DescriptorPool) :=
  if size ≤ p.size - p.next then .ok (p.next, { p with next := p.next + size })
  else
    match p.search size (p.size + 2) none p.freeList with
    | some (link, f) => .ok (f, p.unlink f link)
    | none => if p.freeList ≠ poolEmpty then .error .fragmentedPool else .error .outOfPoolMemory

/-- The loop of `anv_descriptor_set_create` over the buffers, with the states so far. -/
@[simp]
def takeStates (abi : Abi) :
    ℕ → List AnvState → List AnvState → DescriptorPool → Option (List AnvState × DescriptorPool)
  | 0, states, _, p => some (states, p)
  | n + 1, states, fresh, p =>
    match p.surfaceStateFreeList with
    | state :: rest =>
      if state.allocSize = 64 then
        takeStates abi n (states ++ [state]) fresh { p with surfaceStateFreeList := rest }
      else none
    | [] =>
      match p.stream.alloc abi.streamBlock 64 64 fresh with
      | none => none
      | some (state, stream, fresh) =>
        takeStates abi n (states ++ [state]) fresh { p with stream := stream }

/-- A request for a set: its layout, what is stored in the set, and the blocks the state pool has to
offer. -/
structure Request where
  layout : SetLayout
  values : ℕ → PoolFreeListEntry
  fresh : List AnvState

/-- `anv_descriptor_set_create`.  There is no result when the state pool does not return. -/
def create (p : DescriptorPool) (abi : Abi) (r : Request) :
    Option (Except PoolError DescriptorSet × DescriptorPool) :=
  let size := r.layout.setSize abi
  match p.place size with
  | .error e => some (.error e, p)
  | .ok (index, p) =>
    let p := { p with data := overwrite p.data index (index + size) r.values }
    (takeStates abi r.layout.bufferCount [] r.fresh p).map fun (states, p) =>
      let set : DescriptorSet := ⟨index, size, states⟩
      (.ok set, { p with live := set :: p.live })

/-- `anv_descriptor_set_destroy`. -/
def destroy (p : DescriptorPool) (set : DescriptorSet) : DescriptorPool :=
  let p := { p with
    surfaceStateFreeList := set.states.reverse ++ p.surfaceStateFreeList
    live := p.live.erase set }
  if set.index + set.size = p.next then { p with next := set.index }
  else
    { p with
      data := Function.update p.data set.index ⟨p.freeList, set.size⟩
      freeList := set.index }

/-- `anv_FreeDescriptorSets`. -/
def freeDescriptorSets (p : DescriptorPool) (sets : List DescriptorSet) : DescriptorPool :=
  sets.foldl destroy p

/-- The loop of `anv_AllocateDescriptorSets`, with the sets so far: whether all could be created. -/
@[simp]
def allocateLoop (abi : Abi) (sets : List DescriptorSet) :
    List Request → DescriptorPool → Option (Bool × List DescriptorSet × DescriptorPool)
  | [], p => some (true, sets, p)
  | r :: rest, p =>
    match p.create abi r with
    | none => none
    | some (.ok set, p) => allocateLoop abi (sets ++ [set]) rest p
    | some (.error _, p) => some (false, sets, p)

/-- `anv_AllocateDescriptorSets`: whether it succeeded. -/
def allocateDescriptorSets (p : DescriptorPool) (abi : Abi) (requests : List Request) :
    Option (Bool × DescriptorPool) :=
  match allocateLoop abi [] requests p with
  | none => none
  | some (true, _, p) => some (true, p)
  | some (false, sets, p) => some (false, p.freeDescriptorSets sets)

/-- `anv_ResetDescriptorPool`. -/
def resetDescriptorPool (p : DescriptorPool) : DescriptorPool :=
  { p with
    next := 0
    freeList := poolEmpty
    stream := .init 4096
    surfaceStateFreeList := []
    live := [] }

/-- `anv_CreateDescriptorPool`, for a memory of the given size. -/
def createDescriptorPool (size : ℕ) (data : ℕ → PoolFreeListEntry) : DescriptorPool where
  size := size
  data := data

end DescriptorPool

/-! ### Programs -/

/-- What a program does with a pool. -/
inductive SetAction where
  | allocate (requests : List DescriptorPool.Request)
  | free (sets : List DescriptorSet)
  | reset
  /-- the program uses a set -/
  | write (set : DescriptorSet) (values : ℕ → PoolFreeListEntry)

/-- The blocks the state pool has to offer are large enough, not larger than its largest bucket, and
overlap neither each other nor the blocks of the stream. -/
def Offered (stream : StateStream) (fresh : List AnvState) : Prop :=
  (∀ block ∈ fresh, 4096 ≤ block.allocSize ∧ block.allocSize ≤ bucketSize 14)
    ∧ (fresh ++ stream.blockList).Pairwise fun a b => a.range.Apart b.range

instance (stream : StateStream) (fresh : List AnvState) : Decidable (Offered stream fresh) :=
  inferInstanceAs (Decidable (_ ∧ _))

/-- The blocks that are offered with the requests of a call. -/
def offers (requests : List DescriptorPool.Request) : List AnvState :=
  requests.flatMap DescriptorPool.Request.fresh

/-- One step.  Only live sets are freed, and each only once. -/
def setStep (abi : Abi) (p : DescriptorPool) : SetAction → Option DescriptorPool
  | .allocate requests =>
    if Offered p.stream (offers requests) then (p.allocateDescriptorSets abi requests).map Prod.snd
    else none
  | .free sets =>
    if sets.Nodup ∧ ∀ set ∈ sets, set ∈ p.live then some (p.freeDescriptorSets sets) else none
  | .reset => some p.resetDescriptorPool
  | .write set values =>
    if set ∈ p.live then
      some { p with
        data := DescriptorPool.overwrite p.data set.index (set.index + set.size) values }
    else none

end Anv
