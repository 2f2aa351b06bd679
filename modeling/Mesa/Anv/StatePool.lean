import Mathlib.Data.Nat.Log
import Mesa.Anv.BlockPool
import Mesa.Data.Ranges
import Mesa.Flow.Transition

/-!
# State pools

The state pools of `anv_allocator.c`, as they are used by one thread.  A pool gets blocks from its
block pool and hands out states of a power of two of bytes; the states that are freed are kept in a
list for each size, which is linked through their own memory.

Offsets count from the center of the block pool, so that those at the back are negative.  The memory
is given by the number at each offset.  What `__builtin_clz` gives for zero is not known, and is a
parameter.  Besides the fields of the source, a state of the program records what was requested and
not freed yet.
-/

namespace Anv

/-! ### Free lists -/

/-- `EMPTY`. -/
def empty : ℤ := 1

/-- The memory after the chunks from `offset` on were linked, with the given number of chunks after
the first one, and the list `head` after them. -/
def linkChunks (size : ℕ) (head : ℤ) : ℕ → ℤ → (ℤ → ℤ) → ℤ → ℤ
  | 0, offset, mem => Function.update mem offset head
  | n + 1, offset, mem =>
    linkChunks size head n (offset + size) (Function.update mem offset (offset + size))

/-! ### Pools -/

/-- `ANV_STATE_BUCKETS`. -/
def stateBuckets : ℕ := 15

/-- `struct anv_fixed_size_state_pool`. -/
structure Bucket where
  freeList : ℤ := empty
  block : BlockState := ⟨0, 0⟩

/-- `struct anv_state_pool`, with the memory of its block pool. -/
structure StatePool where
  block : BlockPool
  blockSize : ℕ
  backFreeList : ℤ := empty
  buckets : ℕ → Bucket := fun _ => {}
  mem : ℤ → ℤ

/-- `struct anv_state`. -/
structure AnvState where
  offset : ℤ
  allocSize : ℕ
deriving DecidableEq

def AnvState.range (state : AnvState) : Range ℤ := ⟨state.offset, state.offset + state.allocSize⟩

/-- `ilog2_round_up`, with the number `clz0` that `__builtin_clz` gives for zero. -/
def ilog2RoundUp (clz0 value : ℕ) : ℕ := if value = 1 then sub32 32 clz0 else Nat.clog 2 value

/-- `anv_state_pool_get_bucket`, with its assertion. -/
def getBucket (clz0 size : ℕ) : Option ℕ :=
  if ilog2RoundUp clz0 size ≤ 20 then some (max (ilog2RoundUp clz0 size) 6 - 6) else none

/-- `anv_state_pool_get_bucket_size`. -/
def bucketSize (bucket : ℕ) : ℕ := 2 ^ (bucket + 6)

namespace StatePool

def setBucket (s : StatePool) (b : ℕ) (bucket : Bucket) : StatePool :=
  { s with buckets := Function.update s.buckets b bucket }

/-- `anv_free_list_pop`, on the list of a bucket. -/
def pop (s : StatePool) (b : ℕ) : Option (StatePool × ℤ) :=
  let bucket := s.buckets b
  if bucket.freeList = empty then none
  else some (s.setBucket b { bucket with freeList := s.mem bucket.freeList }, bucket.freeList)

/-- `anv_free_list_push`, on the list of a bucket. -/
def push (s : StatePool) (b : ℕ) (offset : ℤ) (size count : ℕ) : StatePool :=
  let bucket := s.buckets b
  { s with mem := linkChunks size bucket.freeList (count - 1) offset s.mem }.setBucket b
    { bucket with freeList := offset }

/-- `anv_free_list_pop`, on the list at the back. -/
def popBack (s : StatePool) : Option (StatePool × ℤ) :=
  if s.backFreeList = empty then none
  else some ({ s with backFreeList := s.mem s.backFreeList }, s.backFreeList)

/-- `anv_free_list_push`, on the list at the back. -/
def pushBack (s : StatePool) (offset : ℤ) (size count : ℕ) : StatePool :=
  { s with
    mem := linkChunks size s.backFreeList (count - 1) offset s.mem
    backFreeList := offset }

/-- `anv_fixed_size_state_pool_alloc_new`.  The last branch would wait for another thread. -/
def allocNew (s : StatePool) (b stateSize : ℕ) (expands : List Bool) :
    Option (StatePool × ℤ) :=
  if s.blockSize ≤ stateSize then
    (s.block.alloc stateSize expands).map fun (block, offset) => ({ s with block := block }, offset)
  else
    let bucket := s.buckets b
    let block := bucket.block
    if block.next < block.limit then
      some (s.setBucket b { bucket with block := { block with next := block.next + stateSize } },
        block.next)
    else if block.next = block.limit then
      (s.block.alloc s.blockSize expands).map fun (pool, offset) =>
        ({ s with block := pool }.setBucket b
          { bucket with block := ⟨offset + stateSize, offset + s.blockSize⟩ }, offset)
    else none

/-- What `anv_state_pool_alloc_no_vg` does with a chunk that was found in a larger bucket: all of it
but the first part goes to free lists.  The assertions say that the parts fit. -/
def split (s : StatePool) (clz0 bucket b : ℕ) (chunk : ℤ) : Option StatePool :=
  let allocSize := bucketSize bucket
  let chunkSize := bucketSize b
  let fill (s : StatePool) (chunkSize : ℕ) : Option StatePool :=
    if chunkSize % allocSize = 0 then
      some (s.push bucket (chunk + allocSize) allocSize (chunkSize / allocSize - 1))
    else none
  if s.blockSize < chunkSize ∧ allocSize < s.blockSize then
    if chunkSize % s.blockSize = 0 then
      match getBucket clz0 s.blockSize with
      | none => none
      | some blockBucket =>
        fill (s.push blockBucket (chunk + s.blockSize) s.blockSize (chunkSize / s.blockSize - 1))
          s.blockSize
    else none
  else fill s chunkSize

/-- The loop of `anv_state_pool_alloc_no_vg` over the larger buckets. -/
def splitLoop (s : StatePool) (clz0 bucket : ℕ) (expands : List Bool) :
    List ℕ → Option (StatePool × ℤ)
  | [] => s.allocNew bucket (bucketSize bucket) expands
  | b :: bs =>
    match s.pop b with
    | none => s.splitLoop clz0 bucket expands bs
    | some (s, chunk) => (s.split clz0 bucket b chunk).map fun s => (s, chunk)

/-- `anv_state_pool_alloc_no_vg`. -/
def allocNoVg (s : StatePool) (clz0 size align : ℕ) (expands : List Bool) :
    Option (StatePool × AnvState) :=
  match getBucket clz0 (max size align) with
  | none => none
  | some bucket =>
    let result :=
      match s.pop bucket with
      | some (s, offset) => if 0 ≤ offset then some (s, offset) else none
      | none =>
        s.splitLoop clz0 bucket expands
          ((List.range stateBuckets).filter fun b => bucket < b)
    result.map fun (s, offset) => (s, ⟨offset, bucketSize bucket⟩)

/-- `anv_state_pool_alloc_back`. -/
def allocBack (s : StatePool) (expands : List Bool) : Option (StatePool × AnvState) :=
  match s.popBack with
  | some (s, offset) => if offset < 0 then some (s, ⟨offset, s.blockSize⟩) else none
  | none =>
    (s.block.allocBack s.blockSize expands).map fun (block, offset) =>
      ({ s with block := block }, ⟨offset, s.blockSize⟩)

/-- `anv_state_pool_free_no_vg`. -/
def freeNoVg (s : StatePool) (clz0 : ℕ) (state : AnvState) : Option StatePool :=
  if state.allocSize.isPowerOfTwo then
    match getBucket clz0 state.allocSize with
    | none => none
    | some bucket =>
      if state.offset < 0 then
        if state.allocSize = s.blockSize then some (s.pushBack state.offset state.allocSize 1)
        else none
      else some (s.push bucket state.offset state.allocSize 1)
  else none

/-- Numbers are written to the memory of a state. -/
def write (s : StatePool) (state : AnvState) (values : ℤ → ℤ) : StatePool :=
  { s with
    mem := fun o =>
      if o < state.range.finish ∧ state.range.start < o + 4 then values o else s.mem o }

/-- `anv_state_pool_init`. -/
def init (blockSize : ℕ) (mem : ℤ → ℤ) : Option StatePool :=
  (BlockPool.init (blockSize * 16 % 2 ^ 32)).map fun block =>
    { block := block, blockSize := blockSize, mem := mem }

end StatePool

/-! ### Programs -/

/-- A state that was handed out, with what was requested. -/
structure Live where
  state : AnvState
  size : ℕ
  align : ℕ
deriving DecidableEq

/-- A pool and the states that are in use. -/
structure PoolUse where
  pool : StatePool
  live : List Live := []

/-- What a program does with a pool. -/
inductive PoolAction where
  /-- `anv_state_pool_alloc`, with the results of the system calls, if the pool has to grow -/
  | alloc (size align : ℕ) (expands : List Bool)
  /-- `anv_state_pool_alloc_back` -/
  | allocBack (expands : List Bool)
  /-- `anv_state_pool_free` -/
  | free (l : Live)
  /-- the program uses a state -/
  | write (l : Live) (values : ℤ → ℤ)

/-- One step.  Sizes are not larger than the largest bucket, alignments are powers of two that are
not larger than a block, and a state is freed only once. -/
def poolStep (clz0 : ℕ) (u : PoolUse) : PoolAction → Option PoolUse
  | .alloc size align expands =>
    if 1 ≤ size ∧ size ≤ bucketSize 14 ∧ align.isPowerOfTwo ∧ align ≤ u.pool.blockSize then
      (u.pool.allocNoVg clz0 size align expands).map fun (pool, state) =>
        ⟨pool, ⟨state, size, align⟩ :: u.live⟩
    else none
  | .allocBack expands =>
    (u.pool.allocBack expands).map fun (pool, state) =>
      ⟨pool, ⟨state, u.pool.blockSize, u.pool.blockSize⟩ :: u.live⟩
  | .free l =>
    if l ∈ u.live then (u.pool.freeNoVg clz0 l.state).map fun pool => ⟨pool, u.live.erase l⟩
    else none
  | .write l values => if l ∈ u.live then some ⟨u.pool.write l.state values, u.live⟩ else none

end Anv
