import Mathlib.Tactic.Linarith
import Mathlib.Tactic.Positivity
import Mathlib.Tactic.Ring
import Mesa.Anv.StatePool
import Mesa.Data.Chain
import Mesa.Data.Slots

/-!
# The states of a pool do not overlap

Every byte between the last block at the back and the last block at the front has one owner: a free
list, the rest of the block a bucket takes its states from, or what is outside of the pool.  The
operations pass ranges from one owner to another, cut them, and add blocks at the ends.
-/

namespace Anv

/-! ### Owners -/

/-- A chunk of a free list. -/
def chunk (size : ℕ) (offset : ℤ) : Range ℤ := ⟨offset, offset + size⟩

/-- The rest of the block from which a bucket takes new states. -/
def Bucket.rest (bucket : Bucket) : Range ℤ := ⟨bucket.block.next, bucket.block.limit⟩

namespace StatePool

/-- The ranges of a bucket whose free list has the given chunks. -/
def pieces (s : StatePool) (free : ℕ → List ℤ) (b : ℕ) : List (Range ℤ) :=
  (s.buckets b).rest :: (free b).map (chunk (bucketSize b))

/-- The number of owners of a byte, when the given ranges are outside of the pool. -/
def owners (s : StatePool) (free : ℕ → List ℤ) (back : List ℤ) (out : List (Range ℤ)) (z : ℤ) : ℕ :=
  Range.total out z + Slots.sum (fun l => Range.total l z) stateBuckets (s.pieces free)
    + Range.total (back.map (chunk s.blockSize)) z

/-- What was handed out by the block pool. -/
def extent (s : StatePool) : Range ℤ := ⟨-s.block.back.next, s.block.front.next⟩

/-- The chunks of a bucket begin at multiples of this. -/
def grain (s : StatePool) (b : ℕ) : ℕ := min s.blockSize (bucketSize b)

/-- What holds of a pool with the given free lists, when the given ranges are outside of it. -/
structure Inv (s : StatePool) (free : ℕ → List ℤ) (back : List ℤ) (out : List (Range ℤ)) : Prop where
  block : s.block.Inv
  quiet : s.block.Quiet
  powerOfTwo : s.blockSize.isPowerOfTwo
  four_le : 4 ≤ s.blockSize
  blockSize_lt : s.blockSize < 2 ^ 29
  chain : ∀ b < stateBuckets, Chain s.mem empty (s.buckets b).freeList (free b)
  backChain : Chain s.mem empty s.backFreeList back
  free_place : ∀ b < stateBuckets, ∀ o ∈ free b, 0 ≤ o ∧ (s.grain b : ℤ) ∣ o
  back_place : ∀ o ∈ back, o < 0 ∧ (s.blockSize : ℤ) ∣ o
  rest_le : ∀ b < stateBuckets, (s.buckets b).block.next ≤ (s.buckets b).block.limit
  rest_dvd : ∀ b < stateBuckets,
    bucketSize b ∣ (s.buckets b).block.next ∧ bucketSize b ∣ (s.buckets b).block.limit
  front_dvd : s.blockSize ∣ s.block.front.next
  back_dvd : s.blockSize ∣ s.block.back.next
  owners_eq : ∀ z, s.owners free back out z = s.extent.covers z

variable {s s' : StatePool} {free : ℕ → List ℤ} {back : List ℤ} {out : List (Range ℤ)}

/-- A byte has at most one owner. -/
theorem Inv.owners_le (inv : s.Inv free back out) (z : ℤ) :
  s.owners free back out z ≤ 1
  := by
  rw [inv.owners_eq, Range.covers]
  split <;> decide

/-- The ranges outside of the pool may be listed in any order. -/
theorem Inv.perm {out' : List (Range ℤ)} (inv : s.Inv free back out) (perm : out.Perm out') :
  s.Inv free back out'
  := by
  refine { inv with owners_eq := ?_ }
  intro z
  rw [← inv.owners_eq, owners, owners, Range.total_perm perm]

/-- A range outside of the pool is cut in two. -/
theorem Inv.cut {a b c : ℤ} (inv : s.Inv free back (⟨a, c⟩ :: out)) (ab : a ≤ b) (bc : b ≤ c) :
  s.Inv free back (⟨a, b⟩ :: ⟨b, c⟩ :: out)
  := by
  refine { inv with owners_eq := ?_ }
  intro z
  rw [← inv.owners_eq, owners, owners, Range.total_cons, Range.total_cons, Range.total_cons,
    Range.covers_cut ab bc]
  omega

/-- A bucket owns no more than there is. -/
theorem total_pieces_le (s : StatePool) (free : ℕ → List ℤ) {b : ℕ} (hb : b < stateBuckets) (z : ℤ) :
  Range.total (s.pieces free b) z
    ≤ Slots.sum (fun l => Range.total l z) stateBuckets (s.pieces free)
  := by
  unfold Slots.sum
  exact Finset.single_le_sum (f := fun b => Range.total (s.pieces free b) z)
    (fun _ _ => Nat.zero_le _) (Finset.mem_range.2 hb)

/-- The owners after a change of one bucket. -/
theorem owners_update {b : ℕ} (hb : b < stateBuckets) {bucket : Bucket}
    (buckets : s'.buckets = Function.update s.buckets b bucket) (blockSize : s'.blockSize = s.blockSize)
    (free : ℕ → List ℤ) (l back back' : List ℤ) (out out' : List (Range ℤ)) (z : ℤ) :
  s'.owners (Function.update free b l) back' out' z + Range.total (s.pieces free b) z
      + Range.total (back.map (chunk s.blockSize)) z + Range.total out z
    = s.owners free back out z
      + Range.total (bucket.rest :: l.map (chunk (bucketSize b))) z
      + Range.total (back'.map (chunk s.blockSize)) z + Range.total out' z
  := by
  have pieces : s'.pieces (Function.update free b l)
      = Function.update (s.pieces free) b
        (bucket.rest :: l.map (chunk (bucketSize b))) := by
    funext k
    by_cases eq : k = b
    · rw [eq, Function.update_self, pieces, buckets, Function.update_self, Function.update_self]
    · rw [Function.update_of_ne eq, pieces, buckets, Function.update_of_ne eq,
        Function.update_of_ne eq]
      rfl
  have sum := Slots.sum_update (fun l => Range.total l z) (s.pieces free) hb
    (bucket.rest :: l.map (chunk (bucketSize b)))
  rw [owners, owners, pieces, blockSize]
  omega

/-! ### Chunks -/

/-- The chunk of a free list is owned by it. -/
theorem covers_le_pieces (s : StatePool) {b : ℕ} {o : ℤ} (mem : o ∈ free b) (z : ℤ) :
  (chunk (bucketSize b) o).covers z ≤ Range.total (s.pieces free b) z
  := by
  apply Range.covers_le_total
  apply List.mem_cons_of_mem
  exact List.mem_map_of_mem mem

theorem bucketSize_pos (b : ℕ) :
  0 < bucketSize b
  := Nat.two_pow_pos _

theorem four_le_bucketSize (b : ℕ) :
  4 ≤ bucketSize b
  := Nat.pow_le_pow_right Nat.two_pos (by omega : 2 ≤ b + 6)

/-- What is outside of the pool does not overlap the chunks of its free lists. -/
theorem Inv.apart_free (inv : s.Inv free back out) {r : Range ℤ} (mem : r ∈ out)
    (nonempty : r.start < r.finish) {b : ℕ} (hb : b < stateBuckets) {o : ℤ} (ho : o ∈ free b) :
  r.Apart (chunk (bucketSize b) o)
  := by
  have pos := bucketSize_pos b
  apply Range.apart_of_covers nonempty
  · unfold chunk
    dsimp only
    omega
  · intro z
    have le := inv.owners_le z
    have outside := Range.covers_le_total mem z
    have inside := covers_le_pieces s ho z
    have bucket := total_pieces_le s free hb z
    unfold owners at le
    omega

theorem Inv.apart_back (inv : s.Inv free back out) {r : Range ℤ} (mem : r ∈ out)
    (nonempty : r.start < r.finish) {o : ℤ} (ho : o ∈ back) :
  r.Apart (chunk s.blockSize o)
  := by
  have pos := inv.four_le
  apply Range.apart_of_covers nonempty
  · unfold chunk
    dsimp only
    omega
  · intro z
    have le := inv.owners_le z
    have outside := Range.covers_le_total mem z
    have inside := Range.covers_le_total (List.mem_map_of_mem (f := chunk s.blockSize) ho) z
    unfold owners at le
    omega

/-- The chunks that are linked by a push. -/
def chunkList (size : ℕ) : ℕ → ℤ → List ℤ
  | 0, o => [o]
  | n + 1, o => o :: chunkList size n (o + size)

theorem mem_chunkList {size n : ℕ} {o x : ℤ} (mem : x ∈ chunkList size n o) :
  ∃ i ≤ n, x = o + i * size
  := by
  induction n generalizing o with
  | zero =>
    obtain rfl := List.mem_singleton.1 mem
    exact ⟨0, Nat.le_refl 0, by simp⟩
  | succ n ih =>
    rcases List.mem_cons.1 mem with rfl | mem
    · exact ⟨0, Nat.zero_le _, by simp⟩
    · obtain ⟨i, le, rfl⟩ := ih mem
      refine ⟨i + 1, Nat.succ_le_succ le, ?_⟩
      push_cast
      ring

/-- The chunks cover what was pushed. -/
theorem total_chunkList (size n : ℕ) (o z : ℤ) :
  Range.total ((chunkList size n o).map (chunk size)) z
    = (⟨o, o + (n + 1) * size⟩ : Range ℤ).covers z
  := by
  induction n generalizing o with
  | zero => simp [chunkList, Range.total, chunk]
  | succ n ih =>
    have first : o ≤ o + size := by omega
    have rest : o + (size : ℤ) ≤ o + ((n + 1 : ℕ) + 1) * size := by
      have : (0 : ℤ) ≤ (n + 1) * size := by positivity
      push_cast
      linarith
    have last : o + (size : ℤ) + (n + 1) * size = o + ((n + 1 : ℕ) + 1) * size := by
      push_cast
      ring
    rw [chunkList, List.map_cons, Range.total_cons, ih, Range.covers_cut first rest, last]
    rfl

/-- Only the chunks are written. -/
theorem linkChunks_of_notMem {size n : ℕ} {head o w : ℤ} {mem : ℤ → ℤ}
    (out : w ∉ chunkList size n o) :
  linkChunks size head n o mem w = mem w
  := by
  induction n generalizing o mem with
  | zero =>
    rw [linkChunks, Function.update_of_ne]
    exact fun eq => out (List.mem_singleton.2 eq)
  | succ n ih =>
    rw [linkChunks, ih, Function.update_of_ne]
    · exact fun eq => out (List.mem_cons.2 (.inl eq))
    · exact fun mem => out (List.mem_cons_of_mem _ mem)

/-- The chunks are linked in front of the list. -/
theorem chain_linkChunks {size n : ℕ} (pos : 0 < size) {head o : ℤ} {mem : ℤ → ℤ} {l : List ℤ}
    (chain : Chain mem empty head l) (places : ∀ x ∈ chunkList size n o, x ≠ empty ∧ x ∉ l) :
  Chain (linkChunks size head n o mem) empty o (chunkList size n o ++ l)
  := by
  induction n generalizing o mem with
  | zero =>
    obtain ⟨ne, out⟩ := places o (List.mem_singleton_self o)
    refine ⟨rfl, ne, ?_⟩
    rw [linkChunks, Function.update_self]
    apply chain.congr
    intro a ha
    exact Function.update_of_ne (fun eq : a = o => out (eq ▸ ha)) _ _
  | succ n ih =>
    obtain ⟨ne, out⟩ := places o List.mem_cons_self
    refine ⟨rfl, ne, ?_⟩
    have later : o ∉ chunkList size n (o + size) := by
      intro inLater
      obtain ⟨i, -, eq⟩ := mem_chunkList inLater
      have : (0 : ℤ) ≤ i * size := by positivity
      omega
    rw [linkChunks, linkChunks_of_notMem later, Function.update_self]
    apply ih
    · apply chain.congr
      intro a ha
      exact Function.update_of_ne (fun eq : a = o => out (eq ▸ ha)) _ _
    · intro x hx
      exact places x (List.mem_cons_of_mem _ hx)

/-! ### Changes of one bucket -/

/-- A bucket changes, and with it what is outside of the pool. -/
theorem Inv.update {out' : List (Range ℤ)} {b : ℕ} {bucket : Bucket} {l : List ℤ}
    (inv : s.Inv free back out) (hb : b < stateBuckets)
    (buckets : s'.buckets = Function.update s.buckets b bucket)
    (blockSize : s'.blockSize = s.blockSize) (backFreeList : s'.backFreeList = s.backFreeList)
    (good : s'.block.Inv) (quiet : s'.block.Quiet) (front_dvd : s.blockSize ∣ s'.block.front.next)
    (back_dvd : s.blockSize ∣ s'.block.back.next)
    (chain : Chain s'.mem empty bucket.freeList l)
    (cells : ∀ k < stateBuckets, k ≠ b → ∀ o ∈ free k, s'.mem o = s.mem o)
    (backCells : ∀ o ∈ back, s'.mem o = s.mem o)
    (place : ∀ o ∈ l, 0 ≤ o ∧ (s.grain b : ℤ) ∣ o)
    (rest_le : bucket.block.next ≤ bucket.block.limit)
    (rest_dvd : bucketSize b ∣ bucket.block.next ∧ bucketSize b ∣ bucket.block.limit)
    (owners : ∀ z, Range.total out' z
        + Range.total (bucket.rest :: l.map (chunk (bucketSize b))) z + s.extent.covers z
      = Range.total out z + Range.total (s.pieces free b) z + s'.extent.covers z) :
  s'.Inv (Function.update free b l) back out'
  := by
  have grain : ∀ k, s'.grain k = s.grain k := by
    intro k
    rw [StatePool.grain, StatePool.grain, blockSize]
  constructor
  case block => exact good
  case quiet => exact quiet
  case powerOfTwo => rw [blockSize]; exact inv.powerOfTwo
  case four_le => rw [blockSize]; exact inv.four_le
  case blockSize_lt => rw [blockSize]; exact inv.blockSize_lt
  case chain =>
    intro k hk
    by_cases eq : k = b
    · rw [eq, buckets, Function.update_self, Function.update_self]
      exact chain
    · rw [buckets, Function.update_of_ne eq, Function.update_of_ne eq]
      exact (inv.chain k hk).congr (cells k hk eq)
  case backChain =>
    rw [backFreeList]
    exact inv.backChain.congr backCells
  case free_place =>
    intro k hk o ho
    rw [grain]
    by_cases eq : k = b
    · rw [eq, Function.update_self] at ho
      rw [eq]
      exact place o ho
    · rw [Function.update_of_ne eq] at ho
      exact inv.free_place k hk o ho
  case back_place => rw [blockSize]; exact inv.back_place
  case rest_le =>
    intro k hk
    rw [buckets, Function.update_apply]
    split
    · exact rest_le
    · exact inv.rest_le k hk
  case rest_dvd =>
    intro k hk
    rw [buckets, Function.update_apply]
    split
    case isTrue eq => rw [eq]; exact rest_dvd
    case isFalse => exact inv.rest_dvd k hk
  case front_dvd => rw [blockSize]; exact front_dvd
  case back_dvd => rw [blockSize]; exact back_dvd
  case owners_eq =>
    intro z
    have sum := owners_update hb buckets blockSize free l back back out out' z
    have before := inv.owners_eq z
    have change := owners z
    omega

theorem pop_eq_some {b : ℕ} {o : ℤ} (popped : s.pop b = some (s', o)) :
  (s.buckets b).freeList = o ∧ o ≠ empty
    ∧ s' = s.setBucket b { s.buckets b with freeList := s.mem o }
  := by
  unfold pop at popped
  dsimp only at popped
  split at popped
  case isTrue => cases popped
  case isFalse ne =>
    obtain ⟨rfl, rfl⟩ := Prod.mk.inj (Option.some.inj popped)
    exact ⟨rfl, ne, rfl⟩

/-- A chunk leaves the pool. -/
theorem Inv.pop {b : ℕ} (hb : b < stateBuckets) {o : ℤ} (inv : s.Inv free back out)
    (popped : s.pop b = some (s', o)) :
  ∃ free', s'.Inv free' back (chunk (bucketSize b) o :: out) ∧ 0 ≤ o ∧ (s.grain b : ℤ) ∣ o
    ∧ s'.blockSize = s.blockSize
  := by
  obtain ⟨head, ne, rfl⟩ := pop_eq_some popped
  obtain ⟨rest, eq, chain⟩ := (inv.chain b hb).exists_cons (head ▸ ne)
  rw [head] at eq chain
  obtain ⟨nonneg, dvd⟩ := inv.free_place b hb o (eq ▸ List.mem_cons_self)
  refine ⟨Function.update free b rest, ?_, nonneg, dvd, rfl⟩
  refine inv.update hb rfl rfl rfl inv.block inv.quiet inv.front_dvd inv.back_dvd chain
    (fun _ _ _ _ _ => rfl) (fun _ _ => rfl) ?_ (inv.rest_le b hb) (inv.rest_dvd b hb) ?_
  · intro x hx
    exact inv.free_place b hb x (eq ▸ List.mem_cons_of_mem _ hx)
  · intro z
    rw [pieces, eq, List.map_cons, Range.total_cons, Range.total_cons, Range.total_cons,
      Range.total_cons]
    have rest : ({ s.buckets b with freeList := s.mem o } : Bucket).rest = (s.buckets b).rest := rfl
    have extent : (s.setBucket b { s.buckets b with freeList := s.mem o }).extent = s.extent := rfl
    rw [rest, extent]
    omega

/-- The cells of the free lists are not in a range outside of the pool. -/
theorem Inv.not_cell (inv : s.Inv free back out) {r : Range ℤ} (mem : r ∈ out) {x : ℤ}
    (above : r.start ≤ x) (below : x < r.finish) :
  (∀ b < stateBuckets, x ∉ free b) ∧ x ∉ back
  := by
  have nonempty : r.start < r.finish := by omega
  constructor
  · intro b hb hx
    have apart := inv.apart_free mem nonempty hb hx
    have pos := bucketSize_pos b
    unfold Range.Apart chunk at apart
    dsimp only at apart
    omega
  · intro hx
    have apart := inv.apart_back mem nonempty hx
    have pos := inv.four_le
    unfold Range.Apart chunk at apart
    dsimp only at apart
    omega

/-- The chunks of a range are in it. -/
theorem chunkList_within {size n : ℕ} {o x : ℤ} (pos : 0 < size) (mem : x ∈ chunkList size n o) :
  o ≤ x ∧ x < o + (n + 1) * size
  := by
  obtain ⟨i, le, rfl⟩ := mem_chunkList mem
  have lower : (0 : ℤ) ≤ i * size := by positivity
  have upper : (i : ℤ) * size ≤ n * size := by
    apply mul_le_mul_of_nonneg_right _ (by positivity)
    exact_mod_cast le
  constructor
  · linarith
  · have : (0 : ℤ) < size := by exact_mod_cast pos
    linarith

/-- The grain of a bucket divides the sizes of a block and of its chunks. -/
theorem grain_dvd (powerOfTwo : s.blockSize.isPowerOfTwo) (b : ℕ) :
  s.grain b ∣ s.blockSize ∧ s.grain b ∣ bucketSize b
  := by
  obtain ⟨k, eq⟩ := powerOfTwo
  rw [grain, eq, bucketSize]
  rcases Nat.le_total k (b + 6) with le | le
  · rw [min_eq_left (Nat.pow_le_pow_right Nat.two_pos le)]
    exact ⟨dvd_rfl, Nat.pow_dvd_pow 2 le⟩
  · rw [min_eq_right (Nat.pow_le_pow_right Nat.two_pos le)]
    exact ⟨Nat.pow_dvd_pow 2 le, dvd_rfl⟩

theorem Inv.four_le_grain (inv : s.Inv free back out) (b : ℕ) :
  4 ≤ s.grain b
  := le_min inv.four_le (four_le_bucketSize b)

/-- A multiple of a grain is not the end of a list. -/
theorem ne_empty_of_dvd {g : ℕ} (four : 4 ≤ g) {x : ℤ} (dvd : (g : ℤ) ∣ x) :
  x ≠ empty
  := by
  rintro rfl
  have le := Int.le_of_dvd (by decide) dvd
  unfold empty at le
  omega

/-- A range that is outside of the pool is put on a free list, as chunks. -/
theorem Inv.push {b n : ℕ} (hb : b < stateBuckets) {o : ℤ}
    (inv : s.Inv free back (⟨o, o + (n + 1) * bucketSize b⟩ :: out)) (nonneg : 0 ≤ o)
    (dvd : (s.grain b : ℤ) ∣ o) :
  ∃ free', (s.push b o (bucketSize b) (n + 1)).Inv free' back out
  := by
  have pos := bucketSize_pos b
  have within : ∀ x ∈ chunkList (bucketSize b) n o,
      (∀ k < stateBuckets, x ∉ free k) ∧ x ∉ back := by
    intro x hx
    obtain ⟨above, below⟩ := chunkList_within pos hx
    exact inv.not_cell List.mem_cons_self above below
  have place : ∀ x ∈ chunkList (bucketSize b) n o, 0 ≤ x ∧ (s.grain b : ℤ) ∣ x := by
    intro x hx
    refine ⟨nonneg.trans (chunkList_within pos hx).1, ?_⟩
    obtain ⟨i, -, rfl⟩ := mem_chunkList hx
    apply dvd_add dvd
    apply Dvd.dvd.mul_left
    exact Int.natCast_dvd_natCast.2 (grain_dvd inv.powerOfTwo b).2
  refine ⟨Function.update free b (chunkList (bucketSize b) n o ++ free b), ?_⟩
  refine inv.update hb rfl rfl rfl inv.block inv.quiet inv.front_dvd inv.back_dvd ?_ ?_ ?_ ?_
    (inv.rest_le b hb) (inv.rest_dvd b hb) ?_
  · apply chain_linkChunks pos (inv.chain b hb)
    intro x hx
    exact ⟨ne_empty_of_dvd (inv.four_le_grain b) (place x hx).2, (within x hx).1 b hb⟩
  · intro k hk _ x hx
    apply linkChunks_of_notMem
    intro mem
    exact (within x mem).1 k hk hx
  · intro x hx
    apply linkChunks_of_notMem
    intro mem
    exact (within x mem).2 hx
  · intro x hx
    rcases List.mem_append.1 hx with hx | hx
    · exact place x hx
    · exact inv.free_place b hb x hx
  · intro z
    rw [pieces, List.map_append, Range.total_cons, Range.total_append, Range.total_cons,
      Range.total_cons, total_chunkList]
    have rest : ({ s.buckets b with freeList := o } : Bucket).rest = (s.buckets b).rest := rfl
    have extent : (s.push b o (bucketSize b) (n + 1)).extent = s.extent := rfl
    rw [rest, extent]
    omega

/-! ### The list at the back -/

/-- A block leaves the list at the back. -/
theorem Inv.popBack {o : ℤ} (inv : s.Inv free back out) (popped : s.popBack = some (s', o)) :
  ∃ back', s'.Inv free back' (chunk s.blockSize o :: out) ∧ o < 0 ∧ (s.blockSize : ℤ) ∣ o
    ∧ s'.blockSize = s.blockSize
  := by
  unfold StatePool.popBack at popped
  split at popped
  case isTrue => cases popped
  case isFalse ne =>
    obtain ⟨rfl, rfl⟩ := Prod.mk.inj (Option.some.inj popped)
    obtain ⟨rest, rfl, chain⟩ := inv.backChain.exists_cons ne
    obtain ⟨negative, dvd⟩ := inv.back_place _ List.mem_cons_self
    refine ⟨rest, ?_, negative, dvd, rfl⟩
    refine { inv with backChain := chain, back_place := ?_, owners_eq := ?_ }
    · intro x hx
      exact inv.back_place x (List.mem_cons_of_mem _ hx)
    · intro z
      change s.owners free rest (chunk s.blockSize s.backFreeList :: out) z = s.extent.covers z
      rw [← inv.owners_eq, owners, owners, List.map_cons, Range.total_cons, Range.total_cons]
      omega

/-- A block is put on the list at the back. -/
theorem Inv.pushBack {o : ℤ} (inv : s.Inv free back (chunk s.blockSize o :: out)) (negative : o < 0)
    (dvd : (s.blockSize : ℤ) ∣ o) :
  (s.pushBack o s.blockSize 1).Inv free (o :: back) out
  := by
  have pos := inv.four_le
  have within : (∀ k < stateBuckets, o ∉ free k) ∧ o ∉ back := by
    apply inv.not_cell List.mem_cons_self
    · exact le_rfl
    · unfold chunk
      dsimp only
      omega
  refine { inv with chain := ?_, backChain := ?_, back_place := ?_, owners_eq := ?_ }
  · intro k hk
    apply (inv.chain k hk).congr
    intro x hx
    exact Function.update_of_ne (fun eq : x = o => within.1 k hk (eq ▸ hx)) _ _
  · apply chain_linkChunks (n := 0) (by omega : 0 < s.blockSize) inv.backChain
    intro x hx
    obtain rfl := List.mem_singleton.1 hx
    exact ⟨ne_empty_of_dvd pos dvd, within.2⟩
  · intro x hx
    rcases List.mem_cons.1 hx with rfl | hx
    · exact ⟨negative, dvd⟩
    · exact inv.back_place x hx
  · intro z
    change s.owners free (o :: back) out z = s.extent.covers z
    rw [← inv.owners_eq, owners, owners, List.map_cons, Range.total_cons, Range.total_cons]
    omega

/-! ### New blocks -/

/-- What is known of a state that was allocated at the front, from a bucket. -/
def FrontPlace (s : StatePool) (bucket : ℕ) (o : ℤ) : Prop :=
  0 ≤ o ∧ (s.grain bucket : ℤ) ∣ o

theorem front_alloc {block : BlockPool} {offset size : ℕ} {expands : List Bool}
    (inv : s.Inv free back out) (dvd : s.blockSize ∣ size) (pos : 0 < size) (small : size < 2 ^ 29)
    (allocated : s.block.alloc size expands = some (block, offset)) :
  block.Inv ∧ block.Quiet ∧ s.blockSize ∣ block.front.next ∧ s.blockSize ∣ block.back.next
    ∧ s.blockSize ∣ offset
    ∧ ∀ z, (⟨-block.back.next, block.front.next⟩ : Range ℤ).covers z
      = s.extent.covers z + (⟨offset, offset + size⟩ : Range ℤ).covers z
  := by
  obtain ⟨good, quiet, place, next, other⟩ := inv.block.allocNew inv.quiet pos small allocated
  have back : block.back.next = s.block.back.next := other .back (by decide)
  have place' : offset = s.block.front.next := place
  have next' : block.front.next = offset + size := next
  refine ⟨good, quiet, ?_, ?_, ?_, ?_⟩
  · rw [next', place']
    exact Nat.dvd_add inv.front_dvd dvd
  · rw [back]
    exact inv.back_dvd
  · rw [place']
    exact inv.front_dvd
  · intro z
    rw [back, next', extent, ← place']
    push_cast
    apply Range.covers_cut
    · omega
    · omega

/-- A state of a bucket is allocated from a block, or as a block of its own. -/
theorem Inv.allocNew {b : ℕ} (hb : b < stateBuckets) {o : ℤ} {expands : List Bool}
    (inv : s.Inv free back out) (allocated : s.allocNew b (bucketSize b) expands = some (s', o)) :
  s'.Inv free back (chunk (bucketSize b) o :: out) ∧ FrontPlace s b o ∧ s'.blockSize = s.blockSize
  := by
  have pos := bucketSize_pos b
  have small : bucketSize b < 2 ^ 29 := by
    unfold bucketSize stateBuckets at *
    apply Nat.pow_lt_pow_right
    · decide
    · omega
  have le := inv.rest_le b hb
  obtain ⟨nextDvd, limitDvd⟩ := inv.rest_dvd b hb
  obtain ⟨grainBlock, grainSize⟩ := grain_dvd inv.powerOfTwo b
  have sameFree : Function.update free b (free b) = free := Function.update_eq_self b free
  unfold StatePool.allocNew at allocated
  split at allocated
  case isTrue large =>
    obtain ⟨⟨block, offset⟩, eq, result⟩ := Option.map_eq_some_iff.1 allocated
    obtain ⟨rfl, rfl⟩ := Prod.mk.inj result
    have dvd : s.blockSize ∣ bucketSize b := by
      rw [grain, min_eq_left large] at grainSize
      exact grainSize
    obtain ⟨good, quiet, frontDvd, backDvd, offsetDvd, covers⟩ :=
      front_alloc inv dvd pos small eq
    refine ⟨?_, ⟨Int.natCast_nonneg _, ?_⟩, rfl⟩
    · refine { inv with
        block := good, quiet := quiet, front_dvd := frontDvd, back_dvd := backDvd, owners_eq := ?_ }
      intro z
      change s.owners free back (chunk (bucketSize b) offset :: out) z
        = (⟨-block.back.next, block.front.next⟩ : Range ℤ).covers z
      rw [covers, ← inv.owners_eq, owners, owners, Range.total_cons, chunk]
      omega
    · exact Int.natCast_dvd_natCast.2 (grainBlock.trans offsetDvd)
  case isFalse notLarge =>
    dsimp only at allocated
    have dvd : bucketSize b ∣ s.blockSize := by
      rw [grain, min_eq_right (Nat.le_of_not_le notLarge)] at grainBlock
      exact grainBlock
    split at allocated
    case isTrue more =>
      obtain ⟨rfl, rfl⟩ := Prod.mk.inj (Option.some.inj allocated)
      have fits : (s.buckets b).block.next + bucketSize b ≤ (s.buckets b).block.limit := by
        have dvdRest := Nat.dvd_sub limitDvd nextDvd
        have := Nat.le_of_dvd (by omega) dvdRest
        omega
      refine ⟨?_, ⟨Int.natCast_nonneg _, ?_⟩, rfl⟩
      · rw [← sameFree]
        refine inv.update hb rfl rfl rfl inv.block inv.quiet inv.front_dvd inv.back_dvd
          (inv.chain b hb) (fun _ _ _ _ _ => rfl) (fun _ _ => rfl) (inv.free_place b hb) fits
          ⟨Nat.dvd_add nextDvd dvd_rfl, limitDvd⟩ ?_
        intro z
        have cut := Range.covers_cut (a := ((s.buckets b).block.next : ℤ))
          (b := (s.buckets b).block.next + bucketSize b) (c := (s.buckets b).block.limit)
          (by omega) (by exact_mod_cast fits) z
        have extent : (s.setBucket b { s.buckets b with
          block := { (s.buckets b).block with
            next := (s.buckets b).block.next + bucketSize b } }).extent = s.extent := rfl
        rw [pieces, Range.total_cons, Range.total_cons, Range.total_cons, Bucket.rest, Bucket.rest,
          chunk, extent]
        push_cast
        omega
      · exact Int.natCast_dvd_natCast.2 (grainSize.trans nextDvd)
    case isFalse =>
      split at allocated
      case isFalse => cases allocated
      case isTrue used =>
        obtain ⟨⟨block, offset⟩, eq, result⟩ := Option.map_eq_some_iff.1 allocated
        obtain ⟨rfl, rfl⟩ := Prod.mk.inj result
        obtain ⟨good, quiet, frontDvd, backDvd, offsetDvd, covers⟩ :=
          front_alloc inv dvd_rfl (by have := inv.four_le; omega) inv.blockSize_lt eq
        have within : bucketSize b ≤ s.blockSize := Nat.le_of_not_le notLarge
        refine ⟨?_, ⟨Int.natCast_nonneg _, ?_⟩, rfl⟩
        · rw [← sameFree]
          refine inv.update hb rfl rfl rfl good quiet frontDvd backDvd
            (inv.chain b hb) (fun _ _ _ _ _ => rfl) (fun _ _ => rfl) (inv.free_place b hb)
            (Nat.add_le_add_left within offset)
            ⟨Nat.dvd_add (dvd.trans offsetDvd) dvd_rfl, Nat.dvd_add (dvd.trans offsetDvd) dvd⟩ ?_
          intro z
          have cut := Range.covers_cut (a := (offset : ℤ)) (b := offset + bucketSize b)
            (c := offset + s.blockSize) (by omega) (by omega) z
          have grew := covers z
          have nothing : (s.buckets b).rest.covers z = 0 := by
            apply Range.covers_eq_zero
            unfold Bucket.rest
            dsimp only
            omega
          change _ + _ + _ = _ + _ + (⟨-block.back.next, block.front.next⟩ : Range ℤ).covers z
          rw [pieces, Range.total_cons, Range.total_cons, Range.total_cons, nothing, Bucket.rest,
            chunk]
          push_cast
          omega
        · exact Int.natCast_dvd_natCast.2 (grainBlock.trans offsetDvd)

/-! ### Buckets -/

theorem getBucket_spec {clz0 size b : ℕ} (eq : getBucket clz0 size = some b) :
  b < stateBuckets ∧ size ≤ bucketSize b
  := by
  unfold getBucket at eq
  split at eq
  case isFalse => cases eq
  case isTrue le =>
    obtain rfl := Option.some.inj eq
    refine ⟨by unfold stateBuckets; omega, ?_⟩
    unfold ilog2RoundUp bucketSize
    by_cases one : size = 1
    · rw [one]
      exact Nat.one_le_two_pow
    · rw [if_neg one]
      apply (Nat.le_pow_clog Nat.one_lt_two size).trans
      apply Nat.pow_le_pow_right Nat.two_pos
      omega

/-- The bucket of a power of two has this size. -/
theorem bucketSize_of_two_pow {clz0 m b : ℕ} (le : 6 ≤ m) (eq : getBucket clz0 (2 ^ m) = some b) :
  bucketSize b = 2 ^ m
  := by
  have ne : 2 ^ m ≠ 1 := by
    have := Nat.one_lt_two_pow (n := m) (by omega)
    omega
  unfold getBucket ilog2RoundUp at eq
  rw [if_neg ne, Nat.clog_pow 2 m Nat.one_lt_two, max_eq_left le] at eq
  split at eq
  case isFalse => cases eq
  case isTrue =>
    obtain rfl := Option.some.inj eq
    rw [bucketSize, Nat.sub_add_cancel le]

theorem bucketSize_lt {a b : ℕ} (lt : a < b) :
  bucketSize a < bucketSize b
  := Nat.pow_lt_pow_right Nat.one_lt_two (Nat.add_lt_add_right lt 6)

theorem bucketSize_dvd {a b : ℕ} (le : a ≤ b) :
  bucketSize a ∣ bucketSize b
  := Nat.pow_dvd_pow 2 (Nat.add_le_add_right le 6)

/-- The chunks of a smaller bucket may begin wherever those of a larger one may. -/
theorem grain_dvd_grain (powerOfTwo : s.blockSize.isPowerOfTwo) {a b : ℕ} (le : a ≤ b) :
  s.grain a ∣ s.grain b
  := by
  obtain ⟨block, size⟩ := grain_dvd powerOfTwo a
  rw [grain.eq_1 s b]
  rcases Nat.le_total s.blockSize (bucketSize b) with small | large
  · rw [min_eq_left small]
    exact block
  · rw [min_eq_right large]
    exact size.trans (bucketSize_dvd le)

/-! ### Splitting -/

/-- All of a range but its first part is put on the free list of a bucket. -/
theorem Inv.fill {bucket chunkSize : ℕ} (hb : bucket < stateBuckets) {c : ℤ}
    (inv : s.Inv free back (chunk chunkSize c :: out)) (place : FrontPlace s bucket c)
    (dvd : bucketSize bucket ∣ chunkSize) (lt : bucketSize bucket < chunkSize) :
  ∃ free', (s.push bucket (c + bucketSize bucket) (bucketSize bucket)
      (chunkSize / bucketSize bucket - 1)).Inv free' back (chunk (bucketSize bucket) c :: out)
  := by
  obtain ⟨m, rfl⟩ := dvd
  have pos := bucketSize_pos bucket
  have two : 2 ≤ m := by
    by_contra few
    have : bucketSize bucket * m ≤ bucketSize bucket * 1 := Nat.mul_le_mul_left _ (by omega)
    omega
  obtain ⟨n, rfl⟩ := Nat.exists_eq_add_of_le' two
  have cut := Inv.cut (b := c + bucketSize bucket) inv (by omega) (by push_cast; nlinarith)
  have swapped := cut.perm (List.Perm.swap _ _ _)
  rw [Nat.mul_div_cancel_left _ pos, show n + 2 - 1 = n + 1 from rfl]
  apply Inv.push hb
  · have finish : c + ((bucketSize bucket * (n + 2) : ℕ) : ℤ)
        = c + bucketSize bucket + (n + 1) * bucketSize bucket := by
      push_cast
      ring
    rw [← finish]
    exact swapped
  · exact add_nonneg place.1 (Int.natCast_nonneg _)
  · apply dvd_add place.2
    exact Int.natCast_dvd_natCast.2 (grain_dvd inv.powerOfTwo bucket).2

/-- A chunk of a larger bucket is split. -/
theorem Inv.split {clz0 bucket b : ℕ} (lt : bucket < b) (hb : b < stateBuckets) {c : ℤ}
    (inv : s.Inv free back (chunk (bucketSize b) c :: out)) (place : FrontPlace s b c)
    (eq : s.split clz0 bucket b c = some s') :
  ∃ free', s'.Inv free' back (chunk (bucketSize bucket) c :: out)
    ∧ s'.blockSize = s.blockSize
  := by
  have below : bucket < stateBuckets := lt.trans hb
  have place' : FrontPlace s bucket c :=
    ⟨place.1, (Int.natCast_dvd_natCast.2 (grain_dvd_grain inv.powerOfTwo lt.le)).trans place.2⟩
  unfold StatePool.split at eq
  dsimp only at eq
  split at eq
  case isFalse =>
    split at eq
    case isFalse => cases eq
    case isTrue =>
      obtain rfl := Option.some.inj eq
      obtain ⟨free', filled⟩ := inv.fill below place' (bucketSize_dvd lt.le) (bucketSize_lt lt)
      exact ⟨free', filled, rfl⟩
  case isTrue sizes =>
    split at eq
    case isFalse => cases eq
    case isTrue multiple =>
      split at eq
      case h_1 => cases eq
      case h_2 blockBucket found =>
        obtain ⟨hbb, -⟩ := getBucket_spec found
        -- the block is larger than the smallest state, so it has a bucket of its own size
        have blockSize : bucketSize blockBucket = s.blockSize := by
          obtain ⟨k, hk⟩ := inv.powerOfTwo
          rw [hk] at found sizes ⊢
          apply bucketSize_of_two_pow _ found
          have := (Nat.pow_lt_pow_iff_right Nat.one_lt_two).1 sizes.2
          omega
        have grainBlock : s.grain blockBucket = s.blockSize := by
          rw [grain, blockSize, min_self]
        have placeBlock : FrontPlace s blockBucket c := by
          refine ⟨place.1, ?_⟩
          have dvd := place.2
          rw [grain, min_eq_left sizes.1.le] at dvd
          rw [grainBlock]
          exact dvd
        obtain ⟨free₁, filled⟩ := inv.fill hbb placeBlock
          (blockSize ▸ Nat.dvd_of_mod_eq_zero multiple) (blockSize ▸ sizes.1)
        rw [blockSize] at filled
        split at eq
        case isFalse => cases eq
        case isTrue rest =>
          obtain rfl := Option.some.inj eq
          obtain ⟨free₂, filled₂⟩ := filled.fill below place' (Nat.dvd_of_mod_eq_zero rest) sizes.2
          exact ⟨free₂, filled₂, rfl⟩

/-- A state is found in a larger bucket, or allocated. -/
theorem Inv.splitLoop {clz0 bucket : ℕ} (below : bucket < stateBuckets) {bs : List ℕ}
    (larger : ∀ b ∈ bs, bucket < b ∧ b < stateBuckets) {expands : List Bool} {c : ℤ}
    (inv : s.Inv free back out) (eq : s.splitLoop clz0 bucket expands bs = some (s', c)) :
  ∃ free', s'.Inv free' back (chunk (bucketSize bucket) c :: out) ∧ FrontPlace s bucket c
    ∧ s'.blockSize = s.blockSize
  := by
  induction bs with
  | nil => exact ⟨free, inv.allocNew below eq⟩
  | cons b bs ih =>
    rw [StatePool.splitLoop] at eq
    obtain ⟨lt, hb⟩ := larger b List.mem_cons_self
    split at eq
    case h_1 => exact ih (fun b' mem => larger b' (List.mem_cons_of_mem _ mem)) eq
    case h_2 s₁ c₁ popped =>
      obtain ⟨s₂, splitted, result⟩ := Option.map_eq_some_iff.1 eq
      obtain ⟨rfl, rfl⟩ := Prod.mk.inj result
      obtain ⟨free₁, inv₁, nonneg, dvd, blockSize⟩ := inv.pop hb popped
      have place : FrontPlace s₁ b c₁ := by
        refine ⟨nonneg, ?_⟩
        rw [grain, blockSize]
        exact dvd
      obtain ⟨free₂, inv₂, blockSize₂⟩ := inv₁.split lt hb place splitted
      refine ⟨free₂, inv₂, ⟨nonneg, ?_⟩, blockSize₂.trans blockSize⟩
      exact (Int.natCast_dvd_natCast.2 (grain_dvd_grain inv.powerOfTwo lt.le)).trans dvd

/-! ### States -/

/-- Where a state of the pool can be: it is as large as a chunk of a bucket, or a block at the
back. -/
def StatePlace (s : StatePool) (state : AnvState) : Prop :=
  (∃ b < stateBuckets, state.allocSize = bucketSize b ∧ FrontPlace s b state.offset)
    ∨ (state.offset < 0 ∧ state.allocSize = s.blockSize ∧ (s.blockSize : ℤ) ∣ state.offset)

theorem Inv.allocNoVg {clz0 size align : ℕ} {expands : List Bool} {state : AnvState}
    (inv : s.Inv free back out) (powerOfTwo : align.isPowerOfTwo) (le : align ≤ s.blockSize)
    (eq : s.allocNoVg clz0 size align expands = some (s', state)) :
  ∃ free', s'.Inv free' back (state.range :: out) ∧ s'.StatePlace state
    ∧ s'.blockSize = s.blockSize ∧ size ≤ state.allocSize ∧ (align : ℤ) ∣ state.offset
  := by
  unfold StatePool.allocNoVg at eq
  split at eq
  case h_1 => cases eq
  case h_2 bucket found =>
    obtain ⟨hb, enough⟩ := getBucket_spec found
    obtain ⟨⟨s₁, o⟩, allocated, result⟩ := Option.map_eq_some_iff.1 eq
    obtain ⟨rfl, rfl⟩ := Prod.mk.inj result
    have spec : ∃ free', s₁.Inv free' back (chunk (bucketSize bucket) o :: out)
        ∧ FrontPlace s bucket o ∧ s₁.blockSize = s.blockSize := by
      split at allocated
      case h_1 s₂ o₂ popped =>
        split at allocated
        case isFalse => cases allocated
        case isTrue =>
          obtain ⟨rfl, rfl⟩ := Prod.mk.inj (Option.some.inj allocated)
          obtain ⟨free', inv', nonneg, dvd, blockSize⟩ := inv.pop hb popped
          exact ⟨free', inv', ⟨nonneg, dvd⟩, blockSize⟩
      case h_2 =>
        apply inv.splitLoop hb _ allocated
        intro b mem
        obtain ⟨inRange, lt⟩ := List.mem_filter.1 mem
        exact ⟨of_decide_eq_true lt, List.mem_range.1 inRange⟩
    obtain ⟨free', inv', place, blockSize⟩ := spec
    have place' : FrontPlace s₁ bucket o := by
      rw [FrontPlace, grain, blockSize]
      exact place
    refine ⟨free', inv', .inl ⟨bucket, hb, rfl, place'⟩, blockSize, ?_, ?_⟩
    · exact (Nat.le_max_left size align).trans enough
    · -- the alignment is a power of two, not larger than a block nor than the state
      apply dvd_trans _ place.2
      apply Int.natCast_dvd_natCast.2
      obtain ⟨k, rfl⟩ := powerOfTwo
      obtain ⟨m, hm⟩ := inv.powerOfTwo
      rw [grain, hm]
      rcases Nat.le_total (2 ^ m) (bucketSize bucket) with small | large
      · rw [min_eq_left small]
        rw [hm] at le
        exact Nat.pow_dvd_pow 2 ((Nat.pow_le_pow_iff_right Nat.one_lt_two).1 le)
      · rw [min_eq_right large]
        have le' := (Nat.le_max_right size (2 ^ k)).trans enough
        exact Nat.pow_dvd_pow 2 ((Nat.pow_le_pow_iff_right Nat.one_lt_two).1 le')

theorem Inv.allocBack {expands : List Bool} {state : AnvState} (inv : s.Inv free back out)
    (eq : s.allocBack expands = some (s', state)) :
  ∃ back', s'.Inv free back' (state.range :: out) ∧ s'.StatePlace state
    ∧ s'.blockSize = s.blockSize ∧ state.allocSize = s.blockSize
    ∧ (s.blockSize : ℤ) ∣ state.offset
  := by
  unfold StatePool.allocBack at eq
  split at eq
  case h_1 s₁ o popped =>
    split at eq
    case isFalse => cases eq
    case isTrue =>
      obtain ⟨rfl, rfl⟩ := Prod.mk.inj (Option.some.inj eq)
      obtain ⟨back', inv', negative, dvd, blockSize⟩ := inv.popBack popped
      refine ⟨back', ?_, .inr ⟨negative, rfl, blockSize ▸ dvd⟩, blockSize, blockSize, dvd⟩
      rw [AnvState.range, blockSize]
      exact inv'
  case h_2 =>
    obtain ⟨⟨block, o⟩, allocated, result⟩ := Option.map_eq_some_iff.1 eq
    obtain ⟨rfl, rfl⟩ := Prod.mk.inj result
    obtain ⟨⟨block', offset⟩, allocated', result'⟩ := Option.map_eq_some_iff.1 allocated
    obtain ⟨rfl, rfl⟩ := Prod.mk.inj result'
    have pos := inv.four_le
    obtain ⟨good, quiet, place, next, other⟩ :=
      inv.block.allocNew inv.quiet (by omega) inv.blockSize_lt allocated'
    have front : block'.front.next = s.block.front.next := other .front (by decide)
    have place' : offset = s.block.back.next := place
    have next' : block'.back.next = offset + s.blockSize := next
    have dvd : (s.blockSize : ℤ) ∣ -((offset : ℤ) + s.blockSize) := by
      rw [place']
      apply dvd_neg.2
      exact dvd_add (Int.natCast_dvd_natCast.2 inv.back_dvd) dvd_rfl
    refine ⟨back, ?_, .inr ⟨by dsimp only; omega, rfl, dvd⟩, rfl, rfl, dvd⟩
    refine { inv with
      block := good, quiet := quiet, front_dvd := ?_, back_dvd := ?_, owners_eq := ?_ }
    · rw [front]
      exact inv.front_dvd
    · rw [next', place']
      exact Nat.dvd_add inv.back_dvd dvd_rfl
    · intro z
      change s.owners free back (_ :: out) z
        = (⟨-block'.back.next, block'.front.next⟩ : Range ℤ).covers z
      rw [front, next', Range.covers_cut (b := (-(offset : ℤ))) (by push_cast; omega) (by omega),
        owners, Range.total_cons, AnvState.range]
      have before := inv.owners_eq z
      rw [owners, extent, ← place'] at before
      dsimp only
      rw [show -((offset : ℤ) + s.blockSize) + s.blockSize = -(offset : ℤ) by ring]
      push_cast
      omega

theorem Inv.freeNoVg {clz0 : ℕ} {state : AnvState} (inv : s.Inv free back (state.range :: out))
    (place : s.StatePlace state) (eq : s.freeNoVg clz0 state = some s') :
  ∃ free' back', s'.Inv free' back' out ∧ s'.blockSize = s.blockSize
  := by
  unfold StatePool.freeNoVg at eq
  split at eq
  case isFalse => cases eq
  case isTrue =>
    split at eq
    case h_1 => cases eq
    case h_2 bucket found =>
      obtain ⟨hb, -⟩ := getBucket_spec found
      rcases place with ⟨b, -, size, place⟩ | ⟨negative, size, dvd⟩
      · rw [if_neg (not_lt_of_ge place.1)] at eq
        obtain rfl := Option.some.inj eq
        have same : bucketSize bucket = bucketSize b := by
          rw [size] at found
          exact bucketSize_of_two_pow (Nat.le_add_left 6 b) found
        have grain : s.grain bucket = s.grain b := by
          rw [StatePool.grain, StatePool.grain, same]
        rw [AnvState.range, size, ← same] at inv
        have inv' : s.Inv free back
            (⟨state.offset, state.offset + ((0 : ℕ) + 1) * bucketSize bucket⟩ :: out) := by
          rw [Nat.cast_zero, zero_add, one_mul]
          exact inv
        obtain ⟨free', pushed⟩ := inv'.push hb place.1 (grain ▸ place.2)
        rw [size, ← same]
        exact ⟨free', back, pushed, rfl⟩
      · rw [if_pos negative, if_pos size] at eq
        obtain rfl := Option.some.inj eq
        rw [AnvState.range, size] at inv
        rw [size]
        exact ⟨free, state.offset :: back, inv.pushBack negative dvd, rfl⟩

/-- What a program writes to its states does not change the free lists. -/
theorem Inv.write {state : AnvState} (inv : s.Inv free back out) (mem : state.range ∈ out)
    (pos : 0 < state.allocSize) (values : ℤ → ℤ) :
  (s.write state values).Inv free back out
  := by
  have nonempty : state.range.start < state.range.finish := by
    unfold AnvState.range
    dsimp only
    omega
  refine { inv with chain := ?_, backChain := ?_ }
  · intro b hb
    apply (inv.chain b hb).congr
    intro o ho
    apply if_neg
    have apart := inv.apart_free mem nonempty hb ho
    have four := four_le_bucketSize b
    unfold Range.Apart chunk at apart
    dsimp only at apart
    omega
  · apply inv.backChain.congr
    intro o ho
    apply if_neg
    have apart := inv.apart_back mem nonempty ho
    have four := inv.four_le
    unfold Range.Apart chunk at apart
    dsimp only at apart
    omega

theorem inv_init {blockSize : ℕ} {mem : ℤ → ℤ} (powerOfTwo : blockSize.isPowerOfTwo)
    (four_le : 4 ≤ blockSize) (eq : StatePool.init blockSize mem = some s) :
  s.Inv (fun _ => []) [] []
  := by
  obtain ⟨block, created, rfl⟩ := Option.map_eq_some_iff.1 eq
  obtain ⟨pos, good, quiet, front, back⟩ :=
    BlockPool.inv_init (Nat.mod_lt _ (Nat.two_pow_pos 32)) created
  have small : blockSize < 2 ^ 29 := by
    obtain ⟨k, rfl⟩ := powerOfTwo
    apply Nat.pow_lt_pow_right Nat.one_lt_two
    by_contra large
    have dvd : 2 ^ 32 ∣ 2 ^ k * 16 := by
      rw [show 2 ^ k * 16 = 2 ^ (k + 4) from (Nat.pow_add 2 k 4).symm]
      exact Nat.pow_dvd_pow 2 (by omega)
    rw [Nat.mod_eq_zero_of_dvd dvd] at pos
    exact absurd pos (Nat.lt_irrefl 0)
  constructor
  case block => exact good
  case quiet => exact quiet
  case powerOfTwo => exact powerOfTwo
  case four_le => exact four_le
  case blockSize_lt => exact small
  case chain => exact fun _ _ => rfl
  case backChain => exact rfl
  case free_place => exact fun _ _ _ mem => absurd mem List.not_mem_nil
  case back_place => exact fun _ mem => absurd mem List.not_mem_nil
  case rest_le => exact fun _ _ => Nat.le_refl 0
  case rest_dvd => exact fun _ _ => ⟨dvd_zero _, dvd_zero _⟩
  case front_dvd => rw [front]; exact dvd_zero _
  case back_dvd => rw [back]; exact dvd_zero _
  case owners_eq =>
    intro z
    have none : ∀ b, Range.total (StatePool.pieces
        { block := block, blockSize := blockSize, mem := mem } (fun _ => []) b) z = 0 := by
      intro b
      rw [pieces, List.map_nil, Range.total_cons, Range.total_nil, Nat.add_zero]
      apply Range.covers_eq_zero
      unfold Bucket.rest
      dsimp only
      omega
    have sum := Slots.sum_eq_zero (n := stateBuckets) (w := fun l => Range.total l z)
      (f := StatePool.pieces { block := block, blockSize := blockSize, mem := mem } (fun _ => []))
      (fun b _ => none b)
    rw [owners, sum, List.map_nil, Range.total_nil]
    symm
    apply Range.covers_eq_zero
    rw [extent, front, back]
    dsimp only
    omega

end StatePool

/-! ### Histories -/

/-- The states in use lie in the block pool, are as large and as aligned as requested, and do not
overlap. -/
structure PoolSound (u : PoolUse) : Prop where
  inside : ∀ l ∈ u.live, l.state.range.Within
    ⟨-u.pool.block.center, (u.pool.block.size : ℤ) - u.pool.block.center⟩
  large : ∀ l ∈ u.live, l.size ≤ l.state.allocSize
  aligned : ∀ l ∈ u.live, (l.align : ℤ) ∣ l.state.offset
  apart : u.live.Pairwise fun l k => l.state.range.Apart k.state.range

/-- What holds between the calls. -/
structure PoolInv (u : PoolUse) : Prop where
  pool : ∃ free back, u.pool.Inv free back (u.live.map fun l => l.state.range)
  place : ∀ l ∈ u.live, u.pool.StatePlace l.state
  large : ∀ l ∈ u.live, l.size ≤ l.state.allocSize
  aligned : ∀ l ∈ u.live, (l.align : ℤ) ∣ l.state.offset

/-- Whether a state is in its place depends on the size of a block only. -/
theorem StatePool.StatePlace.congr {s s' : StatePool} {state : AnvState}
    (place : s.StatePlace state) (blockSize : s'.blockSize = s.blockSize) :
  s'.StatePlace state
  := by
  unfold StatePool.StatePlace StatePool.FrontPlace StatePool.grain at *
  rw [blockSize]
  exact place

theorem PoolInv.add {u : PoolUse} (inv : PoolInv u) {pool : StatePool} {l : Live}
    {free : ℕ → List ℤ} {back : List ℤ}
    (pool' : pool.Inv free back (l.state.range :: u.live.map fun l => l.state.range))
    (blockSize : pool.blockSize = u.pool.blockSize) (place : pool.StatePlace l.state)
    (large : l.size ≤ l.state.allocSize) (aligned : (l.align : ℤ) ∣ l.state.offset) :
  PoolInv ⟨pool, l :: u.live⟩
  where
  pool := ⟨free, back, pool'⟩
  place := by
    intro k mem
    rcases List.mem_cons.1 mem with rfl | mem
    · exact place
    · exact (inv.place k mem).congr blockSize
  large := by
    intro k mem
    rcases List.mem_cons.1 mem with rfl | mem
    · exact large
    · exact inv.large k mem
  aligned := by
    intro k mem
    rcases List.mem_cons.1 mem with rfl | mem
    · exact aligned
    · exact inv.aligned k mem

theorem StatePool.Inv.allocSize_pos {s : StatePool} {free : ℕ → List ℤ} {back : List ℤ}
    {out : List (Range ℤ)} (inv : s.Inv free back out) {state : AnvState}
    (place : s.StatePlace state) :
  0 < state.allocSize
  := by
  rcases place with ⟨b, -, size, -⟩ | ⟨-, size, -⟩
  · rw [size]
    exact StatePool.bucketSize_pos b
  · have := inv.four_le
    omega

theorem PoolInv.step {clz0 : ℕ} {u u' : PoolUse} {a : PoolAction} (inv : PoolInv u)
    (stepped : poolStep clz0 u a = some u') :
  PoolInv u'
  := by
  obtain ⟨free, back, pool⟩ := inv.pool
  cases a with
  | alloc size align expands =>
    rw [poolStep] at stepped
    split at stepped
    case isFalse => cases stepped
    case isTrue request =>
      obtain ⟨⟨s', state⟩, allocated, rfl⟩ := Option.map_eq_some_iff.1 stepped
      obtain ⟨free', inv', place, blockSize, large, aligned⟩ :=
        pool.allocNoVg request.2.2.1 request.2.2.2 allocated
      exact inv.add inv' blockSize place large aligned
  | allocBack expands =>
    obtain ⟨⟨s', state⟩, allocated, rfl⟩ := Option.map_eq_some_iff.1 stepped
    obtain ⟨back', inv', place, blockSize, large, aligned⟩ := pool.allocBack allocated
    exact inv.add inv' blockSize place (Nat.le_of_eq large.symm) aligned
  | free l =>
    rw [poolStep] at stepped
    split at stepped
    case isFalse => cases stepped
    case isTrue mem =>
      obtain ⟨s', freed, rfl⟩ := Option.map_eq_some_iff.1 stepped
      have perm : (u.live.map fun l => l.state.range).Perm
          (l.state.range :: (u.live.erase l).map fun l => l.state.range) :=
        (List.perm_cons_erase mem).map _
      obtain ⟨free', back', inv', blockSize⟩ := (pool.perm perm).freeNoVg (inv.place l mem) freed
      have sub : ∀ k ∈ u.live.erase l, k ∈ u.live := fun k => List.mem_of_mem_erase
      exact ⟨⟨free', back', inv'⟩, fun k mem => (inv.place k (sub k mem)).congr blockSize,
        fun k mem => inv.large k (sub k mem), fun k mem => inv.aligned k (sub k mem)⟩
  | write l values =>
    rw [poolStep] at stepped
    split at stepped
    case isFalse => cases stepped
    case isTrue mem =>
      obtain rfl := Option.some.inj stepped
      have inOut : l.state.range ∈ u.live.map fun l => l.state.range := List.mem_map_of_mem mem
      have pos := pool.allocSize_pos (inv.place l mem)
      exact ⟨⟨free, back, pool.write inOut pos values⟩, inv.place, inv.large, inv.aligned⟩

theorem PoolInv.sound {u : PoolUse} (inv : PoolInv u) :
  PoolSound u
  := by
  obtain ⟨free, back, pool⟩ := inv.pool
  have nonempty : ∀ l ∈ u.live, l.state.range.start < l.state.range.finish := by
    intro l mem
    have pos := pool.allocSize_pos (inv.place l mem)
    unfold AnvState.range
    dsimp only
    omega
  constructor
  case large => exact inv.large
  case aligned => exact inv.aligned
  case inside =>
    intro l mem
    have within : l.state.range.Within u.pool.extent := by
      apply Range.within_of_covers (nonempty l mem)
      intro z
      rw [← pool.owners_eq, StatePool.owners]
      have le := Range.covers_le_total (List.mem_map_of_mem (f := fun l : Live => l.state.range) mem) z
      omega
    apply within.trans
    have front := (pool.quiet .front).trans (pool.block.limit_le .front)
    have back := (pool.quiet .back).trans (pool.block.limit_le .back)
    have center := pool.block.center_le
    unfold BlockPool.side BlockPool.extent at front back
    unfold Range.Within StatePool.extent
    dsimp only at *
    omega
  case apart =>
    have once : ∀ z, Range.total (u.live.map fun l => l.state.range) z ≤ 1 := by
      intro z
      have le := pool.owners_le z
      unfold StatePool.owners at le
      omega
    have pairwise := Range.pairwise_apart_of_total (by
      intro r mem
      obtain ⟨l, inLive, rfl⟩ := List.mem_map.1 mem
      exact nonempty l inLive) once
    exact List.pairwise_map.1 pairwise

/-- In every history of calls the states in use are sound. -/
theorem states_sound_of_history {clz0 blockSize : ℕ} {mem : ℤ → ℤ} {pool : StatePool}
    (powerOfTwo : blockSize.isPowerOfTwo) (four_le : 4 ≤ blockSize)
    (init : StatePool.init blockSize mem = some pool) {as : List PoolAction} {u : PoolUse}
    (ran : Flow.runActions (poolStep clz0) ⟨pool, []⟩ as = some u) :
  PoolSound u
  := by
  apply PoolInv.sound
  have start : PoolInv ⟨pool, []⟩ := by
    refine ⟨⟨_, _, StatePool.inv_init powerOfTwo four_le init⟩, ?_, ?_, ?_⟩
    all_goals
      intro l mem
      cases mem
  apply Flow.invariant_of_run _ start (Flow.meets_true as) ran
  intro u a u' inv _ stepped
  exact inv.step stepped

/-- A large state is freed and split; a small one, a block at the back and a state that grows the
pool are in use at the same time. -/
def sharing : List PoolAction :=
  [.alloc 8192 64 [true], .free ⟨⟨0, 8192⟩, 8192, 64⟩, .alloc 100 16 [], .allocBack [false, true],
    .alloc 100000 4096 [true]]

theorem states_sound_of_history_sharing :
  ∃ pool u, StatePool.init 4096 (fun _ => 0) = some pool
    ∧ Flow.runActions (poolStep 31) ⟨pool, []⟩ sharing = some u
    ∧ u.live.map Live.state = [⟨8192, 131072⟩, ⟨-4096, 4096⟩, ⟨0, 128⟩] ∧ PoolSound u
  := by
  refine ⟨_, _, rfl, rfl, rfl, ?_⟩
  exact @states_sound_of_history 31 4096 (fun _ => 0) _ ⟨12, rfl⟩ (by decide) rfl sharing _ rfl

end Anv
