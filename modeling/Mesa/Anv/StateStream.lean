import Mesa.Anv.DescriptorSet
import Mesa.Anv.StatePoolRuns

/-!
# State streams

The streams of `anv_allocator.c`, which hand out states of any size from blocks of a state pool that
others use as well.  The first bytes of each block are a header that links the blocks of the stream.

Besides the fields of the source, the state of a program records the states that the stream has handed
out, and whether the assertion behind the fetching of a block has failed.
-/

namespace Anv.Stream

/-! ### The program -/

/-- A stream, its pool, and what has come out of them. -/
structure StreamUse where
  use : PoolUse
  stream : StateStream
  states : List Live := []
  failed : Bool := false

/-- The size for which a block is fetched: that of the stream, or the next power of two for a larger
state. -/
def fetchSize (clz0 : ℕ) (stream : StateStream) (size : ℕ) : ℕ :=
  if stream.blockSize < size then 2 ^ ilog2RoundUp clz0 size else stream.blockSize

namespace StreamUse

/-- The end of `anv_state_stream_alloc`. -/
def take (s : StreamUse) (offset size alignment : ℕ) : StreamUse :=
  { s with
    stream := { s.stream with next := (offset + size) % 2 ^ 32 }
    states := ⟨⟨s.stream.block.offset + offset, size⟩, size, alignment⟩ :: s.states }

/-- A new block is the current one, and its header is written. -/
def enter (s : StreamUse) (header : ℕ) (pool : StatePool) (block : AnvState) (blockSize : ℕ)
    (values : ℤ → ℤ) : StreamUse :=
  { s with
    use := ⟨pool.write ⟨block.offset, header⟩ values, ⟨block, blockSize, pageSize⟩ :: s.use.live⟩
    stream :=
      { s.stream with block := block, next := header, blockList := block :: s.stream.blockList } }

/-- `anv_state_stream_alloc`, with the size of the header and what is written there.  There is no
result for an alignment that is refused, nor when the pool gives no block. -/
def alloc (s : StreamUse) (header clz0 size alignment : ℕ) (expands : List Bool) (values : ℤ → ℤ) :
    Option StreamUse :=
  if size = 0 then some s
  else if alignment.isPowerOfTwo ∧ alignment ≤ pageSize then
    let offset := alignU32 s.stream.next alignment
    if s.stream.block.allocSize < (offset + size) % 2 ^ 32 then
      let blockSize := fetchSize clz0 s.stream size
      (s.use.pool.allocNoVg clz0 blockSize pageSize expands).map fun (pool, block) =>
        let s := s.enter header pool block blockSize values
        let offset := alignU32 header alignment
        if (offset + size) % 2 ^ 32 ≤ block.allocSize then s.take offset size alignment
        else { s with failed := true }
    else some (s.take offset size alignment)
  else none

end StreamUse

/-- What a program does with a stream and its pool. -/
inductive StreamAction where
  | alloc (size alignment : ℕ) (expands : List Bool) (values : ℤ → ℤ)
  /-- a state of the stream is used -/
  | write (l : Live) (values : ℤ → ℤ)
  /-- the pool is used for something else -/
  | pool (a : PoolAction)

/-- The pool is used without the blocks of the stream. -/
def leaves (stream : StateStream) : PoolAction → Bool
  | .free l => l.state ∉ stream.blockList
  | .write l _ => l.state ∉ stream.blockList
  | _ => true

/-- One step, unless the program has ended. -/
def streamStep (header clz0 : ℕ) (s : StreamUse) (a : StreamAction) : Option StreamUse :=
  if s.failed then none
  else
    match a with
    | .alloc size alignment expands values => s.alloc header clz0 size alignment expands values
    | .write l values =>
      if l ∈ s.states then some { s with use := { s.use with pool := s.use.pool.write l.state values } }
      else none
    | .pool a =>
      if leaves s.stream a then (poolStep clz0 s.use a).map fun use => { s with use := use } else none

/-- The size of the block that is fetched for a state. -/
def fetched (clz0 : ℕ) (stream : StateStream) (size : ℕ) : Option ℕ :=
  (getBucket clz0 (max (fetchSize clz0 stream size) pageSize)).map bucketSize

/-- A request for a state is met: it does not wrap around behind the last state; and when the current
block has no room, the block that is fetched has room for the state behind its header. -/
def Fits (header clz0 : ℕ) (s : StreamUse) : StreamAction → Prop
  | .alloc size alignment _ _ =>
    size ≠ 0 →
      alignU32 s.stream.next alignment + size < 2 ^ 32
        ∧ (s.stream.block.allocSize < alignU32 s.stream.next alignment + size →
          ∀ n ∈ fetched clz0 s.stream size, alignU32 header alignment + size ≤ n)
  | _ => True

instance (header clz0 : ℕ) (s : StreamUse) (a : StreamAction) : Decidable (Fits header clz0 s a) := by
  cases a with
  | alloc => unfold Fits; infer_instance
  | write => exact .isTrue trivial
  | pool => exact .isTrue trivial

/-- The states of a stream lie in its blocks, behind the headers, are aligned and do not overlap, and
the assertion has not failed. -/
structure StreamSound (header : ℕ) (s : StreamUse) : Prop where
  inside : ∀ l ∈ s.states, ∃ b ∈ s.stream.blockList,
    l.state.range.Within ⟨b.offset + header, b.offset + b.allocSize⟩
  owned : ∀ b ∈ s.stream.blockList, ∃ l ∈ s.use.live, l.state = b
  large : ∀ l ∈ s.states, l.state.allocSize = l.size
  aligned : ∀ l ∈ s.states, (l.align : ℤ) ∣ l.state.offset
  apart : s.states.Pairwise fun l k => l.state.range.Apart k.state.range
  asserted : s.failed = false

/-- What holds between the calls. -/
structure StreamInv (header : ℕ) (s : StreamUse) : Prop where
  pool : PoolInv s.use
  page : pageSize ≤ s.use.pool.blockSize
  owned : ∀ b ∈ s.stream.blockList, ∃ l ∈ s.use.live, l.state = b
  aligned : ∀ b ∈ s.stream.blockList, (pageSize : ℤ) ∣ b.offset
  apart : s.stream.blockList.Pairwise fun b c => b.range.Apart c.range
  wide : ∀ b ∈ s.stream.blockList, pageSize ≤ b.allocSize ∧ b.allocSize ≤ bucketSize 14
  current : s.stream.block ∈ s.stream.blockList ∧ header ≤ s.stream.next
      ∧ s.stream.next ≤ s.stream.block.allocSize
    ∨ s.stream.blockList = [] ∧ s.stream.block.allocSize = 0
  /-- the states in the current block end before the next one -/
  place : ∀ l ∈ s.states, ∃ b ∈ s.stream.blockList,
    l.state.range.Within ⟨b.offset + header, b.offset + b.allocSize⟩
      ∧ (b = s.stream.block → l.state.range.finish ≤ b.offset + s.stream.next)
  statesLarge : ∀ l ∈ s.states, l.state.allocSize = l.size
  statesAligned : ∀ l ∈ s.states, (l.align : ℤ) ∣ l.state.offset
  statesApart : s.states.Pairwise fun l k => l.state.range.Apart k.state.range
  asserted : s.failed = false

theorem StreamInv.sound {header : ℕ} {s : StreamUse} (inv : StreamInv header s) :
  StreamSound header s
  where
  inside := by
    intro l mem
    obtain ⟨b, memBlock, within, -⟩ := inv.place l mem
    exact ⟨b, memBlock, within⟩
  owned := inv.owned
  large := inv.statesLarge
  aligned := inv.statesAligned
  apart := inv.statesApart
  asserted := inv.asserted

/-! ### The pool -/

/-- Rounding up to a multiple. -/
theorem alignU32_spec {v a : ℕ} (powerOfTwo : a.isPowerOfTwo) (small : v + a ≤ 2 ^ 32) :
  v ≤ alignU32 v a ∧ a ∣ alignU32 v a
  := by
  obtain ⟨k, rfl⟩ := powerOfTwo
  have pos : 0 < 2 ^ k := Nat.two_pow_pos k
  have lt : v + 2 ^ k - 1 < 2 ^ 32 := by omega
  rw [alignU32, Nat.mod_eq_of_lt lt]
  refine ⟨?_, Nat.dvd_mul_left _ _⟩
  have split := Nat.div_add_mod (v + 2 ^ k - 1) (2 ^ k)
  have rest := Nat.mod_lt (v + 2 ^ k - 1) pos
  rw [Nat.mul_comm] at split
  omega

theorem dvd_pageSize {a : ℕ} (powerOfTwo : a.isPowerOfTwo) (le : a ≤ pageSize) :
  a ∣ pageSize
  := by
  obtain ⟨k, rfl⟩ := powerOfTwo
  have page : pageSize = 2 ^ 12 := rfl
  rw [page] at le ⊢
  exact Nat.pow_dvd_pow 2 ((Nat.pow_le_pow_iff_right Nat.one_lt_two).1 le)

/-- The block that is fetched has the size of its bucket. -/
theorem fetched_of_allocNoVg {clz0 : ℕ} {pool pool' : StatePool} {stream : StateStream} {size : ℕ}
    {expands : List Bool} {block : AnvState}
    (eq : pool.allocNoVg clz0 (fetchSize clz0 stream size) pageSize expands = some (pool', block)) :
  fetched clz0 stream size = some block.allocSize ∧ pageSize ≤ block.allocSize
    ∧ block.allocSize ≤ bucketSize 14
  := by
  unfold StatePool.allocNoVg at eq
  unfold fetched
  split at eq
  case h_1 => cases eq
  case h_2 bucket found =>
    obtain ⟨⟨s, o⟩, -, result⟩ := Option.map_eq_some_iff.1 eq
    obtain ⟨rfl, rfl⟩ := Prod.mk.inj result
    obtain ⟨lt, enough⟩ := StatePool.getBucket_spec found
    refine ⟨by rw [found]; rfl, (Nat.le_max_right _ _).trans enough, ?_⟩
    apply Nat.pow_le_pow_right Nat.two_pos
    unfold stateBuckets at lt
    omega

/-- The size of the blocks of a pool does not change. -/
theorem blockSize_of_poolStep {clz0 : ℕ} {u u' : PoolUse} {a : PoolAction} (inv : PoolInv u)
    (stepped : poolStep clz0 u a = some u') :
  u'.pool.blockSize = u.pool.blockSize
  := by
  obtain ⟨free, back, pool⟩ := inv.pool
  cases a with
  | alloc size align expands =>
    rw [poolStep] at stepped
    split at stepped
    case isFalse => cases stepped
    case isTrue request =>
      obtain ⟨⟨s', state⟩, allocated, rfl⟩ := Option.map_eq_some_iff.1 stepped
      obtain ⟨free', inv', place, blockSize, -⟩ :=
        pool.allocNoVg request.2.2.1 request.2.2.2 allocated
      exact blockSize
  | allocBack expands =>
    obtain ⟨⟨s', state⟩, allocated, rfl⟩ := Option.map_eq_some_iff.1 stepped
    obtain ⟨back', inv', place, blockSize, -⟩ := pool.allocBack allocated
    exact blockSize
  | free l =>
    rw [poolStep] at stepped
    split at stepped
    case isFalse => cases stepped
    case isTrue mem =>
      obtain ⟨s', freed, rfl⟩ := Option.map_eq_some_iff.1 stepped
      have perm : (u.live.map fun l => l.state.range).Perm
          (l.state.range :: (u.live.erase l).map fun l => l.state.range) :=
        (List.perm_cons_erase mem).map _
      obtain ⟨free', back', inv', blockSize⟩ := (pool.perm perm).freeNoVg (inv.place l mem) freed
      exact blockSize
  | write l values =>
    rw [poolStep] at stepped
    split at stepped
    case isFalse => cases stepped
    case isTrue =>
      obtain rfl := Option.some.inj stepped
      rfl

/-- What is in use remains so, unless it is freed. -/
theorem live_of_poolStep {clz0 : ℕ} {u u' : PoolUse} {a : PoolAction}
    (stepped : poolStep clz0 u a = some u') {l : Live} (mem : l ∈ u.live) (kept : a ≠ .free l) :
  l ∈ u'.live
  := by
  unfold poolStep at stepped
  split at stepped
  case h_1 =>
    split at stepped
    · obtain ⟨⟨s', state⟩, -, rfl⟩ := Option.map_eq_some_iff.1 stepped
      exact List.mem_cons_of_mem _ mem
    · cases stepped
  case h_2 =>
    obtain ⟨⟨s', state⟩, -, rfl⟩ := Option.map_eq_some_iff.1 stepped
    exact List.mem_cons_of_mem _ mem
  case h_3 k =>
    split at stepped
    · obtain ⟨s', -, rfl⟩ := Option.map_eq_some_iff.1 stepped
      apply (List.mem_erase_of_ne _).2 mem
      rintro rfl
      exact kept rfl
    · cases stepped
  case h_4 =>
    split at stepped
    · obtain rfl := Option.some.inj stepped
      exact mem
    · cases stepped

/-- A part of a state may be written as the whole state may. -/
theorem poolInv_write {u : PoolUse} (inv : PoolInv u) {l : Live} (mem : l ∈ u.live)
    {part : AnvState} (within : part.range.Within l.state.range) (values : ℤ → ℤ) :
  PoolInv { u with pool := u.pool.write part values }
  := by
  have same : u.pool.write part values
      = u.pool.write l.state (u.pool.write part values).mem := by
    unfold StatePool.write
    congr 1
    funext o
    dsimp only
    obtain ⟨start, finish⟩ := within
    by_cases inPart : o < part.range.finish ∧ part.range.start < o + 4
    · rw [if_pos inPart, if_pos ⟨by omega, by omega⟩]
    · rw [if_neg inPart]
      split
      · rfl
      · rfl
  rw [same]
  have stepped : poolStep 0 u (.write l (u.pool.write part values).mem)
      = some { u with pool := u.pool.write l.state (u.pool.write part values).mem } := if_pos mem
  exact inv.step stepped

/-! ### The stream -/

/-- A state is taken from the current block, behind what was taken before. -/
theorem StreamInv.take {header : ℕ} {s : StreamUse} (inv : StreamInv header s)
    (mem : s.stream.block ∈ s.stream.blockList) (behind : header ≤ s.stream.next)
    {offset size alignment : ℕ} (le : s.stream.next ≤ offset)
    (room : offset + size ≤ s.stream.block.allocSize) (dvd : alignment ∣ offset)
    (page : alignment ∣ pageSize) :
  StreamInv header (s.take offset size alignment)
  := by
  have small : offset + size < 2 ^ 32 := by
    have wide := (inv.wide _ mem).2
    have bound : bucketSize 14 < 2 ^ 32 := by decide
    omega
  have next : (s.take offset size alignment).stream.next = offset + size := Nat.mod_eq_of_lt small
  constructor
  case pool => exact inv.pool
  case page => exact inv.page
  case owned => exact inv.owned
  case aligned => exact inv.aligned
  case apart => exact inv.apart
  case wide => exact inv.wide
  case current =>
    left
    rw [next]
    exact ⟨mem, by omega, room⟩
  case place =>
    intro l memState
    rw [next]
    rcases List.mem_cons.1 memState with rfl | memState
    · refine ⟨s.stream.block, mem, ⟨?_, ?_⟩, fun _ => ?_⟩
      all_goals
        unfold AnvState.range
        dsimp only
        omega
    · obtain ⟨b, memBlock, within, before⟩ := inv.place l memState
      refine ⟨b, memBlock, within, ?_⟩
      intro same
      have before := before same
      omega
  case statesLarge =>
    intro l memState
    rcases List.mem_cons.1 memState with rfl | memState
    · rfl
    · exact inv.statesLarge l memState
  case statesAligned =>
    intro l memState
    rcases List.mem_cons.1 memState with rfl | memState
    · apply dvd_add _ (Int.natCast_dvd_natCast.2 dvd)
      exact (Int.natCast_dvd_natCast.2 page).trans (inv.aligned _ mem)
    · exact inv.statesAligned l memState
  case statesApart =>
    apply List.pairwise_cons.2 ⟨_, inv.statesApart⟩
    intro l memState
    obtain ⟨b, memBlock, within, before⟩ := inv.place l memState
    by_cases same : b = s.stream.block
    · right
      have before := before same
      rw [same] at before
      unfold AnvState.range at before ⊢
      dsimp only at before ⊢
      omega
    · have apart := Range.apart_of_pairwise inv.apart mem memBlock (Ne.symm same)
      apply apart.mono
      · unfold Range.Within AnvState.range
        dsimp only
        omega
      · obtain ⟨start, finish⟩ := within
        refine ⟨?_, finish⟩
        unfold AnvState.range at start ⊢
        dsimp only at start ⊢
        omega
  case asserted => exact inv.asserted

/-- A block that was fetched does not overlap the blocks that the stream has. -/
theorem StreamInv.enter {header clz0 : ℕ} {s : StreamUse} (inv : StreamInv header s)
    (small : header ≤ pageSize) {size : ℕ} {expands : List Bool} {pool : StatePool} {block : AnvState}
    (eq : s.use.pool.allocNoVg clz0 (fetchSize clz0 s.stream size) pageSize expands
      = some (pool, block)) (values : ℤ → ℤ) :
  StreamInv header (s.enter header pool block (fetchSize clz0 s.stream size) values)
  := by
  obtain ⟨-, wide, narrow⟩ := fetched_of_allocNoVg eq
  obtain ⟨free, back, poolInv⟩ := inv.pool.pool
  have pagePower : pageSize.isPowerOfTwo := ⟨12, rfl⟩
  obtain ⟨free', inv', place, blockSize, large, aligned⟩ :=
    poolInv.allocNoVg pagePower inv.page eq
  let l : Live := ⟨block, fetchSize clz0 s.stream size, pageSize⟩
  have added : PoolInv ⟨pool, l :: s.use.live⟩ := inv.pool.add inv' blockSize place large aligned
  have headerWithin : (⟨block.offset, header⟩ : AnvState).range.Within l.state.range := by
    unfold Range.Within AnvState.range
    dsimp only [l]
    omega
  have written := poolInv_write added List.mem_cons_self headerWithin values
  have apart : ∀ b ∈ s.stream.blockList, block.range.Apart b.range := by
    intro b mem
    obtain ⟨k, memLive, rfl⟩ := inv.owned b mem
    exact (List.pairwise_cons.1 added.sound.apart).1 k memLive
  constructor
  case pool => exact written
  case page =>
    apply inv.page.trans
    exact Nat.le_of_eq blockSize.symm
  case owned =>
    intro b mem
    rcases List.mem_cons.1 mem with rfl | mem
    · exact ⟨l, List.mem_cons_self, rfl⟩
    · obtain ⟨k, memLive, same⟩ := inv.owned b mem
      exact ⟨k, List.mem_cons_of_mem _ memLive, same⟩
  case aligned =>
    intro b mem
    rcases List.mem_cons.1 mem with rfl | mem
    · exact aligned
    · exact inv.aligned b mem
  case apart => exact List.pairwise_cons.2 ⟨apart, inv.apart⟩
  case wide =>
    intro b mem
    rcases List.mem_cons.1 mem with rfl | mem
    · exact ⟨wide, narrow⟩
    · exact inv.wide b mem
  case current =>
    left
    refine ⟨List.mem_cons_self, Nat.le_refl header, ?_⟩
    exact small.trans wide
  case place =>
    intro k memState
    obtain ⟨b, mem, within, -⟩ := inv.place k memState
    refine ⟨b, List.mem_cons_of_mem _ mem, within, ?_⟩
    -- the new block is none of the old ones, since it would not overlap itself
    intro same
    have overlap := apart b mem
    have positive := (inv.wide b mem).1
    rw [same] at overlap positive
    unfold Range.Apart AnvState.range at overlap
    unfold pageSize at positive
    dsimp only [StreamUse.enter] at overlap positive
    omega
  case statesLarge => exact inv.statesLarge
  case statesAligned => exact inv.statesAligned
  case statesApart => exact inv.statesApart
  case asserted => exact inv.asserted

/-- What a request comes to: a state is taken, or the assertion fails. -/
theorem StreamInv.alloc {header clz0 : ℕ} {s s' : StreamUse} (inv : StreamInv header s)
    (small : header ≤ pageSize) {size alignment : ℕ} {expands : List Bool} {values : ℤ → ℤ}
    (eq : s.alloc header clz0 size alignment expands values = some s')
    (fits : Fits header clz0 s (.alloc size alignment expands values)) :
  StreamInv header s'
  := by
  unfold StreamUse.alloc at eq
  split at eq
  case isTrue =>
    obtain rfl := Option.some.inj eq
    exact inv
  case isFalse positive =>
    split at eq
    case isFalse => cases eq
    case isTrue accepted =>
      obtain ⟨noWrap, room⟩ := fits positive
      have page := dvd_pageSize accepted.1 accepted.2
      have pageSmall : pageSize = 4096 := rfl
      dsimp only at eq
      rw [Nat.mod_eq_of_lt noWrap] at eq
      split at eq
      case isTrue full =>
        obtain ⟨⟨pool, block⟩, allocated, result⟩ := Option.map_eq_some_iff.1 eq
        obtain ⟨size', wide, narrow⟩ := fetched_of_allocNoVg allocated
        have enough := room full block.allocSize size'
        have bound : bucketSize 14 < 2 ^ 32 := by decide
        have entered := inv.enter small allocated values
        obtain ⟨le, dvd⟩ := alignU32_spec (v := header) accepted.1 (by omega)
        dsimp only at result
        rw [Nat.mod_eq_of_lt (by omega), if_pos enough] at result
        rw [← result]
        exact entered.take List.mem_cons_self (Nat.le_refl header) le enough dvd page
      case isFalse enough =>
        obtain rfl := Option.some.inj eq
        rcases inv.current with ⟨mem, behind, le⟩ | ⟨-, null⟩
        · have narrow := (inv.wide _ mem).2
          have bound : bucketSize 14 ≤ 2 ^ 20 := by decide
          obtain ⟨le', dvd⟩ := alignU32_spec (v := s.stream.next) accepted.1 (by omega)
          exact inv.take mem behind le' (Nat.le_of_not_lt enough) dvd page
        · omega

/-- When the sum does not wrap around, the assertion fails exactly for the requests that the
condition leaves out. -/
theorem failed_iff {header clz0 : ℕ} {s s' : StreamUse} (running : s.failed = false) {size alignment : ℕ} {expands : List Bool} {values : ℤ → ℤ}
    (noWrap : alignU32 s.stream.next alignment + size < 2 ^ 32)
    (noWrap' : alignU32 header alignment + size < 2 ^ 32)
    (eq : s.alloc header clz0 size alignment expands values = some s') :
  s'.failed = true ↔ ¬ Fits header clz0 s (.alloc size alignment expands values)
  := by
  unfold StreamUse.alloc at eq
  unfold Fits
  split at eq
  case isTrue zero =>
    obtain rfl := Option.some.inj eq
    simp [running, zero]
  case isFalse positive =>
    split at eq
    case isFalse => cases eq
    case isTrue accepted =>
      dsimp only at eq
      rw [Nat.mod_eq_of_lt noWrap] at eq
      split at eq
      case isTrue full =>
        obtain ⟨⟨pool, block⟩, allocated, result⟩ := Option.map_eq_some_iff.1 eq
        obtain ⟨size', -, -⟩ := fetched_of_allocNoVg allocated
        dsimp only at result
        rw [Nat.mod_eq_of_lt noWrap'] at result
        simp only [size', Option.mem_some_iff, forall_eq', full, noWrap, positive, true_and,
          not_false_eq_true, forall_const, ne_eq]
        split at result
        case isTrue enough =>
          rw [← result]
          simp [StreamUse.take, StreamUse.enter, running, enough]
        case isFalse few =>
          rw [← result]
          simp [few]
      case isFalse enough =>
        obtain rfl := Option.some.inj eq
        simp only [StreamUse.take, running, Bool.false_eq_true, false_iff, not_not]
        exact fun _ => ⟨noWrap, fun full => absurd full enough⟩

theorem StreamInv.step {header clz0 : ℕ} {s s' : StreamUse} {a : StreamAction}
    (inv : StreamInv header s) (small : header ≤ pageSize) (fits : Fits header clz0 s a)
    (stepped : streamStep header clz0 s a = some s') :
  StreamInv header s'
  := by
  unfold streamStep at stepped
  rw [if_neg (by rw [inv.asserted]; decide)] at stepped
  cases a with
  | alloc size alignment expands values => exact inv.alloc small stepped fits
  | write l values =>
    dsimp only at stepped
    split at stepped
    case isFalse => cases stepped
    case isTrue mem =>
      obtain rfl := Option.some.inj stepped
      obtain ⟨b, memBlock, within, -⟩ := inv.place l mem
      obtain ⟨k, memLive, rfl⟩ := inv.owned b memBlock
      have inBlock : l.state.range.Within k.state.range := by
        obtain ⟨start, finish⟩ := within
        refine ⟨?_, finish⟩
        unfold AnvState.range at start ⊢
        dsimp only at start ⊢
        omega
      exact { inv with pool := poolInv_write inv.pool memLive inBlock values }
  | pool a =>
    dsimp only at stepped
    split at stepped
    case isFalse => cases stepped
    case isTrue leaves =>
      obtain ⟨use, taken, rfl⟩ := Option.map_eq_some_iff.1 stepped
      have owned : ∀ b ∈ s.stream.blockList, ∃ l ∈ use.live, l.state = b := by
        intro b mem
        obtain ⟨k, memLive, same⟩ := inv.owned b mem
        refine ⟨k, live_of_poolStep taken memLive ?_, same⟩
        rintro rfl
        simp [Stream.leaves, same, mem] at leaves
      exact { inv with
        pool := inv.pool.step taken
        page := (blockSize_of_poolStep inv.pool taken).symm ▸ inv.page
        owned := owned }

/-- In every history in which the requests for states are met, the stream is sound in the end. -/
theorem stream_sound_of_fitting_history {header clz0 poolBlockSize blockSize : ℕ} {mem : ℤ → ℤ}
    {pool : StatePool} (small : header ≤ pageSize) (powerOfTwo : poolBlockSize.isPowerOfTwo)
    (page : pageSize ≤ poolBlockSize) (init : StatePool.init poolBlockSize mem = some pool)
    {as : List StreamAction} {s : StreamUse}
    (fits : Flow.Meets (streamStep header clz0) (Fits header clz0)
      { use := ⟨pool, []⟩, stream := .init blockSize } as)
    (ran : Flow.runActions (streamStep header clz0)
      { use := ⟨pool, []⟩, stream := .init blockSize } as = some s) :
  StreamSound header s
  := by
  apply StreamInv.sound
  have start : StreamInv header { use := ⟨pool, []⟩, stream := .init blockSize } := by
    have poolInv : PoolInv ⟨pool, []⟩ := by
      have four : 4 ≤ poolBlockSize := le_trans (by decide) page
      refine ⟨⟨_, _, StatePool.inv_init powerOfTwo four init⟩, ?_, ?_, ?_⟩
      all_goals
        intro l mem
        cases mem
    have pageSize : pageSize ≤ pool.blockSize := by
      obtain ⟨block, -, rfl⟩ := Option.map_eq_some_iff.1 init
      exact page
    constructor
    case pool => exact poolInv
    case page => exact pageSize
    case current => exact Or.inr ⟨rfl, rfl⟩
    case apart => exact .nil
    case statesApart => exact .nil
    case asserted => rfl
    all_goals
      intro _ mem
      cases mem
  apply Flow.invariant_of_run _ start fits ran
  intro s a s' inv fits stepped
  exact inv.step small fits stepped

/-- Two states in one block, a larger one in a block of its own, and another user of the pool. -/
def drawing : List StreamAction :=
  [.alloc 64 64 [true] (fun _ => 0), .alloc 100 32 [] (fun _ => 0), .pool (.alloc 256 64 [true]),
    .alloc 5000 64 [true] (fun _ => 0)]

theorem stream_sound_of_fitting_history_drawing :
  ∃ pool s, StatePool.init 4096 (fun _ => 0) = some pool
    ∧ Flow.runActions (streamStep 24 31) { use := ⟨pool, []⟩, stream := .init 4096 } drawing = some s
    ∧ s.states.map Live.state = [⟨8256, 5000⟩, ⟨128, 100⟩, ⟨64, 64⟩] ∧ StreamSound 24 s
  := by
  refine ⟨_, _, rfl, rfl, rfl, ?_⟩
  exact @stream_sound_of_fitting_history 24 31 4096 4096 (fun _ => 0) _ (by decide) ⟨12, rfl⟩
    (by decide) rfl drawing _ (by decide) rfl

/-- A state as large as the blocks of the stream. -/
def filling : List StreamAction := [.alloc 4096 64 [true] fun _ => 0]

/-- A state as large as a larger block. -/
def fillingLarger : List StreamAction := [.alloc 8192 64 [true] fun _ => 0]

/-- A run in which the assertion has failed is not sound. -/
theorem unsound_of_failed {as : List StreamAction}
    (run : ((StatePool.init 4096 (fun _ => 0)).bind fun pool =>
      Flow.runActions (streamStep 24 31) { use := ⟨pool, []⟩, stream := .init 4096 } as).map
        StreamUse.failed = some true) :
  ∃ pool s, StatePool.init 4096 (fun _ => 0) = some pool
    ∧ Flow.runActions (streamStep 24 31) { use := ⟨pool, []⟩, stream := .init 4096 } as = some s
    ∧ s.failed = true ∧ ¬ StreamSound 24 s
  := by
  obtain ⟨s, ran, failed⟩ := Option.map_eq_some_iff.1 run
  obtain ⟨pool, init, ran⟩ := Option.bind_eq_some_iff.1 ran
  refine ⟨pool, s, init, ran, failed, ?_⟩
  intro sound
  rw [sound.asserted] at failed
  cases failed

/-- The block that is fetched has no room for the header. -/
theorem assertion_fails :
  (∃ pool s, StatePool.init 4096 (fun _ => 0) = some pool
    ∧ Flow.runActions (streamStep 24 31) { use := ⟨pool, []⟩, stream := .init 4096 } filling = some s
    ∧ s.failed = true ∧ ¬ StreamSound 24 s)
  ∧ (∃ pool s, StatePool.init 4096 (fun _ => 0) = some pool
    ∧ Flow.runActions (streamStep 24 31) { use := ⟨pool, []⟩, stream := .init 4096 } fillingLarger
      = some s
    ∧ s.failed = true ∧ ¬ StreamSound 24 s)
  := by
  constructor
  · apply unsound_of_failed
    decide
  · apply unsound_of_failed
    decide

end Anv.Stream
