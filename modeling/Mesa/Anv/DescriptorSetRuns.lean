import Mathlib.Tactic.Ring
import Mesa.Anv.DescriptorSet
import Mesa.Data.Chain

/-!
# The sets of a pool do not overlap

What lies before `next` belongs to at most one set or entry of the free list, and every surface state
that was taken from the stream to at most one set or to the states that can be used again.  A pool
that is used without frees, or with sets of one size, gives out all of its memory.
-/

namespace Anv

/-! ### Streams -/

/-- What is left of the current block. -/
def StateStream.rest (stream : StateStream) : Range ℤ :=
  ⟨stream.block.offset + stream.next, stream.block.offset + stream.block.allocSize⟩

/-- The ranges of states. -/
def stateRanges (states : List AnvState) : List (Range ℤ) := states.map AnvState.range

/-- The states that were taken from a stream lie in its blocks and do not overlap. -/
structure StreamInv (stream : StateStream) (states : List AnvState) : Prop where
  owned : ∀ z, Range.total (stateRanges states) z + stream.rest.covers z
    ≤ Range.total (stateRanges stream.blockList) z
  blocks : stream.blockList.Pairwise fun a b => a.range.Apart b.range
  size_eq : ∀ state ∈ states, state.allocSize = 64
  next_le : stream.next ≤ bucketSize 14
  block_le : stream.block.allocSize ≤ bucketSize 14

theorem streamInv_init :
  StreamInv (.init 4096) []
  where
  owned z := by
    have nothing : (StateStream.init 4096).rest.covers z = 0 := by
      apply Range.covers_eq_zero
      unfold StateStream.rest StateStream.init
      dsimp only
      omega
    rw [nothing]
    exact Nat.le_refl 0
  blocks := .nil
  size_eq _ mem := absurd mem List.not_mem_nil
  next_le := by decide
  block_le := Nat.zero_le _

theorem StreamInv.perm {stream : StateStream} {states states' : List AnvState}
    (inv : StreamInv stream states) (perm : states.Perm states') :
  StreamInv stream states'
  := by
  refine { inv with owned := ?_, size_eq := fun state mem => inv.size_eq state (perm.mem_iff.2 mem) }
  intro z
  have same : Range.total (stateRanges states') z = Range.total (stateRanges states) z :=
    (Range.total_perm (perm.map _) z).symm
  rw [same]
  exact inv.owned z

theorem alignU32_64 {v : ℕ} (small : v ≤ bucketSize 14) :
  v ≤ alignU32 v 64
  := by
  unfold bucketSize at small
  unfold alignU32
  omega

/-- The blocks that are left after one of them was used. -/
theorem Offered.take {stream stream' : StateStream} {block : AnvState} {fresh : List AnvState}
    (offered : Offered stream (block :: fresh))
    (blockList : stream'.blockList = block :: stream.blockList) :
  Offered stream' fresh
  := by
  obtain ⟨large, apart⟩ := offered
  refine ⟨fun b mem => large b (List.mem_cons_of_mem _ mem), ?_⟩
  have symm : ∀ a b : AnvState, a.range.Apart b.range → b.range.Apart a.range :=
    fun _ _ => Range.Apart.symm
  rw [blockList]
  exact (List.perm_middle.pairwise_iff (symm _ _)).2 apart

theorem Offered.drop {stream : StateStream} {used fresh : List AnvState}
    (offered : Offered stream (used ++ fresh)) :
  Offered stream fresh
  := by
  refine ⟨fun b mem => offered.1 b (List.mem_append_right _ mem), ?_⟩
  have apart := offered.2
  rw [List.append_assoc] at apart
  exact (List.pairwise_append.1 apart).2.1

/-- A state is taken from the stream. -/
theorem StreamInv.alloc {stream stream' : StateStream} {states fresh fresh' more : List AnvState}
    {header : ℕ} {state : AnvState} (inv : StreamInv stream states)
    (offered : Offered stream (fresh ++ more))
    (eq : stream.alloc header 64 64 fresh = some (state, stream', fresh')) :
  StreamInv stream' (state :: states) ∧ Offered stream' (fresh' ++ more)
    ∧ fresh.length ≤ fresh'.length + 1
  := by
  unfold StateStream.alloc at eq
  dsimp only at eq
  split at eq
  case isFalse fits =>
    obtain ⟨rfl, rfl, rfl⟩ : _ = state ∧ _ = stream' ∧ _ = fresh' := by simpa using eq
    have above := alignU32_64 inv.next_le
    refine ⟨⟨?_, inv.blocks, ?_, ?_, inv.block_le⟩, offered, by omega⟩
    · intro z
      have owned := inv.owned z
      have cut := Range.covers_cut (a := stream.block.offset + stream.next)
        (b := stream.block.offset + alignU32 stream.next 64)
        (c := stream.block.offset + stream.block.allocSize) (by omega) (by omega) z
      have cut' := Range.covers_cut (a := stream.block.offset + alignU32 stream.next 64)
        (b := stream.block.offset + alignU32 stream.next 64 + 64)
        (c := stream.block.offset + stream.block.allocSize) (by omega) (by omega) z
      unfold stateRanges StateStream.rest at *
      rw [List.map_cons, Range.total_cons, AnvState.range]
      dsimp only
      push_cast
      rw [← Int.add_assoc]
      omega
    · intro st mem
      rcases List.mem_cons.1 mem with rfl | mem
      · rfl
      · exact inv.size_eq st mem
    · have le := inv.block_le
      dsimp only
      omega
  case isTrue =>
    split at eq
    case h_1 => cases eq
    case h_2 block rest =>
      split at eq
      case isFalse => cases eq
      case isTrue fits =>
        obtain ⟨rfl, rfl, rfl⟩ : _ = state ∧ _ = stream' ∧ _ = fresh' := by simpa using eq
        obtain ⟨large, small⟩ := offered.1 block (List.mem_append_left _ List.mem_cons_self)
        refine ⟨⟨?_, ?_, ?_, ?_, small⟩, Offered.take offered rfl, ?_⟩
        · intro z
          have owned := inv.owned z
          have cut := Range.covers_cut (a := block.offset) (b := block.offset + alignU32 header 64)
            (c := block.offset + block.allocSize) (by omega) (by omega) z
          have cut' := Range.covers_cut (a := block.offset + alignU32 header 64)
            (b := block.offset + alignU32 header 64 + 64)
            (c := block.offset + block.allocSize) (by omega) (by omega) z
          unfold stateRanges StateStream.rest at *
          dsimp only
          rw [List.map_cons, List.map_cons, Range.total_cons, Range.total_cons, AnvState.range,
            AnvState.range]
          dsimp only
          push_cast
          rw [← Int.add_assoc]
          omega
        · have apart := (List.pairwise_append.1 offered.2)
          apply List.Pairwise.cons _ inv.blocks
          intro b mem
          exact apart.2.2 block (List.mem_append_left _ List.mem_cons_self) b mem
        · intro st mem
          rcases List.mem_cons.1 mem with rfl | mem
          · rfl
          · exact inv.size_eq st mem
        · dsimp only
          omega
        · rw [List.length_cons]

/-- As long as there are blocks, there are states. -/
theorem StateStream.alloc_isSome (stream : StateStream) {header : ℕ} {fresh : List AnvState}
    (header_le : header ≤ 64) (large : ∀ block ∈ fresh, 4096 ≤ block.allocSize)
    (nonempty : fresh ≠ []) :
  ∃ result, stream.alloc header 64 64 fresh = some result
  := by
  unfold StateStream.alloc
  dsimp only
  split
  case isFalse => exact ⟨_, rfl⟩
  case isTrue =>
    cases fresh with
    | nil => exact absurd rfl nonempty
    | cons block fresh =>
      have room := large block List.mem_cons_self
      have fits : alignU32 header 64 + 64 ≤ block.allocSize := by
        unfold alignU32
        omega
      dsimp only
      rw [if_pos fits]
      exact ⟨_, rfl⟩

/-- States that were taken from a stream do not overlap. -/
theorem StreamInv.apart {stream : StateStream} {states : List AnvState}
    (inv : StreamInv stream states) :
  states.Pairwise fun a b => a.range.Apart b.range
  := by
  have once := Range.total_le_one (List.pairwise_map.2 inv.blocks)
  apply List.pairwise_map.1
  apply Range.pairwise_apart_of_total
  · intro r mem
    obtain ⟨state, taken, rfl⟩ := List.mem_map.1 mem
    have size := inv.size_eq state taken
    unfold AnvState.range
    dsimp only
    omega
  · intro z
    have owned := inv.owned z
    have le := once z
    unfold stateRanges at *
    omega

/-! ### The free list -/

/-- A set has room for an entry of the free list. -/
theorem SetLayout.eight_le_setSize (layout : SetLayout) (abi : Abi) :
  8 ≤ layout.setSize abi
  := by
  have eight := abi.eight_le
  unfold SetLayout.setSize
  omega

namespace DescriptorPool

/-- The piece of memory of an entry of the free list. -/
def freeRange (p : DescriptorPool) (o : ℕ) : Range ℤ := ⟨o, o + (p.data o).size⟩

/-- What holds of a pool with the given free list, when the given ranges and surface states are
outside of it. -/
structure Inv (p : DescriptorPool) (l : List ℕ) (out : List (Range ℤ)) (states : List AnvState) :
    Prop where
  next_le : p.next ≤ p.size
  next_ne : p.next ≠ poolEmpty
  chain : Chain (fun o => (p.data o).next) poolEmpty p.freeList l
  free_size : ∀ o ∈ l, 8 ≤ (p.data o).size
  bytes : ∀ z, Range.total out z + Range.total (l.map p.freeRange) z
    ≤ (⟨0, p.next⟩ : Range ℤ).covers z
  stream : StreamInv p.stream (states ++ p.surfaceStateFreeList)

variable {p p' : DescriptorPool} {l : List ℕ} {out : List (Range ℤ)} {states : List AnvState}

/-- No byte is in two pieces. -/
theorem Inv.once (inv : p.Inv l out states) (z : ℤ) :
  Range.total out z + Range.total (l.map p.freeRange) z ≤ 1
  := by
  apply (inv.bytes z).trans
  unfold Range.covers
  split <;> decide

/-- The pieces of the free list do not overlap what is outside of it. -/
theorem Inv.apart_free (inv : p.Inv l out states) {r : Range ℤ} (mem : r ∈ out)
    (nonempty : r.start < r.finish) {o : ℕ} (ho : o ∈ l) :
  r.Apart (p.freeRange o)
  := by
  have size := inv.free_size o ho
  apply Range.apart_of_covers nonempty
  · unfold freeRange
    dsimp only
    omega
  · intro z
    have le := inv.once z
    have outside := Range.covers_le_total mem z
    have inside := Range.covers_le_total (List.mem_map_of_mem (f := p.freeRange) ho) z
    omega

/-- The pieces of the free list lie before `next`. -/
theorem Inv.free_within (inv : p.Inv l out states) {o : ℕ} (ho : o ∈ l) :
  o + (p.data o).size ≤ p.next
  := by
  have size := inv.free_size o ho
  have within : (p.freeRange o).Within ⟨0, p.next⟩ := by
    apply Range.within_of_covers
    · unfold freeRange
      dsimp only
      omega
    · intro z
      have le := inv.bytes z
      have inside := Range.covers_le_total (List.mem_map_of_mem (f := p.freeRange) ho) z
      omega
  have finish := within.2
  unfold freeRange at finish
  dsimp only at finish
  omega

/-- Every entry of the free list has its own place. -/
theorem Inv.nodup (inv : p.Inv l out states) :
  l.Nodup
  := by
  have pairwise : (l.map p.freeRange).Pairwise Range.Apart := by
    apply Range.pairwise_apart_of_total
    · intro r mem
      obtain ⟨o, ho, rfl⟩ := List.mem_map.1 mem
      have size := inv.free_size o ho
      unfold freeRange
      dsimp only
      omega
    · intro z
      have le := inv.once z
      omega
  apply (List.pairwise_map.1 pairwise).imp_of_mem
  intro a b ha _ apart eq
  have size := inv.free_size a ha
  rw [eq] at apart size
  unfold Range.Apart freeRange at apart
  dsimp only at apart
  omega

theorem Inv.length_le (inv : p.Inv l out states) :
  l.length ≤ p.size
  := by
  have sub : l ⊆ List.range p.next := by
    intro o ho
    have within := inv.free_within ho
    have size := inv.free_size o ho
    exact List.mem_range.2 (by omega)
  have le := (List.subperm_of_subset inv.nodup sub).length_le
  rw [List.length_range] at le
  exact le.trans inv.next_le

/-- What the loop over the free list finds. -/
theorem search_spec (size : ℕ) (link : Option ℕ) {rounds f : ℕ}
    (chain : Chain (fun o => (p.data o).next) poolEmpty f l) (enough : l.length < rounds) :
  match p.search size rounds link f with
  | none => ∀ o ∈ l, (p.data o).size < size
  | some (link', o) => size ≤ (p.data o).size
    ∧ ∃ before after, l = before ++ o :: after ∧ link' = before.getLast?.or link
  := by
  induction rounds generalizing l link f with
  | zero => cases enough
  | succ rounds ih =>
    rw [search]
    by_cases eq : f = poolEmpty
    · rw [if_pos eq, (chain.eq_nil_iff).2 eq]
      intro o mem
      cases mem
    · obtain ⟨rest, rfl, chain'⟩ := chain.exists_cons eq
      rw [if_neg eq]
      by_cases large : size ≤ (p.data f).size
      · rw [if_pos large]
        exact ⟨large, [], rest, rfl, rfl⟩
      · rw [if_neg large]
        have inner := ih (some f) chain' (by simpa using enough)
        cases found : p.search size rounds (some f) (p.data f).next with
        | none =>
          rw [found] at inner
          intro o mem
          rcases List.mem_cons.1 mem with rfl | mem
          · exact Nat.lt_of_not_le large
          · exact inner o mem
        | some result =>
          obtain ⟨link', o⟩ := result
          rw [found] at inner
          obtain ⟨enough', before, after, rfl, rfl⟩ := inner
          refine ⟨enough', f :: before, after, rfl, ?_⟩
          rw [List.getLast?_cons]
          cases before.getLast? <;> rfl

/-! ### Creating and destroying -/

/-- Taking a piece out of the free list changes links only. -/
theorem unlink_frame (p : DescriptorPool) (o : ℕ) (link : Option ℕ) :
  (p.unlink o link).next = p.next ∧ (p.unlink o link).size = p.size
    ∧ (p.unlink o link).stream = p.stream
    ∧ (p.unlink o link).surfaceStateFreeList = p.surfaceStateFreeList
    ∧ (p.unlink o link).live = p.live
    ∧ ∀ x, ((p.unlink o link).data x).size = (p.data x).size
  := by
  cases link with
  | none => exact ⟨rfl, rfl, rfl, rfl, rfl, fun _ => rfl⟩
  | some b =>
    refine ⟨rfl, rfl, rfl, rfl, rfl, ?_⟩
    intro x
    unfold DescriptorPool.unlink
    dsimp only
    rw [Function.update_apply]
    split
    case isTrue eq => rw [eq]
    case isFalse => rfl

/-- A piece of the free list is taken out of it. -/
theorem Inv.unlink {before after : List ℕ} {o size : ℕ}
    (inv : p.Inv (before ++ o :: after) out states) (enough : size ≤ (p.data o).size) :
  (p.unlink o before.getLast?).Inv (before ++ after) (⟨o, o + size⟩ :: out) states
  := by
  have nodup := inv.nodup
  have unlinked := inv.chain.unlink nodup
  obtain ⟨next, size', stream, surface, -, sizes⟩ := p.unlink_frame o before.getLast?
  constructor
  case next_le =>
    rw [next, size']
    exact inv.next_le
  case next_ne =>
    rw [next]
    exact inv.next_ne
  case chain =>
    cases last : before.getLast? with
    | none =>
      rw [last] at unlinked
      obtain rfl := List.getLast?_eq_none_iff.1 last
      exact unlinked
    | some b =>
      rw [last] at unlinked
      have links : (fun x => ((p.unlink o (some b)).data x).next)
          = Function.update (fun x => (p.data x).next) b (p.data o).next := by
        funext x
        unfold DescriptorPool.unlink
        dsimp only
        rw [Function.update_apply, Function.update_apply]
        split <;> rfl
      rw [links]
      exact unlinked
  case free_size =>
    intro x mem
    rw [sizes]
    apply inv.free_size
    rcases List.mem_append.1 mem with mem | mem
    · exact List.mem_append_left _ mem
    · exact List.mem_append_right _ (List.mem_cons_of_mem _ mem)
  case bytes =>
    intro z
    have ranges : (p.unlink o before.getLast?).freeRange = p.freeRange := by
      funext x
      rw [freeRange, freeRange, sizes]
    have le := inv.bytes z
    have cut := Range.covers_cut (a := (o : ℤ)) (b := o + size) (c := o + (p.data o).size)
      (by omega) (by omega) z
    rw [List.map_append, List.map_cons, Range.total_append, Range.total_cons, freeRange] at le
    rw [next, ranges, List.map_append, Range.total_append, Range.total_cons]
    omega
  case stream =>
    rw [stream, surface]
    exact inv.stream

/-- Where a set can be placed: behind all others, or in a piece of the free list. -/
theorem Inv.place_ok {size index : ℕ} (inv : p.Inv l out states)
    (eq : p.place size = .ok (index, p')) :
  (size ≤ p.size - p.next ∧ index = p.next ∧ p' = { p with next := p.next + size })
    ∨ ∃ before after, l = before ++ index :: after ∧ size ≤ (p.data index).size
      ∧ p' = p.unlink index before.getLast?
  := by
  unfold DescriptorPool.place at eq
  split at eq
  case isTrue fits =>
    obtain ⟨rfl, rfl⟩ := Prod.mk.inj (Except.ok.inj eq)
    exact .inl ⟨fits, rfl, rfl⟩
  case isFalse =>
    have rounds : l.length < p.size + 2 := Nat.lt_add_right 1 (Nat.lt_succ_of_le inv.length_le)
    have spec := search_spec size none inv.chain rounds
    split at eq
    case h_1 link o found =>
      obtain ⟨rfl, rfl⟩ := Prod.mk.inj (Except.ok.inj eq)
      rw [found] at spec
      obtain ⟨enough, before, after, split, rfl⟩ := spec
      rw [Option.or_none]
      exact .inr ⟨before, after, split, enough, rfl⟩
    case h_2 =>
      split at eq <;> cases eq

/-- When there is no place for a set. -/
theorem Inv.place_error {size : ℕ} {e : PoolError} (inv : p.Inv l out states)
    (eq : p.place size = .error e) :
  p.size - p.next < size ∧ ∀ o ∈ l, (p.data o).size < size
  := by
  unfold DescriptorPool.place at eq
  split at eq
  case isTrue => cases eq
  case isFalse full =>
    have rounds : l.length < p.size + 2 := Nat.lt_add_right 1 (Nat.lt_succ_of_le inv.length_le)
    have spec := search_spec size none inv.chain rounds
    split at eq
    case h_1 => cases eq
    case h_2 none =>
      rw [none] at spec
      exact ⟨Nat.lt_of_not_le full, spec⟩

/-- The pieces of the free list are of one size, and together with `m` sets of that size they are all
that was handed out. -/
def Uniform (p : DescriptorPool) (n : ℕ) (l : List ℕ) (m : ℕ) : Prop :=
  (∀ o ∈ l, (p.data o).size = n) ∧ p.next = (m + l.length) * n

/-- A set is placed. -/
theorem Inv.place {size index : ℕ} (inv : p.Inv l out states) (large : 8 ≤ size)
    (eq : p.place size = .ok (index, p')) :
  index ≠ poolEmpty ∧ p'.live = p.live ∧ p'.size = p.size ∧ p'.stream = p.stream
    ∧ ∃ l', p'.Inv l' (⟨index, index + size⟩ :: out) states
      ∧ ∀ m, p.Uniform size l m → p'.Uniform size l' (m + 1)
  := by
  obtain ⟨fits, rfl, rfl⟩ | ⟨before, after, rfl, enough, rfl⟩ := inv.place_ok eq
  · refine ⟨inv.next_ne, rfl, rfl, rfl, l, ?_, ?_⟩
    · have le := inv.next_le
      refine { inv with next_le := ?_, next_ne := ?_, bytes := ?_ }
      · dsimp only
        omega
      · unfold poolEmpty
        dsimp only
        omega
      · intro z
        have before := inv.bytes z
        have cut := Range.covers_cut (a := (0 : ℤ)) (b := p.next) (c := p.next + size) (by omega)
          (by omega) z
        have same : ({ p with next := p.next + size } : DescriptorPool).freeRange = p.freeRange :=
          rfl
        rw [Range.total_cons, same]
        push_cast
        omega
    · intro m uniform
      refine ⟨uniform.1, ?_⟩
      dsimp only
      rw [uniform.2]
      ring
  · have ne : index ≠ poolEmpty := inv.chain.ne_of_mem (List.mem_append_right _ List.mem_cons_self)
    obtain ⟨next, size', stream, -, live, sizes⟩ := p.unlink_frame index before.getLast?
    refine ⟨ne, live, size', stream, before ++ after, inv.unlink enough, ?_⟩
    intro m uniform
    constructor
    · intro o mem
      rw [sizes]
      apply uniform.1
      rcases List.mem_append.1 mem with mem | mem
      · exact List.mem_append_left _ mem
      · exact List.mem_append_right _ (List.mem_cons_of_mem _ mem)
    · rw [next, uniform.2, List.length_append, List.length_append, List.length_cons]
      ring

/-- What is stored outside of the free list does not change it. -/
theorem Inv.overwrite (inv : p.Inv l out states) (start finish : ℕ)
    (mem : ⟨start, finish⟩ ∈ out) (nonempty : start < finish) (values : ℕ → PoolFreeListEntry) :
  ({ p with data := DescriptorPool.overwrite p.data start finish values } : DescriptorPool).Inv l out
      states
    ∧ ∀ n m, p.Uniform n l m → ({ p with
      data := DescriptorPool.overwrite p.data start finish values } : DescriptorPool).Uniform n l m
  := by
  have same : ∀ o ∈ l, DescriptorPool.overwrite p.data start finish values o = p.data o := by
    intro o ho
    apply if_neg
    have lt : (⟨start, finish⟩ : Range ℤ).start < (⟨start, finish⟩ : Range ℤ).finish := by
      dsimp only
      omega
    have apart := inv.apart_free mem lt ho
    have size := inv.free_size o ho
    unfold Range.Apart freeRange at apart
    dsimp only at apart
    omega
  constructor
  · refine { inv with chain := ?_, free_size := ?_, bytes := ?_ }
    · apply inv.chain.congr
      intro o ho
      dsimp only
      rw [same o ho]
    · intro o ho
      dsimp only
      rw [same o ho]
      exact inv.free_size o ho
    · intro z
      have ranges : l.map ({ p with
          data := DescriptorPool.overwrite p.data start finish values } : DescriptorPool).freeRange
          = l.map p.freeRange := by
        apply List.map_congr_left
        intro o ho
        rw [freeRange, freeRange]
        dsimp only
        rw [same o ho]
      rw [ranges]
      exact inv.bytes z
  · intro n m uniform
    refine ⟨?_, uniform.2⟩
    intro o ho
    dsimp only
    rw [same o ho]
    exact uniform.1 o ho

/-- A state that can be used again is given to a set. -/
theorem Inv.takeFree {acc rest : List AnvState} {state : AnvState}
    (inv : p.Inv l out (acc ++ states)) (surface : p.surfaceStateFreeList = state :: rest) :
  ({ p with surfaceStateFreeList := rest } : DescriptorPool).Inv l out ((acc ++ [state]) ++ states)
  := by
  refine { inv with stream := ?_ }
  apply inv.stream.perm
  rw [surface, List.append_assoc, List.append_assoc, List.append_assoc]
  apply List.Perm.append_left
  exact List.perm_middle

/-- A state from the stream is given to a set. -/
theorem Inv.takeNew {acc : List AnvState} {state : AnvState} {stream : StateStream}
    (inv : p.Inv l out (acc ++ states))
    (taken : StreamInv stream (state :: (acc ++ states ++ p.surfaceStateFreeList))) :
  ({ p with stream := stream } : DescriptorPool).Inv l out ((acc ++ [state]) ++ states)
  := by
  refine { inv with stream := ?_ }
  apply taken.perm
  rw [List.append_assoc, List.append_assoc, List.append_assoc]
  exact List.perm_middle.symm

/-- The surface states of a set are taken. -/
theorem Inv.takeStates {abi : Abi} {n : ℕ} (acc : List AnvState) {fresh more result : List AnvState}
    (inv : p.Inv l out (acc ++ states)) (offered : Offered p.stream (fresh ++ more))
    (eq : takeStates abi n acc fresh p = some (result, p')) :
  p'.Inv l out (result ++ states) ∧ Offered p'.stream more ∧ p'.live = p.live ∧ p'.next = p.next
    ∧ p'.data = p.data ∧ p'.size = p.size
  := by
  induction n generalizing acc fresh p with
  | zero =>
    obtain ⟨rfl, rfl⟩ := Prod.mk.inj (Option.some.inj eq)
    exact ⟨inv, offered.drop, rfl, rfl, rfl, rfl⟩
  | succ n ih =>
    rw [DescriptorPool.takeStates] at eq
    split at eq
    case h_1 state rest surface =>
      split at eq
      case isFalse => cases eq
      case isTrue =>
        have later := ih _ (inv.takeFree surface) offered eq
        exact later
    case h_2 surface =>
      split at eq
      case h_1 => cases eq
      case h_2 state stream fresh' allocated =>
        obtain ⟨taken, offered', -⟩ := inv.stream.alloc offered allocated
        have later := ih _ (inv.takeNew taken) offered' eq
        exact later

/-- The surface states of a set are there if there are enough blocks. -/
theorem Inv.takeStates_isSome (abi : Abi) {n : ℕ} (acc : List AnvState) {fresh more : List AnvState}
    (inv : p.Inv l out (acc ++ states)) (offered : Offered p.stream (fresh ++ more))
    (enough : n ≤ fresh.length) :
  ∃ result, DescriptorPool.takeStates abi n acc fresh p = some result
  := by
  induction n generalizing acc fresh p with
  | zero => exact ⟨_, rfl⟩
  | succ n ih =>
    rw [DescriptorPool.takeStates]
    split
    case h_1 state rest surface =>
      have size : state.allocSize = 64 := by
        apply inv.stream.size_eq
        rw [surface]
        exact List.mem_append_right _ List.mem_cons_self
      rw [if_pos size]
      exact ih _ (inv.takeFree surface) offered (Nat.le_of_succ_le enough)
    case h_2 surface =>
      have large : ∀ block ∈ fresh, 4096 ≤ block.allocSize :=
        fun block mem => (offered.1 block (List.mem_append_left _ mem)).1
      have nonempty : fresh ≠ [] := by
        rintro rfl
        cases enough
      obtain ⟨⟨state, stream, fresh'⟩, allocated⟩ :=
        p.stream.alloc_isSome abi.header_le large nonempty
      rw [allocated]
      obtain ⟨taken, offered', length⟩ := inv.stream.alloc offered allocated
      exact ih _ (inv.takeNew taken) offered' (by omega)

/-! ### Live sets -/

/-- What holds of a pool with the given free list. -/
structure Good (p : DescriptorPool) (l : List ℕ) : Prop where
  inv : p.Inv l (p.live.map DescriptorSet.range) (p.live.flatMap DescriptorSet.states)
  live_size : ∀ set ∈ p.live, 8 ≤ set.size
  live_ne : ∀ set ∈ p.live, set.index ≠ poolEmpty

/-- All sets are of one size, and so are the pieces of the free list. -/
def AllOf (p : DescriptorPool) (n : ℕ) (l : List ℕ) : Prop :=
  (∀ set ∈ p.live, set.size = n) ∧ p.Uniform n l p.live.length

theorem Good.range_nonempty (good : p.Good l) {set : DescriptorSet} (mem : set ∈ p.live) :
  set.range.start < set.range.finish
  := by
  have size := good.live_size set mem
  unfold DescriptorSet.range
  dsimp only
  omega

/-- Live sets do not overlap. -/
theorem Good.apart (good : p.Good l) :
  p.live.Pairwise fun a b => a.range.Apart b.range
  := by
  apply List.pairwise_map.1
  apply Range.pairwise_apart_of_total
  · intro r mem
    obtain ⟨set, live, rfl⟩ := List.mem_map.1 mem
    exact good.range_nonempty live
  · intro z
    have once := good.inv.once z
    omega

theorem Good.nodup (good : p.Good l) :
  p.live.Nodup
  := by
  apply good.apart.imp_of_mem
  intro a b ha _ apart eq
  have nonempty := good.range_nonempty ha
  rw [← eq] at apart
  unfold Range.Apart at apart
  omega

/-- A set is created, or nothing changes. -/
theorem Good.create {abi : Abi} {r : Request} {more : List AnvState}
    {result : Except PoolError DescriptorSet} (good : p.Good l)
    (offered : Offered p.stream (r.fresh ++ more)) (eq : p.create abi r = some (result, p')) :
  (∃ l', p'.Good l' ∧ (p.AllOf (r.layout.setSize abi) l → p'.AllOf (r.layout.setSize abi) l'))
    ∧ Offered p'.stream more ∧ p'.size = p.size
    ∧ match result with
      | .ok set => p'.live = set :: p.live
        ∧ (r.layout.setSize abi ≤ p.size - p.next → p'.next = p.next + r.layout.setSize abi)
      | .error _ => p' = p
  := by
  have large := r.layout.eight_le_setSize abi
  unfold DescriptorPool.create at eq
  dsimp only at eq
  split at eq
  case h_1 e placed =>
    obtain ⟨rfl, rfl⟩ := Prod.mk.inj (Option.some.inj eq)
    exact ⟨⟨l, good, id⟩, offered.drop, rfl, rfl⟩
  case h_2 index q placed =>
    obtain ⟨⟨states, q'⟩, taken, made⟩ := Option.map_eq_some_iff.1 eq
    obtain ⟨rfl, rfl⟩ := Prod.mk.inj made
    obtain ⟨ne, live, size, stream, l', inv, uniform⟩ := good.inv.place large placed
    obtain ⟨inv, uniform'⟩ := inv.overwrite index
      (index + r.layout.setSize abi)
      (List.mem_cons.2 (.inl (by push_cast; rfl))) (by omega) r.values
    rw [← stream] at offered
    obtain ⟨inv, offered', live', next, data, size'⟩ := inv.takeStates [] offered taken
    dsimp only at live' next data size'
    rw [live] at live'
    refine ⟨⟨l', ⟨?_, ?_, ?_⟩, ?_⟩, offered', size'.trans size, ?_, ?_⟩
    · dsimp only
      rw [live', List.map_cons, List.flatMap_cons]
      exact { inv with }
    · intro set mem
      dsimp only at mem
      rw [live'] at mem
      rcases List.mem_cons.1 mem with rfl | mem
      · exact large
      · exact good.live_size set mem
    · intro set mem
      dsimp only at mem
      rw [live'] at mem
      rcases List.mem_cons.1 mem with rfl | mem
      · exact ne
      · exact good.live_ne set mem
    · intro all
      obtain ⟨free, count⟩ := uniform' _ _ (uniform _ all.2)
      constructor
      · intro set mem
        dsimp only at mem
        rw [live'] at mem
        rcases List.mem_cons.1 mem with rfl | mem
        · rfl
        · exact all.1 set mem
      · constructor
        · intro o ho
          dsimp only
          rw [data]
          exact free o ho
        · dsimp only
          rw [next, live', List.length_cons]
          exact count
    · dsimp only
      rw [live']
    · intro fits
      dsimp only
      rw [next]
      unfold DescriptorPool.place at placed
      rw [if_pos fits] at placed
      obtain ⟨rfl, rfl⟩ := Prod.mk.inj (Except.ok.inj placed)
      rfl

/-- The creation of a set returns if there are enough blocks. -/
theorem Good.create_isSome (abi : Abi) {r : Request} (more : List AnvState) (good : p.Good l)
    (offered : Offered p.stream (r.fresh ++ more))
    (enough : r.layout.bufferCount ≤ r.fresh.length) :
  ∃ result, p.create abi r = some result
  := by
  have large := r.layout.eight_le_setSize abi
  unfold DescriptorPool.create
  dsimp only
  split
  case h_1 e placed => exact ⟨_, rfl⟩
  case h_2 index q placed =>
    obtain ⟨-, -, -, stream, l', inv, -⟩ := good.inv.place large placed
    obtain ⟨inv, -⟩ := inv.overwrite index (index + r.layout.setSize abi)
      (List.mem_cons.2 (.inl (by push_cast; rfl))) (by omega) r.values
    rw [← stream] at offered
    obtain ⟨⟨states, q'⟩, taken⟩ := inv.takeStates_isSome abi [] offered enough
    rw [taken]
    exact ⟨_, rfl⟩

/-- A set is not created only if there is no place for it. -/
theorem place_of_create_error {abi : Abi} {r : Request} {e : PoolError}
    (eq : p.create abi r = some (.error e, p')) :
  p.place (r.layout.setSize abi) = .error e
  := by
  unfold DescriptorPool.create at eq
  dsimp only at eq
  split at eq
  case h_1 e' placed =>
    obtain ⟨same, -⟩ := Prod.mk.inj (Option.some.inj eq)
    rw [placed, Except.error.inj same]
  case h_2 index q placed =>
    obtain ⟨⟨states, q'⟩, -, made⟩ := Option.map_eq_some_iff.1 eq
    cases (Prod.mk.inj made).1

/-- A live set is destroyed. -/
theorem Good.destroy {set : DescriptorSet} (good : p.Good l) (mem : set ∈ p.live) :
  ∃ l', (p.destroy set).Good l' ∧ ∀ n, p.AllOf n l → (p.destroy set).AllOf n l'
  := by
  have perm := List.perm_cons_erase mem
  have nonempty := good.range_nonempty mem
  have eight := good.live_size set mem
  have live_mem : ∀ other ∈ p.live.erase set, other ∈ p.live := fun _ => List.mem_of_mem_erase
  have bytes : ∀ z, Range.total ((p.live.erase set).map DescriptorSet.range) z
      + set.range.covers z + Range.total (l.map p.freeRange) z
      ≤ (⟨0, p.next⟩ : Range ℤ).covers z := by
    intro z
    have before := good.inv.bytes z
    rw [Range.total_perm (perm.map _), List.map_cons, Range.total_cons] at before
    omega
  have stream : StreamInv p.stream ((p.live.erase set).flatMap DescriptorSet.states
      ++ (set.states.reverse ++ p.surfaceStateFreeList)) := by
    apply good.inv.stream.perm
    rw [← List.append_assoc]
    apply List.Perm.append_right
    apply (List.Perm.flatMap_right _ perm).trans
    rw [List.flatMap_cons]
    apply List.perm_append_comm.trans
    apply List.Perm.append_left
    exact set.states.reverse_perm.symm
  have count : p.live.length = (p.live.erase set).length + 1 := perm.length_eq
  unfold DescriptorPool.destroy
  dsimp only
  split
  case isTrue top =>
    refine ⟨l, ⟨?_, ?_, ?_⟩, ?_⟩
    · have le := good.inv.next_le
      refine { good.inv with next_le := ?_, next_ne := good.live_ne set mem, bytes := ?_,
                             stream := stream }
      · dsimp only
        omega
      · intro z
        have before := bytes z
        have cut := Range.covers_cut (a := (0 : ℤ)) (b := set.index) (c := p.next) (by omega)
          (by omega) z
        have last : set.range = ⟨set.index, p.next⟩ := by
          unfold DescriptorSet.range
          rw [← top]
          push_cast
          rfl
        rw [last] at before
        have same : ({ p with
            surfaceStateFreeList := set.states.reverse ++ p.surfaceStateFreeList
            live := p.live.erase set
            next := set.index } : DescriptorPool).freeRange = p.freeRange := rfl
        rw [same]
        dsimp only
        omega
    · exact fun other mem => good.live_size other (live_mem other mem)
    · exact fun other mem => good.live_ne other (live_mem other mem)
    · intro n all
      refine ⟨fun other mem => all.1 other (live_mem other mem), all.2.1, ?_⟩
      have next := all.2.2
      rw [count] at next
      have size := all.1 set mem
      dsimp only
      have split : ((p.live.erase set).length + 1 + l.length) * n
          = ((p.live.erase set).length + l.length) * n + n := by
        ring
      omega
  case isFalse =>
    have away : ∀ o ∈ l, o ≠ set.index := by
      intro o ho eq
      have apart := good.inv.apart_free (List.mem_map_of_mem mem) nonempty ho
      have size := good.inv.free_size o ho
      unfold Range.Apart freeRange DescriptorSet.range at apart
      dsimp only at apart
      omega
    have same : ∀ o ∈ l, Function.update p.data set.index ⟨p.freeList, set.size⟩ o = p.data o :=
      fun o ho => Function.update_of_ne (away o ho) _ _
    refine ⟨set.index :: l, ⟨?_, ?_, ?_⟩, ?_⟩
    · refine { good.inv with chain := ?_, free_size := ?_, bytes := ?_, stream := stream }
      · refine ⟨rfl, good.live_ne set mem, ?_⟩
        dsimp only
        rw [Function.update_self]
        apply good.inv.chain.congr
        intro o ho
        rw [same o ho]
      · intro o ho
        dsimp only
        rcases List.mem_cons.1 ho with rfl | ho
        · rw [Function.update_self]
          exact eight
        · rw [same o ho]
          exact good.inv.free_size o ho
      · intro z
        have before := bytes z
        have ranges : l.map ({ p with
            surfaceStateFreeList := set.states.reverse ++ p.surfaceStateFreeList
            live := p.live.erase set
            data := Function.update p.data set.index ⟨p.freeList, set.size⟩
            freeList := set.index } : DescriptorPool).freeRange = l.map p.freeRange := by
          apply List.map_congr_left
          intro o ho
          rw [freeRange, freeRange]
          dsimp only
          rw [same o ho]
        rw [List.map_cons, Range.total_cons, ranges]
        rw [freeRange]
        dsimp only
        rw [Function.update_self]
        unfold DescriptorSet.range at before
        unfold DescriptorSet.range
        dsimp only
        omega
    · exact fun other mem => good.live_size other (live_mem other mem)
    · exact fun other mem => good.live_ne other (live_mem other mem)
    · intro n all
      refine ⟨fun other mem => all.1 other (live_mem other mem), ?_, ?_⟩
      · intro o ho
        dsimp only
        rcases List.mem_cons.1 ho with rfl | ho
        · rw [Function.update_self]
          exact all.1 set mem
        · rw [same o ho]
          exact all.2.1 o ho
      · dsimp only
        rw [all.2.2, count, List.length_cons]
        ring

/-- Destroying a set changes neither the size of the pool nor its stream. -/
theorem destroy_frame (p : DescriptorPool) (set : DescriptorSet) :
  (p.destroy set).live = p.live.erase set ∧ (p.destroy set).size = p.size
    ∧ (p.destroy set).stream = p.stream
  := by
  unfold DescriptorPool.destroy
  dsimp only
  split <;> exact ⟨rfl, rfl, rfl⟩

/-- Live sets are destroyed, each once. -/
theorem Good.freeDescriptorSets {sets : List DescriptorSet} (good : p.Good l) (nodup : sets.Nodup)
    (live : ∀ set ∈ sets, set ∈ p.live) :
  (∃ l', (p.freeDescriptorSets sets).Good l'
      ∧ ∀ n, p.AllOf n l → (p.freeDescriptorSets sets).AllOf n l')
    ∧ (p.freeDescriptorSets sets).size = p.size
  := by
  induction sets generalizing p l with
  | nil => exact ⟨⟨l, good, fun _ => id⟩, rfl⟩
  | cons set sets ih =>
    obtain ⟨notMem, nodup⟩ := List.nodup_cons.1 nodup
    obtain ⟨l₁, good₁, all₁⟩ := good.destroy (live set List.mem_cons_self)
    obtain ⟨live₁, size₁, -⟩ := p.destroy_frame set
    have later : ∀ other ∈ sets, other ∈ (p.destroy set).live := by
      intro other mem
      rw [live₁]
      apply (List.mem_erase_of_ne _).2 (live other (List.mem_cons_of_mem _ mem))
      rintro rfl
      exact notMem mem
    obtain ⟨⟨l₂, good₂, all₂⟩, size₂⟩ := ih good₁ nodup later
    exact ⟨⟨l₂, good₂, fun n all => all₂ n (all₁ n all)⟩, size₂.trans size₁⟩

/-- All requests are for sets of one size. -/
def SizeIs (abi : Abi) (n : ℕ) (requests : List Request) : Prop :=
  ∀ r ∈ requests, r.layout.setSize abi = n

/-- Sets are created one after the other; those of this call are live. -/
theorem Good.allocateLoop {abi : Abi} {requests : List Request} {sets sets' : List DescriptorSet}
    {success : Bool} (good : p.Good l) (offered : Offered p.stream (offers requests))
    (nodup : sets.Nodup) (live : ∀ set ∈ sets, set ∈ p.live)
    (eq : allocateLoop abi sets requests p = some (success, sets', p')) :
  (∃ l', p'.Good l' ∧ ∀ n, SizeIs abi n requests → p.AllOf n l → p'.AllOf n l')
    ∧ p'.size = p.size ∧ sets'.Nodup ∧ ∀ set ∈ sets', set ∈ p'.live
  := by
  induction requests generalizing p l sets with
  | nil =>
    obtain ⟨rfl, rfl, rfl⟩ : true = success ∧ sets = sets' ∧ p = p' := by
      simpa [DescriptorPool.allocateLoop] using eq
    exact ⟨⟨l, good, fun _ _ => id⟩, rfl, nodup, live⟩
  | cons r rest ih =>
    rw [DescriptorPool.allocateLoop] at eq
    split at eq
    case h_1 => cases eq
    case h_2 set q created =>
      obtain ⟨⟨l₁, good₁, all₁⟩, offered₁, size₁, live₁, -⟩ := good.create offered created
      have nodup₁ := good₁.nodup
      rw [live₁] at nodup₁
      have new : set ∉ p.live := (List.nodup_cons.1 nodup₁).1
      have nodup' : (sets ++ [set]).Nodup := by
        rw [List.nodup_append_comm]
        apply List.nodup_cons.2 ⟨_, nodup⟩
        exact fun mem => new (live set mem)
      have live' : ∀ other ∈ sets ++ [set], other ∈ q.live := by
        intro other mem
        rw [live₁]
        rcases List.mem_append.1 mem with mem | mem
        · exact List.mem_cons_of_mem _ (live other mem)
        · obtain rfl := List.mem_singleton.1 mem
          exact List.mem_cons_self
      obtain ⟨⟨l₂, good₂, all₂⟩, size₂, rest₂⟩ := ih good₁ offered₁ nodup' live' eq
      refine ⟨⟨l₂, good₂, ?_⟩, size₂.trans size₁, rest₂⟩
      intro n sizes all
      apply all₂ n fun other mem => sizes other (List.mem_cons_of_mem _ mem)
      obtain rfl := sizes r List.mem_cons_self
      exact all₁ all
    case h_3 e q created =>
      obtain ⟨-, -, -, same⟩ := good.create offered created
      obtain ⟨rfl, rfl, rfl⟩ : false = success ∧ sets = sets' ∧ q = p' := by simpa using eq
      dsimp only at same
      rw [same]
      exact ⟨⟨l, good, fun _ _ => id⟩, rfl, nodup, live⟩

/-- The bytes of the sets of some requests. -/
def requested (abi : Abi) (requests : List Request) : ℕ :=
  (requests.map fun r => r.layout.setSize abi).sum

/-- There is room for some sets: behind all others, or since all sets are of one size. -/
def Room (abi : Abi) (p : DescriptorPool) (l : List ℕ) (requests : List Request) : Prop :=
  requested abi requests ≤ p.size - p.next
    ∨ ∃ n, SizeIs abi n requests ∧ p.AllOf n l ∧ p.live.length + requests.length ≤ p.size / n

/-- If there is room for some sets, there is a place for the first one. -/
theorem Good.place_of_room {abi : Abi} {r : Request} {rest : List Request} {e : PoolError}
    (good : p.Good l) (room : p.Room abi l (r :: rest)) :
  p.place (r.layout.setSize abi) ≠ .error e
  := by
  intro error
  obtain ⟨full, small⟩ := good.inv.place_error error
  obtain total | ⟨n, sizes, all, fewer⟩ := room
  · unfold requested at total
    rw [List.map_cons, List.sum_cons] at total
    omega
  · have eq := sizes r List.mem_cons_self
    rw [eq] at full small
    -- a piece of the free list would be large enough
    have none : l = [] := by
      apply List.eq_nil_iff_forall_not_mem.2
      intro o ho
      have lt := small o ho
      rw [all.2.1 o ho] at lt
      exact Nat.lt_irrefl n lt
    have count := all.2.2
    rw [none, List.length_nil, Nat.add_zero] at count
    have room : (p.live.length + (rest.length + 1)) * n ≤ p.size :=
      (Nat.mul_le_mul_right n fewer).trans (Nat.div_mul_le_self p.size n)
    have split : (p.live.length + (rest.length + 1)) * n
        = p.live.length * n + rest.length * n + n := by
      ring
    omega

/-- If there is room for the sets of a call, the call does not fail. -/
theorem Good.allocateLoop_of_room {abi : Abi} {requests : List Request}
    {sets sets' : List DescriptorSet} {success : Bool} (good : p.Good l)
    (offered : Offered p.stream (offers requests)) (room : p.Room abi l requests)
    (eq : DescriptorPool.allocateLoop abi sets requests p = some (success, sets', p')) :
  success = true
    ∧ (requested abi requests ≤ p.size - p.next → p'.next = p.next + requested abi requests)
  := by
  induction requests generalizing p l sets with
  | nil =>
    obtain ⟨rfl, rfl, rfl⟩ : true = success ∧ sets = sets' ∧ p = p' := by
      simpa [DescriptorPool.allocateLoop] using eq
    exact ⟨rfl, fun _ => rfl⟩
  | cons r rest ih =>
    rw [DescriptorPool.allocateLoop] at eq
    split at eq
    case h_1 => cases eq
    case h_2 set q created =>
      obtain ⟨⟨l₁, good₁, all₁⟩, offered₁, size₁, live₁, next₁⟩ := good.create offered created
      have total : requested abi (r :: rest) = r.layout.setSize abi + requested abi rest := rfl
      have room₁ : q.Room abi l₁ rest := by
        obtain fits | ⟨n, sizes, all, fewer⟩ := room
        · left
          have next := next₁ (by omega)
          omega
        · right
          obtain rfl := sizes r List.mem_cons_self
          refine ⟨_, fun other mem => sizes other (List.mem_cons_of_mem _ mem), all₁ all, ?_⟩
          rw [live₁, size₁, List.length_cons]
          rw [List.length_cons] at fewer
          omega
      obtain ⟨success, next⟩ := ih good₁ offered₁ room₁ eq
      refine ⟨success, ?_⟩
      intro fits
      have first := next₁ (by omega)
      rw [next (by omega)]
      omega
    case h_3 e q created =>
      exact absurd (place_of_create_error created) (good.place_of_room room)

/-- A call returns if there are enough blocks. -/
theorem Good.allocateLoop_isSome (abi : Abi) {requests : List Request} (sets : List DescriptorSet)
    (good : p.Good l) (offered : Offered p.stream (offers requests))
    (enough : ∀ r ∈ requests, r.layout.bufferCount ≤ r.fresh.length) :
  ∃ result, DescriptorPool.allocateLoop abi sets requests p = some result
  := by
  induction requests generalizing p l sets with
  | nil => exact ⟨_, rfl⟩
  | cons r rest ih =>
    rw [DescriptorPool.allocateLoop]
    obtain ⟨⟨result, q⟩, created⟩ :=
      good.create_isSome abi (offers rest) offered (enough r List.mem_cons_self)
    rw [created]
    obtain ⟨⟨l₁, good₁, -⟩, offered₁, -⟩ := good.create offered created
    cases result with
    | error e => exact ⟨_, rfl⟩
    | ok set =>
      exact ih _ good₁ offered₁ fun other mem => enough other (List.mem_cons_of_mem _ mem)

/-- A call succeeds if there is room for its sets and there are enough blocks. -/
theorem Good.allocate_of_room {abi : Abi} {requests : List Request} (good : p.Good l)
    (offered : Offered p.stream (offers requests))
    (enough : ∀ r ∈ requests, r.layout.bufferCount ≤ r.fresh.length)
    (room : p.Room abi l requests) :
  ∃ p', p.allocateDescriptorSets abi requests = some (true, p')
  := by
  obtain ⟨⟨success, sets, p'⟩, looped⟩ :=
    good.allocateLoop_isSome abi [] offered enough
  obtain ⟨rfl, -⟩ := good.allocateLoop_of_room offered room looped
  unfold DescriptorPool.allocateDescriptorSets
  rw [looped]
  exact ⟨p', rfl⟩

theorem good_resetDescriptorPool (p : DescriptorPool) :
  p.resetDescriptorPool.Good [] ∧ ∀ n, p.resetDescriptorPool.AllOf n []
  := by
  constructor
  · refine ⟨⟨Nat.zero_le _, Nat.zero_ne_one, rfl, ?_, ?_, streamInv_init⟩, ?_, ?_⟩
    · intro o mem
      cases mem
    · intro z
      exact Nat.zero_le _
    · intro set mem
      cases mem
    · intro set mem
      cases mem
  · intro n
    refine ⟨?_, ?_, ?_⟩
    · intro set mem
      cases mem
    · intro o mem
      cases mem
    · exact (Nat.zero_mul n).symm

end DescriptorPool

/-! ### Histories -/

/-- All requests of a step are for sets of one size. -/
def SetAction.SizeIs (abi : Abi) (n : ℕ) : SetAction → Prop
  | .allocate requests => DescriptorPool.SizeIs abi n requests
  | _ => True

/-- One step keeps what holds of a pool. -/
theorem DescriptorPool.Good.step {abi : Abi} {p p' : DescriptorPool} {l : List ℕ} {a : SetAction}
    (good : p.Good l) (stepped : setStep abi p a = some p') :
  (∃ l', p'.Good l' ∧ ∀ n, a.SizeIs abi n → p.AllOf n l → p'.AllOf n l') ∧ p'.size = p.size
  := by
  cases a with
  | allocate requests =>
    rw [setStep] at stepped
    split at stepped
    case isFalse => cases stepped
    case isTrue offered =>
      obtain ⟨⟨success, q⟩, allocated, rfl⟩ := Option.map_eq_some_iff.1 stepped
      unfold allocateDescriptorSets at allocated
      split at allocated
      case h_1 => cases allocated
      case h_2 sets q' looped =>
        obtain ⟨rfl, rfl⟩ := Prod.mk.inj (Option.some.inj allocated)
        obtain ⟨good', size, -⟩ := good.allocateLoop offered .nil (by simp) looped
        exact ⟨good', size⟩
      case h_3 sets q' looped =>
        obtain ⟨rfl, rfl⟩ := Prod.mk.inj (Option.some.inj allocated)
        obtain ⟨⟨l₁, good₁, all₁⟩, size₁, nodup, live⟩ :=
          good.allocateLoop offered .nil (by simp) looped
        obtain ⟨⟨l₂, good₂, all₂⟩, size₂⟩ := good₁.freeDescriptorSets nodup live
        exact ⟨⟨l₂, good₂, fun n sizes all => all₂ n (all₁ n sizes all)⟩, size₂.trans size₁⟩
  | free sets =>
    rw [setStep] at stepped
    split at stepped
    case isFalse => cases stepped
    case isTrue allowed =>
      obtain rfl := Option.some.inj stepped
      obtain ⟨⟨l', good', all⟩, size⟩ := good.freeDescriptorSets allowed.1 allowed.2
      exact ⟨⟨l', good', fun n _ => all n⟩, size⟩
  | reset =>
    obtain rfl := Option.some.inj stepped
    obtain ⟨good', all⟩ := p.good_resetDescriptorPool
    exact ⟨⟨[], good', fun n _ _ => all n⟩, rfl⟩
  | write set values =>
    rw [setStep] at stepped
    split at stepped
    case isFalse => cases stepped
    case isTrue mem =>
      obtain rfl := Option.some.inj stepped
      have eight := good.live_size set mem
      obtain ⟨inv, uniform⟩ := good.inv.overwrite set.index
        (set.index + set.size) (List.mem_map.2 ⟨set, mem, by push_cast; rfl⟩) (by omega)
        values
      refine ⟨⟨l, ⟨inv, good.live_size, good.live_ne⟩, ?_⟩, rfl⟩
      intro n _ all
      exact ⟨all.1, uniform n _ all.2⟩

/-- Whether a step frees sets. -/
def SetAction.frees : SetAction → Bool
  | .free _ | .reset => true
  | .allocate _ | .write _ _ => false

/-- The bytes of the sets that are requested by a step. -/
def SetAction.requested (abi : Abi) : SetAction → ℕ
  | .allocate requests => DescriptorPool.requested abi requests
  | _ => 0

/-- Without frees, one set is put behind the other. -/
theorem DescriptorPool.Good.next_of_run {abi : Abi} {p p' : DescriptorPool} {l : List ℕ}
    {as : List SetAction} (good : p.Good l) (noFrees : ∀ a ∈ as, a.frees = false)
    (fits : (as.map fun a => a.requested abi).sum ≤ p.size - p.next)
    (ran : Flow.runActions (setStep abi) p as = some p') :
  (∃ l', p'.Good l') ∧ p'.size = p.size
    ∧ p'.next = p.next + (as.map fun a => a.requested abi).sum
  := by
  induction as generalizing p l with
  | nil =>
    obtain rfl := Option.some.inj ran
    exact ⟨⟨l, good⟩, rfl, rfl⟩
  | cons a as ih =>
    obtain ⟨q, stepped, rest⟩ := Option.bind_eq_some_iff.1 ran
    obtain ⟨⟨l₁, good₁, -⟩, size₁⟩ := good.step stepped
    rw [List.map_cons, List.sum_cons] at fits ⊢
    have next₁ : q.next = p.next + a.requested abi := by
      cases a with
      | free sets => cases noFrees _ List.mem_cons_self
      | reset => cases noFrees _ List.mem_cons_self
      | write set values =>
        rw [setStep] at stepped
        split at stepped
        case isFalse => cases stepped
        case isTrue => rw [← Option.some.inj stepped]; rfl
      | allocate requests =>
        rw [setStep] at stepped
        split at stepped
        case isFalse => cases stepped
        case isTrue offered =>
          obtain ⟨⟨success, q'⟩, allocated, rfl⟩ := Option.map_eq_some_iff.1 stepped
          have small : DescriptorPool.requested abi requests ≤ p.size - p.next :=
            (Nat.le_add_right _ _).trans fits
          unfold allocateDescriptorSets at allocated
          split at allocated
          case h_1 => cases allocated
          case h_2 sets q'' looped =>
            obtain ⟨rfl, rfl⟩ := Prod.mk.inj (Option.some.inj allocated)
            exact (good.allocateLoop_of_room offered (.inl small) looped).2 small
          case h_3 sets q'' looped =>
            cases (good.allocateLoop_of_room offered (.inl small) looped).1
    obtain ⟨good', size, next⟩ :=
      ih good₁ (fun b mem => noFrees b (List.mem_cons_of_mem _ mem)) (by omega) rest
    exact ⟨good', size.trans size₁, by omega⟩

/-- All sets that are requested by a step are of one layout. -/
def SetAction.OfLayout (layout : SetLayout) : SetAction → Prop
  | .allocate requests => ∀ r ∈ requests, r.layout = layout
  | _ => True

/-- With sets of one layout, all pieces are of one size. -/
theorem DescriptorPool.Good.allOf_of_run {abi : Abi} {p p' : DescriptorPool} {l : List ℕ}
    {as : List SetAction} {layout : SetLayout} (good : p.Good l)
    (all : p.AllOf (layout.setSize abi) l) (ofLayout : ∀ a ∈ as, a.OfLayout layout)
    (ran : Flow.runActions (setStep abi) p as = some p') :
  ∃ l', p'.Good l' ∧ p'.AllOf (layout.setSize abi) l' ∧ p'.size = p.size
  := by
  induction as generalizing p l with
  | nil =>
    obtain rfl := Option.some.inj ran
    exact ⟨l, good, all, rfl⟩
  | cons a as ih =>
    obtain ⟨q, stepped, rest⟩ := Option.bind_eq_some_iff.1 ran
    obtain ⟨⟨l₁, good₁, all₁⟩, size₁⟩ := good.step stepped
    have sizes : a.SizeIs abi (layout.setSize abi) := by
      have here := ofLayout a List.mem_cons_self
      cases a with
      | allocate requests =>
        intro r mem
        rw [here r mem]
      | free sets => trivial
      | reset => trivial
      | write set values => trivial
    obtain ⟨l', good', all', size⟩ := ih good₁ (all₁ _ sizes all)
      (fun b mem => ofLayout b (List.mem_cons_of_mem _ mem)) rest
    exact ⟨l', good', all', size.trans size₁⟩

/-- The sets of a pool and its free list do not overlap, and no surface state belongs to two sets. -/
structure DescriptorPool.Sound (p : DescriptorPool) : Prop where
  apart : p.live.Pairwise fun a b => a.range.Apart b.range
  within : ∀ set ∈ p.live, set.range.Within ⟨0, p.size⟩
  free : ∃ l, Chain (fun o => (p.data o).next) poolEmpty p.freeList l
    ∧ ∀ o ∈ l, (p.freeRange o).Within ⟨0, p.next⟩ ∧ ∀ set ∈ p.live, set.range.Apart (p.freeRange o)
  states : (p.live.flatMap DescriptorSet.states).Pairwise fun a b => a.range.Apart b.range

theorem DescriptorPool.Good.sound {p : DescriptorPool} {l : List ℕ} (good : p.Good l) :
  p.Sound
  where
  apart := good.apart
  within set mem := by
    have le := good.inv.next_le
    have within : set.range.Within ⟨0, p.next⟩ := by
      apply Range.within_of_covers (good.range_nonempty mem)
      intro z
      have bytes := good.inv.bytes z
      have covers := Range.covers_le_total (List.mem_map_of_mem (f := DescriptorSet.range) mem) z
      omega
    apply within.trans
    constructor
    · exact le_refl _
    · exact Int.ofNat_le.2 le
  free := by
    refine ⟨l, good.inv.chain, ?_⟩
    intro o ho
    constructor
    · have within := good.inv.free_within ho
      constructor
      · exact Int.natCast_nonneg o
      · unfold DescriptorPool.freeRange
        dsimp only
        omega
    · intro set mem
      exact good.inv.apart_free (List.mem_map_of_mem mem) (good.range_nonempty mem) ho
  states := (List.pairwise_append.1 good.inv.stream.apart).1

/-- The state pool has enough blocks to offer for the surface states of some sets. -/
def Supplied (p : DescriptorPool) (requests : List DescriptorPool.Request) : Prop :=
  Offered p.stream (offers requests) ∧ ∀ r ∈ requests, r.layout.bufferCount ≤ r.fresh.length

/-- The sizes on a machine of 64 bits. -/
def abi64 : Abi where
  set := 24
  descriptor := 24
  bufferView := 48
  streamBlock := 24
  eight_le := by decide
  header_le := by decide

/-- A layout with one buffer. -/
def oneBuffer : SetLayout := ⟨1, 1, by decide, by decide⟩

/-- A request for a set with one buffer, with a block at an offset. -/
def oneBufferAt (offset : ℤ) : DescriptorPool.Request where
  layout := oneBuffer
  values _ := ⟨0, 0⟩
  fresh := [⟨offset, 4096⟩]

/-- Two sets are allocated, the first is freed, and its place and its surface state are used
again. -/
def refilling : List SetAction :=
  [.allocate [oneBufferAt 0, oneBufferAt 4096], .free [⟨0, 96, [⟨64, 64⟩]⟩],
    .allocate [oneBufferAt 8192]]

end Anv
