import Mathlib.Data.List.Induction
import Mesa.Radv.DescriptorSet

/-!
# The sets of a pool do not overlap

The list of sets knows which memory is in use, the current offset only knows where it was put last.
The two agree as long as no set lies behind the current offset when the next one is put there, and
the gaps begin at multiples of 32 as long as the sets before them have such sizes.  Under these
conditions every history of allocations, frees and resets keeps the sets apart.
-/

namespace Radv

namespace DescriptorSet

def finish (set : DescriptorSet) : ℕ := set.start + set.size

end DescriptorSet

/-! ### What is asked of a pool -/

/-- The live sets are apart, in the buffer and aligned, and `vram_list` lists those that have memory
in the order of their addresses. -/
structure Sound (s : State) : Prop where
  apart : s.live.Pairwise fun a b => a.range.Apart b.range
  inside : ∀ set ∈ s.live, set.range.Within ⟨0, s.pool.size⟩
  aligned : ∀ set ∈ s.live, 32 ∣ set.start
  listed : ∀ set, set ∈ s.pool.vramList ↔ set ∈ s.live ∧ set.size ≠ 0
  sorted : s.pool.vramList.Pairwise fun a b => a.start < b.start

/-- The end of the last set of a list. -/
def endOf (sets : List DescriptorSet) : ℕ := sets.getLast?.elim 0 DescriptorSet.finish

/-- The room before the set of the given index, or behind the last set. -/
def Pool.gap (pool : Pool) (i : ℕ) : ℕ :=
  (pool.vramList.drop i).head?.elim pool.size DescriptorSet.start - endOf (pool.vramList.take i)

/-- A set that needs memory can be created: its size does not wrap when it is rounded; when it is put at the current
offset, no set lies behind that; and when it is put into a gap, the set before the first one that is
wide enough has a size that is a multiple of 32. -/
def CarefulCreate (pool : Pool) (layout : Layout) : Prop :=
  layout.size ≠ 0 →
    layout.size ≤ 2 ^ 32 - 32
      ∧ if pool.currentOffset + alignU32 layout.size 32 ≤ pool.size then
          ∀ set ∈ pool.vramList, set.finish ≤ pool.currentOffset
        else
          pool.host.isNone → ∀ i < pool.vramList.length + 1,
            (∀ j < i, pool.gap j < alignU32 layout.size 32) →
            alignU32 layout.size 32 ≤ pool.gap i →
            ∀ set ∈ (pool.vramList.take i).getLast?, 32 ∣ set.size

instance (pool : Pool) (layout : Layout) : Decidable (CarefulCreate pool layout) := by
  unfold CarefulCreate
  infer_instance

/-- The sets of a call can be created, one after the other. -/
def CarefulAll (s : State) : List (Layout × Bool) → Prop
  | [] => True
  | (layout, memory) :: rest =>
    CarefulCreate s.pool layout ∧ CarefulAll (s.create layout memory).2 rest

instance decidableCarefulAll (s : State) :
    (layouts : List (Layout × Bool)) → Decidable (CarefulAll s layouts)
  | [] => .isTrue trivial
  | (layout, memory) :: rest =>
    have := decidableCarefulAll (s.create layout memory).2 rest
    inferInstanceAs (Decidable (_ ∧ _))

/-- The condition on a step. -/
def Careful (s : State) : Action → Prop
  | .allocate layouts => CarefulAll s layouts
  | .free _ => True
  | .reset => True

instance (s : State) (a : Action) : Decidable (Careful s a) := by
  cases a with
  | allocate layouts => exact decidableCarefulAll s layouts
  | free sets => exact .isTrue trivial
  | reset => exact .isTrue trivial

/-! ### Gaps -/

/-- A rounded size is at least the size, and a multiple of 32. -/
theorem alignU32_spec {v : ℕ} (small : v ≤ 2 ^ 32 - 32) :
  v ≤ alignU32 v 32 ∧ 32 ∣ alignU32 v 32 ∧ alignU32 v 32 < 2 ^ 32
  := by
  unfold alignU32
  omega

/-- The sets lie one after the other, each of them in the buffer. -/
structure InOrder (size : ℕ) (sets : List DescriptorSet) : Prop where
  sorted : sets.Pairwise fun a b => a.finish ≤ b.start
  inside : ∀ set ∈ sets, set.finish ≤ size

/-- Without overlaps a set of a list ends before the end of the list. -/
theorem finish_le_endOf {sets : List DescriptorSet}
    (sorted : sets.Pairwise fun a b => a.finish ≤ b.start) {set : DescriptorSet}
    (mem : set ∈ sets) :
  set.finish ≤ endOf sets
  := by
  induction sets using List.reverseRecOn with
  | nil => cases mem
  | append_singleton sets last _ =>
    rw [endOf, List.getLast?_concat, Option.elim_some]
    rcases List.mem_append.1 mem with mem | mem
    · have before := (List.pairwise_append.1 sorted).2.2 set mem last (List.mem_singleton_self _)
      apply before.trans
      exact Nat.le_add_right _ _
    · rw [List.mem_singleton.1 mem]

/-- What the loop over the list finds: the first gap that is wide enough, if there is any, and else
the end of the list. -/
theorem findGap_spec {n size : ℕ} (small : size < 2 ^ 64) {done rest : List DescriptorSet}
    (inOrder : InOrder size (done ++ rest)) {before after : List DescriptorSet} {offset : ℕ}
    (found : findGap n (endOf done) rest = (before, offset, after)) :
  rest = before ++ after ∧ offset = endOf (done ++ before)
    ∧ (∀ i < before.length,
        ((rest.drop i).head?.elim size DescriptorSet.start - endOf (done ++ rest.take i)) < n)
    ∧ ∀ set ∈ after.head?, n ≤ set.start - offset
  := by
  induction rest generalizing done before with
  | nil =>
    obtain ⟨rfl, rfl, rfl⟩ : before = [] ∧ offset = endOf done ∧ after = [] := by
      simpa [findGap, eq_comm] using found
    simp
  | cons cur rest ih =>
    have ordered : endOf done ≤ cur.start := by
      unfold endOf
      cases last : done.getLast? with
      | none => exact Nat.zero_le _
      | some set =>
        exact (List.pairwise_append.1 inOrder.sorted).2.2 set (List.mem_of_getLast? last) cur
          List.mem_cons_self
    have bound : cur.start < 2 ^ 64 := by
      have inside := inOrder.inside cur (List.mem_append_right _ List.mem_cons_self)
      unfold DescriptorSet.finish at inside
      omega
    have width : (cur.start + 2 ^ 64 - endOf done) % 2 ^ 64 = cur.start - endOf done := by
      omega
    rw [findGap, width] at found
    split at found
    case isTrue wide =>
      obtain ⟨rfl, rfl, rfl⟩ : before = [] ∧ offset = endOf done ∧ after = cur :: rest := by
        simpa [eq_comm] using found
      simp [wide]
    case isFalse narrow =>
      rcases inner : findGap n (cur.start + cur.size) rest with ⟨before', offset', after'⟩
      rw [inner] at found
      obtain ⟨rfl, rfl, rfl⟩ : before = cur :: before' ∧ offset' = offset ∧ after' = after := by
        simpa [eq_comm] using found
      have next : endOf (done ++ [cur]) = cur.start + cur.size := by
        simp [endOf, DescriptorSet.finish]
      rw [← next] at inner
      obtain ⟨rfl, place, narrow', wide⟩ := ih (by simpa using inOrder) inner
      refine ⟨rfl, by simpa using place, ?_, wide⟩
      intro i hi
      cases i with
      | zero => simpa using Nat.lt_of_not_le narrow
      | succ i => simpa using narrow' i (by simpa using hi)

/-! ### The invariant -/

/-- What holds between the operations. -/
structure Inv (s : State) : Prop where
  small : s.pool.size < 2 ^ 64
  inOrder : InOrder s.pool.size s.pool.vramList
  aligned : ∀ set ∈ s.pool.vramList, 32 ∣ set.start
  listed : s.pool.vramList.Perm (s.live.filter (·.size ≠ 0))
  empty : ∀ set ∈ s.live, set.size = 0 → set.start = 0
  nodup : s.live.Nodup
  fresh : ∀ set ∈ s.live, set.id < s.created
  offset : 32 ∣ s.pool.currentOffset

theorem Inv.mem_vramList {s : State} (inv : Inv s) (set : DescriptorSet) :
  set ∈ s.pool.vramList ↔ set ∈ s.live ∧ set.size ≠ 0
  := by
  rw [inv.listed.mem_iff, List.mem_filter, decide_eq_true_iff]

theorem inv_createDescriptorPool {size : ℕ} (small : size < 2 ^ 64) (hostSize : Option ℕ) :
  Inv (createDescriptorPool size hostSize)
  where
  small := small
  inOrder := ⟨.nil, fun _ mem => absurd mem List.not_mem_nil⟩
  aligned _ mem := absurd mem List.not_mem_nil
  listed := .nil
  empty _ mem := absurd mem List.not_mem_nil
  nodup := .nil
  fresh _ mem := absurd mem List.not_mem_nil
  offset := Nat.dvd_zero 32

/-- Nothing of the invariant is about the host memory. -/
theorem Inv.setHost {s : State} (inv : Inv s) (host : Option HostMemory) :
  Inv { s with pool := { s.pool with host := host } }
  := ⟨inv.small, inv.inOrder, inv.aligned, inv.listed, inv.empty, inv.nodup, inv.fresh, inv.offset⟩

/-- A new set is not one of the live sets. -/
theorem Inv.nodup_cons {s : State} (inv : Inv s) (start size : ℕ) :
  (⟨s.created, start, size⟩ :: s.live : List DescriptorSet).Nodup
  := by
  apply List.nodup_cons.2 ⟨_, inv.nodup⟩
  intro mem
  exact absurd (inv.fresh _ mem) (Nat.lt_irrefl _)

theorem Inv.fresh_cons {s : State} (inv : Inv s) {start size : ℕ} {set : DescriptorSet}
    (mem : set ∈ (⟨s.created, start, size⟩ :: s.live : List DescriptorSet)) :
  set.id < s.created + 1
  := by
  rcases List.mem_cons.1 mem with rfl | mem
  · exact Nat.lt_succ_self _
  · exact Nat.lt_succ_of_lt (inv.fresh set mem)

/-- A set between two parts of the list. -/
theorem InOrder.insert {size : ℕ} {before after : List DescriptorSet} {set : DescriptorSet}
    (inOrder : InOrder size (before ++ after)) (left : ∀ a ∈ before, a.finish ≤ set.start)
    (right : ∀ b ∈ after, set.finish ≤ b.start) (inside : set.finish ≤ size) :
  InOrder size (before ++ set :: after)
  := by
  obtain ⟨sorted₁, sorted₂, across⟩ := List.pairwise_append.1 inOrder.sorted
  constructor
  · apply List.pairwise_append.2 ⟨sorted₁, List.pairwise_cons.2 ⟨right, sorted₂⟩, _⟩
    intro a ha b hb
    rcases List.mem_cons.1 hb with rfl | hb
    · exact left a ha
    · exact across a ha b hb
  · intro a mem
    rcases List.mem_append.1 mem with mem | mem
    · exact inOrder.inside a (List.mem_append_left _ mem)
    · rcases List.mem_cons.1 mem with rfl | mem
      · exact inside
      · exact inOrder.inside a (List.mem_append_right _ mem)

/-- A set with memory is put between two parts of the list. -/
theorem Inv.addSet {s : State} (inv : Inv s) {before after : List DescriptorSet}
    (eq : s.pool.vramList = before ++ after) {start size offset : ℕ} (positive : size ≠ 0)
    (left : ∀ a ∈ before, a.finish ≤ start) (right : ∀ b ∈ after, start + size ≤ b.start)
    (inside : start + size ≤ s.pool.size) (aligned : 32 ∣ start) (offsetAligned : 32 ∣ offset) :
  Inv ⟨{ s.pool with
          vramList := before ++ ⟨s.created, start, size⟩ :: after, currentOffset := offset },
      s.created + 1, ⟨s.created, start, size⟩ :: s.live⟩
  where
  small := inv.small
  inOrder := by
    apply InOrder.insert _ left right inside
    rw [← eq]
    exact inv.inOrder
  aligned := by
    intro set mem
    have old : set ∈ before ++ after → 32 ∣ set.start := by
      rw [← eq]
      exact inv.aligned set
    rcases List.mem_append.1 mem with mem | mem
    · exact old (List.mem_append_left _ mem)
    · rcases List.mem_cons.1 mem with rfl | mem
      · exact aligned
      · exact old (List.mem_append_right _ mem)
  listed := by
    rw [List.filter_cons_of_pos (by simpa using positive)]
    apply List.perm_middle.trans
    apply List.Perm.cons
    rw [← eq]
    exact inv.listed
  empty := by
    intro set mem zero
    rcases List.mem_cons.1 mem with rfl | mem
    · exact absurd zero positive
    · exact inv.empty set mem zero
  nodup := inv.nodup_cons start size
  fresh _ mem := inv.fresh_cons mem
  offset := offsetAligned

/-- A set without memory. -/
theorem Inv.addEmpty {s : State} (inv : Inv s) :
  Inv ⟨s.pool, s.created + 1, ⟨s.created, 0, 0⟩ :: s.live⟩
  where
  small := inv.small
  inOrder := inv.inOrder
  aligned := inv.aligned
  listed := by
    rw [List.filter_cons_of_neg (by simp)]
    exact inv.listed
  empty := by
    intro set mem zero
    rcases List.mem_cons.1 mem with rfl | mem
    · rfl
    · exact inv.empty set mem zero
  nodup := inv.nodup_cons 0 0
  fresh _ mem := inv.fresh_cons mem
  offset := inv.offset

/-! ### Allocations -/

/-- A failed creation leaves the state alone, and a successful one adds a set to the live sets. -/
def Created (s : State) (result : Except Error DescriptorSet × State) : Prop :=
  Inv result.2 ∧ match result.1 with
    | .ok set => set.id = s.created ∧ result.2.live = set :: s.live
    | .error _ => result.2.live = s.live

theorem Inv.place {s : State} (inv : Inv s) {layout : Layout}
    (careful : CarefulCreate s.pool layout) :
  Created s (s.place layout)
  := by
  unfold State.place
  split
  case isTrue => exact ⟨inv.addEmpty, rfl, rfl⟩
  case isFalse positive =>
    obtain ⟨small, careful⟩ := careful positive
    obtain ⟨wide, multiple, -⟩ := alignU32_spec small
    dsimp only
    split
    case isTrue fits =>
      rw [if_pos fits] at careful
      refine ⟨?_, rfl, rfl⟩
      apply inv.addSet (List.append_nil _).symm positive careful
      · intro b mem
        cases mem
      · omega
      · exact inv.offset
      · exact Nat.dvd_add inv.offset multiple
    case isFalse full =>
      rw [if_neg full] at careful
      cases host : s.pool.host with
      | some h => exact ⟨inv, rfl⟩
      | none =>
        rcases found : findGap (alignU32 layout.size 32) 0 s.pool.vramList
          with ⟨before, offset, after⟩
        dsimp only
        have inOrder : InOrder s.pool.size ([] ++ s.pool.vramList) := inv.inOrder
        obtain ⟨eq, place, narrow, room⟩ := findGap_spec inv.small inOrder found
        rw [List.nil_append] at place
        have sortedBefore : before.Pairwise fun a b => a.finish ≤ b.start := by
          have sorted := inv.inOrder.sorted
          rw [eq] at sorted
          exact (List.pairwise_append.1 sorted).1
        have left : ∀ a ∈ before, a.finish ≤ offset := by
          intro a mem
          rw [place]
          exact finish_le_endOf sortedBefore mem
        have bound : offset ≤ s.pool.size := by
          rw [place, endOf]
          cases last : before.getLast? with
          | none => exact Nat.zero_le _
          | some set =>
            apply inv.inOrder.inside set
            rw [eq]
            exact List.mem_append_left _ (List.mem_of_getLast? last)
        have width : (s.pool.size + 2 ^ 64 - offset) % 2 ^ 64 = s.pool.size - offset := by
          have := inv.small
          omega
        rw [width]
        split
        case isTrue => exact ⟨inv, rfl⟩
        case isFalse enough =>
          have right : ∀ b ∈ after, offset + layout.size ≤ b.start := by
            intro b mem
            cases after with
            | nil => cases mem
            | cons next after =>
              have first := room next rfl
              rcases List.mem_cons.1 mem with rfl | mem
              · omega
              · have sorted := inv.inOrder.sorted
                rw [eq] at sorted
                have later := (List.pairwise_cons.1 (List.pairwise_append.1 sorted).2.1).1 b mem
                unfold DescriptorSet.finish at later
                omega
          -- the gap is the first that is wide enough, so the condition is about the set before it
          have aligned : 32 ∣ offset := by
            have here : s.pool.vramList.take before.length = before := by
              rw [eq, List.take_left]
            have behind : s.pool.vramList.drop before.length = after := by
              rw [eq, List.drop_left]
            have even := careful (by rw [host]; rfl) before.length
              (by rw [eq, List.length_append]; omega) (by
                intro j hj
                exact narrow j hj) (by
                rw [Pool.gap, here, behind, ← place]
                cases after with
                | nil => exact Nat.le_of_not_lt enough
                | cons next after => exact room next rfl)
            rw [here] at even
            rw [place, endOf]
            cases last : before.getLast? with
            | none => exact Nat.dvd_zero 32
            | some set =>
              apply Nat.dvd_add _ (even set last)
              apply inv.aligned
              rw [eq]
              exact List.mem_append_left _ (List.mem_of_getLast? last)
          have added := inv.addSet eq positive left right (by omega) aligned inv.offset
          simp only [host] at added
          exact ⟨added, rfl, rfl⟩

theorem Inv.create {s : State} (inv : Inv s) {layout : Layout} (memory : Bool)
    (careful : CarefulCreate s.pool layout) :
  Created s (s.create layout memory)
  := by
  unfold State.create
  cases host : s.pool.host with
  | some h =>
    dsimp only
    split
    case isTrue => exact ⟨inv, rfl⟩
    case isFalse =>
      apply (inv.setHost _).place
      simpa [CarefulCreate, Pool.gap, host] using careful
  | none =>
    cases memory with
    | true => exact inv.place careful
    | false => exact ⟨inv, rfl⟩

/-! ### Frees -/

/-- A live set is destroyed. -/
theorem Inv.destroy {s : State} (inv : Inv s) (set : DescriptorSet) :
  Inv (s.destroy set)
  := by
  have sub : (s.live.erase set).Sublist s.live := List.erase_sublist
  have listed : (s.destroy set).pool.vramList.Perm ((s.live.erase set).filter (·.size ≠ 0)) := by
    rw [inv.nodup.erase_eq_filter, List.filter_filter]
    unfold State.destroy
    dsimp only
    split
    case isTrue zero =>
      apply inv.listed.trans
      apply List.Perm.of_eq
      apply List.filter_congr
      intro other _
      by_cases same : other = set
      · simp [same, zero]
      · simp [same]
    case isFalse positive =>
      have nodup : s.pool.vramList.Nodup := inv.listed.nodup_iff.2 (inv.nodup.filter _)
      rw [nodup.erase_eq_filter]
      apply (inv.listed.filter _).trans
      apply List.Perm.of_eq
      rw [List.filter_filter]
      apply List.filter_congr
      intro other _
      exact Bool.and_comm _ _
  have subList : (s.destroy set).pool.vramList.Sublist s.pool.vramList := by
    unfold State.destroy
    dsimp only
    split
    · exact List.Sublist.refl _
    · exact List.erase_sublist
  have size : (s.destroy set).pool.size = s.pool.size := by
    unfold State.destroy
    dsimp only
    split <;> rfl
  have offset : (s.destroy set).pool.currentOffset = s.pool.currentOffset := by
    unfold State.destroy
    dsimp only
    split <;> rfl
  constructor
  case small => rw [size]; exact inv.small
  case inOrder =>
    rw [size]
    exact ⟨inv.inOrder.sorted.sublist subList, fun set mem => inv.inOrder.inside set (subList.mem mem)⟩
  case aligned => exact fun set mem => inv.aligned set (subList.mem mem)
  case listed => exact listed
  case empty => exact fun set mem => inv.empty set (sub.mem mem)
  case nodup => exact inv.nodup.sublist sub
  case fresh => exact fun set mem => inv.fresh set (sub.mem mem)
  case offset => rw [offset]; exact inv.offset

theorem Inv.freeDescriptorSets {s : State} (inv : Inv s) (sets : List DescriptorSet) :
  Inv (s.freeDescriptorSets sets)
  := by
  unfold State.freeDescriptorSets
  split
  case h_2 => exact inv
  case h_1 host =>
    clear host
    induction sets generalizing s with
    | nil => exact inv
    | cons set sets ih => exact ih (inv.destroy set)

theorem Inv.allocateLoop {s : State} (inv : Inv s) {layouts : List (Layout × Bool)}
    (careful : CarefulAll s layouts) (sets : List DescriptorSet) :
  Inv (s.allocateLoop sets layouts).2.2
  := by
  induction layouts generalizing s sets with
  | nil => exact inv
  | cons first rest ih =>
    obtain ⟨layout, memory⟩ := first
    obtain ⟨here, later⟩ := careful
    have created := inv.create memory here
    unfold State.allocateLoop
    split
    case h_1 set s' eq =>
      rw [eq] at created later
      exact ih created.1 later _
    case h_2 error s' eq =>
      rw [eq] at created
      exact created.1

theorem Inv.resetDescriptorPool {s : State} (inv : Inv s) :
  Inv s.resetDescriptorPool
  where
  small := inv.small
  inOrder := ⟨.nil, fun _ mem => absurd mem List.not_mem_nil⟩
  aligned _ mem := absurd mem List.not_mem_nil
  listed := .nil
  empty _ mem := absurd mem List.not_mem_nil
  nodup := .nil
  fresh _ mem := absurd mem List.not_mem_nil
  offset := Nat.dvd_zero 32

/-! ### Histories -/

theorem Inv.step {s s' : State} {a : Action} (inv : Inv s) (careful : Careful s a)
    (stepped : step s a = some s') :
  Inv s'
  := by
  cases a with
  | allocate layouts =>
    obtain rfl := Option.some.inj stepped
    have looped := inv.allocateLoop careful []
    unfold State.allocateDescriptorSets
    split
    case h_1 eq =>
      rw [eq] at looped
      exact looped
    case h_2 eq =>
      rw [eq] at looped
      exact looped.freeDescriptorSets _
  | free sets =>
    rw [Radv.step] at stepped
    split at stepped
    · obtain rfl := Option.some.inj stepped
      exact inv.freeDescriptorSets sets
    · cases stepped
  | reset =>
    obtain rfl := Option.some.inj stepped
    exact inv.resetDescriptorPool

theorem Inv.sound {s : State} (inv : Inv s) :
  Sound s
  := by
  have listed := inv.mem_vramList
  have apart : s.pool.vramList.Pairwise fun a b => a.range.Apart b.range :=
    inv.inOrder.sorted.imp Or.inl
  constructor
  case apart =>
    apply inv.nodup.imp_of_mem
    intro a b ha hb ne
    by_cases za : a.size = 0
    · left
      simp [DescriptorSet.range, inv.empty a ha za, za]
    · by_cases zb : b.size = 0
      · right
        simp [DescriptorSet.range, inv.empty b hb zb, zb]
      · exact Range.apart_of_pairwise apart ((listed a).2 ⟨ha, za⟩) ((listed b).2 ⟨hb, zb⟩) ne
  case inside =>
    intro set mem
    refine ⟨Nat.zero_le _, ?_⟩
    by_cases zero : set.size = 0
    · simp [DescriptorSet.range, inv.empty set mem zero, zero]
    · exact inv.inOrder.inside set ((listed set).2 ⟨mem, zero⟩)
  case aligned =>
    intro set mem
    by_cases zero : set.size = 0
    · rw [inv.empty set mem zero]
      exact Nat.dvd_zero 32
    · exact inv.aligned set ((listed set).2 ⟨mem, zero⟩)
  case listed => exact listed
  case sorted =>
    apply inv.inOrder.sorted.imp_of_mem
    intro a b ha _ before
    have positive := ((listed a).1 ha).2
    unfold DescriptorSet.finish at before
    omega

/-- Three sets are allocated, the middle one is freed, and its place is used again. -/
def reusing : List Action :=
  [.allocate [(⟨32, 0, 0⟩, true), (⟨32, 0, 0⟩, true), (⟨16, 0, 0⟩, true)], .free [⟨1, 32, 32⟩],
    .allocate [(⟨16, 0, 0⟩, true)]]

/-- A set that was put into a gap reaches behind the current offset; a set that is allocated later
gets part of its memory. -/
def overlapping : List Action :=
  [.allocate [(⟨32, 0, 0⟩, true), (⟨64, 0, 0⟩, true)], .free [⟨1, 32, 64⟩],
    .allocate [(⟨96, 0, 0⟩, true)], .allocate [(⟨32, 0, 0⟩, true)]]

/-- A set is put right behind a set of 16 bytes. -/
def unaligned : List Action :=
  [.allocate [(⟨16, 0, 0⟩, true), (⟨32, 0, 0⟩, true)], .free [⟨1, 32, 32⟩],
    .allocate [(⟨32, 0, 0⟩, true)]]

end Radv
