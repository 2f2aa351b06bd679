import Mesa.Util.SlabInvariant

/-!
# What holds in every run of slab allocators

In every run, every element is allocated, in one list of one pool or returned to its page, no element
is handed out twice, and a page is released once.
-/

namespace Util

namespace Slab

/-! ### Runs -/

theorem Inv.createChild {s : State} (inv : Inv [] s) :
  Inv [] { s with numPools := s.numPools + 1 }
  := by
  obtain ⟨positive, places, own, counts⟩ := inv
  constructor
  · exact positive
  · constructor
    · intro e
      have before := places.once e
      change [].count e + s.held.count e + Slots.sum (Pool.count e) (s.numPools + 1) s.pools
        + s.returned.count e = if s.Exists e then 1 else 0
      rw [Slots.sum_succ, own.fresh s.numPools (Nat.le_refl _)]
      exact before
    · exact places.given
  · refine ⟨own.owner, ?_, own.pages, own.free_home, own.migrated_home, own.migrated_nil,
      own.free_nil, own.collecting_nil, own.returning, ?_⟩
    · intro g lt
      exact Nat.lt_succ_of_lt (own.home_lt g lt)
    · intro q ge
      change s.numPools + 1 ≤ q at ge
      exact own.fresh q (by omega)
  · exact ⟨counts.returned_orphaned, counts.remaining, counts.released, counts.once⟩

/-- Every step keeps the invariant. -/
theorem Inv.step {s s' : State} {a : Action} (inv : Inv [] s) (h : step s a = some s') :
  Inv [] s'
  := by
  cases a with
  | createChild =>
    obtain rfl := Option.some.inj h
    exact inv.createChild
  | alloc p =>
    obtain ⟨⟨hp, idle⟩, ⟨⟩⟩ := Option.ite_none_right_eq_some.1 h
    exact inv.alloc hp idle
  | free p e =>
    obtain ⟨⟨hp, idle, mem⟩, ⟨⟩⟩ := Option.ite_none_right_eq_some.1 h
    exact inv.free hp idle mem
  | destroyChild p =>
    obtain ⟨hp, h⟩ := Option.ite_none_right_eq_some.1 h
    split at h
    · rename_i idle
      obtain rfl := Option.some.inj h
      exact inv.destroyChild hp idle
    · obtain ⟨-, ⟨⟩⟩ := Option.ite_none_right_eq_some.1 h
      exact inv
  | «continue» p memory =>
    obtain ⟨hp, h⟩ := Option.ite_none_right_eq_some.1 h
    split at h
    · rename_i phase
      obtain rfl := Option.some.inj h
      exact inv.collect hp phase
    · rename_i phase
      obtain rfl := Option.some.inj h
      exact inv.refill hp phase memory
    · rename_i e phase
      obtain rfl := Option.some.inj h
      exact inv.migrate hp phase
    · rename_i e phase
      obtain rfl := Option.some.inj h
      exact inv.giveBack hp phase
    · rename_i phase
      obtain rfl := Option.some.inj h
      exact inv.drain hp phase
    · cases h
    · cases h

theorem Inv.init {numElements : ℕ} (positive : 0 < numElements) :
  Inv [] (init numElements)
  := by
  constructor
  · exact positive
  · constructor
    · intro e
      rfl
    · intro e
      rfl
  · constructor
    · intro e there
      exact absurd there.1 (Nat.not_lt_zero _)
    · intro g lt
      exact absurd lt (Nat.not_lt_zero _)
    · intro p g
      exact ⟨fun h => absurd h List.not_mem_nil, fun h => absurd h.1 (Nat.not_lt_zero _)⟩
    · intro p e mem
      cases mem
    · intro p e mem
      cases mem
    · intro p _
      rfl
    · intro p _
      rfl
    · intro p _
      rfl
    · intro p e h
      cases h
    · intro p _
      rfl
  · constructor
    · intro e mem
      cases mem
    · intro g lt
      exact absurd lt (Nat.not_lt_zero _)
    · intro g
      exact ⟨fun h => absurd h List.not_mem_nil, fun h => absurd h.1 (Nat.not_lt_zero _)⟩
    · exact List.nodup_nil

/-! ### Soundness -/

namespace State

/-- How often an element is allocated: with a caller, or on its way through `slab_free`. -/
def allocated (s : State) (e : Element) : ℕ :=
  s.held.count e + Slots.sum (fun pool => pool.phase.transit.count e) s.numPools s.pools

/-- How often an element is in the free lists. -/
def inFree (s : State) (e : Element) : ℕ :=
  Slots.sum (fun pool => pool.free.count e) s.numPools s.pools

/-- How often an element is in the migrated lists. -/
def inMigrated (s : State) (e : Element) : ℕ :=
  Slots.sum (fun pool => pool.migrated.count e) s.numPools s.pools

end State

/-- What is expected of the pools in a state. -/
structure Sound (s : State) : Prop where
  /-- every element is allocated, in one free list, in one migrated list, or returned -/
  once : ∀ e, s.allocated e + s.inFree e + s.inMigrated e + s.returned.count e
    = if s.Exists e then 1 else 0
  /-- no element is handed out again before it is freed -/
  given : ∀ e, s.given.count e ≤ s.freed.count e + 1
  /-- a page is released once, after its elements were freed and its pool was destroyed -/
  released_once : s.released.Nodup
  released : ∀ g ∈ s.released, s.Orphaned (s.home g) ∧
    ∀ e, s.Exists e → e.page = g → e ∈ s.returned ∧ s.allocated e = 0
  /-- a page is released when its pool was destroyed and none of its elements is allocated -/
  complete : ∀ g < s.numPages, (s.pools (s.home g)).phase = .destroyed →
    (∀ e, s.Exists e → e.page = g → s.allocated e = 0) → g ∈ s.released

theorem inPools_eq (s : State) (e : Element) :
  s.inPools e = Slots.sum (fun pool => pool.phase.transit.count e) s.numPools s.pools
    + s.inFree e + s.inMigrated e
  := by
  rw [State.inFree, State.inMigrated, ← Slots.sum_add, ← Slots.sum_add]
  rfl

theorem Inv.sound {s : State} (inv : Inv [] s) :
  Sound s
  := by
  have once : ∀ e, s.allocated e + s.inFree e + s.inMigrated e + s.returned.count e
      = if s.Exists e then 1 else 0 := by
    intro e
    have places := inv.places.once e
    rw [inPools_eq, List.count_nil] at places
    rw [State.allocated]
    omega
  constructor
  · exact once
  · intro e
    have given := inv.places.given e
    have held := inv.places.count_le_one e
    omega
  · exact inv.counts.once
  · intro g mem
    obtain ⟨lt, orphaned, zero⟩ := (inv.counts.released g).1 mem
    refine ⟨orphaned, ?_⟩
    intro e there page
    have all := inv.counts.remaining g lt orphaned
    have returned : e ∈ s.returned := by
      by_contra missing
      have fewer := inv.places.returnedTo_lt there missing
      rw [page] at fewer
      omega
    refine ⟨returned, ?_⟩
    have one := once e
    have pos := List.count_pos_iff.2 returned
    rw [if_pos there] at one
    omega
  · intro g lt destroyed free
    have orphaned : s.Orphaned (s.home g) := .inr destroyed
    apply (inv.counts.released g).2
    refine ⟨lt, orphaned, ?_⟩
    have all := inv.counts.remaining g lt orphaned
    -- every element of the page was returned
    have returned : ∀ i < s.numElements, ⟨g, i⟩ ∈ s.returned := by
      intro i hi
      have there : s.Exists ⟨g, i⟩ := ⟨lt, hi⟩
      have one := once ⟨g, i⟩
      rw [if_pos there, free _ there rfl] at one
      have noFree : s.inFree ⟨g, i⟩ = 0 := by
        apply Slots.sum_eq_zero
        intro q _
        apply List.count_eq_zero.2
        intro mem
        have home := inv.ownership.free_home q _ mem
        rw [← home, inv.ownership.free_nil _ destroyed] at mem
        cases mem
      have noMigrated : s.inMigrated ⟨g, i⟩ = 0 := by
        apply Slots.sum_eq_zero
        intro q _
        apply List.count_eq_zero.2
        intro mem
        have home := inv.ownership.migrated_home q _ mem
        rw [← home, inv.ownership.migrated_nil _ orphaned] at mem
        cases mem
      apply List.count_pos_iff.1
      omega
    have many : s.numElements ≤ s.returnedTo g := by
      rw [State.returnedTo, List.countP_eq_length_filter]
      have nodup : ((List.range s.numElements).map (Element.mk g)).Nodup := by
        apply List.Nodup.map _ List.nodup_range
        intro i j same
        exact (Element.mk.inj same).2
      have subset : (List.range s.numElements).map (Element.mk g)
          ⊆ s.returned.filter (Element.page · = g) := by
        intro e mem
        obtain ⟨i, hi, rfl⟩ := List.mem_map.1 mem
        exact List.mem_filter.2 ⟨returned i (List.mem_range.1 hi), decide_eq_true rfl⟩
      have bound := (nodup.subperm subset).length_le
      rw [List.length_map, List.length_range] at bound
      exact bound
    omega

/-- The pools are sound in every state of every run. -/
theorem sound_of_run {numElements : ℕ} (positive : 0 < numElements) {as : List Action} {s : State}
    (ran : Flow.runActions step (init numElements) as = some s) :
  Sound s
  := by
  apply Inv.sound
  apply Flow.invariant_of_run _ (Inv.init positive) (Flow.meets_true as) ran
  intro s a s' inv _ stepped
  exact inv.step stepped

/-- Two pools with pages of two elements: an element is freed by the other pool before its pool is
destroyed, and one after it. -/
def twoPools : List Action :=
  [.createChild, .createChild, .alloc 0, .continue 0 true, .continue 0 true, .alloc 0,
    .free 1 ⟨0, 1⟩, .continue 1 true, .destroyChild 0, .continue 0 true, .free 1 ⟨0, 0⟩,
    .continue 1 true, .continue 1 true]

theorem sound_of_run_small :
  ∃ s, Flow.runActions step (init 2) twoPools = some s ∧ s.released = [0] ∧
    s.given = [⟨0, 0⟩, ⟨0, 1⟩] ∧ (s.pools 0).phase = .destroyed ∧ Sound s
  := by
  refine ⟨_, rfl, by decide, by decide, by decide, ?_⟩
  exact @sound_of_run 2 (by decide) twoPools _ rfl

end Slab

end Util
