import Mesa.Glsl.VaryingMatches
import Mathlib.Data.Nat.Bitwise

/-!
# Locations of varyings

What assigning a location to one match can do, and what follows for all matches: their components
are separate, only those of one packing class share a slot, and no slot is used that is reserved.
-/

namespace Glsl.Varyings

section Numbers

theorem unsigned_eq {n : ℕ} (lt : n < 2 ^ 32) :
  unsigned n = n
  := Nat.mod_eq_of_lt lt

theorem alignSlot_eq {location : ℕ} (lt : location + 3 < 2 ^ 32) :
  alignSlot location = (location + 3) / 4 * 4
  := by
  rw [alignSlot, unsigned_eq]
  omega

theorem slotEnd_eq {location n : ℕ} (pos : 0 < n) (lt : location + n < 2 ^ 32) :
  slotEnd location n = location + n - 1
  := by
  have shift : location + n + (2 ^ 32 - 1) = location + n - 1 + 2 ^ 32 := by omega
  rw [slotEnd, shift, unsigned, Nat.add_mod_right, Nat.mod_eq_of_lt]
  omega

/-- The mask has the slots of a varying. -/
theorem testBit_slotMask {location n : ℕ} (pos : 0 < n) (le : location + n ≤ maxVarying * 4)
    (j : ℕ) :
  (slotMask location n).testBit j =
    decide (location / 4 ≤ j ∧ j ≤ (location + n - 1) / 4)
  := by
  rw [maxVarying] at le
  have slots : unsigned ((location + n - 1) / 4 + 2 ^ 32 - location / 4 + 1) =
      (location + n - 1) / 4 - location / 4 + 1 := by
    rw [unsigned]
    omega
  rw [slotMask, slotEnd_eq pos (by omega), slots, Nat.one_shiftLeft, Nat.testBit_mod_two_pow,
    Nat.testBit_shiftLeft, Nat.testBit_two_pow_sub_one, Nat.mod_eq_of_lt (by omega),
    Nat.mod_eq_of_lt (by omega), ← Bool.decide_and, ← Bool.decide_and, decide_eq_decide]
  omega

/-- A varying touches a reserved slot. -/
theorem and_slotMask_ne_zero {reserved location n : ℕ} (pos : 0 < n)
    (le : location + n ≤ maxVarying * 4) :
  reserved &&& slotMask location n ≠ 0 ↔
    ∃ j, location / 4 ≤ j ∧ j ≤ (location + n - 1) / 4 ∧ reserved.testBit j
  := by
  constructor
  · intro touches
    by_contra none
    apply touches
    apply Nat.zero_of_testBit_eq_false
    intro j
    rw [Nat.testBit_and, testBit_slotMask pos le]
    by_contra both
    rw [Bool.not_eq_false, Bool.and_eq_true, decide_eq_true_eq] at both
    exact none ⟨j, both.2.1, both.2.2, both.1⟩
  · rintro ⟨j, ge, le', bit⟩ zero
    have bits := congrArg (fun m => m.testBit j) zero
    simp [testBit_slotMask pos le, bit, ge, le'] at bits

/-- Where the loop over reserved slots ends.  By induction on the rounds, which suffice since each
begins at a later slot. -/
theorem skipReserved_spec {reserved n : ℕ} (pos : 0 < n) (fuel : ℕ) :
  ∀ location, location + n < 2 ^ 32 → maxVarying * 4 ≤ location + fuel →
    let location' := skipReserved reserved n fuel location
    (location' = location ∨ location < location' ∧ location' % 4 = 0) ∧
      location' + n ≤ max (location + n) (maxVarying * 4 + 4) ∧
      (location' + n ≤ maxVarying * 4 → ∀ j, location' / 4 ≤ j →
        j ≤ (location' + n - 1) / 4 → reserved.testBit j = false)
  := by
  induction fuel with
  | zero =>
    intro location small enough
    rw [skipReserved]
    refine ⟨.inl rfl, Nat.le_max_left _ _, fun le => ?_⟩
    omega
  | succ fuel ih =>
    intro location small enough
    rw [skipReserved]
    by_cases touches : slotEnd location n < maxVarying * 4 ∧
        reserved &&& slotMask location n ≠ 0
    case pos =>
      rw [if_pos touches]
      have le := touches.1
      rw [slotEnd_eq pos small] at le
      have limit : maxVarying * 4 = 128 := rfl
      have next : alignSlot (unsigned (location + 1)) = (location + 4) / 4 * 4 := by
        rw [unsigned_eq (by omega), alignSlot_eq (by omega)]
      rw [next]
      obtain ⟨moved, bound, clear⟩ :=
        ih ((location + 4) / 4 * 4) (by omega) (by omega)
      refine ⟨.inr ?_, by omega, clear⟩
      rcases moved with same | ⟨later, aligned⟩
      · rw [same]
        omega
      · omega
    case neg =>
      rw [if_neg touches]
      refine ⟨.inl rfl, Nat.le_max_left _ _, fun le j ge le' => ?_⟩
      rw [slotEnd_eq pos small] at touches
      by_contra bit
      apply touches
      refine ⟨by omega, (and_slotMask_ne_zero pos le).mpr ⟨j, ge, le', ?_⟩⟩
      rwa [Bool.not_eq_false] at bit

end Numbers

section Step

/-- Behind the last component of a match. -/
def Placed.stop (p : Placed) : ℕ := p.location + p.numComponents

/-- A match has components in a slot. -/
def Placed.Touches (p : Placed) (slot : ℕ) : Prop :=
  p.location / 4 ≤ slot ∧ slot ≤ (p.stop - 1) / 4

/-- A match is placed where its stream goes on. -/
structure Places (reserved : ℕ) (state : Assigning) (q : Placed) (state' : Assigning) : Prop where
  placed : state'.placed = state.placed ++ [q]
  pos : 0 < q.numComponents
  le : state.location q.patch ≤ q.location
  start : q.location % 4 = 0 ∨ q.location = state.location q.patch ∧
    ∀ previous, state.placed.getLast? = some previous →
      previous.matched.packingClass = q.matched.packingClass
  next : state'.location q.patch = q.stop
  other : state'.location (!q.patch) = state.location (!q.patch)
  error : state'.error = false → state.error = false ∧ (q.patch = false →
    q.stop ≤ maxVarying * 4 ∧ ∀ slot, q.Touches slot → reserved.testBit slot = false)
  components : state'.components = writeComponents state.components q.location (q.stop - 1)

theorem location_setLocation (state : Assigning) (patch : Bool) (location : ℕ) (other : Bool) :
  (state.setLocation patch location).location other =
    if other = patch then location else state.location other
  := by
  cases patch <;> cases other <;> rfl

variable {settings : Settings} {vars : ℕ → Variable} {reserved : ℕ} {state : Assigning} {m : Match}

/-- What assigning a location to one match does, where its components fit in 32 bits. -/
theorem assign_places (pos : 0 < settings.componentsOf vars m)
    (small : state.location (vars m.pairing.var).patch + 3 + settings.componentsOf vars m < 2 ^ 32) :
  ∃ q, q.matched = m ∧ q.patch = (vars m.pairing.var).patch ∧
    Places reserved state q (settings.assign vars reserved state m) ∧
    q.stop ≤ max (state.location q.patch + 3 + settings.componentsOf vars m) (maxVarying * 4 + 4)
  := by
  have limit : maxVarying * 4 = 128 := rfl
  rw [Settings.assign]
  generalize patch_eq : (vars m.pairing.var).patch = patch at small ⊢
  generalize count : settings.componentsOf vars m = n at pos small ⊢
  generalize aligned : (if settings.startsSlot vars state m then
    alignSlot (state.location patch) else state.location patch) = location
  have from_le : state.location patch ≤ location ∧ location ≤ state.location patch + 3 ∧
      (location % 4 = 0 ∨ location = state.location patch ∧
        ∀ previous, state.placed.getLast? = some previous →
          previous.matched.packingClass = m.packingClass) := by
    rw [← aligned]
    by_cases starts : settings.startsSlot vars state m
    · rw [if_pos starts, alignSlot_eq (by omega)]
      omega
    · rw [if_neg starts]
      refine ⟨Nat.le_refl _, Nat.le_add_right _ _, .inr ⟨rfl, fun previous last => ?_⟩⟩
      rw [Settings.startsSlot, last] at starts
      simp only [Bool.or_eq_true, bne_iff_ne, not_or, not_not] at starts
      exact starts.2
  obtain ⟨le, le', start⟩ := from_le
  obtain ⟨moved, bound, clear⟩ := skipReserved_spec pos (maxVarying * 4)
    location (by omega) (by omega)
  generalize skipped : skipReserved reserved n (maxVarying * 4) location = location' at *
  have last : slotEnd location' n = location' + n - 1 := slotEnd_eq pos (by omega)
  have after : unsigned (location' + n - 1 + 1) = location' + n := by
    rw [unsigned_eq (by omega)]
    omega
  rw [last, after]
  refine ⟨⟨m, patch, location', n⟩, rfl, rfl, ⟨rfl, pos, ?_, ?_, ?_, ?_, ?_, rfl⟩, ?_⟩
  · dsimp only
    omega
  · dsimp only
    rcases moved with rfl | ⟨-, slot⟩
    · exact start
    · exact .inl slot
  · exact (location_setLocation _ _ _ _).trans (if_pos rfl)
  · exact (location_setLocation _ _ _ _).trans (if_neg (Bool.not_ne_self patch))
  · intro fine
    rw [Bool.or_eq_false_iff, Bool.and_eq_false_iff] at fine
    refine ⟨fine.1, fun generic => ?_⟩
    have within : location' + n ≤ maxVarying * 4 := by
      rcases fine.2 with isPatch | short
      · rw [show patch = false from generic] at isPatch
        cases isPatch
      · rw [decide_eq_false_iff_not] at short
        omega
    exact ⟨within, fun slot touches => clear within slot touches.1 touches.2⟩
  · exact Nat.le_trans bound (by dsimp only; omega)

end Step

section Invariant

/-- Some match has a component. -/
def Taken (placed : List Placed) (component : ℕ) : Prop :=
  ∃ p ∈ placed, p.location ≤ component ∧ component < p.stop

/-- What is counted for a slot is one more than its highest component that is taken, or zero. -/
def Counts (placed : List Placed) (components : ℕ → ℕ) (slot : ℕ) : Prop :=
  (∀ c < 4, Taken placed (4 * slot + c) → c < components slot) ∧
    ∀ c, components slot = c + 1 → c < 4 ∧ Taken placed (4 * slot + c)

/-- The first of two matches of a stream ends before the second, and they share a slot only if they
have the same packing class. -/
def Before (p q : Placed) : Prop :=
  p.patch = q.patch → p.stop ≤ q.location ∧
    ((p.stop - 1) / 4 = q.location / 4 → p.matched.packingClass = q.matched.packingClass)

/-- What holds after some matches have been assigned a location. -/
structure Inv (reserved : ℕ) (state : Assigning) : Prop where
  patches : maxVarying * 4 ≤ state.location true
  placedPatches : ∀ p ∈ state.placed, p.patch = true → maxVarying * 4 ≤ p.location
  below : ∀ p ∈ state.placed, 0 < p.numComponents ∧ p.stop ≤ state.location p.patch
  classPatch : ∀ p ∈ state.placed, p.matched.packingClass / 32 % 2 = p.patch.toNat
  ordered : state.placed.Pairwise Before
  previous : ∀ q, state.placed.getLast? = some q → ∀ p ∈ state.placed, p.patch = q.patch →
    (p.stop - 1) / 4 = state.location q.patch / 4 →
      p.matched.packingClass = q.matched.packingClass
  generic : state.error = false → ∀ p ∈ state.placed, p.patch = false →
    p.stop ≤ maxVarying * 4 ∧ ∀ slot, p.Touches slot → reserved.testBit slot = false
  counts : state.error = false → ∀ slot < maxVaryingsInclPatch,
    (∀ p ∈ state.placed, p.Touches slot → p.stop ≤ maxVaryingsInclPatch * 4) →
      Counts state.placed state.components slot

variable {reserved : ℕ} {state state' : Assigning} {q : Placed}

/-- Those of the stream that were placed before end before the new match. -/
theorem Places.before (places : Places reserved state q state') (inv : Inv reserved state)
    (class_q : q.matched.packingClass / 32 % 2 = q.patch.toNat) {p : Placed}
    (mem : p ∈ state.placed) :
  Before p q
  := by
  intro same
  obtain ⟨pos, below⟩ := inv.below p mem
  have le := places.le
  rw [same] at below
  refine ⟨Nat.le_trans below le, fun shared => ?_⟩
  have stop_pos : 0 < p.stop := Nat.lt_of_lt_of_le pos (Nat.le_add_left _ _)
  rcases places.start with aligned | ⟨here, sameClass⟩
  · omega
  · rcases last : state.placed.getLast? with _ | r
    · rw [List.getLast?_eq_none_iff] at last
      rw [last] at mem
      cases mem
    · have r_class := sameClass r last
      have r_mem := List.mem_of_getLast? last
      -- the same class means the same stream
      have r_patch : r.patch = q.patch := by
        have := inv.classPatch r r_mem
        rw [r_class, class_q] at this
        cases hr : r.patch <;> cases hq : q.patch <;> rw [hr, hq] at this <;> simp at this ⊢
      rw [← r_class]
      apply inv.previous r last p mem (same.trans r_patch.symm)
      rw [r_patch, ← here]
      exact shared

/-- Matches of different streams have no slot in common. -/
theorem Places.apart (places : Places reserved state q state') (inv : Inv reserved state)
    (fine : state'.error = false) {p : Placed} (mem : p ∈ state.placed) (other : p.patch ≠ q.patch)
    {slot : ℕ} (touches : p.Touches slot) :
  ¬ q.Touches slot
  := by
  intro touches'
  have limit : maxVarying * 4 = 128 := rfl
  obtain ⟨fine', q_generic⟩ := places.error fine
  obtain ⟨ge, le⟩ := touches
  obtain ⟨ge', le'⟩ := touches'
  have p_pos := (inv.below p mem).1
  have q_pos := places.pos
  have p_stop : p.stop = p.location + p.numComponents := rfl
  have q_stop : q.stop = q.location + q.numComponents := rfl
  cases p_patch : p.patch
  case false =>
    have q_patch : q.patch = true := by
      rw [p_patch] at other
      exact (Bool.eq_false_or_eq_true q.patch).resolve_right (Ne.symm other)
    have := (inv.generic fine' p mem p_patch).1
    have := inv.patches
    have := places.le
    rw [q_patch] at this
    omega
  case true =>
    have q_patch : q.patch = false := by
      rw [p_patch] at other
      exact (Bool.eq_false_or_eq_true q.patch).resolve_left (Ne.symm other)
    have := inv.placedPatches p mem p_patch
    have := (q_generic q_patch).1
    omega

theorem taken_append {placed : List Placed} {component : ℕ} :
  Taken (placed ++ [q]) component ↔
    Taken placed component ∨ q.location ≤ component ∧ component < q.stop
  := by
  simp only [Taken, List.mem_append, List.mem_singleton]
  constructor
  · rintro ⟨p, mem | rfl, rest⟩
    · exact .inl ⟨p, mem, rest⟩
    · exact .inr rest
  · rintro (⟨p, mem, rest⟩ | rest)
    · exact ⟨p, .inl mem, rest⟩
    · exact ⟨q, .inr rfl, rest⟩

theorem Places.counts (places : Places reserved state q state') (inv : Inv reserved state)
    (class_q : q.matched.packingClass / 32 % 2 = q.patch.toNat) (fine : state'.error = false)
    {slot : ℕ} (lt : slot < maxVaryingsInclPatch)
    (within : ∀ p ∈ state'.placed, p.Touches slot → p.stop ≤ maxVaryingsInclPatch * 4) :
  Counts state'.placed state'.components slot
  := by
  have q_mem : q ∈ state'.placed := by
    rw [places.placed]
    exact List.mem_append_right _ (List.mem_singleton_self q)
  have q_pos := places.pos
  have stop_pos : 0 < q.stop := Nat.lt_of_lt_of_le q_pos (Nat.le_add_left _ _)
  have stop_eq : q.stop = q.location + q.numComponents := rfl
  rw [places.placed, places.components]
  by_cases touches : q.Touches slot
  case neg =>
    have same : writeComponents state.components q.location (q.stop - 1) slot =
        state.components slot := by
      rw [writeComponents]
      rw [Placed.Touches] at touches
      split
      · dsimp only
        rw [if_neg (by omega), if_neg (by omega)]
      · rfl
    have outside : ∀ c < 4, ¬ (q.location ≤ 4 * slot + c ∧ 4 * slot + c < q.stop) := by
      rintro c c_lt taken
      apply touches
      rw [Placed.Touches]
      omega
    obtain ⟨high, taken⟩ := inv.counts (places.error fine).1 slot lt (fun p mem =>
      within p (by rw [places.placed]; exact List.mem_append_left _ mem))
    rw [Counts, same]
    refine ⟨fun c c_lt took => ?_, fun c eq => ?_⟩
    · rcases taken_append.mp took with old | new
      · exact high c c_lt old
      · exact absurd new (outside c c_lt)
    · obtain ⟨c_lt, took⟩ := taken c eq
      exact ⟨c_lt, taken_append.mpr (.inl took)⟩
  case pos =>
    have small := within q q_mem touches
    have written : q.stop - 1 < maxVaryingsInclPatch * 4 := by omega
    -- what others take in the slot is before
    have others : ∀ c < 4, Taken state.placed (4 * slot + c) → 4 * slot + c < q.location := by
      rintro c c_lt ⟨p, mem, ge, lt'⟩
      have p_touches : p.Touches slot := by
        rw [Placed.Touches]
        omega
      by_cases stream : p.patch = q.patch
      · have := (places.before inv class_q mem stream).1
        omega
      · exact absurd touches (places.apart inv fine mem stream p_touches)
    obtain ⟨ge, le⟩ := touches
    rw [Counts, writeComponents, if_pos written]
    by_cases last : slot = (q.stop - 1) / 4
    · rw [if_pos last]
      refine ⟨fun c c_lt took => ?_, fun c eq => ?_⟩
      · rcases taken_append.mp took with old | new
        · have := others c c_lt old
          omega
        · omega
      · have top : 4 * slot + c = q.stop - 1 := by omega
        exact ⟨by omega, taken_append.mpr (.inr (by omega))⟩
    · rw [if_neg last, if_pos (by omega)]
      refine ⟨fun c c_lt _ => c_lt, fun c eq => ?_⟩
      exact ⟨by omega, taken_append.mpr (.inr (by omega))⟩

theorem Places.location_patch (places : Places reserved state q state') (patch : Bool) :
  state'.location patch = if patch = q.patch then q.stop else state.location patch
  := by
  by_cases same : patch = q.patch
  · rw [if_pos same, same, places.next]
  · have other : patch = !q.patch := by
      cases patch <;> cases hq : q.patch <;> rw [hq] at same <;> simp at same ⊢
    rw [if_neg same, other, places.other]

/-- One match more. -/
theorem Inv.places (inv : Inv reserved state) (places : Places reserved state q state')
    (class_q : q.matched.packingClass / 32 % 2 = q.patch.toNat) :
  Inv reserved state'
  := by
  have mem_placed : ∀ p, p ∈ state'.placed ↔ p ∈ state.placed ∨ p = q := by
    intro p
    rw [places.placed, List.mem_append, List.mem_singleton]
  have stop_eq : q.stop = q.location + q.numComponents := rfl
  have le := places.le
  have pos := places.pos
  refine ⟨?_, ?_, ?_, ?_, ?_, ?_, ?_, ?_⟩
  case refine_1 =>
    have := inv.patches
    rw [places.location_patch]
    split
    case isTrue same =>
      rw [← same] at le
      omega
    case isFalse => exact this
  case refine_2 =>
    intro p mem p_patch
    rcases (mem_placed p).mp mem with old | rfl
    · exact inv.placedPatches p old p_patch
    · rw [p_patch] at le
      exact Nat.le_trans inv.patches le
  case refine_3 =>
    intro p mem
    rcases (mem_placed p).mp mem with old | rfl
    · obtain ⟨p_pos, below⟩ := inv.below p old
      refine ⟨p_pos, ?_⟩
      rw [places.location_patch]
      split
      case isTrue same =>
        rw [same] at below
        omega
      case isFalse => exact below
    · exact ⟨pos, Nat.le_of_eq places.next.symm⟩
  case refine_4 =>
    intro p mem
    rcases (mem_placed p).mp mem with old | rfl
    · exact inv.classPatch p old
    · exact class_q
  case refine_5 =>
    rw [places.placed, List.pairwise_append]
    refine ⟨inv.ordered, List.pairwise_singleton _ _, fun p mem r r_mem => ?_⟩
    obtain rfl := List.mem_singleton.mp r_mem
    exact places.before inv class_q mem
  case refine_6 =>
    intro r last p mem same shared
    rw [places.placed, List.getLast?_concat] at last
    obtain rfl := Option.some.inj last
    rcases (mem_placed p).mp mem with old | rfl
    · obtain ⟨before, sameClass⟩ := places.before inv class_q old same
      rw [places.next] at shared
      exact sameClass (by omega)
    · rfl
  case refine_7 =>
    intro fine p mem p_generic
    rcases (mem_placed p).mp mem with old | rfl
    · exact inv.generic (places.error fine).1 p old p_generic
    · exact (places.error fine).2 p_generic
  case refine_8 =>
    exact fun fine slot lt within => places.counts inv class_q fine lt within

/-- Where the assignment begins. -/
def start : Assigning := ⟨0, maxVarying * 4, false, fun _ => 0, false, []⟩

theorem inv_start (reserved : ℕ) :
  Inv reserved start
  := by
  constructor
  case patches => exact Nat.le_refl _
  case ordered => exact List.Pairwise.nil
  case counts =>
    intro _ slot _ _
    refine ⟨fun c _ ⟨p, mem, _⟩ => absurd mem List.not_mem_nil, fun c eq => ?_⟩
    exact absurd eq (Nat.succ_ne_zero c).symm
  case placedPatches => exact fun p mem => absurd mem List.not_mem_nil
  case below => exact fun p mem => absurd mem List.not_mem_nil
  case classPatch => exact fun p mem => absurd mem List.not_mem_nil
  case previous => exact fun q last p mem => absurd mem List.not_mem_nil
  case generic => exact fun _ p mem => absurd mem List.not_mem_nil

end Invariant

section Run

/-- The class of a match tells whether it is a patch varying. -/
def Classified (vars : ℕ → Variable) (m : Match) : Prop :=
  m.packingClass / 32 % 2 = (vars m.pairing.var).patch.toNat

/-- The components of some matches, with what may be left out before each. -/
def Settings.extent (settings : Settings) (vars : ℕ → Variable) (matched : List Match) : ℕ :=
  (matched.map fun m => settings.componentsOf vars m + 3).sum

variable {settings : Settings} {vars : ℕ → Variable} {reserved : ℕ}

/-- All matches.  By induction on those that are left. -/
theorem inv_foldl (matched : List Match) :
  ∀ state : Assigning, Inv reserved state →
    (∀ m ∈ matched, Classified vars m ∧ 0 < settings.componentsOf vars m) →
    (∀ patch, state.location patch + settings.extent vars matched < 2 ^ 32) →
    maxVarying * 4 + 4 + settings.extent vars matched < 2 ^ 32 →
    Inv reserved (matched.foldl (settings.assign vars reserved) state) ∧
      (matched.foldl (settings.assign vars reserved) state).placed.map Placed.matched =
        state.placed.map Placed.matched ++ matched
  := by
  induction matched with
  | nil => exact fun state inv _ _ _ => ⟨inv, (List.append_nil _).symm⟩
  | cons m matched ih =>
    intro state inv all small small'
    have extent : settings.extent vars (m :: matched) =
        settings.componentsOf vars m + 3 + settings.extent vars matched := by
      rw [Settings.extent, List.map_cons, List.sum_cons]
      rfl
    rw [extent] at small small'
    obtain ⟨classified, pos⟩ := all m List.mem_cons_self
    have room := small (vars m.pairing.var).patch
    obtain ⟨q, matched_eq, patch_eq, places, bound⟩ :=
      @assign_places settings vars reserved state m pos (by omega)
    have class_q : q.matched.packingClass / 32 % 2 = q.patch.toNat := by
      rw [matched_eq, patch_eq]
      exact classified
    obtain ⟨inv', placed⟩ := ih (settings.assign vars reserved state m)
      (inv.places places class_q) (fun m mem => all m (List.mem_cons_of_mem _ mem)) (by
        intro patch
        rw [places.location_patch]
        split
        · have := small q.patch
          omega
        · have := small patch
          omega) (by omega)
    refine ⟨inv', ?_⟩
    rw [List.foldl_cons, placed, places.placed, List.map_append, List.map_singleton, matched_eq,
      List.append_assoc, List.singleton_append]

end Run

end Glsl.Varyings
