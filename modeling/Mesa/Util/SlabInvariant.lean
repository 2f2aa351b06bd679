import Mesa.Util.Slab

/-!
# What every step of slab allocators keeps

Every element is at one place: with a caller, in the free list or in the migrated list of one pool,
or returned to an orphaned page.  A pool and the pages that it allocated change together from owned
to orphaned, and the count of an orphaned page is the number of its elements that are not returned.
-/

namespace Util

namespace Slab

/-! ### Places -/

/-- The element whose `slab_free` is under way. -/
def Phase.transit : Phase → List Element
  | freeing e => [e]
  | returning e => [e]
  | _ => []

/-- How often an element is in a pool, or on its way through `slab_free` there. -/
def Pool.count (e : Element) (pool : Pool) : ℕ :=
  pool.phase.transit.count e + pool.free.count e + pool.migrated.count e

namespace State

def inPools (s : State) (e : Element) : ℕ := Slots.sum (Pool.count e) s.numPools s.pools

/-- The element was allocated with some page. -/
def Exists (s : State) (e : Element) : Prop := e.page < s.numPages ∧ e.index < s.numElements

instance (s : State) (e : Element) : Decidable (s.Exists e) :=
  inferInstanceAs (Decidable (_ ∧ _))

/-- The pages of a pool are orphaned. -/
def Orphaned (s : State) (p : ℕ) : Prop :=
  (s.pools p).phase = .draining ∨ (s.pools p).phase = .destroyed

instance (s : State) (p : ℕ) : Decidable (s.Orphaned p) :=
  inferInstanceAs (Decidable (_ ∨ _))

/-- The number of elements of a page that were returned to it. -/
def returnedTo (s : State) (g : ℕ) : ℕ := s.returned.countP (Element.page · = g)

end State

/-- Where the elements are, but for some that are in hand. -/
structure Places (hand : List Element) (s : State) : Prop where
  once : ∀ e, hand.count e + s.held.count e + s.inPools e + s.returned.count e
    = if s.Exists e then 1 else 0
  given : ∀ e, s.given.count e = s.freed.count e + s.held.count e

/-- Whom the elements belong to. -/
structure Ownership (s : State) : Prop where
  owner : ∀ e, s.Exists e → s.owner e
    = if s.Orphaned (s.home e.page) then .orphaned e.page else .pool (s.home e.page)
  home_lt : ∀ g < s.numPages, s.home g < s.numPools
  pages : ∀ p g, g ∈ (s.pools p).pages ↔ g < s.numPages ∧ s.home g = p ∧ ¬ s.Orphaned p
  free_home : ∀ p, ∀ e ∈ (s.pools p).free, s.home e.page = p
  migrated_home : ∀ p, ∀ e ∈ (s.pools p).migrated, s.home e.page = p
  migrated_nil : ∀ p, s.Orphaned p → (s.pools p).migrated = []
  free_nil : ∀ p, (s.pools p).phase = .destroyed → (s.pools p).free = []
  collecting_nil : ∀ p, (s.pools p).phase = .collecting → (s.pools p).free = []
  returning : ∀ p e, (s.pools p).phase = .returning e → s.Orphaned (s.home e.page)
  fresh : ∀ p, s.numPools ≤ p → s.pools p = {}

/-- The counts of the orphaned pages. -/
structure Counts (s : State) : Prop where
  returned_orphaned : ∀ e ∈ s.returned, s.Orphaned (s.home e.page)
  remaining : ∀ g < s.numPages, s.Orphaned (s.home g) →
    s.numRemaining g + s.returnedTo g = s.numElements
  released : ∀ g, g ∈ s.released ↔
    g < s.numPages ∧ s.Orphaned (s.home g) ∧ s.numRemaining g = 0
  once : s.released.Nodup

/-- What every step keeps, where some elements are in hand in the middle of one. -/
structure Inv (hand : List Element) (s : State) : Prop where
  positive : 0 < s.numElements
  places : Places hand s
  ownership : Ownership s
  counts : Counts s

/-! ### Elements of a page -/

/-- There are no more elements of a page than there are indices. -/
theorem length_le_of_page {g n : ℕ} {l : List Element} (nodup : l.Nodup)
    (inside : ∀ e ∈ l, e.page = g ∧ e.index < n) :
  l.length ≤ n
  := by
  have indices : (l.map Element.index).Nodup := by
    apply List.Nodup.map_on _ nodup
    intro a ha b hb same
    obtain ⟨page, index⟩ := a
    obtain ⟨page', index'⟩ := b
    have pages := (inside _ ha).1.trans (inside _ hb).1.symm
    change page = page' at pages
    change index = index' at same
    rw [pages, same]
  have subset : l.map Element.index ⊆ List.range n := by
    intro i mem
    obtain ⟨e, he, rfl⟩ := List.mem_map.1 mem
    exact List.mem_range.2 (inside e he).2
  have bound := (indices.subperm subset).length_le
  rw [List.length_map, List.length_range] at bound
  exact bound

section Returned

variable {s : State} {hand : List Element}

theorem Places.count_le_one (h : Places hand s) (e : Element) :
  hand.count e + s.held.count e + s.inPools e + s.returned.count e ≤ 1
  := by
  rw [h.once]
  split
  · exact Nat.le_refl _
  · exact Nat.zero_le _

theorem Places.exists_of_pos (h : Places hand s) {e : Element}
    (pos : 0 < hand.count e + s.held.count e + s.inPools e + s.returned.count e) :
  s.Exists e
  := by
  rw [h.once] at pos
  by_contra missing
  rw [if_neg missing] at pos
  exact Nat.lt_irrefl _ pos

theorem Places.returned_nodup (h : Places hand s) :
  s.returned.Nodup
  := by
  apply List.nodup_iff_count_le_one.2
  intro e
  have := h.count_le_one e
  omega

/-- An element that is somewhere else is missing from those that were returned to its page. -/
theorem Places.returnedTo_lt (h : Places hand s) {e : Element} (there : s.Exists e)
    (missing : e ∉ s.returned) :
  s.returnedTo e.page < s.numElements
  := by
  have nodup : (e :: s.returned.filter (Element.page · = e.page)).Nodup := by
    apply List.nodup_cons.2
    constructor
    · intro mem
      exact missing (List.mem_filter.1 mem).1
    · exact h.returned_nodup.filter _
  have inside : ∀ x ∈ e :: s.returned.filter (Element.page · = e.page),
      x.page = e.page ∧ x.index < s.numElements := by
    intro x mem
    rcases List.mem_cons.1 mem with rfl | mem
    · exact ⟨rfl, there.2⟩
    · obtain ⟨ret, page⟩ := List.mem_filter.1 mem
      have pos := List.count_pos_iff.2 ret
      exact ⟨of_decide_eq_true page, (h.exists_of_pos (by omega)).2⟩
  have bound := length_le_of_page nodup inside
  rw [List.length_cons] at bound
  rw [State.returnedTo, List.countP_eq_length_filter]
  exact bound

end Returned

/-! ### Returning elements to their pages -/

theorem decremented_of_pos {n : ℕ} (h : 0 < n) :
  State.decremented n = n - 1
  := if_neg (by omega)

theorem Inv.freeOrphaned {s : State} {e : Element} {hand : List Element} (inv : Inv (e :: hand) s)
    (orphaned : s.Orphaned (s.home e.page)) :
  Inv hand (s.freeOrphaned e)
  := by
  obtain ⟨positive, places, ownership, counts⟩ := inv
  have once := places.count_le_one e
  rw [List.count_cons_self] at once
  have there : s.Exists e := places.exists_of_pos (by rw [List.count_cons_self]; omega)
  have missing : e ∉ s.returned := by
    intro mem
    have := List.count_pos_iff.2 mem
    omega
  have owner : s.owner e = .orphaned e.page := by
    rw [ownership.owner e there, if_pos orphaned]
  have fewer := places.returnedTo_lt there missing
  have remaining := counts.remaining e.page there.1 orphaned
  have down := decremented_of_pos (n := s.numRemaining e.page) (by omega)
  have unreleased : e.page ∉ s.released := by
    intro mem
    have := ((counts.released _).1 mem).2.2
    omega
  unfold State.freeOrphaned
  rw [owner]
  dsimp only
  rw [down]
  constructor
  · exact positive
  · constructor
    · intro x
      have before := places.once x
      change hand.count x + s.held.count x + s.inPools x + (e :: s.returned).count x
        = if s.Exists x then 1 else 0
      rw [List.count_cons] at before ⊢
      omega
    · exact places.given
  · exact ⟨ownership.owner, ownership.home_lt, ownership.pages, ownership.free_home,
      ownership.migrated_home, ownership.migrated_nil, ownership.free_nil,
      ownership.collecting_nil, ownership.returning, ownership.fresh⟩
  · constructor
    · intro x mem
      rcases List.mem_cons.1 mem with rfl | old
      · exact orphaned
      · exact counts.returned_orphaned x old
    · intro g lt orphaned'
      have before := counts.remaining g lt orphaned'
      change Function.update s.numRemaining e.page (s.numRemaining e.page - 1) g
        + (e :: s.returned).countP (Element.page · = g) = s.numElements
      rw [List.countP_cons]
      change _ + (s.returnedTo g + _) = _
      rcases eq_or_ne g e.page with rfl | other
      · rw [Function.update_self, if_pos (decide_eq_true rfl)]
        omega
      · rw [Function.update_of_ne other, if_neg (by simpa using other.symm)]
        exact before
    · intro g
      change g ∈ (if s.numRemaining e.page - 1 = 0 then e.page :: s.released else s.released) ↔
        g < s.numPages ∧ s.Orphaned (s.home g) ∧
          Function.update s.numRemaining e.page (s.numRemaining e.page - 1) g = 0
      rcases eq_or_ne g e.page with rfl | other
      · rw [Function.update_self]
        split
        · rename_i zero
          exact ⟨fun _ => ⟨there.1, orphaned, zero⟩, fun _ => List.mem_cons_self⟩
        · rename_i more
          exact ⟨fun mem => absurd mem unreleased, fun h => absurd h.2.2 more⟩
      · rw [Function.update_of_ne other]
        split
        · rw [List.mem_cons, or_iff_right other]
          exact counts.released g
        · exact counts.released g
    · dsimp only
      split
      · exact List.nodup_cons.2 ⟨unreleased, counts.once⟩
      · exact counts.once

theorem home_freeOrphaned (s : State) (e : Element) :
  (s.freeOrphaned e).home = s.home ∧ (s.freeOrphaned e).pools = s.pools
  := by
  unfold State.freeOrphaned
  split
  · exact ⟨rfl, rfl⟩
  · exact ⟨rfl, rfl⟩

/-- The loop over the migrated elements of a pool that is destroyed. -/
theorem Inv.foldl_freeOrphaned {s : State} {l hand : List Element} (inv : Inv (l ++ hand) s)
    (orphaned : ∀ e ∈ l, s.Orphaned (s.home e.page)) :
  Inv hand (l.foldl State.freeOrphaned s)
  := by
  induction l generalizing s with
  | nil => exact inv
  | cons e l ih =>
    obtain ⟨home, pools⟩ := home_freeOrphaned s e
    apply ih (inv.freeOrphaned (orphaned e List.mem_cons_self))
    intro x mem
    rw [home, State.Orphaned, pools]
    exact orphaned x (List.mem_cons_of_mem _ mem)

/-! ### Pools -/

section Pools

variable {s : State} {p : ℕ} {hand : List Element}

theorem pools_setPool_self (pool : Pool) :
  (s.setPool p pool).pools p = pool
  := Function.update_self _ _ _

theorem pools_setPool {pool : Pool} {q : ℕ} (other : q ≠ p) :
  (s.setPool p pool).pools q = s.pools q
  := Function.update_of_ne other _ _

theorem inPools_setPool (hp : p < s.numPools) (pool : Pool) (e : Element) :
  (s.setPool p pool).inPools e + (s.pools p).count e = s.inPools e + pool.count e
  := Slots.sum_update (Pool.count e) s.pools hp pool

/-- A pool may take the place of another one if it has the same pages and if it is orphaned as the
other one is. -/
structure Pool.Replaces (s : State) (p : ℕ) (pool : Pool) : Prop where
  pages : pool.pages = (s.pools p).pages
  orphaned : pool.phase = .draining ∨ pool.phase = .destroyed ↔ s.Orphaned p
  free_home : ∀ e ∈ pool.free, s.home e.page = p
  migrated_home : ∀ e ∈ pool.migrated, s.home e.page = p
  migrated_nil : s.Orphaned p → pool.migrated = []
  free_nil : pool.phase = .destroyed → pool.free = []
  collecting_nil : pool.phase = .collecting → pool.free = []
  returning : ∀ e, pool.phase = .returning e → s.Orphaned (s.home e.page)

theorem Pool.Replaces.orphaned_eq {pool : Pool} (h : pool.Replaces s p) :
  (s.setPool p pool).Orphaned = s.Orphaned
  := by
  funext q
  apply propext
  rcases eq_or_ne q p with rfl | other
  · rw [State.Orphaned, pools_setPool_self]
    exact h.orphaned
  · rw [State.Orphaned, pools_setPool other]
    rfl

theorem Ownership.setPool (own : Ownership s) (hp : p < s.numPools) {pool : Pool}
    (h : pool.Replaces s p) :
  Ownership (s.setPool p pool)
  := by
  have orphaned := h.orphaned_eq
  constructor
  · intro e there
    have before := own.owner e there
    simp only [orphaned]
    exact before
  · exact own.home_lt
  · intro q g
    rw [orphaned]
    rcases eq_or_ne q p with rfl | other
    · rw [pools_setPool_self, h.pages]
      exact own.pages q g
    · rw [pools_setPool other]
      exact own.pages q g
  · intro q
    rcases eq_or_ne q p with rfl | other
    · rw [pools_setPool_self]
      exact h.free_home
    · rw [pools_setPool other]
      exact own.free_home q
  · intro q
    rcases eq_or_ne q p with rfl | other
    · rw [pools_setPool_self]
      exact h.migrated_home
    · rw [pools_setPool other]
      exact own.migrated_home q
  · intro q
    rw [orphaned]
    rcases eq_or_ne q p with rfl | other
    · rw [pools_setPool_self]
      exact h.migrated_nil
    · rw [pools_setPool other]
      exact own.migrated_nil q
  · intro q
    rcases eq_or_ne q p with rfl | other
    · rw [pools_setPool_self]
      exact h.free_nil
    · rw [pools_setPool other]
      exact own.free_nil q
  · intro q
    rcases eq_or_ne q p with rfl | other
    · rw [pools_setPool_self]
      exact h.collecting_nil
    · rw [pools_setPool other]
      exact own.collecting_nil q
  · intro q e
    rw [orphaned]
    rcases eq_or_ne q p with rfl | other
    · rw [pools_setPool_self]
      exact h.returning e
    · rw [pools_setPool other]
      exact own.returning q e
  · intro q ge
    change s.numPools ≤ q at ge
    rw [pools_setPool (by omega)]
    exact own.fresh q ge

theorem Counts.setPool (counts : Counts s) {pool : Pool} (h : pool.Replaces s p) :
  Counts (s.setPool p pool)
  := by
  have orphaned := h.orphaned_eq
  constructor
  · rw [orphaned]
    exact counts.returned_orphaned
  · rw [orphaned]
    exact counts.remaining
  · rw [orphaned]
    exact counts.released
  · exact counts.once

/-- Elements move between the hand and a pool. -/
theorem Inv.setPool {hand' : List Element} (inv : Inv hand s) (hp : p < s.numPools) {pool : Pool}
    (h : pool.Replaces s p)
    (moved : ∀ e, hand'.count e + pool.count e = hand.count e + (s.pools p).count e) :
  Inv hand' (s.setPool p pool)
  := by
  constructor
  · exact inv.positive
  · constructor
    · intro e
      have before := inv.places.once e
      have set := inPools_setPool hp pool e
      have same := moved e
      change hand'.count e + s.held.count e + (s.setPool p pool).inPools e + s.returned.count e
        = if s.Exists e then 1 else 0
      omega
    · exact inv.places.given
  · exact inv.ownership.setPool hp h
  · exact inv.counts.setPool h

/-- A pool that is not destroyed goes on with an operation. -/
theorem replaces_of_live (live : ¬ s.Orphaned p) {free migrated : List Element}
    {phase : Phase} (draining : phase ≠ .draining) (destroyed : phase ≠ .destroyed)
    (free_home : ∀ e ∈ free, s.home e.page = p)
    (migrated_home : ∀ e ∈ migrated, s.home e.page = p)
    (collecting_nil : phase = .collecting → free = [])
    (returning : ∀ e, phase = .returning e → s.Orphaned (s.home e.page)) :
  Pool.Replaces s p { s.pools p with free := free, migrated := migrated, phase := phase }
  := by
  constructor
  · rfl
  · constructor
    · intro h
      rcases h with h | h
      · exact absurd h draining
      · exact absurd h destroyed
    · intro h
      exact absurd h live
  · exact free_home
  · exact migrated_home
  · intro h
    exact absurd h live
  · intro h
    exact absurd h destroyed
  · exact collecting_nil
  · exact returning

end Pools

/-! ### Allocation -/

section Alloc

variable {s : State} {p : ℕ} {hand : List Element}

theorem Inv.count_le_inPools (inv : Inv hand s) (q : ℕ) (e : Element) :
  (s.pools q).count e ≤ s.inPools e
  := by
  rcases Nat.lt_or_ge q s.numPools with lt | ge
  · have set := inPools_setPool lt {} e
    change _ + _ = _ + 0 at set
    omega
  · rw [inv.ownership.fresh q ge]
    exact Nat.zero_le _

/-- An element that is in a pool exists. -/
theorem Inv.exists_of_count (inv : Inv hand s) {q : ℕ} {e : Element}
    (pos : 0 < (s.pools q).count e) :
  s.Exists e
  := by
  have le := inv.count_le_inPools q e
  exact inv.places.exists_of_pos (by omega)

theorem Inv.exists_of_free (inv : Inv hand s) {q : ℕ} {e : Element} (mem : e ∈ (s.pools q).free) :
  s.Exists e
  := by
  apply inv.exists_of_count (q := q)
  have := List.count_pos_iff.2 mem
  rw [Pool.count]
  omega

theorem Inv.exists_of_migrated (inv : Inv hand s) {q : ℕ} {e : Element}
    (mem : e ∈ (s.pools q).migrated) :
  s.Exists e
  := by
  apply inv.exists_of_count (q := q)
  have := List.count_pos_iff.2 mem
  rw [Pool.count]
  omega

theorem Inv.exists_of_returning (inv : Inv hand s) {q : ℕ} {e : Element}
    (phase : (s.pools q).phase = .returning e) :
  s.Exists e
  := by
  apply inv.exists_of_count (q := q)
  rw [Pool.count, phase, Phase.transit, List.count_cons_self]
  omega

/-- An element is handed out. -/
theorem Inv.give {e : Element} (inv : Inv (e :: hand) s) :
  Inv hand { s with held := e :: s.held, given := e :: s.given }
  := by
  obtain ⟨positive, places, own, counts⟩ := inv
  constructor
  · exact positive
  · constructor
    · intro x
      have before := places.once x
      change hand.count x + (e :: s.held).count x + s.inPools x + s.returned.count x
        = if s.Exists x then 1 else 0
      rw [List.count_cons] at before ⊢
      omega
    · intro x
      have before := places.given x
      change (e :: s.given).count x = s.freed.count x + (e :: s.held).count x
      rw [List.count_cons, List.count_cons]
      omega
  · exact ⟨own.owner, own.home_lt, own.pages, own.free_home, own.migrated_home, own.migrated_nil,
      own.free_nil, own.collecting_nil, own.returning, own.fresh⟩
  · exact ⟨counts.returned_orphaned, counts.remaining, counts.released, counts.once⟩

/-- An element is passed to `slab_free`. -/
theorem Inv.take {e : Element} (inv : Inv hand s) (mem : e ∈ s.held) :
  Inv (e :: hand) { s with held := s.held.erase e, freed := e :: s.freed }
  := by
  obtain ⟨positive, places, own, counts⟩ := inv
  have held : ∀ x, (s.held.erase e).count x + (if e = x then 1 else 0) = s.held.count x := by
    intro x
    have perm := (List.perm_cons_erase mem).count_eq x
    rw [perm, List.count_cons]
    simp only [beq_iff_eq]
  constructor
  · exact positive
  · constructor
    · intro x
      have before := places.once x
      have less := held x
      change (e :: hand).count x + (s.held.erase e).count x + s.inPools x + s.returned.count x
        = if s.Exists x then 1 else 0
      rw [List.count_cons]
      simp only [beq_iff_eq]
      omega
    · intro x
      have before := places.given x
      have less := held x
      change s.given.count x = (e :: s.freed).count x + (s.held.erase e).count x
      rw [List.count_cons]
      simp only [beq_iff_eq]
      omega
  · exact ⟨own.owner, own.home_lt, own.pages, own.free_home, own.migrated_home, own.migrated_nil,
      own.free_nil, own.collecting_nil, own.returning, own.fresh⟩
  · exact ⟨counts.returned_orphaned, counts.remaining, counts.released, counts.once⟩

theorem not_orphaned_of_phase {phase : Phase} (at_p : (s.pools p).phase = phase)
    (draining : phase ≠ .draining) (destroyed : phase ≠ .destroyed) :
  ¬ s.Orphaned p
  := by
  rintro (h | h)
  · exact draining (at_p.symm.trans h)
  · exact destroyed (at_p.symm.trans h)

theorem transit_idle :
  Phase.idle.transit = []
  := rfl

theorem Inv.giveFirst (inv : Inv [] s) (hp : p < s.numPools) (live : ¬ s.Orphaned p)
    (transit : (s.pools p).phase.transit = []) :
  Inv [] (s.giveFirst p)
  := by
  have own := inv.ownership
  unfold State.giveFirst
  split
  · rename_i e free first
    have rest : Inv [e] (s.setPool p { s.pools p with free := free, phase := .idle }) := by
      apply inv.setPool hp
      · apply replaces_of_live live (by simp) (by simp)
        · intro x mem
          exact own.free_home p x (first ▸ List.mem_cons_of_mem _ mem)
        · exact own.migrated_home p
        · intro h
          cases h
        · intro x h
          cases h
      · intro x
        simp only [Pool.count, transit, first, transit_idle, List.count_cons, List.count_nil]
        omega
    exact rest.give
  · rename_i none
    apply inv.setPool hp
    · apply replaces_of_live live (by simp) (by simp) (own.free_home p) (own.migrated_home p)
      · intro h
        cases h
      · intro x h
        cases h
    · intro x
      simp only [Pool.count, transit, transit_idle]

theorem Inv.alloc (inv : Inv [] s) (hp : p < s.numPools) (idle : (s.pools p).phase = .idle) :
  Inv [] (s.alloc p)
  := by
  have own := inv.ownership
  have live := not_orphaned_of_phase idle (by simp) (by simp)
  unfold State.alloc
  split
  · rename_i none
    apply inv.setPool hp
    · apply replaces_of_live live (by simp) (by simp) (own.free_home p) (own.migrated_home p)
      · intro _
        exact none
      · intro x h
        cases h
    · intro x
      simp only [Pool.count, idle, Phase.transit]
  · exact inv.giveFirst hp live (by rw [idle]; rfl)

theorem Inv.collect (inv : Inv [] s) (hp : p < s.numPools)
    (collecting : (s.pools p).phase = .collecting) :
  Inv [] (s.collect p)
  := by
  have own := inv.ownership
  have live := not_orphaned_of_phase collecting (by simp) (by simp)
  have none := own.collecting_nil p collecting
  apply inv.setPool hp
  · apply replaces_of_live live (by simp) (by simp) (own.migrated_home p)
    · intro x mem
      cases mem
    · intro h
      cases h
    · intro x h
      cases h
  · intro x
    simp only [Pool.count, collecting, none, Phase.transit, List.count_nil]
    omega

theorem count_elements (s : State) (g : ℕ) (e : Element) :
  (s.elements g).count e = if e.page = g ∧ e.index < s.numElements then 1 else 0
  := by
  have nodup : (s.elements g).Nodup := by
    apply List.nodup_reverse.2
    apply List.Nodup.map _ List.nodup_range
    intro i j same
    exact (Element.mk.inj same).2
  have mem : e ∈ s.elements g ↔ e.page = g ∧ e.index < s.numElements := by
    rw [State.elements, List.mem_reverse, List.mem_map]
    constructor
    · rintro ⟨i, hi, rfl⟩
      exact ⟨rfl, List.mem_range.1 hi⟩
    · rintro ⟨rfl, hi⟩
      exact ⟨e.index, List.mem_range.2 hi, rfl⟩
  split
  · rename_i inside
    exact List.count_eq_one_of_mem nodup (mem.2 inside)
  · rename_i outside
    apply List.count_eq_zero.2
    intro h
    exact outside (mem.1 h)

end Alloc

section NewPage

variable {s : State} {p : ℕ}

theorem home_addNewPage (s : State) (p : ℕ) {g : ℕ} (old : g < s.numPages) :
  (s.addNewPage p).home g = s.home g
  := Function.update_of_ne (Nat.ne_of_lt old) _ _

theorem orphaned_addNewPage (s : State) (p : ℕ) :
  (s.addNewPage p).Orphaned = s.Orphaned
  := by
  funext q
  rcases eq_or_ne q p with rfl | other
  · change ((Function.update s.pools q _ q).phase = .draining ∨
      (Function.update s.pools q _ q).phase = .destroyed) = _
    rw [Function.update_self]
    rfl
  · change ((Function.update s.pools p _ q).phase = .draining ∨
      (Function.update s.pools p _ q).phase = .destroyed) = _
    rw [Function.update_of_ne other]
    rfl

theorem pools_addNewPage_self (s : State) (p : ℕ) :
  (s.addNewPage p).pools p = { s.pools p with
    free := s.elements s.numPages ++ (s.pools p).free
    pages := s.numPages :: (s.pools p).pages }
  := Function.update_self _ _ _

theorem pools_addNewPage (s : State) {p q : ℕ} (other : q ≠ p) :
  (s.addNewPage p).pools q = s.pools q
  := Function.update_of_ne other _ _

theorem Places.addNewPage (places : Places [] s) (hp : p < s.numPools) :
  Places [] (s.addNewPage p)
  := by
  constructor
  · intro e
    have before := places.once e
    have new := count_elements s s.numPages e
    have set := inPools_setPool hp ((s.addNewPage p).pools p) e
    have more : ((s.addNewPage p).pools p).count e
        = (s.pools p).count e + (s.elements s.numPages).count e := by
      rw [pools_addNewPage_self]
      simp only [Pool.count, List.count_append]
      omega
    have whole : (s.setPool p ((s.addNewPage p).pools p)).inPools e = (s.addNewPage p).inPools e := by
      rw [pools_addNewPage_self]
      rfl
    change [].count e + s.held.count e + (s.addNewPage p).inPools e + s.returned.count e
      = if e.page < s.numPages + 1 ∧ e.index < s.numElements then 1 else 0
    change _ = if e.page < s.numPages ∧ e.index < s.numElements then 1 else 0 at before
    rcases Nat.lt_trichotomy e.page s.numPages with lt | eq | gt
    · rw [if_neg (by omega)] at new
      have same : (e.page < s.numPages + 1 ∧ e.index < s.numElements)
          = (e.page < s.numPages ∧ e.index < s.numElements) := by
        apply propext
        omega
      simp only [same]
      omega
    · rw [if_neg (by omega)] at before
      have same : (e.page = s.numPages ∧ e.index < s.numElements)
          = (e.page < s.numPages + 1 ∧ e.index < s.numElements) := by
        apply propext
        omega
      simp only [same] at new
      omega
    · rw [if_neg (by omega)] at before new
      rw [if_neg (by omega)]
      omega
  · exact places.given

theorem Ownership.addNewPage (inv : Inv [] s) (hp : p < s.numPools) (live : ¬ s.Orphaned p)
    (notCollecting : (s.pools p).phase ≠ .collecting) :
  Ownership (s.addNewPage p)
  := by
  have own := inv.ownership
  have orphaned := orphaned_addNewPage s p
  have newHome : (s.addNewPage p).home s.numPages = p := Function.update_self _ _ _
  have phase : ∀ q, ((s.addNewPage p).pools q).phase = (s.pools q).phase := by
    intro q
    rcases eq_or_ne q p with rfl | other
    · rw [pools_addNewPage_self]
    · rw [pools_addNewPage s other]
  have migrated : ∀ q, ((s.addNewPage p).pools q).migrated = (s.pools q).migrated := by
    intro q
    rcases eq_or_ne q p with rfl | other
    · rw [pools_addNewPage_self]
    · rw [pools_addNewPage s other]
  constructor
  · intro e there
    change e.page < s.numPages + 1 ∧ e.index < s.numElements at there
    simp only [orphaned]
    change (if e.page = s.numPages ∧ e.index < s.numElements then Owner.pool p else s.owner e) = _
    rcases Nat.lt_or_ge e.page s.numPages with old | new
    · rw [if_neg (by omega), home_addNewPage s p old]
      exact own.owner e ⟨old, there.2⟩
    · have same : e.page = s.numPages := by omega
      rw [if_pos ⟨same, there.2⟩, same, newHome, if_neg live]
  · intro g lt
    change g < s.numPages + 1 at lt
    rcases Nat.lt_or_ge g s.numPages with old | new
    · rw [home_addNewPage s p old]
      exact own.home_lt g old
    · rw [show g = s.numPages by omega, newHome]
      exact hp
  · intro q g
    rw [orphaned]
    change _ ↔ g < s.numPages + 1 ∧ _
    have before := own.pages q g
    rcases Nat.lt_trichotomy g s.numPages with old | rfl | beyond
    · rw [home_addNewPage s p old]
      rcases eq_or_ne q p with rfl | other
      · rw [pools_addNewPage_self, List.mem_cons, or_iff_right (by omega), before]
        constructor
        · intro h
          exact ⟨by omega, h.2⟩
        · intro h
          exact ⟨old, h.2⟩
      · rw [pools_addNewPage s other, before]
        constructor
        · intro h
          exact ⟨by omega, h.2⟩
        · intro h
          exact ⟨old, h.2⟩
    · rw [newHome]
      rcases eq_or_ne q p with rfl | other
      · rw [pools_addNewPage_self]
        exact ⟨fun _ => ⟨Nat.lt_succ_self _, rfl, live⟩, fun _ => List.mem_cons_self⟩
      · rw [pools_addNewPage s other, before]
        exact ⟨fun h => absurd h.1 (Nat.lt_irrefl _), fun h => absurd h.2.1.symm other⟩
    · have absent : g ∉ (s.pools q).pages := by
        intro mem
        have := (before.1 mem).1
        omega
      constructor
      · intro mem
        rcases eq_or_ne q p with rfl | other
        · rw [pools_addNewPage_self, List.mem_cons] at mem
          rcases mem with h | h
          · omega
          · exact absurd h absent
        · rw [pools_addNewPage s other] at mem
          exact absurd mem absent
      · intro h
        omega
  · intro q e mem
    rcases eq_or_ne q p with rfl | other
    · rw [pools_addNewPage_self] at mem
      rcases List.mem_append.1 mem with new | old
      · have one := List.count_pos_iff.2 new
        rw [count_elements] at one
        have page : e.page = s.numPages := by
          by_contra no
          rw [if_neg (by omega)] at one
          omega
        rw [page, newHome]
      · rw [home_addNewPage s q (inv.exists_of_free old).1]
        exact own.free_home q e old
    · rw [pools_addNewPage s other] at mem
      rw [home_addNewPage s p (inv.exists_of_free mem).1]
      exact own.free_home q e mem
  · intro q e mem
    rw [migrated] at mem
    rw [home_addNewPage s p (inv.exists_of_migrated mem).1]
    exact own.migrated_home q e mem
  · intro q
    rw [orphaned, migrated]
    exact own.migrated_nil q
  · intro q h
    rw [phase] at h
    rcases eq_or_ne q p with rfl | other
    · exact absurd (.inr h) live
    · rw [pools_addNewPage s other]
      exact own.free_nil q h
  · intro q h
    rw [phase] at h
    rcases eq_or_ne q p with rfl | other
    · exact absurd h notCollecting
    · rw [pools_addNewPage s other]
      exact own.collecting_nil q h
  · intro q e h
    rw [phase] at h
    rw [orphaned, home_addNewPage s p (inv.exists_of_returning h).1]
    exact own.returning q e h
  · intro q ge
    change s.numPools ≤ q at ge
    rw [pools_addNewPage s (by omega)]
    exact own.fresh q ge

theorem Counts.addNewPage (inv : Inv [] s) (live : ¬ s.Orphaned p) :
  Counts (s.addNewPage p)
  := by
  have counts := inv.counts
  have orphaned := orphaned_addNewPage s p
  have newHome : (s.addNewPage p).home s.numPages = p := Function.update_self _ _ _
  constructor
  · intro e mem
    have pos := List.count_pos_iff.2 mem
    change 0 < s.returned.count e at pos
    have there := inv.places.exists_of_pos (e := e) (by omega)
    rw [orphaned, home_addNewPage s p there.1]
    exact counts.returned_orphaned e mem
  · intro g lt h
    change g < s.numPages + 1 at lt
    rw [orphaned] at h
    rcases Nat.lt_or_ge g s.numPages with old | new
    · rw [home_addNewPage s p old] at h
      exact counts.remaining g old h
    · rw [show g = s.numPages by omega, newHome] at h
      exact absurd h live
  · intro g
    rw [orphaned]
    change g ∈ s.released ↔ g < s.numPages + 1 ∧ _
    rw [counts.released]
    rcases Nat.lt_trichotomy g s.numPages with old | rfl | beyond
    · rw [home_addNewPage s p old]
      constructor
      · intro h
        exact ⟨by omega, h.2⟩
      · intro h
        exact ⟨old, h.2⟩
    · rw [newHome]
      exact ⟨fun h => absurd h.1 (Nat.lt_irrefl _), fun h => absurd h.2.1 live⟩
    · constructor
      · intro h
        omega
      · intro h
        omega
  · exact counts.once

theorem Inv.addNewPage (inv : Inv [] s) (hp : p < s.numPools) (live : ¬ s.Orphaned p)
    (notCollecting : (s.pools p).phase ≠ .collecting) :
  Inv [] (s.addNewPage p)
  := ⟨inv.positive, inv.places.addNewPage hp, Ownership.addNewPage inv hp live notCollecting,
    Counts.addNewPage inv live⟩

theorem Inv.refill (inv : Inv [] s) (hp : p < s.numPools) (refilled : (s.pools p).phase = .refilled)
    (memory : Bool) :
  Inv [] (s.refill p memory)
  := by
  have live := not_orphaned_of_phase refilled (by simp) (by simp)
  have transit : (s.pools p).phase.transit = [] := by
    rw [refilled]
    rfl
  unfold State.refill
  split
  · split
    · have more := inv.addNewPage hp live (by rw [refilled]; simp)
      apply more.giveFirst hp
      · rw [orphaned_addNewPage]
        exact live
      · rw [pools_addNewPage_self]
        exact transit
    · exact inv.giveFirst hp live transit
  · exact inv.giveFirst hp live transit

end NewPage

/-! ### Freeing elements -/

section Free

variable {s : State} {p : ℕ}

theorem Inv.free (inv : Inv [] s) (hp : p < s.numPools) (idle : (s.pools p).phase = .idle)
    {e : Element} (mem : e ∈ s.held) :
  Inv [] (s.free p e)
  := by
  have live := not_orphaned_of_phase idle (by simp) (by simp)
  have there : s.Exists e := by
    have := List.count_pos_iff.2 mem
    exact inv.places.exists_of_pos (by omega)
  have taken := inv.take mem
  have own := taken.ownership
  have live' : ¬ State.Orphaned { s with held := s.held.erase e, freed := e :: s.freed } p := live
  unfold State.free
  dsimp only
  split
  · rename_i mine
    have home : s.home e.page = p := by
      have owner := inv.ownership.owner e there
      rw [mine] at owner
      split at owner
      · cases owner
      · exact (Owner.pool.inj owner).symm
    apply taken.setPool hp
    · apply replaces_of_live live'
      · rw [idle]
        simp
      · rw [idle]
        simp
      · intro x mem
        rcases List.mem_cons.1 mem with rfl | old
        · exact home
        · exact own.free_home p x old
      · exact own.migrated_home p
      · rw [idle]
        intro h
        cases h
      · rw [idle]
        intro x h
        cases h
    · intro x
      simp only [Pool.count, List.count_cons, List.count_nil]
      omega
  · apply taken.setPool hp
    · apply replaces_of_live live' (by simp) (by simp) (own.free_home p) (own.migrated_home p)
      · intro h
        cases h
      · intro x h
        cases h
    · intro x
      simp only [Pool.count, idle, Phase.transit, List.count_nil]
      omega

/-- The operation on a pool is over, with an element in hand. -/
theorem Inv.finish (inv : Inv [] s) (hp : p < s.numPools) {e : Element} (live : ¬ s.Orphaned p)
    (transit : (s.pools p).phase.transit = [e]) :
  Inv [e] (s.setPool p { s.pools p with phase := .idle })
  := by
  have own := inv.ownership
  apply inv.setPool hp
  · apply replaces_of_live live (by simp) (by simp) (own.free_home p) (own.migrated_home p)
    · intro h
      cases h
    · intro x h
      cases h
  · intro x
    simp only [Pool.count, transit, transit_idle, List.count_nil]
    omega

theorem Inv.migrate (inv : Inv [] s) (hp : p < s.numPools) {e : Element}
    (freeing : (s.pools p).phase = .freeing e) :
  Inv [] (s.migrate p e)
  := by
  have own := inv.ownership
  have live := not_orphaned_of_phase freeing (by simp) (by simp)
  have transit : (s.pools p).phase.transit = [e] := by
    rw [freeing]
    rfl
  have there : s.Exists e := by
    apply inv.exists_of_count (q := p)
    rw [Pool.count, transit, List.count_cons_self]
    omega
  have owner := own.owner e there
  unfold State.migrate
  split
  · rename_i q mine
    rw [mine] at owner
    split at owner
    · cases owner
    · rename_i alive
      have home : s.home e.page = q := (Owner.pool.inj owner).symm
      rw [home] at alive
      have finished := inv.finish hp live transit
      have own' := finished.ownership
      have alive' : ¬ (s.setPool p { s.pools p with phase := .idle }).Orphaned q := by
        intro h
        rcases eq_or_ne q p with rfl | other
        · rw [State.Orphaned, pools_setPool_self] at h
          rcases h with h | h
          · cases h
          · cases h
        · rw [State.Orphaned, pools_setPool other] at h
          exact alive h
      apply finished.setPool (home ▸ own.home_lt e.page there.1)
      · apply replaces_of_live alive'
        · intro h
          exact alive' (.inl h)
        · intro h
          exact alive' (.inr h)
        · exact own'.free_home q
        · intro x mem
          rcases List.mem_cons.1 mem with rfl | old
          · exact home
          · exact own'.migrated_home q x old
        · exact own'.collecting_nil q
        · exact own'.returning q
      · intro x
        simp only [Pool.count, List.count_cons, List.count_nil]
        omega
  · rename_i g orphan
    rw [orphan] at owner
    split at owner
    · rename_i orphaned
      apply inv.setPool hp
      · apply replaces_of_live live (by simp) (by simp) (own.free_home p) (own.migrated_home p)
        · intro h
          cases h
        · intro x h
          rw [← Phase.returning.inj h]
          exact orphaned
      · intro x
        simp only [Pool.count, freeing, Phase.transit]
    · cases owner

theorem Inv.giveBack (inv : Inv [] s) (hp : p < s.numPools) {e : Element}
    (returning : (s.pools p).phase = .returning e) :
  Inv [] (s.giveBack p e)
  := by
  have live := not_orphaned_of_phase returning (by simp) (by simp)
  have orphaned := inv.ownership.returning p e returning
  have transit : (s.pools p).phase.transit = [e] := by
    rw [returning]
    rfl
  have finished := inv.finish hp live transit
  apply finished.freeOrphaned
  have other : s.home e.page ≠ p := by
    intro same
    rw [same] at orphaned
    exact live orphaned
  change State.Orphaned _ (s.home e.page)
  rw [State.Orphaned, pools_setPool other]
  exact orphaned

/-! ### Destroying pools -/

theorem Inv.drain (inv : Inv [] s) (hp : p < s.numPools)
    (draining : (s.pools p).phase = .draining) :
  Inv [] (s.drain p)
  := by
  have own := inv.ownership
  have orphaned : s.Orphaned p := .inl draining
  unfold State.drain
  split
  · rename_i e free first
    have replaces : Pool.Replaces s p { s.pools p with free := free } := by
      constructor
      · rfl
      · exact Iff.rfl
      · intro x mem
        exact own.free_home p x (first ▸ List.mem_cons_of_mem _ mem)
      · exact own.migrated_home p
      · exact own.migrated_nil p
      · intro h
        exact absurd (draining.symm.trans h) (by simp)
      · intro h
        exact absurd (draining.symm.trans h) (by simp)
      · exact own.returning p
    have rest : Inv [e] (s.setPool p { s.pools p with free := free }) := by
      apply inv.setPool hp replaces
      intro x
      simp only [Pool.count, first, List.count_cons, List.count_nil]
      omega
    apply rest.freeOrphaned
    have home : s.home e.page = p := own.free_home p e (first ▸ List.mem_cons_self)
    rw [replaces.orphaned_eq]
    change s.Orphaned (s.home e.page)
    rw [home]
    exact orphaned
  · rename_i none
    apply inv.setPool hp
    · constructor
      · rfl
      · exact ⟨fun _ => orphaned, fun _ => .inr rfl⟩
      · exact own.free_home p
      · exact own.migrated_home p
      · exact own.migrated_nil p
      · intro _
        exact none
      · intro h
        cases h
      · intro x h
        cases h
    · intro x
      simp only [Pool.count, draining, Phase.transit]

/-- The loop over the pages of a pool that is destroyed. -/
theorem foldl_orphan (s : State) (l : List ℕ) :
  l.foldl State.orphan s = { s with
    numRemaining := fun g => if g ∈ l then s.numElements else s.numRemaining g
    owner := fun e =>
      if e.page ∈ l ∧ e.index < s.numElements then .orphaned e.page else s.owner e }
  := by
  induction l generalizing s with
  | nil =>
    simp only [List.foldl_nil, List.not_mem_nil, if_false, false_and]
  | cons g l ih =>
    rw [List.foldl_cons, ih]
    unfold State.orphan
    dsimp only
    congr 1
    · funext e
      simp only [List.mem_cons]
      by_cases later : e.page ∈ l ∧ e.index < s.numElements
      · rw [if_pos later, if_pos ⟨.inr later.1, later.2⟩]
      · rw [if_neg later]
        by_cases now : e.page = g ∧ e.index < s.numElements
        · rw [if_pos now, if_pos ⟨.inl now.1, now.2⟩, now.1]
        · rw [if_neg now, if_neg]
          rintro ⟨h | h, lt⟩
          · exact now ⟨h, lt⟩
          · exact later ⟨h, lt⟩
    · funext x
      simp only [List.mem_cons]
      by_cases later : x ∈ l
      · rw [if_pos later, if_pos (.inr later)]
      · rw [if_neg later]
        rcases eq_or_ne x g with rfl | other
        · rw [Function.update_self, if_pos (.inl rfl)]
        · rw [Function.update_of_ne other, if_neg]
          rintro (h | h)
          · exact other h
          · exact later h

end Free

section Destroy

variable {s : State} {p : ℕ}

/-- The state after the first loop of `slab_destroy_child`. -/
def State.orphanPool (s : State) (p : ℕ) : State :=
  { s with
    numRemaining := fun g => if g ∈ (s.pools p).pages then s.numElements else s.numRemaining g
    owner := fun e =>
      if e.page ∈ (s.pools p).pages ∧ e.index < s.numElements then .orphaned e.page
      else s.owner e }.setPool p { s.pools p with pages := [], migrated := [], phase := .draining }

theorem destroyChild_eq (s : State) (p : ℕ) :
  s.destroyChild p = (s.pools p).migrated.foldl State.freeOrphaned (s.orphanPool p)
  := by
  unfold State.destroyChild
  dsimp only
  rw [foldl_orphan]
  rfl

theorem pools_orphanPool_self (s : State) (p : ℕ) :
  (s.orphanPool p).pools p
    = { s.pools p with pages := [], migrated := [], phase := .draining }
  := Function.update_self _ _ _

theorem pools_orphanPool (s : State) {p q : ℕ} (other : q ≠ p) :
  (s.orphanPool p).pools q = s.pools q
  := Function.update_of_ne other _ _

theorem orphaned_orphanPool (s : State) (p q : ℕ) :
  (s.orphanPool p).Orphaned q ↔ q = p ∨ s.Orphaned q
  := by
  rcases eq_or_ne q p with rfl | other
  · rw [State.Orphaned, pools_orphanPool_self]
    exact ⟨fun _ => .inl rfl, fun _ => .inl rfl⟩
  · rw [State.Orphaned, pools_orphanPool s other, or_iff_right other]
    rfl

theorem Ownership.orphanPool (own : Ownership s) (hp : p < s.numPools) (live : ¬ s.Orphaned p) :
  Ownership (s.orphanPool p)
  := by
  have mine : ∀ g, g ∈ (s.pools p).pages ↔ g < s.numPages ∧ s.home g = p := by
    intro g
    rw [own.pages]
    exact ⟨fun h => ⟨h.1, h.2.1⟩, fun h => ⟨h.1, h.2, live⟩⟩
  constructor
  · intro e there
    change (if e.page ∈ (s.pools p).pages ∧ e.index < s.numElements then Owner.orphaned e.page
      else s.owner e) = _
    have orphaned := orphaned_orphanPool s p (s.home e.page)
    by_cases home : s.home e.page = p
    · rw [if_pos ⟨(mine _).2 ⟨there.1, home⟩, there.2⟩]
      exact (if_pos (orphaned.2 (.inl home))).symm
    · rw [if_neg (fun h => home ((mine _).1 h.1).2), own.owner e there]
      rw [or_iff_right home] at orphaned
      exact if_congr orphaned.symm rfl rfl
  · exact own.home_lt
  · intro q g
    rw [orphaned_orphanPool]
    change _ ↔ g < s.numPages ∧ s.home g = q ∧ _
    rcases eq_or_ne q p with rfl | other
    · rw [pools_orphanPool_self]
      exact ⟨fun h => absurd h List.not_mem_nil, fun h => absurd (.inl rfl) h.2.2⟩
    · rw [pools_orphanPool s other, own.pages, or_iff_right other]
  · intro q e mem
    rcases eq_or_ne q p with rfl | other
    · rw [pools_orphanPool_self] at mem
      exact own.free_home q e mem
    · rw [pools_orphanPool s other] at mem
      exact own.free_home q e mem
  · intro q e mem
    rcases eq_or_ne q p with rfl | other
    · rw [pools_orphanPool_self] at mem
      cases mem
    · rw [pools_orphanPool s other] at mem
      exact own.migrated_home q e mem
  · intro q h
    rcases eq_or_ne q p with rfl | other
    · rw [pools_orphanPool_self]
    · rw [orphaned_orphanPool, or_iff_right other] at h
      rw [pools_orphanPool s other]
      exact own.migrated_nil q h
  · intro q h
    rcases eq_or_ne q p with rfl | other
    · rw [pools_orphanPool_self] at h
      cases h
    · rw [pools_orphanPool s other] at h ⊢
      exact own.free_nil q h
  · intro q h
    rcases eq_or_ne q p with rfl | other
    · rw [pools_orphanPool_self] at h
      cases h
    · rw [pools_orphanPool s other] at h ⊢
      exact own.collecting_nil q h
  · intro q e h
    rw [orphaned_orphanPool]
    rcases eq_or_ne q p with rfl | other
    · rw [pools_orphanPool_self] at h
      cases h
    · rw [pools_orphanPool s other] at h
      exact .inr (own.returning q e h)
  · intro q ge
    change s.numPools ≤ q at ge
    rw [pools_orphanPool s (by omega)]
    exact own.fresh q ge

theorem Counts.orphanPool (inv : Inv [] s) (live : ¬ s.Orphaned p) :
  Counts (s.orphanPool p)
  := by
  have counts := inv.counts
  have mine : ∀ g, g ∈ (s.pools p).pages ↔ g < s.numPages ∧ s.home g = p := by
    intro g
    rw [inv.ownership.pages]
    exact ⟨fun h => ⟨h.1, h.2.1⟩, fun h => ⟨h.1, h.2, live⟩⟩
  constructor
  · intro e mem
    exact (orphaned_orphanPool s p _).2 (.inr (counts.returned_orphaned e mem))
  · intro g lt h
    change (if g ∈ (s.pools p).pages then s.numElements else s.numRemaining g) + s.returnedTo g
      = s.numElements
    by_cases home : s.home g = p
    · -- no element was returned to a page that was not orphaned
      have none : s.returnedTo g = 0 := by
        apply List.countP_eq_zero.2
        intro e mem same
        have orphaned := counts.returned_orphaned e mem
        rw [of_decide_eq_true same, home] at orphaned
        exact live orphaned
      rw [if_pos ((mine g).2 ⟨lt, home⟩), none, add_zero]
    · rw [orphaned_orphanPool] at h
      rw [if_neg (fun mem => home ((mine g).1 mem).2)]
      exact counts.remaining g lt (h.resolve_left home)
  · intro g
    change g ∈ s.released ↔ g < s.numPages ∧ (s.orphanPool p).Orphaned (s.home g) ∧
      (if g ∈ (s.pools p).pages then s.numElements else s.numRemaining g) = 0
    rw [counts.released, orphaned_orphanPool]
    by_cases home : s.home g = p
    · constructor
      · intro h
        exact absurd (home ▸ h.2.1) live
      · intro h
        rw [if_pos ((mine g).2 ⟨h.1, home⟩)] at h
        exact absurd h.2.2 (Nat.ne_of_gt inv.positive)
    · rw [or_iff_right home, if_neg (fun mem => home ((mine g).1 mem).2)]
  · exact counts.once

theorem Inv.destroyChild (inv : Inv [] s) (hp : p < s.numPools)
    (idle : (s.pools p).phase = .idle) :
  Inv [] (s.destroyChild p)
  := by
  have live := not_orphaned_of_phase idle (by simp) (by simp)
  rw [destroyChild_eq]
  apply Inv.foldl_freeOrphaned
  · rw [List.append_nil]
    constructor
    · exact inv.positive
    · constructor
      · intro e
        have before := inv.places.once e
        have set := inPools_setPool hp ((s.orphanPool p).pools p) e
        have whole : (s.setPool p ((s.orphanPool p).pools p)).inPools e
            = (s.orphanPool p).inPools e := by
          rw [pools_orphanPool_self]
          rfl
        change (s.pools p).migrated.count e + s.held.count e + (s.orphanPool p).inPools e
          + s.returned.count e = if s.Exists e then 1 else 0
        have fewer : ((s.orphanPool p).pools p).count e + (s.pools p).migrated.count e
            = (s.pools p).count e := by
          rw [pools_orphanPool_self]
          simp only [Pool.count, idle, Phase.transit, List.count_nil]
          omega
        rw [List.count_nil] at before
        omega
      · exact inv.places.given
    · exact inv.ownership.orphanPool hp live
    · exact Counts.orphanPool inv live
  · intro e mem
    apply (orphaned_orphanPool s p _).2
    exact .inl (inv.ownership.migrated_home p e mem)

end Destroy

end Slab

end Util
