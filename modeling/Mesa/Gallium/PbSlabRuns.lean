import Mathlib.Data.List.Nodup
import Mathlib.Data.List.Perm.Subperm
import Mesa.Gallium.PbSlab

/-!
# Every entry of a slab is in one place

An entry is handed out, waits to be reclaimed, or is free.  The invariant says this with a count
for each entry, and relates the list of each group to the slabs that are linked.
-/

namespace Gallium

namespace PbSlab

/-! ### What is asked of the slabs -/

/-- In how many places an entry is. -/
def State.places (s : State) (e : Entry) : ℕ :=
  s.held.count e + s.reclaim.count e + (s.slabs e.slab).free.count e.index

/-- The entries are each in one place, the free entries are counted, a slab with free entries is
linked once, and `slab_free` was called once for each slab whose entries are all free. -/
structure Sound (s : State) : Prop where
  one_place : ∀ i < s.numSlabs, ∀ j ∈ (s.slabs i).entries, s.places ⟨i, j⟩ = 1
  known : ∀ e, s.places e ≠ 0 → e.slab < s.numSlabs ∧ e.index ∈ (s.slabs e.slab).entries
  numFree_eq : ∀ i < s.numSlabs, (s.slabs i).numFree = (s.slabs i).free.length
  linked_once : ∀ i < s.numSlabs, i ∉ s.freed → (s.slabs i).free ≠ [] →
    (s.groups (s.slabs i).group).count i = 1 ∧ ∀ g ≠ (s.slabs i).group, i ∉ s.groups g
  not_linked : ∀ i ∈ s.freed, ∀ g, i ∉ s.groups g
  freed_once : s.freed.Nodup
  freed_iff : ∀ i < s.numSlabs, i ∈ s.freed ↔ (s.slabs i).free.Perm (s.slabs i).entries

/-! ### The invariant -/

/-- The slabs, the lists of their free entries and the places of all entries. -/
structure Counts (s : State) : Prop where
  places_eq : ∀ e, s.places e = (s.slabs e.slab).entries.count e.index
  nodup : ∀ i, (s.slabs i).entries.Nodup
  numFree_eq : ∀ i, (s.slabs i).numFree = (s.slabs i).free.length
  numEntries_lt : ∀ i, (s.slabs i).numEntries < 2 ^ 32
  unused : ∀ i, s.numSlabs ≤ i → (s.slabs i).entries = []
  used : ∀ i < s.numSlabs, (s.slabs i).entries ≠ []

/-- The lists of the groups. -/
structure Links (s : State) : Prop where
  nodup : ∀ g, (s.groups g).Nodup
  group_eq : ∀ g, ∀ i ∈ s.groups g, (s.slabs i).group = g
  linked_iff : ∀ i, (s.slabs i).linked = true ↔ i ∈ s.groups (s.slabs i).group
  used : ∀ i, (s.slabs i).linked = true → i < s.numSlabs
  linked_of_free : ∀ i, (s.slabs i).free ≠ [] → i ∉ s.freed → (s.slabs i).linked = true

/-- The slabs that were freed. -/
structure Freed (s : State) : Prop where
  nodup : s.freed.Nodup
  used : ∀ i ∈ s.freed, i < s.numSlabs
  not_linked : ∀ i ∈ s.freed, (s.slabs i).linked = false
  freed_iff : ∀ i < s.numSlabs, i ∈ s.freed ↔ (s.slabs i).free.length = (s.slabs i).numEntries

structure Inv (s : State) : Prop where
  counts : Counts s
  links : Links s
  freed : Freed s

/-! ### Counts -/

/-- An entry of a slab is in one place only. -/
theorem Counts.places_le {s : State} (counts : Counts s) (e : Entry) :
  s.places e ≤ 1
  := by
  rw [counts.places_eq]
  exact List.nodup_iff_count_le_one.1 (counts.nodup e.slab) _

/-- There are no more free entries than entries. -/
theorem Counts.free_subperm {s : State} (counts : Counts s) (i : ℕ) :
  (s.slabs i).free.Subperm (s.slabs i).entries
  := by
  apply List.subperm_iff_count.2
  intro j
  have eq := counts.places_eq ⟨i, j⟩
  unfold State.places at eq
  dsimp only at eq
  omega

theorem Counts.free_length_le {s : State} (counts : Counts s) (i : ℕ) :
  (s.slabs i).free.length ≤ (s.slabs i).numEntries
  := (counts.free_subperm i).length_le

theorem Counts.used_of_place {s : State} (counts : Counts s) {e : Entry} (place : s.places e ≠ 0) :
  e.slab < s.numSlabs ∧ e.index ∈ (s.slabs e.slab).entries
  := by
  rw [counts.places_eq] at place
  have mem : e.index ∈ (s.slabs e.slab).entries := by
    apply List.count_pos_iff.1
    omega
  refine ⟨?_, mem⟩
  by_contra unused
  rw [counts.unused _ (Nat.le_of_not_lt unused)] at mem
  cases mem

/-- The counts after a change of one slab that leaves its entries alone, and of the lists of
entries. -/
theorem Counts.setSlab {s s' : State} (counts : Counts s) {i : ℕ} {slab : Slab}
    (slabs : s'.slabs = Function.update s.slabs i slab) (numSlabs : s'.numSlabs = s.numSlabs)
    (entries : slab.entries = (s.slabs i).entries) (numFree : slab.numFree = slab.free.length)
    (places : ∀ e, s'.places e = s.places e) :
  Counts s'
  := by
  have entries_eq : ∀ k, (s'.slabs k).entries = (s.slabs k).entries := by
    intro k
    rw [slabs, Function.update_apply]
    split
    case isTrue eq => rw [eq, entries]
    case isFalse => rfl
  constructor
  case places_eq =>
    intro e
    rw [places, entries_eq]
    exact counts.places_eq e
  case nodup =>
    intro k
    rw [entries_eq]
    exact counts.nodup k
  case numFree_eq =>
    intro k
    rw [slabs, Function.update_apply]
    split
    · exact numFree
    · exact counts.numFree_eq k
  case numEntries_lt =>
    intro k
    rw [Slab.numEntries, entries_eq]
    exact counts.numEntries_lt k
  case unused =>
    intro k hk
    rw [entries_eq]
    exact counts.unused k (numSlabs ▸ hk)
  case used =>
    intro k hk
    rw [entries_eq]
    exact counts.used k (numSlabs ▸ hk)

/-! ### Links -/

/-- The links after a change of one slab and of the list of its group. -/
theorem Links.setSlab {s s' : State} (links : Links s) {i : ℕ} {slab : Slab} {list : List ℕ}
    (slabs : s'.slabs = Function.update s.slabs i slab)
    (groups : s'.groups = Function.update s.groups slab.group list)
    (numSlabs : s'.numSlabs = s.numSlabs) (group : slab.group = (s.slabs i).group)
    (nodup : list.Nodup) (others : ∀ k ≠ i, k ∈ list ↔ k ∈ s.groups slab.group)
    (linked : slab.linked = true ↔ i ∈ list) (used : slab.linked = true → i < s.numSlabs)
    (free : slab.free ≠ [] → i ∉ s'.freed → slab.linked = true)
    (freed : ∀ k ≠ i, k ∈ s.freed → k ∈ s'.freed) :
  Links s'
  := by
  have group_eq : ∀ k, (s'.slabs k).group = (s.slabs k).group := by
    intro k
    rw [slabs, Function.update_apply]
    split
    case isTrue eq => rw [eq, group]
    case isFalse => rfl
  have other : ∀ k ≠ i, ∀ g, k ∈ s'.groups g ↔ k ∈ s.groups g := by
    intro k ne g
    rw [groups, Function.update_apply]
    split
    case isTrue eq => rw [eq, others k ne]
    case isFalse => exact Iff.rfl
  have self : ∀ g, i ∈ s'.groups g → g = slab.group := by
    intro g mem
    rw [groups, Function.update_apply] at mem
    split at mem
    case isTrue eq => exact eq
    case isFalse => rw [group, links.group_eq g i mem]
  constructor
  case nodup =>
    intro g
    rw [groups, Function.update_apply]
    split
    · exact nodup
    · exact links.nodup g
  case group_eq =>
    intro g k mem
    rw [group_eq]
    by_cases eq : k = i
    · rw [eq] at mem ⊢
      rw [self g mem, group]
    · exact links.group_eq g k ((other k eq g).1 mem)
  case linked_iff =>
    intro k
    rw [group_eq]
    by_cases eq : k = i
    · rw [eq, slabs, Function.update_self, ← group, groups, Function.update_self]
      exact linked
    · rw [slabs, Function.update_of_ne eq, other k eq]
      exact links.linked_iff k
  case used =>
    intro k h
    rw [numSlabs]
    by_cases eq : k = i
    · rw [eq, slabs, Function.update_self] at h
      rw [eq]
      exact used h
    · rw [slabs, Function.update_of_ne eq] at h
      exact links.used k h
  case linked_of_free =>
    intro k h notFreed
    by_cases eq : k = i
    · rw [eq, slabs, Function.update_self] at h ⊢
      exact free h (eq ▸ notFreed)
    · rw [slabs, Function.update_of_ne eq] at h ⊢
      apply links.linked_of_free k h
      intro mem
      exact notFreed (freed k eq mem)

/-! ### Reclaiming -/

/-- An entry that waits to be reclaimed belongs to a slab that was not freed, and is not free. -/
theorem Inv.reclaimable {s : State} (inv : Inv s) {e : Entry} (mem : e ∈ s.reclaim) :
  e.slab < s.numSlabs ∧ e.slab ∉ s.freed ∧ (s.slabs e.slab).free.length < (s.slabs e.slab).numEntries
  := by
  have pos : 0 < s.reclaim.count e := List.count_pos_iff.2 mem
  have le := inv.counts.places_le e
  unfold State.places at le
  have used : e.slab < s.numSlabs ∧ e.index ∈ (s.slabs e.slab).entries := by
    apply inv.counts.used_of_place
    unfold State.places
    omega
  have short : (s.slabs e.slab).free.length < (s.slabs e.slab).numEntries := by
    apply Nat.lt_of_le_of_ne (inv.counts.free_length_le e.slab)
    intro full
    have perm := (inv.counts.free_subperm e.slab).perm_of_length_le (Nat.le_of_eq full.symm)
    have inFree := List.count_pos_iff.2 (perm.mem_iff.2 used.2)
    omega
  refine ⟨used.1, ?_, short⟩
  intro freed
  have full := (inv.freed.freed_iff e.slab used.1).1 freed
  omega

/-- The states in the middle of `pb_slab_reclaim`: all is well but for the slab of the entry, all of
whose entries may be free. -/
structure Between (s : State) (i : ℕ) : Prop where
  counts : Counts s
  links : Links s
  nodup : s.freed.Nodup
  used : ∀ k ∈ s.freed, k < s.numSlabs
  not_linked : ∀ k ∈ s.freed, (s.slabs k).linked = false
  freed_iff : ∀ k < s.numSlabs, k ≠ i →
    (k ∈ s.freed ↔ (s.slabs k).free.length = (s.slabs k).numEntries)
  here : i < s.numSlabs ∧ i ∉ s.freed ∧ (s.slabs i).linked = true

theorem relink_slabs (s : State) (e : Entry) :
  (s.relink e).slabs = Function.update s.slabs e.slab
    { s.slabs e.slab with
      free := e.index :: (s.slabs e.slab).free
      numFree := ((s.slabs e.slab).numFree + 1) % 2 ^ 32
      linked := true }
  := by
  unfold State.relink
  dsimp only
  split <;> rfl

theorem relink_frame (s : State) (e : Entry) :
  (s.relink e).numSlabs = s.numSlabs ∧ (s.relink e).freed = s.freed ∧ (s.relink e).held = s.held
    ∧ (s.relink e).reclaim = s.reclaim.erase e ∧ (s.relink e).threads = s.threads
  := by
  unfold State.relink
  dsimp only
  split <;> exact ⟨rfl, rfl, rfl, rfl, rfl⟩

theorem relink_groups (s : State) (e : Entry) :
  (s.relink e).groups =
    if (s.slabs e.slab).linked then s.groups
    else Function.update s.groups (s.slabs e.slab).group
      (s.groups (s.slabs e.slab).group ++ [e.slab])
  := by
  unfold State.relink
  dsimp only
  split <;> rfl

/-- The entry is free, and its slab is linked. -/
theorem Inv.relink {s : State} (inv : Inv s) {e : Entry} (mem : e ∈ s.reclaim) :
  Between (s.relink e) e.slab
  := by
  obtain ⟨used, notFreed, short⟩ := inv.reclaimable mem
  obtain ⟨numSlabs, freed, held, reclaim, -⟩ := relink_frame s e
  have slabs := relink_slabs s e
  have other : ∀ k ≠ e.slab, (s.relink e).slabs k = s.slabs k := by
    intro k ne
    rw [slabs, Function.update_of_ne ne]
  constructor
  case counts =>
    apply inv.counts.setSlab slabs numSlabs rfl
    · dsimp only
      have bound := inv.counts.numEntries_lt e.slab
      rw [inv.counts.numFree_eq, List.length_cons, Nat.mod_eq_of_lt (by omega)]
    · intro e'
      unfold State.places
      rw [held, reclaim, slabs, Function.update_apply]
      have pos : 0 < s.reclaim.count e := List.count_pos_iff.2 mem
      by_cases slab : e'.slab = e.slab
      · rw [if_pos slab, List.count_cons, slab]
        by_cases same : e' = e
        · rw [same, List.count_erase_self, if_pos (beq_self_eq_true _)]
          omega
        · have index : e.index ≠ e'.index := by
            intro index
            apply same
            cases e
            cases e'
            simp_all
          rw [List.count_erase_of_ne same, if_neg (by simpa using index)]
          rfl
      · have ne : e' ≠ e := by
          rintro rfl
          exact slab rfl
        rw [if_neg slab, List.count_erase_of_ne ne]
  case links =>
    have groups := relink_groups s e
    have iff := inv.links.linked_iff e.slab
    by_cases linked : (s.slabs e.slab).linked = true
    · rw [if_pos linked, ← Function.update_eq_self (s.slabs e.slab).group s.groups] at groups
      apply inv.links.setSlab slabs groups numSlabs rfl (inv.links.nodup _) _ _ (fun _ => used)
        (fun _ _ => rfl)
      · intro k _ freedBefore
        rw [freed]
        exact freedBefore
      · intro k _
        exact Iff.rfl
      · dsimp only
        rw [← iff, linked]
    · rw [if_neg linked] at groups
      have out : e.slab ∉ s.groups (s.slabs e.slab).group := fun inGroup => linked (iff.2 inGroup)
      apply inv.links.setSlab slabs groups numSlabs rfl _ _ _ (fun _ => used) (fun _ _ => rfl)
      · intro k _ freedBefore
        rw [freed]
        exact freedBefore
      · apply List.nodup_append.2 ⟨inv.links.nodup _, List.nodup_singleton _, _⟩
        intro a ha b hb eq
        rw [List.mem_singleton.1 hb] at eq
        exact out (eq ▸ ha)
      · intro k ne
        rw [List.mem_append, List.mem_singleton]
        exact or_iff_left ne
      · exact iff_of_true rfl (List.mem_append_right _ (List.mem_singleton_self _))
  case nodup => rw [freed]; exact inv.freed.nodup
  case used =>
    rw [freed, numSlabs]
    exact inv.freed.used
  case not_linked =>
    intro k hk
    rw [freed] at hk
    have ne : k ≠ e.slab := fun eq => notFreed (eq ▸ hk)
    rw [other k ne]
    exact inv.freed.not_linked k hk
  case freed_iff =>
    intro k hk ne
    rw [freed, other k ne]
    exact inv.freed.freed_iff k (numSlabs ▸ hk)
  case here =>
    rw [numSlabs, freed, slabs, Function.update_self]
    exact ⟨used, notFreed, rfl⟩

/-- A slab all of whose entries are free is freed. -/
theorem Between.release {s : State} {i : ℕ} (between : Between s i) :
  Inv (s.release i)
  := by
  obtain ⟨used, notFreed, linked⟩ := between.here
  have le := between.counts.free_length_le i
  have numFree := between.counts.numFree_eq i
  unfold State.release
  dsimp only
  split
  case isFalse short =>
    refine ⟨between.counts, between.links, between.nodup, between.used, between.not_linked, ?_⟩
    intro k hk
    by_cases eq : k = i
    · rw [eq]
      apply iff_of_false notFreed
      omega
    · exact between.freed_iff k hk eq
  case isTrue full =>
    constructor
    case counts =>
      refine between.counts.setSlab (i := i) rfl rfl rfl numFree ?_
      intro e
      unfold State.places State.setGroup State.setSlab
      dsimp only
      rw [Function.update_apply]
      split
      case isTrue eq => rw [eq]
      case isFalse => rfl
    case links =>
      refine between.links.setSlab (i := i) rfl rfl rfl rfl ?_ ?_ ?_ ?_ ?_ ?_
      · exact (between.links.nodup _).erase i
      · intro k ne
        exact List.mem_erase_of_ne ne
      · apply iff_of_false Bool.false_ne_true
        exact (between.links.nodup _).not_mem_erase
      · intro absurdity
        cases absurdity
      · intro _ notFreed'
        exact absurd List.mem_cons_self notFreed'
      · intro k _ hk
        exact List.mem_cons_of_mem _ hk
    case freed =>
      constructor
      · exact List.nodup_cons.2 ⟨notFreed, between.nodup⟩
      · intro k hk
        rcases List.mem_cons.1 hk with rfl | hk
        · exact used
        · exact between.used k hk
      · intro k hk
        unfold State.setGroup State.setSlab
        dsimp only
        rw [Function.update_apply]
        split
        case isTrue => rfl
        case isFalse ne =>
          rcases List.mem_cons.1 hk with eq | hk
          · exact absurd eq ne
          · exact between.not_linked k hk
      · intro k hk
        unfold State.setGroup State.setSlab
        dsimp only
        rw [Function.update_apply, List.mem_cons]
        split
        case isTrue eq =>
          apply iff_of_true (.inl eq)
          dsimp only [Slab.numEntries] at *
          omega
        case isFalse ne =>
          rw [or_iff_right ne]
          exact between.freed_iff k hk ne

theorem Inv.reclaimEntry {s : State} (inv : Inv s) {e : Entry} (mem : e ∈ s.reclaim) :
  Inv (s.reclaimEntry e)
  := (inv.relink mem).release

theorem reclaim_reclaimEntry (s : State) (e : Entry) :
  (s.reclaimEntry e).reclaim = s.reclaim.erase e
  := by
  unfold State.reclaimEntry State.release
  dsimp only
  split
  · exact (relink_frame s e).2.2.2.1
  · exact (relink_frame s e).2.2.2.1

theorem Inv.reclaimLoop (canReclaim : Entry → Bool) {es : List Entry} {s : State} (inv : Inv s)
    (eq : s.reclaim = es) :
  Inv (State.reclaimLoop canReclaim es s)
  := by
  induction es generalizing s with
  | nil => exact inv
  | cons e es ih =>
    unfold State.reclaimLoop
    split
    · apply ih (inv.reclaimEntry (eq ▸ List.mem_cons_self))
      rw [reclaim_reclaimEntry, eq, List.erase_cons_head]
    · exact inv

theorem Inv.reclaimLocked {s : State} (inv : Inv s) (canReclaim : Entry → Bool) :
  Inv (s.reclaimLocked canReclaim)
  := inv.reclaimLoop canReclaim rfl


/-! ### Allocating -/

/-- A slab without free entries at the head of a list is removed from it. -/
theorem Inv.unlink {s : State} (inv : Inv s) {g i : ℕ} {is : List ℕ} (eq : s.groups g = i :: is)
    (empty : (s.slabs i).free = []) :
  Inv ((s.setSlab i { s.slabs i with linked := false }).setGroup g is)
  := by
  have mem : i ∈ s.groups g := eq ▸ List.mem_cons_self
  obtain rfl := inv.links.group_eq g i mem
  have used : i < s.numSlabs := by
    apply inv.links.used
    exact (inv.links.linked_iff i).2 mem
  have nodup := inv.links.nodup (s.slabs i).group
  rw [eq] at nodup
  constructor
  case counts =>
    refine inv.counts.setSlab (i := i) rfl rfl rfl (inv.counts.numFree_eq i) ?_
    intro e
    unfold State.places State.setGroup State.setSlab
    dsimp only
    rw [Function.update_apply]
    split
    case isTrue eq => rw [eq]
    case isFalse => rfl
  case links =>
    refine inv.links.setSlab (i := i) rfl rfl rfl rfl nodup.of_cons ?_ ?_ ?_ ?_ ?_
    · intro k ne
      rw [eq, List.mem_cons, or_iff_right ne]
    · exact iff_of_false Bool.false_ne_true nodup.notMem
    · intro absurdity
      cases absurdity
    · intro free
      exact absurd empty free
    · intro k _ hk
      exact hk
  case freed =>
    constructor
    · exact inv.freed.nodup
    · exact inv.freed.used
    · intro k hk
      unfold State.setGroup State.setSlab
      dsimp only
      rw [Function.update_apply]
      split
      · rfl
      · exact inv.freed.not_linked k hk
    · intro k hk
      rw [show (((s.setSlab i _).setGroup _ is).freed) = s.freed from rfl, inv.freed.freed_iff k hk]
      unfold State.setGroup State.setSlab
      dsimp only
      rw [Function.update_apply]
      split
      case isTrue eq => rw [eq]; rfl
      case isFalse => exact Iff.rfl

theorem Inv.unlinkLoop {g : ℕ} {is : List ℕ} {s : State} (inv : Inv s) (eq : s.groups g = is) :
  Inv (State.unlinkLoop g is s)
    ∧ ∀ i ∈ ((State.unlinkLoop g is s).groups g).head?,
      ((State.unlinkLoop g is s).slabs i).free ≠ []
  := by
  induction is generalizing s with
  | nil =>
    refine ⟨inv, ?_⟩
    intro i first
    rw [State.unlinkLoop, eq] at first
    cases first
  | cons i is ih =>
    unfold State.unlinkLoop
    split
    case isTrue empty =>
      apply ih (inv.unlink eq empty)
      exact Function.update_self _ _ _
    case isFalse nonempty =>
      refine ⟨inv, ?_⟩
      intro k first
      rw [eq] at first
      obtain rfl := Option.some.inj first
      exact nonempty

/-- The entry that is handed out is no longer free, and not all entries of its slab are. -/
theorem Between.take {s : State} {i : ℕ} (between : Between s i) (nonempty : (s.slabs i).free ≠ []) :
  Inv (s.take i)
  := by
  obtain ⟨used, notFreed, linked⟩ := between.here
  have numFree := between.counts.numFree_eq i
  have bound := between.counts.numEntries_lt i
  have le := between.counts.free_length_le i
  unfold State.take
  dsimp only
  split
  case h_1 eq => exact absurd eq nonempty
  case h_2 j free eq =>
    rw [eq, List.length_cons] at numFree le
    constructor
    case counts =>
      refine between.counts.setSlab (i := i) rfl rfl rfl ?_ ?_
      · dsimp only
        omega
      · intro e
        unfold State.places State.setSlab
        dsimp only
        rw [Function.update_apply, List.count_cons]
        by_cases slab : e.slab = i
        · rw [if_pos slab, slab, eq, List.count_cons]
          by_cases index : j = e.index
          · have same : (⟨i, j⟩ : Entry) = e := by
              cases e
              simp_all
            rw [if_pos (by simpa using same), if_pos (by simpa using index)]
            dsimp only
            omega
          · have ne : (⟨i, j⟩ : Entry) ≠ e := by
              rintro rfl
              exact index rfl
            rw [if_neg (by simpa using ne), if_neg (by simpa using index)]
            rfl
        · have ne : (⟨i, j⟩ : Entry) ≠ e := by
            rintro rfl
            exact slab rfl
          rw [if_neg slab, if_neg (by simpa using ne)]
          rfl
    case links =>
      refine between.links.setSlab (i := i) rfl (Function.update_eq_self _ _).symm rfl rfl
        (between.links.nodup _) (fun _ _ => Iff.rfl) ?_ (fun _ => used) (fun _ _ => linked)
        (fun _ _ hk => hk)
      exact between.links.linked_iff i
    case freed =>
      constructor
      · exact between.nodup
      · exact between.used
      · intro k hk
        unfold State.setSlab
        dsimp only
        rw [Function.update_apply]
        split
        case isTrue eq => exact absurd (eq ▸ hk) notFreed
        case isFalse => exact between.not_linked k hk
      · intro k hk
        unfold State.setSlab
        dsimp only
        rw [Function.update_apply]
        split
        case isTrue eq =>
          apply iff_of_false (eq ▸ notFreed)
          dsimp only [Slab.numEntries] at *
          omega
        case isFalse ne => exact between.freed_iff k hk ne

/-- A slab of a list was not freed. -/
theorem Inv.between {s : State} (inv : Inv s) {g i : ℕ} (mem : i ∈ s.groups g) :
  Between s i
  := by
  obtain rfl := inv.links.group_eq g i mem
  have linked := (inv.links.linked_iff i).2 mem
  refine ⟨inv.counts, inv.links, inv.freed.nodup, inv.freed.used, inv.freed.not_linked,
    fun k hk _ => inv.freed.freed_iff k hk, inv.links.used i linked, ?_, linked⟩
  intro freed
  rw [inv.freed.not_linked i freed] at linked
  cases linked

/-- Nothing of the invariant is about the threads. -/
theorem Inv.setThreads {s : State} (inv : Inv s) (threads : ℕ → Option ℕ) :
  Inv { s with threads := threads }
  := ⟨⟨inv.counts.places_eq, inv.counts.nodup, inv.counts.numFree_eq, inv.counts.numEntries_lt,
      inv.counts.unused, inv.counts.used⟩,
    ⟨inv.links.nodup, inv.links.group_eq, inv.links.linked_iff, inv.links.used,
      inv.links.linked_of_free⟩,
    ⟨inv.freed.nodup, inv.freed.used, inv.freed.not_linked, inv.freed.freed_iff⟩⟩

theorem Inv.alloc {s : State} (inv : Inv s) (t g : ℕ) (canReclaim : Entry → Bool) :
  Inv (s.alloc t g canReclaim)
  := by
  unfold State.alloc
  dsimp only
  have reclaimed : Inv (if s.needsReclaim g then s.reclaimLocked canReclaim else s) := by
    split
    · exact inv.reclaimLocked canReclaim
    · exact inv
  obtain ⟨unlinked, nonempty⟩ := reclaimed.unlinkLoop (g := g) rfl
  split
  case h_1 => exact unlinked.setThreads _
  case h_2 i is eq =>
    apply (unlinked.between (eq ▸ List.mem_cons_self)).take
    apply nonempty
    rw [eq]
    rfl

/-- A slab that was not added yet has no entries. -/
theorem Inv.fresh {s : State} (inv : Inv s) :
  (s.slabs s.numSlabs).free = [] ∧ ∀ g, s.numSlabs ∉ s.groups g
  := by
  constructor
  · have le := inv.counts.free_length_le s.numSlabs
    rw [Slab.numEntries, inv.counts.unused _ (Nat.le_refl _)] at le
    exact List.length_eq_zero_iff.1 (Nat.le_zero.1 le)
  · intro g mem
    obtain rfl := inv.links.group_eq g _ mem
    exact absurd (inv.links.used _ ((inv.links.linked_iff _).2 mem)) (Nat.lt_irrefl _)

/-- A new slab is linked, and all its entries are free for a moment. -/
theorem Inv.addSlab {s : State} (inv : Inv s) (t g : ℕ) {entries : List ℕ} (nonempty : entries ≠ [])
    (nodup : entries.Nodup) (bound : entries.length < 2 ^ 32) :
  Inv (s.addSlab t g entries)
  := by
  obtain ⟨noFree, notIn⟩ := inv.fresh
  unfold State.addSlab
  apply Between.take
  case nonempty =>
    unfold State.setGroup State.setSlab
    dsimp only
    rw [Function.update_self]
    exact nonempty
  case between =>
    unfold State.setGroup State.setSlab
    have other : ∀ k < s.numSlabs, Function.update s.slabs s.numSlabs
        ⟨g, entries, entries, entries.length, true⟩ k = s.slabs k := by
      intro k hk
      exact Function.update_of_ne (Nat.ne_of_lt hk) _ _
    constructor
    case counts =>
      constructor
      all_goals dsimp only
      · intro e
        unfold State.places
        dsimp only
        rw [Function.update_apply]
        split
        case isTrue eq =>
          have none := inv.counts.places_eq e
          unfold State.places at none
          rw [eq, inv.counts.unused _ (Nat.le_refl _), List.count_nil] at none
          dsimp only
          omega
        case isFalse => exact inv.counts.places_eq e
      · intro k
        rw [Function.update_apply]
        split
        · exact nodup
        · exact inv.counts.nodup k
      · intro k
        rw [Function.update_apply]
        split
        · rfl
        · exact inv.counts.numFree_eq k
      · intro k
        rw [Function.update_apply]
        split
        · exact bound
        · exact inv.counts.numEntries_lt k
      · intro k hk
        rw [Function.update_of_ne (by omega)]
        exact inv.counts.unused k (by omega)
      · intro k hk
        rw [Function.update_apply]
        split
        · exact nonempty
        · exact inv.counts.used k (by omega)
    case links =>
      have member : ∀ k ≠ s.numSlabs, ∀ g',
          k ∈ Function.update s.groups g (s.numSlabs :: s.groups g) g' ↔ k ∈ s.groups g' := by
        intro k ne g'
        rw [Function.update_apply]
        split
        case isTrue eq => rw [List.mem_cons, or_iff_right ne, eq]
        case isFalse => exact Iff.rfl
      constructor
      all_goals dsimp only
      · intro g'
        rw [Function.update_apply]
        split
        · exact List.nodup_cons.2 ⟨notIn g, inv.links.nodup g⟩
        · exact inv.links.nodup g'
      · intro g' k mem
        by_cases eq : k = s.numSlabs
        · rw [eq] at mem ⊢
          rw [Function.update_self]
          by_contra ne
          rw [Function.update_of_ne (Ne.symm ne)] at mem
          exact notIn g' mem
        · rw [Function.update_of_ne eq]
          exact inv.links.group_eq g' k ((member k eq g').1 mem)
      · intro k
        by_cases eq : k = s.numSlabs
        · rw [eq, Function.update_self, Function.update_self]
          exact iff_of_true rfl List.mem_cons_self
        · rw [Function.update_of_ne eq, member k eq]
          exact inv.links.linked_iff k
      · intro k linked
        by_cases eq : k = s.numSlabs
        · omega
        · rw [Function.update_of_ne eq] at linked
          exact Nat.lt_succ_of_lt (inv.links.used k linked)
      · intro k free notFreed
        by_cases eq : k = s.numSlabs
        · rw [eq, Function.update_self]
        · rw [Function.update_of_ne eq] at free ⊢
          exact inv.links.linked_of_free k free notFreed
    case nodup => exact inv.freed.nodup
    case used =>
      intro k hk
      exact Nat.lt_succ_of_lt (inv.freed.used k hk)
    case not_linked =>
      intro k hk
      dsimp only
      rw [other k (inv.freed.used k hk)]
      exact inv.freed.not_linked k hk
    case freed_iff =>
      intro k hk ne
      dsimp only at hk ⊢
      rw [other k (by omega)]
      exact inv.freed.freed_iff k (by omega)
    case here =>
      dsimp only
      rw [Function.update_self]
      refine ⟨Nat.lt_succ_self _, ?_, rfl⟩
      intro freed
      exact absurd (inv.freed.used _ freed) (Nat.lt_irrefl _)

theorem Inv.free {s : State} (inv : Inv s) {e : Entry} (mem : e ∈ s.held) :
  Inv (s.free e)
  := by
  refine ⟨⟨?_, inv.counts.nodup, inv.counts.numFree_eq, inv.counts.numEntries_lt,
      inv.counts.unused, inv.counts.used⟩,
    ⟨inv.links.nodup, inv.links.group_eq, inv.links.linked_iff, inv.links.used,
      inv.links.linked_of_free⟩,
    ⟨inv.freed.nodup, inv.freed.used, inv.freed.not_linked, inv.freed.freed_iff⟩⟩
  intro e'
  apply Eq.trans _ (inv.counts.places_eq e')
  unfold State.places State.free
  dsimp only
  rw [List.count_append, List.count_singleton]
  by_cases same : e' = e
  · have pos : 0 < s.held.count e := List.count_pos_iff.2 mem
    rw [same, List.count_erase_self, if_pos (beq_self_eq_true _)]
    omega
  · rw [List.count_erase_of_ne same, if_neg (by simpa using Ne.symm same)]
    rfl


/-! ### Runs -/

theorem Inv.init :
  Inv {}
  where
  counts := ⟨fun _ => rfl, fun _ => .nil, fun _ => rfl, fun _ => Nat.two_pow_pos 32, fun _ _ => rfl,
    fun _ h => absurd h (Nat.not_lt_zero _)⟩
  links := ⟨fun _ => .nil, fun _ _ mem => absurd mem List.not_mem_nil,
    fun _ => iff_of_false Bool.false_ne_true List.not_mem_nil,
    fun _ h => absurd h Bool.false_ne_true, fun _ h => absurd rfl h⟩
  freed := ⟨.nil, fun _ mem => absurd mem List.not_mem_nil,
    fun _ mem => absurd mem List.not_mem_nil, fun _ h => absurd h (Nat.not_lt_zero _)⟩

theorem Inv.step {c : Config} {s s' : State} {a : Action} (inv : Inv s)
    (stepped : step c s a = some s') :
  Inv s'
  := by
  cases a with
  | alloc t size heap canReclaim =>
    rw [PbSlab.step] at stepped
    split at stepped
    · obtain ⟨g, -, rfl⟩ := Option.map_eq_some_iff.1 stepped
      exact inv.alloc t g canReclaim
    · cases stepped
  | created t entries =>
    rw [PbSlab.step] at stepped
    split at stepped
    case isTrue good =>
      obtain ⟨g, -, rfl⟩ := Option.map_eq_some_iff.1 stepped
      exact inv.addSlab t g good.1 good.2.1 good.2.2
    case isFalse => cases stepped
  | failed t =>
    obtain ⟨g, -, rfl⟩ := Option.map_eq_some_iff.1 stepped
    exact inv.setThreads _
  | free e =>
    rw [PbSlab.step] at stepped
    split at stepped
    case isTrue mem =>
      obtain rfl := Option.some.inj stepped
      exact inv.free mem
    case isFalse => cases stepped
  | reclaim canReclaim =>
    obtain rfl := Option.some.inj stepped
    exact inv.reclaimLocked canReclaim

theorem Inv.sound {s : State} (inv : Inv s) :
  Sound s
  where
  one_place i _ j mem := by
    rw [inv.counts.places_eq]
    exact List.count_eq_one_of_mem (inv.counts.nodup i) mem
  known _ place := inv.counts.used_of_place place
  numFree_eq i _ := inv.counts.numFree_eq i
  linked_once i _ notFreed free := by
    have mem := (inv.links.linked_iff i).1 (inv.links.linked_of_free i free notFreed)
    refine ⟨List.count_eq_one_of_mem (inv.links.nodup _) mem, ?_⟩
    intro g ne other
    exact ne (inv.links.group_eq g i other).symm
  not_linked i freed g mem := by
    obtain rfl := inv.links.group_eq g i mem
    have linked := (inv.links.linked_iff i).2 mem
    rw [inv.freed.not_linked i freed] at linked
    cases linked
  freed_once := inv.freed.nodup
  freed_iff i hi := by
    rw [inv.freed.freed_iff i hi]
    constructor
    · intro full
      exact (inv.counts.free_subperm i).perm_of_length_le (Nat.le_of_eq full.symm)
    · intro perm
      exact perm.length_eq

/-- The slabs are sound in every state of every run. -/
theorem slabs_sound_of_run {c : Config} {as : List Action} {s : State}
    (ran : Flow.runActions (step c) {} as = some s) :
  Sound s
  := by
  apply Inv.sound
  apply Flow.invariant_of_run _ Inv.init (Flow.meets_true as) ran
  intro s a s' inv _ stepped
  exact inv.step stepped

/-- Two threads need a slab at the same time and both create one; all entries of one of the slabs
are freed and reclaimed while a third thread allocates. -/
def twoThreads : List Action :=
  [.alloc 0 16 0 (fun _ => true), .alloc 1 16 0 (fun _ => true), .created 0 [0, 1],
    .created 1 [1, 0], .alloc 0 9 0 (fun _ => true), .alloc 0 16 0 (fun _ => true),
    .free ⟨1, 1⟩, .free ⟨0, 0⟩, .free ⟨1, 0⟩, .alloc 2 16 0 (fun _ => true),
    .reclaim (fun _ => false)]

theorem slabs_sound_of_run_twoThreads :
  ∃ s, Flow.runActions (step ⟨4, 3, 1⟩) {} twoThreads = some s ∧ s.freed = [1]
    ∧ s.held = [⟨0, 0⟩, ⟨0, 1⟩] ∧ s.groups 0 = [0] ∧ Sound s
  := by
  refine ⟨_, rfl, by decide, by decide, by decide, ?_⟩
  exact @slabs_sound_of_run ⟨4, 3, 1⟩ twoThreads _ rfl


end PbSlab

end Gallium
