import Mesa.Main.Hash

/-!
# Too many names

With more than `2 ^ 30` names the table underneath has the last of its sizes.  The sum of an address
and the step of a probe sequence no longer fits in 32 bits then, and a probe sequence can end in a
cycle that does not contain its start.  Here the search for a name does not end that is not in use.
-/

namespace Main

open Util HashTable

namespace LastSize

/-! ### Tables of the last size -/

/-- A table of the last size in which the keys are where their probe sequences start. -/
structure AtHome (keys : ℕ → Prop) (ht : HashTable ℕ (Option Unit)) : Prop where
  size : ht.size = 2362232233
  rehash : ht.rehash = 2362232231
  maxEntries : ht.maxEntries = 2147483648
  sizeIndex : ht.sizeIndex = 30
  deleted : ht.deletedEntries = 0
  present : ∀ a, keys a → ht.table a = .present ⟨a, a, some ()⟩
  free : ∀ a, ¬ keys a → ht.table a = .free

/-- A table with one more entry. -/
def withEntry (ht : HashTable ℕ (Option Unit)) (a key : ℕ) : HashTable ℕ (Option Unit) :=
  { ht.set a (.present ⟨key, key, some ()⟩) with
    deletedEntries := ht.deletedEntries
    entries := ht.entries + 1 }

variable {keys : ℕ → Prop} {ht : HashTable ℕ (Option Unit)}

theorem AtHome.congr (home : AtHome keys ht) {keys' : ℕ → Prop} (same : ∀ k, keys k ↔ keys' k) :
  AtHome keys' ht
  := by
  have eq : keys = keys' := funext fun k => propext (same k)
  exact eq ▸ home

theorem AtHome.size_succ (home : AtHome keys ht) :
  ∃ n, ht.size = n + 2
  := ⟨2362232231, home.size⟩

/-- A free slot is taken at once. -/
theorem AtHome.place (home : AtHome keys ht) {key : ℕ} (small : key < 2362232233)
  (new : ¬ keys key) :
  ht.place uintKeys key key (some ()) = some (some key, withEntry ht key key)
  := by
  obtain ⟨n, hn⟩ := home.size_succ
  have start : key % ht.size = key := by
    rw [home.size]
    exact Nat.mod_eq_of_lt small
  have slot := home.free key new
  have loop : ht.insertLoop uintKeys key key ht.size (key % ht.size) none =
      some (.available (some key)) := by
    rw [start, hn, insertLoop, slot]
    rfl
  rw [HashTable.place, loop]
  simp [slot, Slot.isDeleted, withEntry]

theorem AtHome.add (home : AtHome keys ht) (key : ℕ) :
  AtHome (fun k => k = key ∨ keys k) (withEntry ht key key)
  where
  size := home.size
  rehash := home.rehash
  maxEntries := home.maxEntries
  sizeIndex := home.sizeIndex
  deleted := home.deleted
  present := by
    intro a here
    by_cases same : a = key
    · rw [same]
      exact set_table_self ht key _
    · exact (set_table_of_ne ht _ same).trans (home.present a (here.resolve_left same))
  free := by
    intro a here
    have other : a ≠ key := fun same => here (.inl same)
    exact (set_table_of_ne ht _ other).trans (home.free a fun old => here (.inr old))

/-- There is no larger size, and no deleted entry for which the table would be rehashed. -/
theorem AtHome.insertFuel (home : AtHome keys ht) (alloc : ℕ → Bool) (fuel hash key : ℕ) :
  insertFuel uintKeys alloc (fuel + 1) ht hash key (some ()) =
    ht.place uintKeys hash key (some ())
  := by
  rw [HashTable.insertFuel]
  by_cases full : ht.maxEntries ≤ ht.entries
  · have last : hashSizes.length ≤ ht.sizeIndex + 1 := by
      rw [home.sizeIndex]
      decide
    rw [if_pos full, rehashTo, if_pos last]
    rfl
  · have few : ¬ ht.maxEntries ≤ ht.deletedEntries + ht.entries := by
      rw [home.deleted, Nat.zero_add]
      exact full
    rw [if_neg full, if_neg few]
    rfl

/-- The entries of another table are inserted. -/
theorem AtHome.insertAll (home : AtHome keys ht) (alloc : ℕ → Bool) (fuel : ℕ)
  {es : List (HashEntry ℕ (Option Unit))}
  (entries : ∀ e ∈ es, e = ⟨e.key, e.key, some ()⟩ ∧ e.key < 2362232233)
  (distinct : es.Pairwise fun e e' => uintKeys.equals e.key e'.key = false)
  (apart : ∀ e ∈ es, ¬ keys e.key) :
  ∃ ht', insertAll (reinsert uintKeys alloc (fuel + 1)) ht es = some ht' ∧
    AtHome (fun k => (∃ e ∈ es, e.key = k) ∨ keys k) ht'
  := by
  induction es generalizing ht keys with
  | nil =>
    refine ⟨ht, rfl, ?_⟩
    simpa using home
  | cons e es ih =>
    obtain ⟨whole, small⟩ := entries e List.mem_cons_self
    rw [List.pairwise_cons] at distinct
    have inserted : reinsert uintKeys alloc (fuel + 1) ht e =
        some (withEntry ht e.key e.key) := by
      rw [whole, reinsert, home.insertFuel, home.place small (apart e List.mem_cons_self)]
      rfl
    have apart' : ∀ e' ∈ es, ¬ (e'.key = e.key ∨ keys e'.key) := by
      rintro e' mem (same | old)
      · have := distinct.1 e' mem
        rw [same, uintKeys.equals_refl] at this
        cases this
      · exact apart e' (List.mem_cons_of_mem _ mem) old
    obtain ⟨ht', rest, home'⟩ := ih (home.add e.key)
      (fun e' mem => entries e' (List.mem_cons_of_mem _ mem)) distinct.2 apart'
    refine ⟨ht', ?_, ?_⟩
    · rw [HashTable.insertAll, inserted]
      exact rest
    · apply home'.congr
      intro k
      constructor
      · rintro (⟨e', mem, rfl⟩ | rfl | old)
        · exact .inl ⟨e', List.mem_cons_of_mem _ mem, rfl⟩
        · exact .inl ⟨e, List.mem_cons_self, rfl⟩
        · exact .inr old
      · rintro (⟨e', mem, rfl⟩ | old)
        · rcases List.mem_cons.mp mem with rfl | mem
          · exact .inr (.inl rfl)
          · exact .inl ⟨e', mem, rfl⟩
        · exact .inr (.inr old)

theorem atHome_empty :
  AtHome (fun _ => False) (HashTable.empty ℕ (Option Unit) 30)
  where
  size := rfl
  rehash := rfl
  maxEntries := rfl
  sizeIndex := rfl
  deleted := rfl
  present := fun _ h => h.elim
  free := fun _ _ => rfl

/-! ### Growing to the last size -/

/-- When a table grows to the last size, its entries come home. -/
theorem insert_growing {alloc : ℕ → Bool} (ample : ∀ n, alloc n = true) (inv : ht.Inv uintKeys)
  (grows : ht.GrowsToLast)
  (contents : ∀ q, q ∈ ht.contents ↔ keys q.1 ∧ q.2 = some ())
  (small : ∀ k, keys k → k < 2362232233) {key : ℕ} (key_small : key < 2362232233)
  (new : ¬ keys key) :
  ∃ ht', ht.insert uintKeys alloc key key (some ()) = some (some key, ht') ∧
    AtHome (fun k => k = key ∨ keys k) ht'
  := by
  have hashes : ∀ e ∈ ht.entriesFrom 0 ht.size, e = ⟨e.key, e.key, some ()⟩ ∧ keys e.key := by
    intro e mem
    have pair : e.pair ∈ ht.contents := by
      rw [contents_eq_entriesFrom]
      exact List.mem_map_of_mem mem
    obtain ⟨known, data⟩ := (contents _).mp pair
    have hash : e.hash = e.key % 2 ^ 32 := inv.hashes e mem
    have key_lt := small _ known
    change e.key < _ at key_lt
    rw [Nat.mod_eq_of_lt (by omega)] at hash
    obtain ⟨h, k, d⟩ := e
    obtain rfl : h = k := hash
    obtain rfl : d = some () := data
    exact ⟨rfl, known⟩
  obtain ⟨ht₁, all, home⟩ := atHome_empty.insertAll alloc 30
    (fun e mem => ⟨(hashes e mem).1, small _ (hashes e mem).2⟩) inv.distinct (fun _ _ => id)
  have home₁ : AtHome keys ht₁ := by
    apply home.congr
    intro k
    constructor
    · rintro (⟨e, mem, rfl⟩ | impossible)
      · exact (hashes e mem).2
      · exact impossible.elim
    · intro known
      left
      have mem := (contents (k, some ())).mpr ⟨known, rfl⟩
      rw [contents_eq_entriesFrom] at mem
      obtain ⟨e, mem, pair⟩ := List.mem_map.mp mem
      exact ⟨e, mem, congrArg Prod.fst pair⟩
  have rehashed : ht.rehashTo alloc (reinsert uintKeys alloc 31) (ht.sizeIndex + 1) = some ht₁ := by
    have short : ¬ hashSizes.length ≤ ht.sizeIndex + 1 := by
      rw [grows.2]
      decide
    rw [rehashTo, if_neg short]
    dsimp only
    rw [if_pos (ample _), inv.foreach_all, grows.2]
    exact all
  refine ⟨withEntry ht₁ key key, ?_, home₁.add key⟩
  have unfolded : ht.insert uintKeys alloc key key (some ()) =
      (if ht.maxEntries ≤ ht.entries then
          ht.rehashTo alloc (reinsert uintKeys alloc 31) (ht.sizeIndex + 1)
        else if ht.maxEntries ≤ ht.deletedEntries + ht.entries then
          ht.rehashTo alloc (reinsert uintKeys alloc 31) ht.sizeIndex
        else some ht).bind fun ht => ht.place uintKeys key key (some ()) := rfl
  rw [unfolded, if_pos grows.1, rehashed, Option.bind_some, home₁.place key_small new]

/-! ### Inserting the names one after the other -/

theorem hash_eq {key : ℕ} (small : key < 2 ^ 32) :
  uintKeys.hash key = key
  := Nat.mod_eq_of_lt small

/-- The insertion of a key that the table does not have. -/
theorem insert_new {alloc : ℕ → Bool} {table : NameTable Unit} {key : ℕ} (two : 2 ≤ key)
  (small : key < 2 ^ 32) {data : Option Unit} {entry : Option ℕ} {ht' : HashTable ℕ (Option Unit)}
  (absent : table.ht.search uintKeys key key = some none)
  (inserted : table.ht.insert uintKeys alloc key key data = some (entry, ht')) :
  table.insert alloc key data =
    some ⟨ht', if key > table.maxKey then key else table.maxKey, table.deletedKeyData⟩
  := by
  have ne : key ≠ deletedKeyValue := by
    unfold deletedKeyValue
    omega
  rw [NameTable.insert, if_neg (by omega)]
  dsimp only
  rw [if_neg ne, NameTable.searchEntry, hash_eq small, absent, Option.bind_some]
  dsimp only
  rw [inserted]
  rfl

theorem AtHome.search (home : AtHome keys ht) {key : ℕ} (small : key < 2362232233)
  (new : ¬ keys key) :
  ht.search uintKeys key key = some none
  := by
  obtain ⟨n, hn⟩ := home.size_succ
  have start : key % ht.size = key := by
    rw [home.size]
    exact Nat.mod_eq_of_lt small
  rw [HashTable.search, start, hn, searchLoop, home.free key new]
  rfl

/-- The table with the names from 2 on: it stands for them, or they are all at home in a table of
the last size. -/
def Filled (n : ℕ) (ht : HashTable ℕ (Option Unit)) : Prop :=
  (ht.Inv uintKeys ∧ ht.entries = n ∧
    ∀ q, q ∈ ht.contents ↔ (2 ≤ q.1 ∧ q.1 < n + 2) ∧ q.2 = some ()) ∨
  AtHome (fun k => 2 ≤ k ∧ k < n + 2) ht

theorem Filled.insert {alloc : ℕ → Bool} (ample : ∀ n, alloc n = true) {n : ℕ}
  (filled : Filled n ht) (few : n + 2 < 2 ^ 31) :
  ht.search uintKeys (n + 2) (n + 2) = some none ∧
    ∃ entry ht', ht.insert uintKeys alloc (n + 2) (n + 2) (some ()) = some (entry, ht') ∧
      Filled (n + 1) ht'
  := by
  have next : ∀ k, k = n + 2 ∨ 2 ≤ k ∧ k < n + 2 ↔ 2 ≤ k ∧ k < n + 1 + 2 := by
    intro k
    omega
  rcases filled with ⟨inv, entries, contents⟩ | home
  · have apart : ∀ q ∈ ht.contents, uintKeys.equals (n + 2) q.1 = false := by
      intro q mem
      have := ((contents q).mp mem).1.2
      exact beq_eq_false_iff_ne.mpr (by omega)
    have absent : ht.search uintKeys (n + 2) (n + 2) = some none := by
      have hash := @hash_eq (n + 2) (by omega)
      rcases inv.search_spec (n + 2) with ⟨a, ha, e, slot, equal, -⟩ | ⟨-, found⟩
      · have other := apart (e.key, e.data) (mem_contents.mpr ⟨a, ha, e, slot, rfl⟩)
        rw [other] at equal
        cases equal
      · rwa [hash] at found
    refine ⟨absent, ?_⟩
    by_cases grows : ht.GrowsToLast
    case pos =>
      obtain ⟨ht', inserted, home⟩ := @insert_growing (fun k => 2 ≤ k ∧ k < n + 2) ht alloc ample
        inv grows contents (fun k h => by omega) (n + 2) (by omega) (fun h => by omega)
      exact ⟨_, ht', inserted, .inr (home.congr next)⟩
    case neg =>
      obtain ⟨a, ht', inserted, inv', contents'⟩ :=
        inv.insert_spec ample grows (n + 2) (some ())
      rw [hash_eq (by omega)] at inserted
      rw [others_eq_self apart] at contents'
      refine ⟨_, ht', inserted, .inl ⟨inv', ?_, ?_⟩⟩
      · rw [inv'.entries_eq_card, contents', Multiset.card_cons, ← inv.entries_eq_card, entries]
      · intro q
        rw [contents', Multiset.mem_cons, contents, ← next]
        constructor
        · rintro (rfl | ⟨known, data⟩)
          · exact ⟨.inl rfl, rfl⟩
          · exact ⟨.inr known, data⟩
        · rintro ⟨here | known, data⟩
          · exact .inl (Prod.ext here data)
          · exact .inr ⟨known, data⟩
  · have new : ¬ (2 ≤ n + 2 ∧ n + 2 < n + 2) := by omega
    refine ⟨home.search (by omega) new, some (n + 2), withEntry ht (n + 2) (n + 2), ?_,
      .inr ((home.add (n + 2)).congr next)⟩
    rw [HashTable.insert, home.insertFuel, home.place (by omega) new]

/-- The insertions of the names from 2 on. -/
def insertions (n : ℕ) : List (NameOp Unit) :=
  (List.range n).map fun i => .insert (i + 2) (some ())

theorem run_append {D : Type} (alloc : ℕ → Bool) (table : NameTable D)
  (ops ops' : List (NameOp D)) :
  table.run alloc (ops ++ ops') = (table.run alloc ops).bind fun table' => table'.run alloc ops'
  := by
  induction ops generalizing table with
  | nil => rfl
  | cons op ops ih =>
    rw [List.cons_append, NameTable.run, NameTable.run]
    cases table.step alloc op with
    | none => rfl
    | some table₁ => exact ih table₁

/-- By induction on the number of names. -/
theorem run_insertions {alloc : ℕ → Bool} (ample : ∀ n, alloc n = true) {n : ℕ}
  (few : n + 1 < 2 ^ 31) :
  ∃ table, NameTable.run alloc ⟨HashTable.empty ℕ (Option Unit) 0, 0, none⟩ (insertions n) =
    some table ∧ Filled n table.ht
  := by
  induction n with
  | zero =>
    have empty : (HashTable.empty ℕ (Option Unit) 0).Inv uintKeys ∧
        (HashTable.empty ℕ (Option Unit) 0).contents = 0 := empty_inv (by decide)
    refine ⟨_, rfl, .inl ⟨empty.1, rfl, ?_⟩⟩
    intro q
    change q ∈ (HashTable.empty ℕ (Option Unit) 0).contents ↔ _
    rw [empty.2]
    constructor
    · intro mem
      cases mem
    · intro h
      omega
  | succ n ih =>
    obtain ⟨table, ran, filled⟩ := ih (by omega)
    obtain ⟨absent, entry, ht', inserted, filled'⟩ := filled.insert ample (by omega)
    refine ⟨⟨ht', if n + 2 > table.maxKey then n + 2 else table.maxKey, table.deletedKeyData⟩, ?_,
      filled'⟩
    rw [insertions, List.range_succ, List.map_append, run_append]
    change (NameTable.run alloc _ (insertions n)).bind _ = _
    rw [ran, Option.bind_some, List.map_singleton, NameTable.run, NameTable.step,
      insert_new (by omega) (by omega) absent inserted]
    rfl

/-! ### The cycle -/

/-- A key whose first address is that of another key, and whose second one is that of `lostKey`. -/
def strayKey : ℕ := 3435974055

/-- A key that is not inserted, whose probe sequence goes on by `2 ^ 31`. -/
def lostKey : ℕ := 2147483647

/-- The next address in a table of the last size. -/
def nextAddress (key a : ℕ) : ℕ :=
  (a + (1 + key % 2362232231)) % 2 ^ 32 % 2362232233

theorem AtHome.next (home : AtHome keys ht) (key a : ℕ) :
  ht.next key a = nextAddress key a
  := by
  rw [HashTable.next, home.size, home.rehash, nextAddress]

section Stray

variable (home : AtHome keys ht) (first : keys 1073741822) (free : ¬ keys lostKey)
include home first free

/-- The stray key finds its first address taken and its second one free. -/
theorem AtHome.search_stray :
  ht.search uintKeys strayKey strayKey = some none
  := by
  obtain ⟨n, hn⟩ := home.size_succ
  have start : strayKey % ht.size = 1073741822 := by
    rw [home.size]
    rfl
  have second : ht.next strayKey 1073741822 = lostKey := by
    rw [home.next]
    rfl
  rw [HashTable.search, start, hn, searchLoop, home.present _ first, start, second, searchLoop,
    home.free _ free]
  rfl

theorem AtHome.insert_stray (alloc : ℕ → Bool) :
  ht.insert uintKeys alloc strayKey strayKey (some ()) =
    some (some lostKey, withEntry ht lostKey strayKey)
  := by
  obtain ⟨n, hn⟩ := home.size_succ
  have start : strayKey % ht.size = 1073741822 := by
    rw [home.size]
    rfl
  have second : ht.next strayKey 1073741822 = lostKey := by
    rw [home.next]
    rfl
  have loop : ht.insertLoop uintKeys strayKey strayKey ht.size (strayKey % ht.size) none =
      some (.available (some lostKey)) := by
    rw [start, hn, insertLoop, home.present _ first, start, second, insertLoop, home.free _ free]
    rfl
  rw [HashTable.insert, home.insertFuel, HashTable.place, loop]
  simp [home.free _ free, Slot.isDeleted, withEntry]

end Stray

/-- The addresses that the probe sequence of the lost key comes to; from the last one it goes back
to the one before. -/
def trap : List ℕ :=
  [2147483647, 1932735062, 1717986477, 1503237892, 1288489307, 1073740722, 858992137, 644243552,
    429494967, 214746382, 2362230030]

/-- The probe sequence stays at these addresses and does not come back to its start. -/
theorem next_mem_trap :
  ∀ a ∈ trap, nextAddress lostKey a ∈ trap ∧ nextAddress lostKey a ≠ lostKey
  := by
  decide

/-- All these addresses are taken, so that the search does not end.  By induction on its rounds. -/
theorem AtHome.searchLoop_lost (home : AtHome keys ht) (taken : ∀ a ∈ trap, a ≠ lostKey → keys a)
  (fuel : ℕ) {a : ℕ} (mem : a ∈ trap) :
  (withEntry ht lostKey strayKey).searchLoop uintKeys lostKey lostKey fuel a = none
  := by
  induction fuel generalizing a with
  | zero => rfl
  | succ fuel ih =>
    obtain ⟨key, slot, other⟩ : ∃ key,
        (withEntry ht lostKey strayKey).table a = .present ⟨key, key, some ()⟩ ∧ key ≠ lostKey := by
      by_cases same : a = lostKey
      · rw [same]
        exact ⟨strayKey, set_table_self ht lostKey (.present ⟨strayKey, strayKey, some ()⟩),
          by decide⟩
      · exact ⟨a, (set_table_of_ne ht _ same).trans (home.present a (taken a mem same)), same⟩
    have stays := next_mem_trap a mem
    have next : (withEntry ht lostKey strayKey).next lostKey a = nextAddress lostKey a :=
      home.next lostKey a
    have start : lostKey % (withEntry ht lostKey strayKey).size = lostKey := by
      change lostKey % ht.size = lostKey
      rw [home.size]
      rfl
    have apart : Matches uintKeys lostKey lostKey
        (Slot.present ⟨key, key, some ()⟩ : Slot ℕ (Option Unit)) = false := by
      simp [Matches, other]
    rw [searchLoop, slot, apart, next, start, if_neg stays.2]
    exact ih stays.1

/-! ### The scan for a free block -/

/-- A scan that comes to a key whose search does not end does not end either, unless it has found a
block before.  By induction on the keys that are left. -/
theorem scanKeys_lost {table : NameTable Unit} {lost : ℕ} (lookup : table.lookup lost = none)
  {numKeys left key freeCount : ℕ} (freeStart : ℕ) (le : key ≤ lost) (lt : lost < key + left)
  (few : freeCount + (lost - key) < numKeys) :
  table.scanKeys numKeys left key freeCount freeStart = none
  := by
  induction left generalizing key freeCount freeStart with
  | zero => omega
  | succ left ih =>
    rw [NameTable.scanKeys]
    by_cases here : key = lost
    · rw [here, lookup]
      rfl
    · cases looked : table.lookup key with
      | none => rfl
      | some data =>
        rw [Option.bind_some]
        have notYet : ¬ freeCount + 1 = numKeys := by omega
        rw [if_neg notYet]
        split
        · exact ih _ (by omega) (by omega) (by omega)
        · exact ih _ (by omega) (by omega) (by omega)

/-- The names from 2 on up to the lost key, one that closes the cycle, and the stray one. -/
def manyNames : List (NameOp Unit) :=
  insertions (2 ^ 31 - 3) ++ [.insert 2362230030 (some ()), .insert strayKey (some ())]

/-- The last two insertions. -/
theorem run_last {alloc : ℕ → Bool} {table : NameTable Unit}
  (home : AtHome (fun k => 2 ≤ k ∧ k < 2 ^ 31 - 1) table.ht) :
  ∃ table' ht₀, table.run alloc [.insert 2362230030 (some ()), .insert strayKey (some ())] =
      some table' ∧ AtHome (fun k => k = 2362230030 ∨ 2 ≤ k ∧ k < 2 ^ 31 - 1) ht₀ ∧
      table'.ht = withEntry ht₀ lostKey strayKey ∧ strayKey ≤ table'.maxKey
  := by
  have new : ¬ (2 ≤ 2362230030 ∧ 2362230030 < 2 ^ 31 - 1) := by omega
  have inserted : table.ht.insert uintKeys alloc 2362230030 2362230030 (some ()) =
      some (some 2362230030, withEntry table.ht 2362230030 2362230030) := by
    rw [HashTable.insert, home.insertFuel, home.place (by omega) new]
  have home₀ := home.add 2362230030
  have free : ¬ (lostKey = 2362230030 ∨ 2 ≤ lostKey ∧ lostKey < 2 ^ 31 - 1) := by
    unfold lostKey
    omega
  have stepped := insert_new (by omega) (by omega) (home.search (by omega) new) inserted
  obtain ⟨table₁, ht₁⟩ : ∃ table₁ : NameTable Unit, table₁ =
      ⟨withEntry table.ht 2362230030 2362230030,
        if 2362230030 > table.maxKey then 2362230030 else table.maxKey, table.deletedKeyData⟩ :=
    ⟨_, rfl⟩
  rw [← ht₁] at stepped
  have home₁ : AtHome (fun k => k = 2362230030 ∨ 2 ≤ k ∧ k < 2 ^ 31 - 1) table₁.ht := by
    rw [ht₁]
    exact home₀
  have stepped' := @insert_new alloc table₁ strayKey (by decide) (by decide) _ _ _
    (home₁.search_stray (by omega) free) (home₁.insert_stray (by omega) free alloc)
  refine ⟨⟨withEntry table₁.ht lostKey strayKey,
    if strayKey > table₁.maxKey then strayKey else table₁.maxKey, table₁.deletedKeyData⟩,
    table₁.ht, ?_, home₁, rfl, ?_⟩
  · rw [NameTable.run, NameTable.step, stepped, Option.bind_some, NameTable.run, NameTable.step,
      stepped', Option.bind_some, NameTable.run]
  · dsimp only
    split <;> omega

theorem maxEntries_le (inv : ht.Inv uintKeys) :
  ht.maxEntries ≤ 2 ^ 30
  := by
  have small : ∀ sizes ∈ hashSizes.take lastSizeIndex, sizes.1 ≤ 2 ^ 30 := by decide
  have found : (hashSizes.take lastSizeIndex)[ht.sizeIndex]? =
      some (ht.maxEntries, ht.size, ht.rehash) := by
    rw [List.getElem?_take, if_pos inv.below, inv.sizes]
  exact small _ (List.mem_of_getElem? found)

theorem AtHome.lookup_lost {table : NameTable Unit} (home : AtHome keys ht)
  (same : table.ht = withEntry ht lostKey strayKey) (taken : ∀ a ∈ trap, a ≠ lostKey → keys a) :
  table.lookup lostKey = none
  := by
  have start : lostKey % (withEntry ht lostKey strayKey).size = lostKey := by
    change lostKey % ht.size = lostKey
    rw [home.size]
    rfl
  have search : table.searchEntry lostKey = none := by
    have hash : uintKeys.hash lostKey = lostKey := hash_eq (by decide)
    rw [NameTable.searchEntry, same, hash, HashTable.search, start]
    exact home.searchLoop_lost taken _ List.mem_cons_self
  rw [NameTable.lookup, if_neg (by decide), if_neg (by decide), search]
  rfl

/-- With these names no block of `2 ^ 31 - 1` keys is found, and 0 is not returned either: the
search for the lost key does not end. -/
theorem not_findsBlock_manyNames :
  ∃ table table', NameTable.new Unit (fun _ => true) = some table ∧
    table.run (fun _ => true) manyNames = some table' ∧
    ¬ FindsBlock table' (fun key => nameRun manyNames key ≠ none) (2 ^ 31 - 1)
  := by
  obtain ⟨table₁, ran, filled⟩ :=
    @run_insertions (fun _ => true) (fun _ => rfl) (2 ^ 31 - 3) (by omega)
  have home : AtHome (fun k => 2 ≤ k ∧ k < 2 ^ 31 - 1) table₁.ht := by
    rcases filled with ⟨inv, entries, -⟩ | home
    · have few := maxEntries_le inv
      have bound := inv.bound
      omega
    · exact home.congr fun k => by omega
  obtain ⟨table', ht₀, ran', home₀, same, greatest⟩ := @run_last (fun _ => true) table₁ home
  refine ⟨_, table', rfl, ?_, ?_⟩
  · rw [manyNames, run_append, ran, Option.bind_some, ran']
  · rintro ⟨k, found, -⟩
    have taken : ∀ a ∈ trap, a ≠ lostKey → a = 2362230030 ∨ 2 ≤ a ∧ a < 2 ^ 31 - 1 := by
      decide
    have slow : ¬ (maxKeyBound + 2 ^ 32 - (2 ^ 31 - 1)) % 2 ^ 32 > table'.maxKey := by
      unfold maxKeyBound
      unfold strayKey at greatest
      omega
    have scan : table'.scanKeys (2 ^ 31 - 1) (maxKeyBound - 1) 1 0 1 = none := by
      apply scanKeys_lost (home₀.lookup_lost same taken)
      · decide
      · decide
      · decide
    rw [NameTable.findFreeKeyBlock, if_neg slow, scan] at found
    cases found

end LastSize

end Main
