import Mesa.Util.MarkedMap

/-!
# Tables of object names

The hash table of `mesa/main/hash.c`, whose keys are the names of objects.  The key that marks the
deleted entries of the table underneath is a name too, and its data are kept beside it.  A block of
free names is behind all names that were ever used, or it is found by a scan.
-/

namespace Main

open Util

/-- `uint_key_hash` and `uint_key_compare`. -/
def uintKeys : KeyFunctions ℕ where
  hash k := k % 2 ^ 32
  equals k k' := k == k'
  hash_lt := Util.Numbers.hash_lt
  equals_refl := Util.Numbers.equals_refl
  equals_symm := @Util.Numbers.equals_symm
  equals_trans := @Util.Numbers.equals_trans
  hash_eq := @Util.Numbers.hash_eq

/-- `DELETED_KEY_VALUE`. -/
def deletedKeyValue : ℕ := 1

/-- The first of the last keys, which are reserved: `maxKey` in `_mesa_HashFindFreeKeyBlock`. -/
def maxKeyBound : ℕ := 2 ^ 32 - 2

/-- `struct _mesa_HashTable` without its mutex. -/
structure NameTable (D : Type) where
  ht : HashTable ℕ (Option D)
  maxKey : ℕ
  deletedKeyData : Option D

namespace NameTable

variable {D : Type}

/-- `_mesa_NewHashTable`. -/
def new (D : Type) (alloc : ℕ → Bool) : Option (NameTable D) :=
  (hashTableCreate ℕ (Option D) alloc).map fun ht => ⟨ht, 0, none⟩

/-- `_mesa_hash_table_search_pre_hashed` with the key as its hash. -/
def searchEntry (table : NameTable D) (key : ℕ) : Option (Option ℕ) :=
  table.ht.search uintKeys (uintKeys.hash key) key

/-- `_mesa_HashLookup_unlocked`, with an assertion on the key. -/
def lookup (table : NameTable D) (key : ℕ) : Option (Option D) :=
  if key = 0 then none
  else if key = deletedKeyValue then some table.deletedKeyData
  else (table.searchEntry key).map fun entry => (table.ht.dataAt entry).join

/-- `_mesa_HashInsert_unlocked`. -/
def insert (alloc : ℕ → Bool) (table : NameTable D) (key : ℕ) (data : Option D) :
    Option (NameTable D) :=
  if key = 0 then none
  else
    let table := { table with maxKey := if key > table.maxKey then key else table.maxKey }
    if key = deletedKeyValue then some { table with deletedKeyData := data }
    else (table.searchEntry key).bind fun entry =>
      match entry with
      | some a => some { table with ht := table.ht.setData a data }
      | none => (table.ht.insert uintKeys alloc (uintKeys.hash key) key data).map fun r =>
          { table with ht := r.2 }

/-- `_mesa_HashRemove_unlocked`. -/
def remove (table : NameTable D) (key : ℕ) : Option (NameTable D) :=
  if key = 0 then none
  else if key = deletedKeyValue then some { table with deletedKeyData := none }
  else (table.searchEntry key).map fun entry => { table with ht := table.ht.remove entry }

/-- The loop of `_mesa_HashFindFreeKeyBlock` when the given number of keys is left before `maxKey`.
-/
def scanKeys (table : NameTable D) (numKeys : ℕ) : ℕ → ℕ → ℕ → ℕ → Option ℕ
  | 0, _, _, _ => some 0
  | left + 1, key, freeCount, freeStart =>
    (table.lookup key).bind fun data =>
      if data.isSome then table.scanKeys numKeys left (key + 1) 0 (key + 1)
      else if freeCount + 1 = numKeys then some freeStart
      else table.scanKeys numKeys left (key + 1) (freeCount + 1) freeStart

/-- `_mesa_HashFindFreeKeyBlock`. -/
def findFreeKeyBlock (table : NameTable D) (numKeys : ℕ) : Option ℕ :=
  if (maxKeyBound + 2 ^ 32 - numKeys) % 2 ^ 32 > table.maxKey then
    some ((table.maxKey + 1) % 2 ^ 32)
  else
    table.scanKeys numKeys (maxKeyBound - 1) 1 0 1

end NameTable

/-- A call of `_mesa_HashInsert` or `_mesa_HashRemove`. -/
inductive NameOp (D : Type) where
  | insert (key : ℕ) (data : Option D)
  | remove (key : ℕ)

/-- The key of a call. -/
def NameOp.key {D : Type} : NameOp D → ℕ
  | .insert key _ => key
  | .remove key => key

namespace NameTable

variable {D : Type}

/-- A call. -/
def step (alloc : ℕ → Bool) (table : NameTable D) : NameOp D → Option (NameTable D)
  | .insert key data => table.insert alloc key data
  | .remove key => table.remove key

/-- The calls, one after the other. -/
def run (alloc : ℕ → Bool) (table : NameTable D) : List (NameOp D) → Option (NameTable D)
  | [] => some table
  | op :: ops => (table.step alloc op).bind fun table => table.run alloc ops

end NameTable

/-- The data of the keys after a call. -/
def nameStep {D : Type} (m : ℕ → Option D) : NameOp D → ℕ → Option D
  | .insert key data => Function.update m key data
  | .remove key => Function.update m key none

/-- The data of the keys after some calls; a key that is not in use has none. -/
def nameRun {D : Type} (ops : List (NameOp D)) : ℕ → Option D :=
  ops.foldl nameStep fun _ => none

/-- A block of keys of which none is used, without the key 0 and the last keys. -/
structure FreeBlock (used : ℕ → Prop) (numKeys k : ℕ) : Prop where
  pos : 1 ≤ k
  le : k + numKeys ≤ maxKeyBound
  free : ∀ i < numKeys, ¬ used (k + i)

/-- `_mesa_HashFindFreeKeyBlock` finds a free block, and 0 only if there is none. -/
def FindsBlock {D : Type} (table : NameTable D) (used : ℕ → Prop) (numKeys : ℕ) : Prop :=
  ∃ k, table.findFreeKeyBlock numKeys = some k ∧
    (k = 0 → ∀ s, ¬ FreeBlock used numKeys s) ∧ (k ≠ 0 → FreeBlock used numKeys k)

namespace NameTable

variable {D : Type}

/-! ### The scan -/

/-- The loop keeps the start of the free keys that it has seen last.  By induction on the keys that
are left. -/
theorem scanKeys_spec {table : NameTable D} {m : ℕ → Option D}
  (lookups : ∀ key, 1 ≤ key → key < 2 ^ 32 → table.lookup key = some (m key)) {numKeys : ℕ}
  {left key freeCount freeStart : ℕ} (end_le : key + left ≤ maxKeyBound) (pos : 1 ≤ freeStart)
  (count : freeStart + freeCount = key) (few : freeCount < numKeys)
  (free : ∀ k, freeStart ≤ k → k < key → m k = none)
  (maximal : 1 < freeStart → m (freeStart - 1) ≠ none)
  (before : ∀ s, 1 ≤ s → s + numKeys ≤ key → ∃ i < numKeys, m (s + i) ≠ none) :
  ∃ r, table.scanKeys numKeys left key freeCount freeStart = some r ∧
    (r = 0 → ∀ s, 1 ≤ s → s + numKeys ≤ key + left → ∃ i < numKeys, m (s + i) ≠ none) ∧
    (r ≠ 0 → 1 ≤ r ∧ r + numKeys ≤ key + left ∧ ∀ i < numKeys, m (r + i) = none)
  := by
  induction left generalizing key freeCount freeStart with
  | zero => exact ⟨0, rfl, fun _ => before, fun ne => (ne rfl).elim⟩
  | succ left ih =>
    have bound : maxKeyBound < 2 ^ 32 := by decide
    have looked := lookups key (by omega) (by omega)
    have ends : key + (left + 1) = key + 1 + left := by omega
    rw [scanKeys, looked, Option.bind_some, ends]
    cases data : m key with
    | some d =>
      rw [Option.isSome_some, if_pos rfl]
      have used : m key ≠ none := by
        rw [data]
        exact Option.some_ne_none d
      apply @ih (key + 1) 0 (key + 1) (by omega) (by omega) rfl (by omega) (fun k h h' => by omega)
        (fun _ => used)
      intro s s_pos s_le
      by_cases old : s + numKeys ≤ key
      · exact before s s_pos old
      · exact ⟨key - s, by omega, by rwa [Nat.add_sub_cancel' (by omega)]⟩
    | none =>
      rw [Option.isSome_none, if_neg (by decide)]
      have free' : ∀ k, freeStart ≤ k → k < key + 1 → m k = none := by
        intro k h h'
        by_cases here : k = key
        · rw [here, data]
        · exact free k h (by omega)
      by_cases enough : freeCount + 1 = numKeys
      case pos =>
        rw [if_pos enough]
        refine ⟨freeStart, rfl, fun zero => by omega, fun _ => ⟨pos, by omega, ?_⟩⟩
        intro i hi
        exact free' (freeStart + i) (by omega) (by omega)
      case neg =>
        rw [if_neg enough]
        apply @ih (key + 1) (freeCount + 1) freeStart (by omega) pos (by omega) (by omega) free'
          maximal
        intro s s_pos s_le
        by_cases old : s + numKeys ≤ key
        · exact before s s_pos old
        · refine ⟨freeStart - 1 - s, by omega, ?_⟩
          rw [Nat.add_sub_cancel' (by omega)]
          exact maximal (by omega)

/-! ### What all calls keep -/

/-- A table stands for a map whose keys are not greater than the greatest key. -/
structure Names (table : NameTable D) (m : ℕ → Option D) : Prop where
  stands : HashTable.StandsFor uintKeys deletedKeyValue table.ht table.deletedKeyData m
  le_maxKey : ∀ key, m key ≠ none → key ≤ table.maxKey
  maxKey_lt : table.maxKey < 2 ^ 32

theorem Names.lookup {table : NameTable D} {m : ℕ → Option D} (names : table.Names m) {key : ℕ}
  (pos : 1 ≤ key) :
  table.lookup key = some (m key)
  := by
  rw [NameTable.lookup, if_neg (by omega)]
  by_cases mark : key = deletedKeyValue
  case pos => rw [if_pos mark, mark, names.stands.mark_eq]
  case neg =>
    rw [if_neg mark, searchEntry]
    rcases names.stands.search mark with ⟨a, e, found, ha, slot, same, eq⟩ | ⟨found, eq⟩
    · rw [found, eq]
      simp [HashTable.dataAt, slot, Slot.live]
    · rw [found, eq]
      rfl

/-- Both ways of finding a block find one, or there is none. -/
theorem Names.findsBlock {table : NameTable D} {m : ℕ → Option D} (names : table.Names m)
  {numKeys : ℕ} (pos : 1 ≤ numKeys) (small : numKeys < 2 ^ 31) :
  FindsBlock table (fun k => m k ≠ none) numKeys
  := by
  have maxKey_lt := names.maxKey_lt
  have bound : maxKeyBound = 2 ^ 32 - 2 := rfl
  by_cases quick : (maxKeyBound + 2 ^ 32 - numKeys) % 2 ^ 32 > table.maxKey
  case pos =>
    -- no key behind the greatest one is used
    refine ⟨(table.maxKey + 1) % 2 ^ 32, if_pos quick, fun zero => by omega,
      fun _ => ⟨by omega, by omega, ?_⟩⟩
    intro i hi used
    have := names.le_maxKey _ used
    omega
  case neg =>
    obtain ⟨r, result, zero, found⟩ :=
      @scanKeys_spec _ table m (fun key pos _ => names.lookup pos) numKeys (maxKeyBound - 1) 1 0 1
        (by omega) (le_refl 1) rfl (by omega) (fun k h h' => by omega) (fun h => by omega)
        (fun s h h' => by omega)
    refine ⟨r, (if_neg quick).trans result, ?_, ?_⟩
    · intro r_zero s block
      have pos := block.pos
      have le := block.le
      obtain ⟨i, hi, used⟩ := zero r_zero s pos (by omega)
      exact block.free i hi used
    · intro ne
      obtain ⟨r_pos, r_le, r_free⟩ := found ne
      exact ⟨r_pos, by omega, fun i hi used => used (r_free i hi)⟩

theorem names_new (D : Type) :
  Names ⟨HashTable.empty ℕ (Option D) 0, 0, none⟩ fun _ => none
  where
  stands := HashTable.standsFor_empty fun _ _ => beq_iff_eq.mp
  le_maxKey := fun _ ne => (ne rfl).elim
  maxKey_lt := Nat.two_pow_pos 32

/-- The greatest key after an insertion. -/
theorem Names.le_insert {table : NameTable D} {m : ℕ → Option D} (names : table.Names m) (key : ℕ)
  (data : Option D) :
  ∀ k, Function.update m key data k ≠ none →
    k ≤ if key > table.maxKey then key else table.maxKey
  := by
  intro k ne
  by_cases same : k = key
  · subst same
    split <;> omega
  · rw [Function.update_of_ne same] at ne
    have := names.le_maxKey k ne
    split <;> omega

/-- An insertion sets the data of the key, unless the table underneath grows to the last size. -/
theorem Names.insert {alloc : ℕ → Bool} (ample : ∀ n, alloc n = true) {table : NameTable D}
  {m : ℕ → Option D} (names : table.Names m) {key : ℕ} (pos : 1 ≤ key) (small : key < 2 ^ 32)
  (data : Option D) (notLast : key ≠ deletedKeyValue → ¬ table.ht.GrowsToLast) :
  ∃ table', table.insert alloc key data = some table' ∧ table'.Names (Function.update m key data)
  := by
  have le_maxKey := names.le_insert key data
  have maxKey_lt : (if key > table.maxKey then key else table.maxKey) < 2 ^ 32 := by
    have := names.maxKey_lt
    split <;> omega
  rw [NameTable.insert, if_neg (by omega)]
  by_cases mark : key = deletedKeyValue
  case pos =>
    refine ⟨_, if_pos mark, ?_, le_maxKey, maxKey_lt⟩
    rw [mark]
    exact names.stands.set_mark data
  case neg =>
    dsimp only
    rw [if_neg mark, searchEntry]
    rcases names.stands.search mark with ⟨a, e, found, ha, slot, same, eq⟩ | ⟨found, eq⟩
    · obtain ⟨inv, contents⟩ := names.stands.inv.setData ha slot data
      rw [same] at contents
      refine ⟨{ table with
        ht := table.ht.setData a data
        maxKey := if key > table.maxKey then key else table.maxKey }, ?_,
        names.stands.put mark data inv contents, le_maxKey, maxKey_lt⟩
      rw [found]
      rfl
    · obtain ⟨a, ht', inserted, inv, contents⟩ :=
        names.stands.inv.insert_spec ample (notLast mark) key data
      refine ⟨{ table with
        ht := ht'
        maxKey := if key > table.maxKey then key else table.maxKey }, ?_,
        names.stands.put mark data inv contents, le_maxKey, maxKey_lt⟩
      rw [found, Option.bind_some]
      dsimp only
      rw [inserted]
      rfl

theorem Names.remove {table : NameTable D} {m : ℕ → Option D} (names : table.Names m) {key : ℕ}
  (pos : 1 ≤ key) :
  ∃ table', table.remove key = some table' ∧ table'.Names (Function.update m key none)
  := by
  have le_maxKey : ∀ k, Function.update m key none k ≠ none → k ≤ table.maxKey := by
    intro k ne
    by_cases same : k = key
    · rw [same, Function.update_self] at ne
      exact (ne rfl).elim
    · rw [Function.update_of_ne same] at ne
      exact names.le_maxKey k ne
  rw [NameTable.remove, if_neg (by omega)]
  by_cases mark : key = deletedKeyValue
  case pos =>
    refine ⟨_, if_pos mark, ?_, le_maxKey, names.maxKey_lt⟩
    rw [mark]
    exact names.stands.set_mark none
  case neg =>
    obtain ⟨entry, found, inv, contents, -⟩ := names.stands.inv.remove_search key
    refine ⟨{ table with ht := table.ht.remove entry }, ?_, names.stands.erase mark inv contents,
      le_maxKey, names.maxKey_lt⟩
    rw [if_neg mark, searchEntry, found]
    rfl

/-! ### All calls -/

/-- No insertion makes the table underneath grow to the last of its sizes. -/
def StaysSmall (alloc : ℕ → Bool) (table : NameTable D) (ops : List (NameOp D)) : Prop :=
  ∀ before key data after table', ops = before ++ .insert key data :: after →
    table.run alloc before = some table' → key ≠ deletedKeyValue → ¬ table'.ht.GrowsToLast

theorem StaysSmall.tail {alloc : ℕ → Bool} {table table' : NameTable D} {op : NameOp D}
  {ops : List (NameOp D)} (small : table.StaysSmall alloc (op :: ops))
  (stepped : table.step alloc op = some table') :
  table'.StaysSmall alloc ops
  := by
  intro before key data after table'' split ran
  apply small (op :: before) key data after table''
  · rw [split, List.cons_append]
  · rw [run, stepped, Option.bind_some, ran]

theorem Names.step {alloc : ℕ → Bool} (ample : ∀ n, alloc n = true) {table : NameTable D}
  {m : ℕ → Option D} (names : table.Names m) {op : NameOp D} {ops : List (NameOp D)}
  (key : 1 ≤ op.key ∧ op.key < 2 ^ 32) (small : table.StaysSmall alloc (op :: ops)) :
  ∃ table', table.step alloc op = some table' ∧ table'.Names (nameStep m op)
  := by
  cases op with
  | insert key' data =>
    exact names.insert ample key.1 key.2 data (small [] key' data ops table rfl rfl)
  | remove key' => exact names.remove key.1

theorem Names.run {alloc : ℕ → Bool} (ample : ∀ n, alloc n = true) {table : NameTable D}
  {m : ℕ → Option D} (names : table.Names m) {ops : List (NameOp D)}
  (keys : ∀ op ∈ ops, 1 ≤ op.key ∧ op.key < 2 ^ 32) (small : table.StaysSmall alloc ops) :
  ∃ table', table.run alloc ops = some table' ∧ table'.Names (ops.foldl nameStep m)
  := by
  induction ops generalizing table m with
  | nil => exact ⟨table, rfl, names⟩
  | cons op ops ih =>
    obtain ⟨table₁, stepped, names₁⟩ := names.step ample (keys op List.mem_cons_self) small
    obtain ⟨table', ran, names'⟩ :=
      ih names₁ (fun op' mem => keys op' (List.mem_cons_of_mem _ mem)) (small.tail stepped)
    exact ⟨table', by rw [NameTable.run, stepped, Option.bind_some, ran], names'⟩

/-- After all calls that do not make the table underneath grow to its last size, a block of free
keys is found if there is one, and the calls do not fail. -/
theorem findsBlock_of_staysSmall {alloc : ℕ → Bool} (ample : ∀ n, alloc n = true)
  {ops : List (NameOp D)} (keys : ∀ op ∈ ops, 1 ≤ op.key ∧ op.key < 2 ^ 32)
  (small : ∀ table, new D alloc = some table → table.StaysSmall alloc ops) {numKeys : ℕ}
  (pos : 1 ≤ numKeys) (numKeys_lt : numKeys < 2 ^ 31) :
  ∃ table table', new D alloc = some table ∧ table.run alloc ops = some table' ∧
    FindsBlock table' (fun key => nameRun ops key ≠ none) numKeys
  := by
  have created : new D alloc = some ⟨HashTable.empty ℕ (Option D) 0, 0, none⟩ := by
    rw [new, hashTableCreate, if_pos (ample _)]
    rfl
  obtain ⟨table', ran, names⟩ := (names_new D).run ample keys (small _ created)
  exact ⟨_, table', created, ran, names.findsBlock pos numKeys_lt⟩

/-- After all such calls every name has the data it was given last, and none where it was removed
since; also the name that is the mark of the deleted entries. -/
theorem lookup_of_staysSmall {alloc : ℕ → Bool} (ample : ∀ n, alloc n = true)
  {ops : List (NameOp D)} (keys : ∀ op ∈ ops, 1 ≤ op.key ∧ op.key < 2 ^ 32)
  (small : ∀ table, new D alloc = some table → table.StaysSmall alloc ops) :
  ∃ table table', new D alloc = some table ∧ table.run alloc ops = some table' ∧
    ∀ key, 1 ≤ key → table'.lookup key = some (nameRun ops key)
  := by
  have created : new D alloc = some ⟨HashTable.empty ℕ (Option D) 0, 0, none⟩ := by
    rw [new, hashTableCreate, if_pos (ample _)]
    rfl
  obtain ⟨table', ran, names⟩ := (names_new D).run ample keys (small _ created)
  exact ⟨_, table', created, ran, fun key pos => names.lookup pos⟩

/-- The key of the mark is inserted and removed. -/
theorem lookup_mark :
  ∃ table table', new ℕ (fun _ => true) = some table ∧
    table.run (fun _ => true) [.insert 1 (some 10), .remove 1] = some table' ∧
    ∀ key, 1 ≤ key → table'.lookup key = some (nameRun [.insert 1 (some 10), .remove 1] key)
  := by
  refine lookup_of_staysSmall (fun _ => rfl) ?_ ?_
  · intro op mem
    simp only [List.mem_cons, List.not_mem_nil, or_false] at mem
    rcases mem with rfl | rfl <;> decide
  · intro table created before key data after table' split ran ne
    rcases before with _ | ⟨op₁, before⟩
    · obtain ⟨same, -⟩ := List.cons.inj split
      exact absurd (NameOp.insert.inj same).1.symm ne
    · rcases before with _ | ⟨op₂, before⟩
      · cases split
      · have := congrArg List.length split
        simp at this

/-- The key of the mark and another one. -/
def markAndOther : List (NameOp ℕ) := [.insert 1 (some 10), .insert 5 (some 50)]

theorem findsBlock_markAndOther :
  ∃ table table', new ℕ (fun _ => true) = some table ∧
    table.run (fun _ => true) markAndOther = some table' ∧
    FindsBlock table' (fun key => nameRun markAndOther key ≠ none) 3
  := by
  refine findsBlock_of_staysSmall (fun _ => rfl) ?_ ?_ (by decide) (by decide)
  · intro op mem
    simp only [markAndOther, List.mem_cons, List.not_mem_nil, or_false] at mem
    rcases mem with rfl | rfl <;> decide
  · intro table created before key data after table' split ran ne
    obtain rfl := Option.some.inj created
    rcases before with _ | ⟨op₁, _ | ⟨op₂, before⟩⟩
    · obtain ⟨same, -⟩ := List.cons.inj split
      exact absurd (NameOp.insert.inj same).1.symm ne
    · obtain ⟨rfl, -⟩ := List.cons.inj split
      obtain rfl := Option.some.inj ran
      rintro ⟨full, -⟩
      exact absurd full (by decide)
    · have := congrArg List.length split
      simp [markAndOther] at this

end NameTable

end Main
