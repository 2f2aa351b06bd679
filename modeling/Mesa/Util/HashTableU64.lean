import Mesa.Bits.Bytes
import Mesa.Util.HashTableMap

/-!
# Hash tables with keys of 64 bits

The wrapper `hash_table_u64` of `hash_table.c`.  Where pointers have 64 bits, a key is stored as the
pointer that it is; where they have 32 bits, a copy of it is stored on the heap, and the pointer to
the copy.  One key is the mark for deleted entries of the table underneath, and has a field of its
own.

The copy of a key lives as long as its entry is present, so an entry has the key itself here.  Data
is a pointer, which may be `NULL`.
-/

namespace Util

/-- `DELETED_KEY_VALUE`. -/
def deletedKeyValue : BitVec 64 := 1

/-- `_mesa_hash_pointer`, of a pointer of 64 bits. -/
def hashPointer (num : BitVec 64) : ℕ :=
  ((num >>> 2 ^^^ num >>> 6 ^^^ num >>> 10 ^^^ num >>> 14).setWidth 32).toNat

/-- `_mesa_fnv32_1a_accumulate_block`. -/
def fnv32AccumulateBlock (hash : BitVec 32) (data : List UInt8) : BitVec 32 :=
  data.foldl (fun hash byte => (hash ^^^ byte.toBitVec.setWidth 32) * 0x01000193) hash

/-- `_mesa_hash_data`. -/
def hashData (data : List UInt8) : ℕ := (fnv32AccumulateBlock 2166136261 data).toNat

/-- `key_u64_hash`, on a machine with the lowest byte first. -/
def keyU64Hash (key : BitVec 64) : ℕ := hashData (Bits.wordBytes false 8 key.toNat)

theorem hashPointer_lt (num : BitVec 64) :
  hashPointer num < 2 ^ 32
  := BitVec.isLt _

theorem keyU64Hash_lt (key : BitVec 64) :
  keyU64Hash key < 2 ^ 32
  := BitVec.isLt _

/-- The functions that `_mesa_hash_table_u64_create` makes the table with: `_mesa_hash_pointer` and
`_mesa_key_pointer_equal`, or `key_u64_hash` and `key_u64_equals`. -/
def keyU64Functions (pointers64 : Bool) : KeyFunctions (BitVec 64) where
  hash key := if pointers64 then hashPointer key else keyU64Hash key
  equals key key' := key == key'
  hash_lt key := by
    split
    · exact hashPointer_lt key
    · exact keyU64Hash_lt key
  equals_refl key := by simp
  equals_symm h := by simpa using (beq_iff_eq.1 h).symm
  equals_trans h h' := by simpa using (beq_iff_eq.1 h).trans (beq_iff_eq.1 h')
  hash_eq h := by rw [beq_iff_eq.1 h]

@[simp]
theorem keyU64Functions_equals (pointers64 : Bool) (key key' : BitVec 64) :
  (keyU64Functions pointers64).equals key key' = (key == key')
  := rfl

/-- `struct hash_table_u64`. -/
structure HashTableU64 (D : Type) where
  table : HashTable (BitVec 64) (Option D)
  deletedKeyData : Option D

/-- What there is memory for: an array with the given number of entries, and the copy of a key. -/
structure Memory where
  array : ℕ → Bool
  key : BitVec 64 → Bool

namespace HashTableU64

variable {D : Type}

/-- `_mesa_hash_table_u64_create`. -/
def create (D : Type) (memory : Memory) : Option (HashTableU64 D) :=
  (hashTableCreate (BitVec 64) (Option D) memory.array).map fun table => ⟨table, none⟩

/-- `_mesa_hash_table_u64_insert`; it has no result where an assertion fails. -/
def insert (pointers64 : Bool) (memory : Memory) (ht : HashTableU64 D) (key : BitVec 64)
    (data : Option D) : Option (HashTableU64 D) :=
  let fs := keyU64Functions pointers64
  if key = deletedKeyValue then some { ht with deletedKeyData := data }
  else if pointers64 then
    -- `hash_table_insert` begins with `assert(key != NULL)`.
    if key = 0 then none
    else (ht.table.insert fs memory.array (fs.hash key) key data).map fun r =>
      { ht with table := r.2 }
  else if memory.key key then
    (ht.table.insert fs memory.array (fs.hash key) key data).map fun r => { ht with table := r.2 }
  else some ht

/-- `hash_table_u64_search`. -/
def searchEntry (pointers64 : Bool) (ht : HashTableU64 D) (key : BitVec 64) : Option (Option ℕ) :=
  let fs := keyU64Functions pointers64
  ht.table.search fs (fs.hash key) key

/-- `_mesa_hash_table_u64_search`. -/
def search (pointers64 : Bool) (ht : HashTableU64 D) (key : BitVec 64) : Option (Option D) :=
  if key = deletedKeyValue then some ht.deletedKeyData
  else (ht.searchEntry pointers64 key).map fun entry => (ht.table.dataAt entry).join

/-- `_mesa_hash_table_u64_remove`. -/
def remove (pointers64 : Bool) (ht : HashTableU64 D) (key : BitVec 64) :
    Option (HashTableU64 D) :=
  if key = deletedKeyValue then some { ht with deletedKeyData := none }
  else (ht.searchEntry pointers64 key).map fun entry => { ht with table := ht.table.remove entry }

/-- `_mesa_hash_table_u64_destroy`: the entries that the function for deletion is called with, if
there is one. -/
def destroy (pointers64 deleteFunction : Bool) (ht : HashTableU64 D) :
    Option (List (HashEntry (BitVec 64) (Option D))) :=
  if deleteFunction then
    let deletedEntries : Option (List (HashEntry (BitVec 64) (Option D))) :=
      match ht.deletedKeyData with
      | none => some []
      | some data =>
        -- `key_u64_hash` reads the key that its argument points to, but the mark points to nothing.
        if pointers64 then some [⟨hashPointer deletedKeyValue, deletedKeyValue, some data⟩]
        else none
    deletedEntries.bind fun first =>
      (ht.table.foreach fun _ => false).map fun r => first ++ r.1
  else some []

end HashTableU64

/-! ### Tables as maps -/

namespace HashTableU64

variable {D : Type} {pointers64 : Bool} {memory : Memory} {ht : HashTableU64 D}

/-- A table stands for a map from keys to data, in which a key that is not there has `NULL`. -/
structure Represents (pointers64 : Bool) (ht : HashTableU64 D) (m : BitVec 64 → Option D) :
    Prop where
  inv : ht.table.Inv (keyU64Functions pointers64)
  deleted : m deletedKeyValue = ht.deletedKeyData
  apart : ∀ q ∈ ht.table.contents, q.1 ≠ deletedKeyValue
  present : ∀ q ∈ ht.table.contents, m q.1 = q.2
  absent : ∀ key, key ≠ deletedKeyValue → (∀ q ∈ ht.table.contents, q.1 ≠ key) → m key = none

theorem mem_others {key : BitVec 64} {q : BitVec 64 × Option D}
    {contents : Multiset (BitVec 64 × Option D)} :
  q ∈ HashTable.others (keyU64Functions pointers64) key contents ↔ q ∈ contents ∧ q.1 ≠ key
  := by
  rw [HashTable.others, Multiset.mem_filter, keyU64Functions_equals, beq_eq_false_iff_ne, ne_comm]

/-- A table with other data for the deleted key. -/
theorem Represents.set_deleted {m : BitVec 64 → Option D} (rep : ht.Represents pointers64 m)
    (data : Option D) :
  Represents pointers64 { ht with deletedKeyData := data }
    (Function.update m deletedKeyValue data)
  where
  inv := rep.inv
  deleted := Function.update_self _ _ _
  apart := rep.apart
  present q mem := by rw [Function.update_of_ne (rep.apart q mem), rep.present q mem]
  absent key ne none := by rw [Function.update_of_ne ne, rep.absent key ne none]

/-- A table with a pair in the place of those with its key. -/
theorem Represents.set_pair {m : BitVec 64 → Option D} (rep : ht.Represents pointers64 m)
    {key : BitVec 64} (ne : key ≠ deletedKeyValue) (data : Option D)
    {table : HashTable (BitVec 64) (Option D)} (inv : table.Inv (keyU64Functions pointers64))
    (contents : table.contents = (key, data)
      ::ₘ HashTable.others (keyU64Functions pointers64) key ht.table.contents) :
  Represents pointers64 { ht with table := table } (Function.update m key data)
  := by
  have cases : ∀ q, q ∈ table.contents ↔ q = (key, data) ∨ q ∈ ht.table.contents ∧ q.1 ≠ key := by
    intro q
    rw [contents, Multiset.mem_cons, mem_others]
  refine ⟨inv, ?_, ?_, ?_, ?_⟩
  · rw [Function.update_of_ne ne.symm, rep.deleted]
  · intro q mem
    rcases (cases q).1 mem with rfl | ⟨old, -⟩
    · exact ne
    · exact rep.apart q old
  · intro q mem
    rcases (cases q).1 mem with rfl | ⟨old, other⟩
    · exact Function.update_self _ _ _
    · rw [Function.update_of_ne other, rep.present q old]
  · intro key' ne' none
    have other : key' ≠ key := (none _ ((cases _).2 (.inl rfl))).symm
    rw [Function.update_of_ne other]
    apply rep.absent key' ne'
    intro q mem same
    exact none q ((cases q).2 (.inr ⟨mem, same ▸ other⟩)) same

/-- A table without the pairs with a key. -/
theorem Represents.erase {m : BitVec 64 → Option D} (rep : ht.Represents pointers64 m)
    {key : BitVec 64} (ne : key ≠ deletedKeyValue)
    {table : HashTable (BitVec 64) (Option D)} (inv : table.Inv (keyU64Functions pointers64))
    (contents : table.contents
      = HashTable.others (keyU64Functions pointers64) key ht.table.contents) :
  Represents pointers64 { ht with table := table } (Function.update m key none)
  := by
  have cases : ∀ q, q ∈ table.contents ↔ q ∈ ht.table.contents ∧ q.1 ≠ key := by
    intro q
    rw [contents, mem_others]
  refine ⟨inv, ?_, ?_, ?_, ?_⟩
  · rw [Function.update_of_ne ne.symm, rep.deleted]
  · intro q mem
    exact rep.apart q ((cases q).1 mem).1
  · intro q mem
    obtain ⟨old, other⟩ := (cases q).1 mem
    rw [Function.update_of_ne other, rep.present q old]
  · intro key' ne' none
    rcases eq_or_ne key' key with rfl | other
    · exact Function.update_self _ _ _
    rw [Function.update_of_ne other]
    apply rep.absent key' ne'
    intro q mem same
    exact none q ((cases q).2 ⟨mem, same ▸ other⟩) same

/-- A new table stands for the empty map. -/
theorem represents_empty (pointers64 : Bool) :
  Represents (D := D) pointers64 ⟨HashTable.empty _ _ 0, none⟩ fun _ => none
  := by
  have empty : (HashTable.empty (BitVec 64) (Option D) 0).Inv (keyU64Functions pointers64)
      ∧ (HashTable.empty (BitVec 64) (Option D) 0).contents = 0 := HashTable.empty_inv (by decide)
  refine ⟨empty.1, rfl, ?_, ?_, fun _ _ _ => rfl⟩
  · rw [empty.2]
    simp
  · rw [empty.2]
    simp

/-- There is memory for everything. -/
structure Memory.Ample (memory : Memory) : Prop where
  array : ∀ n, memory.array n = true
  key : ∀ key, memory.key key = true

theorem Represents.insert_spec {m : BitVec 64 → Option D} (rep : ht.Represents pointers64 m)
    (ample : Memory.Ample memory) {key : BitVec 64} (pointer : pointers64 = true → key ≠ 0)
    (small : key ≠ deletedKeyValue → ¬ ht.table.GrowsToLast) (data : Option D) :
  ∃ ht', ht.insert pointers64 memory key data = some ht'
    ∧ ht'.Represents pointers64 (Function.update m key data)
  := by
  rcases eq_or_ne key deletedKeyValue with rfl | ne
  · exact ⟨_, by rw [insert, if_pos rfl], rep.set_deleted data⟩
  obtain ⟨a, table, inserted, inv, contents⟩ :=
    rep.inv.insert_spec ample.array (small ne) key data
  refine ⟨{ ht with table := table }, ?_, rep.set_pair ne data inv contents⟩
  rw [insert, if_neg ne]
  cases pointers64 with
  | true =>
    rw [if_pos rfl, if_neg (pointer rfl), inserted]
    rfl
  | false =>
    rw [if_neg (by decide), if_pos (ample.key key), inserted]
    rfl

theorem Represents.search_spec {m : BitVec 64 → Option D} (rep : ht.Represents pointers64 m)
    (key : BitVec 64) :
  ht.search pointers64 key = some (m key)
  := by
  rcases eq_or_ne key deletedKeyValue with rfl | ne
  · rw [search, if_pos rfl, rep.deleted]
  rw [search, if_neg ne, searchEntry]
  obtain ⟨entry, searched, spec⟩ := rep.inv.search_map key
  rw [searched, Option.map_some]
  rcases spec with ⟨key', data, equal, mem, found⟩ | ⟨none, found⟩
  · obtain rfl : key = key' := beq_iff_eq.1 equal
    rw [found, rep.present _ mem]
    rfl
  · have free : ∀ q ∈ ht.table.contents, q.1 ≠ key := by
      intro q mem
      exact (beq_eq_false_iff_ne.1 (none q mem)).symm
    rw [found, rep.absent key ne free]
    rfl

theorem Represents.remove_spec {m : BitVec 64 → Option D} (rep : ht.Represents pointers64 m)
    (key : BitVec 64) :
  ∃ ht', ht.remove pointers64 key = some ht'
    ∧ ht'.Represents pointers64 (Function.update m key none)
  := by
  rcases eq_or_ne key deletedKeyValue with rfl | ne
  · exact ⟨_, if_pos rfl, rep.set_deleted none⟩
  obtain ⟨entry, searched, inv, contents, -⟩ := rep.inv.remove_search key
  refine ⟨{ ht with table := ht.table.remove entry }, ?_, rep.erase ne inv contents⟩
  rw [remove, if_neg ne, searchEntry, searched]
  rfl

/-- The entries that are deleted with a table are those of the map, each of them once. -/
def Deletes (visited : List (HashEntry (BitVec 64) (Option D))) (m : BitVec 64 → Option D) : Prop :=
  (visited.map HashEntry.key).Nodup
    ∧ ∀ key data, (∃ e ∈ visited, e.key = key ∧ e.data = some data) ↔ m key = some data

/-- The entries of the table underneath. -/
theorem Represents.entries_spec {m : BitVec 64 → Option D} (rep : ht.Represents pointers64 m) :
  Deletes (ht.table.entriesFrom 0 ht.table.size) (Function.update m deletedKeyValue none)
    ∧ ∀ e ∈ ht.table.entriesFrom 0 ht.table.size, e.key ≠ deletedKeyValue
  := by
  have members : ∀ q, q ∈ ht.table.contents
      ↔ ∃ e ∈ ht.table.entriesFrom 0 ht.table.size, e.pair = q := by
    intro q
    rw [HashTable.contents_eq_entriesFrom, Multiset.mem_coe, List.mem_map]
  have apart : ∀ e ∈ ht.table.entriesFrom 0 ht.table.size, e.key ≠ deletedKeyValue := by
    intro e mem
    exact rep.apart e.pair ((members _).2 ⟨e, mem, rfl⟩)
  refine ⟨⟨?_, ?_⟩, apart⟩
  · rw [List.Nodup, List.pairwise_map]
    exact rep.inv.distinct.imp fun different => beq_eq_false_iff_ne.1 different
  · intro key data
    constructor
    · rintro ⟨e, mem, rfl, found⟩
      rw [Function.update_of_ne (apart e mem), ← found]
      exact rep.present e.pair ((members _).2 ⟨e, mem, rfl⟩)
    · intro found
      have ne : key ≠ deletedKeyValue := by
        rintro rfl
        rw [Function.update_self] at found
        contradiction
      rw [Function.update_of_ne ne] at found
      by_contra none
      have free : ∀ q ∈ ht.table.contents, q.1 ≠ key := by
        intro q mem same
        obtain ⟨e, mem', rfl⟩ := (members q).1 mem
        have here : m key = e.data := same ▸ rep.present e.pair mem
        exact none ⟨e, mem', same, here.symm.trans found⟩
      rw [rep.absent key ne free] at found
      contradiction

/-- A table is destroyed with the entries of its map, unless the mark for deleted entries is taken
for the pointer to a key. -/
theorem Represents.destroy_spec {m : BitVec 64 → Option D} (rep : ht.Represents pointers64 m)
    (noMark : pointers64 = false → m deletedKeyValue = none) :
  ∃ visited, ht.destroy pointers64 true = some visited ∧ Deletes visited m
  := by
  obtain ⟨⟨nodup, deletes⟩, apart⟩ := rep.entries_spec
  rw [destroy, if_pos rfl, rep.inv.foreach_all]
  cases marked : ht.deletedKeyData with
  | none =>
    have same : Function.update m deletedKeyValue none = m := by
      rw [← marked, ← rep.deleted, Function.update_eq_self]
    rw [same] at deletes
    exact ⟨_, rfl, nodup, deletes⟩
  | some data =>
    have value : m deletedKeyValue = some data := rep.deleted.trans marked
    have pointer : pointers64 = true := by
      by_contra not
      rw [noMark (Bool.eq_false_iff.2 not)] at value
      contradiction
    subst pointer
    refine ⟨_, rfl, ?_, ?_⟩
    · rw [List.map_append, List.map_cons, List.map_nil, List.singleton_append, List.nodup_cons]
      refine ⟨?_, nodup⟩
      rw [List.mem_map]
      rintro ⟨e, mem, same⟩
      exact apart e mem same
    · intro key data'
      rcases eq_or_ne key deletedKeyValue with rfl | ne
      · rw [value]
        constructor
        · rintro ⟨e, mem, same, found⟩
          rcases List.mem_append.1 mem with first | rest
          · rw [List.mem_singleton.1 first] at found
            exact found
          · exact absurd same (apart e rest)
        · intro found
          exact ⟨_, List.mem_append_left _ (List.mem_singleton_self _), rfl, found⟩
      · rw [← Function.update_of_ne (v := none) ne m, ← deletes key data']
        constructor
        · rintro ⟨e, mem, same, found⟩
          rcases List.mem_append.1 mem with first | rest
          · rw [List.mem_singleton.1 first] at same
            exact absurd same.symm ne
          · exact ⟨e, rest, same, found⟩
        · rintro ⟨e, mem, same, found⟩
          exact ⟨e, List.mem_append_right _ mem, same, found⟩

/-- The mark for deleted entries is taken for the pointer to a key. -/
theorem destroy_mark {data : D} (marked : ht.deletedKeyData = some data) :
  ht.destroy false true = none
  := by
  rw [destroy, if_pos rfl, marked]
  rfl

end HashTableU64

/-! ### Runs -/

/-- An operation on a table with keys of 64 bits. -/
inductive U64Op (D : Type) where
  | insert (key : BitVec 64) (data : Option D)
  | search (key : BitVec 64)
  | remove (key : BitVec 64)

/-- What an operation returns. -/
inductive U64Reply (D : Type) where
  | done
  | found (data : Option D)
deriving DecidableEq

namespace HashTableU64

variable {D : Type}

/-- An operation. -/
def step (pointers64 : Bool) (memory : Memory) (ht : HashTableU64 D) :
    U64Op D → Option (U64Reply D × HashTableU64 D)
  | .insert key data => (ht.insert pointers64 memory key data).map fun ht' => (.done, ht')
  | .search key => (ht.search pointers64 key).map fun data => (.found data, ht)
  | .remove key => (ht.remove pointers64 key).map fun ht' => (.done, ht')

/-- The operations, one after the other. -/
def run (pointers64 : Bool) (memory : Memory) (ht : HashTableU64 D) :
    List (U64Op D) → Option (List (U64Reply D) × HashTableU64 D)
  | [] => some ([], ht)
  | op :: ops =>
    (ht.step pointers64 memory op).bind fun r =>
      (r.2.run pointers64 memory ops).map fun rs => (r.1 :: rs.1, rs.2)

end HashTableU64

/-- What an operation means for a map; a key without data has `NULL`. -/
def u64MapStep {D : Type} (m : BitVec 64 → Option D) :
    U64Op D → U64Reply D × (BitVec 64 → Option D)
  | .insert key data => (.done, Function.update m key data)
  | .search key => (.found (m key), m)
  | .remove key => (.done, Function.update m key none)

/-- What operations mean for a map. -/
def u64MapRun {D : Type} (m : BitVec 64 → Option D) :
    List (U64Op D) → List (U64Reply D) × (BitVec 64 → Option D)
  | [] => ([], m)
  | op :: ops =>
    let r := u64MapStep m op
    let rs := u64MapRun r.2 ops
    (r.1 :: rs.1, rs.2)

namespace HashTableU64

variable {D : Type} {pointers64 : Bool} {memory : Memory} {ht : HashTableU64 D}

/-- No insertion makes the table underneath grow to the last of the sizes. -/
def StaysSmall (pointers64 : Bool) (memory : Memory) (ht : HashTableU64 D) (ops : List (U64Op D)) :
    Prop :=
  ∀ before key data after replies ht', ops = before ++ .insert key data :: after →
    ht.run pointers64 memory before = some (replies, ht') → key ≠ deletedKeyValue →
    ¬ ht'.table.GrowsToLast

/-- No key is the null pointer. -/
def NoNull (pointers64 : Bool) (ops : List (U64Op D)) : Prop :=
  pointers64 = true → ∀ data, .insert 0 data ∉ ops

theorem StaysSmall.tail {op : U64Op D} {ops : List (U64Op D)} {reply : U64Reply D}
    {ht' : HashTableU64 D} (small : ht.StaysSmall pointers64 memory (op :: ops))
    (stepped : ht.step pointers64 memory op = some (reply, ht')) :
  ht'.StaysSmall pointers64 memory ops
  := by
  intro before key data after replies ht'' split ran
  apply small (op :: before) key data after (reply :: replies) ht''
  · rw [split, List.cons_append]
  · rw [run, stepped, Option.bind_some, ran]
    rfl

/-- An operation does what it means. -/
theorem Represents.step_spec {m : BitVec 64 → Option D} (rep : ht.Represents pointers64 m)
    (ample : Memory.Ample memory) {op : U64Op D} {ops : List (U64Op D)}
    (noNull : NoNull pointers64 (op :: ops))
    (small : ht.StaysSmall pointers64 memory (op :: ops)) :
  ∃ ht', ht.step pointers64 memory op = some ((u64MapStep m op).1, ht')
    ∧ ht'.Represents pointers64 (u64MapStep m op).2
  := by
  cases op with
  | insert key data =>
    have pointer : pointers64 = true → key ≠ 0 := by
      rintro is64 rfl
      exact noNull is64 data List.mem_cons_self
    obtain ⟨ht', inserted, rep'⟩ :=
      rep.insert_spec ample pointer (small [] key data ops [] ht rfl rfl) data
    exact ⟨ht', by rw [step, inserted]; rfl, rep'⟩
  | search key => exact ⟨ht, by rw [step, rep.search_spec]; rfl, rep⟩
  | remove key =>
    obtain ⟨ht', removed, rep'⟩ := rep.remove_spec key
    exact ⟨ht', by rw [step, removed]; rfl, rep'⟩

/-- Operations do what they mean. -/
theorem Represents.run_spec {m : BitVec 64 → Option D} (rep : ht.Represents pointers64 m)
    (ample : Memory.Ample memory) {ops : List (U64Op D)} (noNull : NoNull pointers64 ops)
    (small : ht.StaysSmall pointers64 memory ops) :
  ∃ ht', ht.run pointers64 memory ops = some ((u64MapRun m ops).1, ht')
    ∧ ht'.Represents pointers64 (u64MapRun m ops).2
  := by
  induction ops generalizing ht m with
  | nil => exact ⟨ht, rfl, rep⟩
  | cons op ops ih =>
    obtain ⟨ht₁, stepped, rep₁⟩ := rep.step_spec ample noNull small
    have noNull₁ : NoNull pointers64 ops :=
      fun is64 data mem => noNull is64 data (List.mem_cons_of_mem _ mem)
    obtain ⟨ht', ran, rep'⟩ := ih rep₁ noNull₁ (small.tail stepped)
    refine ⟨ht', ?_, rep'⟩
    rw [run, stepped, Option.bind_some, ran]
    rfl

/-- A run with the null pointer as a key stops at a failed assertion. -/
theorem run_null {data : Option D} {ops : List (U64Op D)} (mem : .insert 0 data ∈ ops) :
  ht.run true memory ops = none
  := by
  induction ops generalizing ht with
  | nil => contradiction
  | cons op ops ih =>
    rw [run]
    cases stepped : ht.step true memory op with
    | none => rfl
    | some r =>
      rcases List.mem_cons.1 mem with rfl | later
      · have failed : ht.step true memory (.insert 0 data) = none := by
          rw [step, insert, if_neg (by decide), if_pos rfl, if_pos rfl]
          rfl
        rw [failed] at stepped
        contradiction
      · rw [Option.bind_some, ih later]
        rfl

/-- A table that is made, used and destroyed behaves as a map: every operation returns what the map
says, and the table is destroyed with the entries of the map. -/
def BehavesAsMap (pointers64 : Bool) (memory : Memory) (ops : List (U64Op D))
    (deleteFunction : Bool) : Prop :=
  ∃ ht ht' visited, create D memory = some ht
    ∧ ht.run pointers64 memory ops = some ((u64MapRun (fun _ => none) ops).1, ht')
    ∧ ht'.destroy pointers64 deleteFunction = some visited
    ∧ (deleteFunction = true → Deletes visited (u64MapRun (fun _ => none) ops).2)

/-- As long as the table underneath stays below the last of the sizes and there is memory, a table
with keys of 64 bits behaves as a map if and only if the key 0 is not inserted where it is the null
pointer, and the function for deletion is not called where the key that marks deleted entries has
data and is not a pointer to a key. -/
theorem behavesAsMap_iff (pointers64 : Bool) (memory : Memory) (ops : List (U64Op D))
    (deleteFunction : Bool) (ample : Memory.Ample memory)
    (small : StaysSmall pointers64 memory ⟨HashTable.empty _ _ 0, none⟩ ops) :
  BehavesAsMap pointers64 memory ops deleteFunction
    ↔ (pointers64 = true → ∀ data, .insert 0 data ∉ ops)
      ∧ (pointers64 = false → deleteFunction = true →
          (u64MapRun (fun _ => none) ops).2 deletedKeyValue = none)
  := by
  have created : create D memory = some ⟨HashTable.empty _ _ 0, none⟩ := by
    rw [create, hashTableCreate, if_pos (ample.array _)]
    rfl
  have rep := represents_empty (D := D) pointers64
  constructor
  · rintro ⟨ht, ht', visited, made, ran, destroyed, -⟩
    obtain rfl := Option.some.inj (created.symm.trans made)
    constructor
    · rintro rfl data mem
      rw [run_null mem] at ran
      contradiction
    · rintro rfl rfl
      have noNull : NoNull false ops := fun is64 => absurd is64 (by decide)
      obtain ⟨ht'', ran', rep''⟩ := rep.run_spec ample noNull small
      obtain rfl : ht' = ht'' := (Prod.mk.inj (Option.some.inj (ran.symm.trans ran'))).2
      by_contra marked
      obtain ⟨data, some⟩ := Option.ne_none_iff_exists'.1 marked
      rw [destroy_mark (rep''.deleted.symm.trans some)] at destroyed
      contradiction
  · rintro ⟨noNull, noMark⟩
    obtain ⟨ht', ran, rep'⟩ := rep.run_spec ample noNull small
    cases deleteFunction with
    | false => exact ⟨_, ht', [], created, ran, rfl, fun h => absurd h (by decide)⟩
    | true =>
      obtain ⟨visited, destroyed, deletes⟩ := rep'.destroy_spec fun is32 => noMark is32 rfl
      exact ⟨_, ht', visited, created, ran, destroyed, fun _ => deletes⟩

/-- Memory for everything. -/
def allMemory : Memory := ⟨fun _ => true, fun _ => true⟩

theorem allMemory_ample :
  Memory.Ample allMemory
  := ⟨fun _ => rfl, fun _ => rfl⟩

/-- The key that marks deleted entries and another one. -/
def markAndOther : List (U64Op ℕ) := [.insert 1 (some 10), .insert 5 (some 50), .search 1]

theorem markAndOther_small :
  StaysSmall true allMemory ⟨HashTable.empty _ _ 0, none⟩ markAndOther
  := by
  intro before key data after replies ht' split ran ne
  rcases before with _ | ⟨op₁, _ | ⟨op₂, _ | ⟨op₃, before⟩⟩⟩
  · obtain ⟨same, -⟩ := List.cons.inj split
    exact absurd (U64Op.insert.inj same).1.symm ne
  · obtain ⟨rfl, -⟩ := List.cons.inj split
    obtain ⟨-, rfl⟩ := Prod.mk.inj (Option.some.inj ran)
    rintro ⟨full, -⟩
    exact absurd full (by decide)
  · obtain ⟨same, -⟩ := List.cons.inj (List.cons.inj (List.cons.inj split).2).2
    contradiction
  · have := congrArg List.length split
    simp [markAndOther] at this

theorem behavesAsMap_markAndOther :
  BehavesAsMap true allMemory markAndOther true
  := by
  rw [behavesAsMap_iff true allMemory markAndOther true allMemory_ample markAndOther_small]
  refine ⟨?_, fun is32 => absurd is32 (by decide)⟩
  intro _ data mem
  simp [markAndOther] at mem

/-- The key 0 is the null pointer where pointers have 64 bits. -/
theorem not_behavesAsMap_zero :
  ¬ BehavesAsMap true allMemory [.insert 0 (some 7)] false
  := by
  rintro ⟨ht, ht', visited, -, ran, -, -⟩
  rw [run_null List.mem_cons_self] at ran
  contradiction

end HashTableU64

end Util
