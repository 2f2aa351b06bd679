import Mesa.Data.Probing
import Mathlib.Algebra.BigOperators.Group.Finset.Piecewise

/-!
# Hash tables

The open-addressing hash table of `hash_table.c`, with double hashing and with marks in the place of
deleted entries.  The sets of `set.c` are the same code for entries without data.

A pointer to an entry is its address in the table.  Keys are neither `NULL` nor the key that marks
deleted entries.
-/

namespace Util

open Probing

/-! ### Keys and slots -/

/-- The functions for keys that a table is created with: the hash agrees with the equality. -/
structure KeyFunctions (K : Type) where
  hash : K → ℕ
  equals : K → K → Bool
  hash_lt : ∀ k, hash k < 2 ^ 32
  equals_refl : ∀ k, equals k k = true
  equals_symm : ∀ {k k'}, equals k k' = true → equals k' k = true
  equals_trans : ∀ {k k' k''}, equals k k' = true → equals k' k'' = true → equals k k'' = true
  hash_eq : ∀ {k k'}, equals k k' = true → hash k = hash k'

namespace Numbers

theorem hash_lt (k : ℕ) : k % 2 ^ 32 < 2 ^ 32 := Nat.mod_lt _ (Nat.two_pow_pos 32)

theorem equals_refl (k : ℕ) : (k == k) = true := beq_self_eq_true k

variable {k k' k'' : ℕ}

theorem equals_symm (h : (k == k') = true) : (k' == k) = true := BEq.symm h

theorem equals_trans (h : (k == k') = true) (h' : (k' == k'') = true) : (k == k'') = true :=
  PartialEquivBEq.trans h h'

theorem hash_eq (h : (k == k') = true) : k % 2 ^ 32 = k' % 2 ^ 32 := by rw [beq_iff_eq.mp h]

end Numbers

/-- `struct hash_entry`, of an entry that is present. -/
structure HashEntry (K D : Type) where
  hash : ℕ
  key : K
  data : D

/-- A slot of the table. -/
inductive Slot (K D : Type) where
  | free
  | deleted
  | present (entry : HashEntry K D)

namespace Slot

variable {K D : Type}

/-- `entry_is_free`. -/
def isFree : Slot K D → Bool
  | free => true
  | _ => false

/-- `entry_is_deleted`. -/
def isDeleted : Slot K D → Bool
  | deleted => true
  | _ => false

/-- `entry_is_present`. -/
def isPresent : Slot K D → Bool
  | present _ => true
  | _ => false

/-- The entry in a slot. -/
def live : Slot K D → Option (HashEntry K D)
  | present e => some e
  | _ => none

end Slot

/-! ### Sizes -/

/-- `hash_sizes`: `max_entries`, `size` and `rehash`. -/
def hashSizes : List (ℕ × ℕ × ℕ) :=
  [(2, 5, 3), (4, 7, 5), (8, 13, 11), (16, 19, 17), (32, 43, 41), (64, 73, 71), (128, 151, 149),
    (256, 283, 281), (512, 571, 569), (1024, 1153, 1151), (2048, 2269, 2267), (4096, 4519, 4517),
    (8192, 9013, 9011), (16384, 18043, 18041), (32768, 36109, 36107), (65536, 72091, 72089),
    (131072, 144409, 144407), (262144, 288361, 288359), (524288, 576883, 576881),
    (1048576, 1153459, 1153457), (2097152, 2307163, 2307161), (4194304, 4613893, 4613891),
    (8388608, 9227641, 9227639), (16777216, 18455029, 18455027), (33554432, 36911011, 36911009),
    (67108864, 73819861, 73819859), (134217728, 147639589, 147639587),
    (268435456, 295279081, 295279079), (536870912, 590559793, 590559791),
    (1073741824, 1181116273, 1181116271), (2147483648, 2362232233, 2362232231)]

/-- The index of the last entry of `hash_sizes`. -/
def lastSizeIndex : ℕ := 30

/-! ### The table -/

/-- `struct hash_table`. -/
structure HashTable (K D : Type) where
  table : ℕ → Slot K D
  size : ℕ
  rehash : ℕ
  maxEntries : ℕ
  sizeIndex : ℕ
  entries : ℕ
  deletedEntries : ℕ

variable {K D : Type}

/-- An empty table of the size with the given index. -/
def HashTable.empty (K D : Type) (index : ℕ) : HashTable K D :=
  let sizes := hashSizes[index]?.getD (0, 0, 0)
  { table := fun _ => .free
    size := sizes.2.1
    rehash := sizes.2.2
    maxEntries := sizes.1
    sizeIndex := index
    entries := 0
    deletedEntries := 0 }

/-- `_mesa_hash_table_create`; `alloc` says whether there is memory for an array. -/
def hashTableCreate (K D : Type) (alloc : ℕ → Bool) : Option (HashTable K D) :=
  let ht := HashTable.empty K D 0
  if alloc ht.size then some ht else none

namespace HashTable

/-- `_mesa_hash_table_clear`, without what the callback does. -/
def clear (ht : HashTable K D) : HashTable K D :=
  { ht with
    table := fun i => if i < ht.size then .free else ht.table i
    entries := 0
    deletedEntries := 0 }

/-- The address that is probed after the given one, as a number of 32 bits. -/
def next (ht : HashTable K D) (hash a : ℕ) : ℕ := (a + (1 + hash % ht.rehash)) % 2 ^ 32 % ht.size

/-- Whether a slot holds an entry with the given hash and an equal key. -/
def Matches (fs : KeyFunctions K) (hash : ℕ) (key : K) : Slot K D → Bool
  | .present e => e.hash == hash && fs.equals key e.key
  | _ => false

/-- The loop of `hash_table_search`; it has no result if it does not end within the given number of
rounds. -/
def searchLoop (fs : KeyFunctions K) (ht : HashTable K D) (hash : ℕ) (key : K) :
    ℕ → ℕ → Option (Option ℕ)
  | 0, _ => none
  | fuel + 1, a =>
    if (ht.table a).isFree then some none
    else if Matches fs hash key (ht.table a) then some (some a)
    else if ht.next hash a = hash % ht.size then some none
    else searchLoop fs ht hash key fuel (ht.next hash a)

/-- `hash_table_search`. -/
def search (fs : KeyFunctions K) (ht : HashTable K D) (hash : ℕ) (key : K) : Option (Option ℕ) :=
  ht.searchLoop fs hash key ht.size (hash % ht.size)

/-- How the loop of `hash_table_insert` ends: with an entry that is replaced, or with the first
entry that is available. -/
inductive Probe where
  | replace (a : ℕ)
  | available (a : Option ℕ)

/-- The loop of `hash_table_insert`. -/
def insertLoop (fs : KeyFunctions K) (ht : HashTable K D) (hash : ℕ) (key : K) :
    ℕ → ℕ → Option ℕ → Option Probe
  | 0, _, _ => none
  | fuel + 1, a, available =>
    let slot := ht.table a
    let available := if !slot.isPresent && available.isNone then some a else available
    if slot.isFree then some (.available available)
    else if !slot.isDeleted && Matches fs hash key slot then some (.replace a)
    else if ht.next hash a = hash % ht.size then some (.available available)
    else insertLoop fs ht hash key fuel (ht.next hash a) available

/-- The table with an entry in a slot. -/
def set (ht : HashTable K D) (a : ℕ) (slot : Slot K D) : HashTable K D :=
  { ht with table := Function.update ht.table a slot }

/-- The part of `hash_table_insert` that comes after the rehashing. -/
def place (fs : KeyFunctions K) (ht : HashTable K D) (hash : ℕ) (key : K) (data : D) :
    Option (Option ℕ × HashTable K D) :=
  match ht.insertLoop fs hash key ht.size (hash % ht.size) none with
  | none => none
  | some (.replace a) => some (some a, ht.set a (.present ⟨hash, key, data⟩))
  | some (.available none) => some (none, ht)
  | some (.available (some a)) =>
    let deleted := if (ht.table a).isDeleted then ht.deletedEntries - 1 else ht.deletedEntries
    some (some a, { ht.set a (.present ⟨hash, key, data⟩) with
      deletedEntries := deleted
      entries := ht.entries + 1 })

/-- `_mesa_hash_table_remove`; no entry for `NULL`. -/
def remove (ht : HashTable K D) : Option ℕ → HashTable K D
  | none => ht
  | some a =>
    { ht.set a .deleted with
      entries := ht.entries - 1
      deletedEntries := ht.deletedEntries + 1 }

/-- The first entry of the given number of slots. -/
def firstPresent (ht : HashTable K D) : ℕ → ℕ → Option (ℕ × HashEntry K D)
  | 0, _ => none
  | n + 1, a =>
    match ht.table a with
    | .present e => some (a, e)
    | _ => ht.firstPresent n (a + 1)

/-- `_mesa_hash_table_next_entry`. -/
def nextEntry (ht : HashTable K D) (entry : Option ℕ) : Option (ℕ × HashEntry K D) :=
  let a := match entry with
    | none => 0
    | some a => a + 1
  ht.firstPresent (ht.size - a) a

/-- `hash_table_foreach` from after an entry on, with a body that removes the current entry or leaves
it: the entries that it comes to, and the table afterwards.  There is no result if the iteration
does not end within the given number of rounds. -/
def foreachFrom (discard : HashEntry K D → Bool) :
    ℕ → HashTable K D → Option ℕ → Option (List (HashEntry K D) × HashTable K D)
  | 0, _, _ => none
  | fuel + 1, ht, entry =>
    match ht.nextEntry entry with
    | none => some ([], ht)
    | some (a, e) =>
      let ht := if discard e then ht.remove (some a) else ht
      (foreachFrom discard fuel ht (some a)).map fun r => (e :: r.1, r.2)

/-- `hash_table_foreach`. -/
def foreach (discard : HashEntry K D → Bool) (ht : HashTable K D) :
    Option (List (HashEntry K D) × HashTable K D) :=
  foreachFrom discard (ht.size + 1) ht none

/-- The entries of a table are inserted into another one. -/
def insertAll (insert : HashTable K D → HashEntry K D → Option (HashTable K D)) :
    HashTable K D → List (HashEntry K D) → Option (HashTable K D)
  | ht, [] => some ht
  | ht, e :: es => (insert ht e).bind fun ht => insertAll insert ht es

/-- `_mesa_hash_table_rehash`, with the function that inserts an entry. -/
def rehashTo (alloc : ℕ → Bool) (insert : HashTable K D → HashEntry K D → Option (HashTable K D))
    (ht : HashTable K D) (newSizeIndex : ℕ) : Option (HashTable K D) :=
  if hashSizes.length ≤ newSizeIndex then some ht
  else
    let empty := HashTable.empty K D newSizeIndex
    if alloc empty.size then
      (ht.foreach fun _ => false).bind fun r => insertAll insert empty r.1
    else some ht

/-- `hash_table_insert`.  The insertion and the rehashing call each other; there is no result if
that goes deeper than the given number of calls. -/
def insertFuel (fs : KeyFunctions K) (alloc : ℕ → Bool) :
    ℕ → HashTable K D → ℕ → K → D → Option (Option ℕ × HashTable K D)
  | 0, _, _, _, _ => none
  | fuel + 1, ht, hash, key, data =>
    let insert := fun (ht : HashTable K D) (e : HashEntry K D) =>
      (insertFuel fs alloc fuel ht e.hash e.key e.data).map Prod.snd
    let rehashed :=
      if ht.maxEntries ≤ ht.entries then ht.rehashTo alloc insert (ht.sizeIndex + 1)
      else if ht.maxEntries ≤ ht.deletedEntries + ht.entries then
        ht.rehashTo alloc insert ht.sizeIndex
      else some ht
    rehashed.bind fun ht => ht.place fs hash key data

/-- `hash_table_insert`.  It cannot rehash more often than there are sizes. -/
def insert (fs : KeyFunctions K) (alloc : ℕ → Bool) (ht : HashTable K D) (hash : ℕ) (key : K)
    (data : D) : Option (Option ℕ × HashTable K D) :=
  insertFuel fs alloc (hashSizes.length + 1) ht hash key data

end HashTable

end Util
