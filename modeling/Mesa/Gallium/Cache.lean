import Mesa.Data.Lru
import Mesa.Util.HashTable

/-!
# The cache of Gallium

The cache of `u_cache.c`: a table with linear probing, whose filled entries are linked in the order
in which they were used.  The sentinel of the list is an entry as well.  An entry that is not filled
has neither a key nor a value.

The list of the filled entries is given by their addresses, from the one that was used last.  Besides
the fields of the source, a cache records the pairs for which `destroy` was called.
-/

namespace Gallium

namespace Cache

open Util (KeyFunctions)

/-! ### States -/

/-- `struct util_cache_entry`. -/
inductive Entry (K V : Type) where
  | empty
  | filled (hash : ℕ) (key : K) (value : V)
  | deleted

namespace Entry

variable {K V : Type}

def isFilled : Entry K V → Bool
  | filled _ _ _ => true
  | _ => false

def isEmpty : Entry K V → Bool
  | empty => true
  | _ => false

/-- The pair of an entry that is filled. -/
def pair : Entry K V → Option (K × V)
  | filled _ key value => some (key, value)
  | _ => none

end Entry

/-- `struct util_cache`. -/
structure State (K V : Type) where
  size : ℕ
  entries : ℕ → Entry K V := fun _ => .empty
  count : ℕ := 0
  lru : List ℕ := []
  /-- the entry that is the sentinel of the list -/
  sentinel : Entry K V := .empty
  destroyed : List (K × V) := []

/-- A pointer to an entry. -/
inductive Place where
  | slot (i : ℕ)
  | sentinel
deriving DecidableEq

namespace State

variable {K V : Type}

/-- `util_cache_create`, for a memory that is there. -/
def create (size : ℕ) : State K V where
  size := size * 2 % 2 ^ 32

def entryAt (c : State K V) : Place → Entry K V
  | .slot i => c.entries i
  | .sentinel => c.sentinel

def setEntry (c : State K V) (entry : Entry K V) : Place → State K V
  | .slot i => { c with entries := Function.update c.entries i entry }
  | .sentinel => { c with sentinel := entry }

/-- `lru.prev`. -/
def lruPrev (c : State K V) : Place :=
  match c.lru.getLast? with
  | some i => .slot i
  | none => .sentinel

/-- `remove_from_list`. -/
def removeFromList (c : State K V) : Place → State K V
  | .slot i => { c with lru := c.lru.erase i }
  | .sentinel => { c with lru := [] }

/-- `insert_at_head`. -/
def insertAtHead (c : State K V) : Place → State K V
  | .slot i => { c with lru := i :: c.lru }
  | .sentinel => { c with lru := [] }

/-! ### Operations -/

variable (f : KeyFunctions K)

/-- The loop of `util_cache_entry_get`, with the first entry that is not filled. -/
def entryGetLoop (c : State K V) (hash : ℕ) (key : K) : ℕ → ℕ → Option ℕ → Option ℕ
  | 0, _, _ => none
  | rounds + 1, probe, firstUnfilled =>
    let i := (hash % c.size + probe) % 2 ^ 32 % c.size
    match c.entries i with
    | .filled hash' key' _ =>
      if hash' = hash ∧ f.equals key key' = true then some i
      else c.entryGetLoop hash key rounds (probe + 1) firstUnfilled
    | .deleted => c.entryGetLoop hash key rounds (probe + 1) (firstUnfilled.or (some i))
    | .empty => firstUnfilled.or (some i)

/-- `util_cache_entry_get`. -/
def entryGet (c : State K V) (hash : ℕ) (key : K) : Option ℕ :=
  c.entryGetLoop f hash key c.size 0 none

/-- `util_cache_entry_destroy`. -/
def entryDestroy (c : State K V) (entry : Place) : State K V :=
  match c.entryAt entry with
  | .filled _ key value =>
    { c.removeFromList entry with
      count := (c.count + (2 ^ 32 - 1)) % 2 ^ 32
      destroyed := c.destroyed ++ [(key, value)] }.setEntry .deleted entry
  | _ => c

/-- `util_cache_set`, when it has the entry. -/
def setAt (c : State K V) (key : K) (value : V) (entry : Place) : State K V :=
  let c := if c.size / 2 ≤ c.count then c.entryDestroy c.lruPrev else c
  let c := c.entryDestroy entry
  let c := (c.setEntry (.filled (f.hash key) key value) entry).insertAtHead entry
  { c with count := (c.count + 1) % 2 ^ 32 }

/-- `util_cache_set`. -/
def set (c : State K V) (key : K) (value : V) : State K V :=
  match c.entryGet f (f.hash key) key with
  | some i => c.setAt f key value (.slot i)
  | none => c.setAt f key value c.lruPrev

/-- `util_cache_get`. -/
def get (c : State K V) (key : K) : Option V × State K V :=
  match c.entryGet f (f.hash key) key with
  | none => (none, c)
  | some i =>
    match c.entries i with
    | .filled _ _ value => (some value, (c.removeFromList (.slot i)).insertAtHead (.slot i))
    | _ => (none, c)

/-- The loop of `util_cache_clear`. -/
def clearLoop (c : State K V) : ℕ → State K V
  | 0 => c
  | n + 1 =>
    let c := c.clearLoop n
    (c.entryDestroy (.slot n)).setEntry .empty (.slot n)

/-- `util_cache_clear`. -/
def clear (c : State K V) : State K V := c.clearLoop c.size

/-- `util_cache_remove`. -/
def remove (c : State K V) (key : K) : State K V :=
  match c.entryGet f (f.hash key) key with
  | none => c
  | some i => c.entryDestroy (.slot i)

/-- The assertions of `ensure_sanity`.  The walk through the list begins at its first entry, and ends
at the sentinel if the count is that of a number of rounds. -/
def ensureSanity (c : State K V) : Prop :=
  (∀ i < c.size, ∀ hash key value, c.entries i = .filled hash key value → hash = f.hash key)
    ∧ ((List.range c.size).filter fun i => (c.entries i).isFilled).length = c.count
    ∧ c.count ≤ c.size
    ∧ if c.count = 0 then c.lru = []
      else c.lru ≠ [] ∧ (c.count + 1) % (c.lru.length + 1) = 0

/-- The pairs of a cache, from the one that was used last. -/
def contents (c : State K V) : List (K × V) := c.lru.filterMap fun i => (c.entries i).pair

/-- One operation, with what is returned. -/
def step (c : State K V) : Lru.Op K V → Option V × State K V
  | .set key value => (none, c.set f key value)
  | .get key => c.get f key
  | .remove key => (none, c.remove f key)
  | .clear => (none, c.clear)

/-- A sequence of operations, with what is returned. -/
def run (c : State K V) : List (Lru.Op K V) → List (Option V) × State K V
  | [] => ([], c)
  | op :: ops =>
    let (result, c) := c.step f op
    let (results, c) := c.run ops
    (result :: results, c)

end State

end Cache

end Gallium
