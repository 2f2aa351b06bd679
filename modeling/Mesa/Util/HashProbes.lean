import Mesa.Util.HashTableMap

/-!
# Probe sequences of hash tables

The sequence of addresses that a search or an insertion probes comes to every slot once before it
is back at its start, exactly when no address and step together exceed 32 bits.
-/

namespace Util

open Probing

/-- `hash_sizes` of `set.c`. -/
def setHashSizes : List (ℕ × ℕ × ℕ) :=
  [(2, 5, 3), (4, 7, 5), (8, 13, 11), (16, 19, 17), (32, 43, 41), (64, 73, 71), (128, 151, 149),
    (256, 283, 281), (512, 571, 569), (1024, 1153, 1151), (2048, 2269, 2267), (4096, 4519, 4517),
    (8192, 9013, 9011), (16384, 18043, 18041), (32768, 36109, 36107), (65536, 72091, 72089),
    (131072, 144409, 144407), (262144, 288361, 288359), (524288, 576883, 576881),
    (1048576, 1153459, 1153457), (2097152, 2307163, 2307161), (4194304, 4613893, 4613891),
    (8388608, 9227641, 9227639), (16777216, 18455029, 18455027), (33554432, 36911011, 36911009),
    (67108864, 73819861, 73819859), (134217728, 147639589, 147639587),
    (268435456, 295279081, 295279079), (536870912, 590559793, 590559791),
    (1073741824, 1181116273, 1181116271), (2147483648, 2362232233, 2362232231)]

/-- The address that is probed after the given one, for an entry of `hash_sizes`. -/
def probeNext (sizes : ℕ × ℕ × ℕ) (hash a : ℕ) : ℕ :=
  (a + (1 + hash % sizes.2.2)) % 2 ^ 32 % sizes.2.1

/-- The address that is probed after the given number of steps. -/
def probe (sizes : ℕ × ℕ × ℕ) (hash : ℕ) : ℕ → ℕ
  | 0 => hash % sizes.2.1
  | j + 1 => probeNext sizes hash (probe sizes hash j)

/-- `set_search`: the search of `hash_table.c` for entries without data. -/
def setSearch {K : Type} (fs : KeyFunctions K) (ht : HashTable K Unit) (hash : ℕ) (key : K) :
    Option (Option ℕ) :=
  ht.search fs hash key

/-- A table with an entry of `hash_sizes`, whatever is in its slots. -/
def HasSizes {K D : Type} (ht : HashTable K D) (sizes : ℕ × ℕ × ℕ) : Prop :=
  ht.size = sizes.2.1 ∧ ht.rehash = sizes.2.2

/-- The probe sequence of a hash comes to each slot once and then back to its start; a search ends,
and an insertion finds a free slot if there is one. -/
structure ProbesWell (sizes : ℕ × ℕ × ℕ) (hash : ℕ) : Prop where
  visits : ∀ i < sizes.2.1, ∃! j, j < sizes.2.1 ∧ probe sizes hash j = i
  returns : probe sizes hash sizes.2.1 = probe sizes hash 0
  search : ∀ (K D : Type) (fs : KeyFunctions K) (ht : HashTable K D) (key : K), HasSizes ht sizes →
    ∃ r, ht.search fs hash key = some r
  insert : ∀ (K D : Type) (fs : KeyFunctions K) (ht : HashTable K D) (key : K), HasSizes ht sizes →
    ∃ r, ht.insertLoop fs hash key ht.size (hash % ht.size) none = some r ∧
      ((∃ i < ht.size, (ht.table i).isFree = true) → r ≠ .available none)
  setSearch : ∀ (K : Type) (fs : KeyFunctions K) (ht : HashTable K Unit) (key : K),
    HasSizes ht sizes → ∃ r, setSearch fs ht hash key = some r

/-! ### The loops -/

section

variable {K D : Type} {sizes : ℕ × ℕ × ℕ} {hash : ℕ} {ht : HashTable K D}

theorem HasSizes.start (has : HasSizes ht sizes) :
  hash % ht.size = probe sizes hash 0
  := by
  rw [has.1]
  rfl

theorem HasSizes.next (has : HasSizes ht sizes) (j : ℕ) :
  ht.next hash (probe sizes hash j) = probe sizes hash (j + 1)
  := by
  rw [HashTable.next, has.1, has.2]
  rfl

/-- A search ends where the sequence is back at its start.  By induction on the steps that are left.
-/
theorem searchLoop_ends (has : HasSizes ht sizes)
    (returns : probe sizes hash sizes.2.1 = probe sizes hash 0) (fs : KeyFunctions K) (key : K)
    {fuel j : ℕ} (left : j + fuel = sizes.2.1) (pos : 0 < fuel) :
  ∃ r, ht.searchLoop fs hash key fuel (probe sizes hash j) = some r
  := by
  induction fuel generalizing j with
  | zero => omega
  | succ fuel ih =>
    rw [HashTable.searchLoop, has.next, has.start]
    split
    · exact ⟨_, rfl⟩
    split
    · exact ⟨_, rfl⟩
    split
    · exact ⟨_, rfl⟩
    case isFalse away =>
      refine ih (by omega) ?_
      by_contra last
      apply away
      rw [show j + 1 = sizes.2.1 by omega, returns]

/-- An insertion ends, and it has a slot if one that is free is still to come.  By induction on the
steps that are left. -/
theorem insertLoop_ends (has : HasSizes ht sizes)
    (returns : probe sizes hash sizes.2.1 = probe sizes hash 0) (fs : KeyFunctions K) (key : K)
    (once : ∀ j < sizes.2.1, j ≠ 0 → probe sizes hash j ≠ probe sizes hash 0)
    {fuel j : ℕ} (left : j + fuel = sizes.2.1) (pos : 0 < fuel) (available : Option ℕ) :
  ∃ r, ht.insertLoop fs hash key fuel (probe sizes hash j) available = some r ∧
    ((available ≠ none ∨ ∃ i, j ≤ i ∧ i < sizes.2.1 ∧
      (ht.table (probe sizes hash i)).isFree = true) → r ≠ .available none)
  := by
  induction fuel generalizing j available with
  | zero => omega
  | succ fuel ih =>
    rw [HashTable.insertLoop, has.next, has.start]
    generalize stashed : (if (!(ht.table (probe sizes hash j)).isPresent && available.isNone) = true
      then some (probe sizes hash j) else available) = stash
    have kept : available ≠ none → stash ≠ none := by
      intro some
      rw [← stashed]
      split
      · exact Option.some_ne_none _
      · exact some
    have later : (ht.table (probe sizes hash j)).isFree = false →
        (available ≠ none ∨ ∃ i, j ≤ i ∧ i < sizes.2.1 ∧
          (ht.table (probe sizes hash i)).isFree = true) →
        stash ≠ none ∨ ∃ i, j + 1 ≤ i ∧ i < sizes.2.1 ∧
          (ht.table (probe sizes hash i)).isFree = true := by
      rintro taken (some | ⟨i, le, lt, free⟩)
      · exact .inl (kept some)
      · right
        refine ⟨i, ?_, lt, free⟩
        by_contra here
        obtain rfl : i = j := by omega
        rw [taken] at free
        cases free
    split
    case isTrue free =>
      refine ⟨_, rfl, fun _ none => ?_⟩
      have vacant : (ht.table (probe sizes hash j)).isPresent = false := by
        cases slot : ht.table (probe sizes hash j) <;> simp_all [Slot.isFree, Slot.isPresent]
      rw [HashTable.Probe.available.inj none, vacant] at stashed
      cases available <;> simp at stashed
    case isFalse taken =>
      rw [Bool.not_eq_true] at taken
      split
      · exact ⟨_, rfl, fun _ same => by cases same⟩
      split
      case isTrue back =>
        refine ⟨_, rfl, fun hope none => ?_⟩
        have last : j + 1 = sizes.2.1 := by
          by_contra more
          exact once (j + 1) (by omega) (by omega) back
        rcases later taken hope with some | ⟨i, le, lt, -⟩
        · exact some (HashTable.Probe.available.inj none)
        · omega
      case isFalse away =>
        obtain ⟨r, ends, has_slot⟩ := ih (j := j + 1) (by omega) (by
          by_contra last
          apply away
          rw [show j + 1 = sizes.2.1 by omega, returns]) stash
        exact ⟨r, ends, fun hope => has_slot (later taken hope)⟩

end

/-! ### Overflow -/

section

variable {sizes : ℕ × ℕ × ℕ} {hash : ℕ}

/-- Without overflow the addresses are those of a probe sequence in steps of a fixed width. -/
theorem probe_eq_address (pos : 0 < sizes.2.1) (fits : sizes.2.1 + hash % sizes.2.2 < 2 ^ 32)
    (j : ℕ) :
  probe sizes hash j = address sizes.2.1 hash (1 + hash % sizes.2.2) j
  := by
  induction j with
  | zero => rw [probe, address_zero]
  | succ j ih =>
    have lt := @address_lt _ hash (1 + hash % sizes.2.2) pos j
    rw [address_succ]
    generalize address sizes.2.1 hash (1 + hash % sizes.2.2) j = a at ih lt
    have small : a + (1 + hash % sizes.2.2) < 2 ^ 32 := by omega
    rw [probe, ih, probeNext, Nat.mod_eq_of_lt small]

theorem probesWell_of_fits (prime : sizes.2.1.Prime) (rehash_pos : 0 < sizes.2.2)
    (rehash_lt : sizes.2.2 < sizes.2.1) (fits : sizes.2.1 + hash % sizes.2.2 < 2 ^ 32) :
  ProbesWell sizes hash
  := by
  have pos := prime.pos
  have eq := probe_eq_address pos fits
  have coprime : Nat.Coprime sizes.2.1 (1 + hash % sizes.2.2) := by
    rw [prime.coprime_iff_not_dvd]
    intro divides
    have := Nat.le_of_dvd (by omega) divides
    have := Nat.mod_lt hash rehash_pos
    omega
  have returns : probe sizes hash sizes.2.1 = probe sizes hash 0 := by
    rw [eq, address, probe, Nat.add_mul_mod_self_left]
  have once : ∀ j < sizes.2.1, j ≠ 0 → probe sizes hash j ≠ probe sizes hash 0 := by
    intro j lt ne same
    rw [eq, eq] at same
    exact ne (address_inj coprime lt pos same)
  have visits : ∀ i < sizes.2.1, ∃! j, j < sizes.2.1 ∧ probe sizes hash j = i := by
    intro i hi
    obtain ⟨j, hj, there⟩ := exists_address coprime hi
    refine ⟨j, ⟨hj, (eq j).trans there⟩, ?_⟩
    rintro j' ⟨hj', there'⟩
    rw [eq] at there'
    exact address_inj coprime hj' hj (there'.trans there.symm)
  have search : ∀ (K D : Type) (fs : KeyFunctions K) (ht : HashTable K D) (key : K),
      HasSizes ht sizes → ∃ r, ht.search fs hash key = some r := by
    intro K D fs ht key has
    rw [HashTable.search, has.start, has.1]
    exact searchLoop_ends has returns fs key (Nat.zero_add _) pos
  refine ⟨visits, returns, search, ?_, fun K fs ht key has => search K Unit fs ht key has⟩
  intro K D fs ht key has
  rw [has.start, has.1]
  obtain ⟨r, ends, slot⟩ := insertLoop_ends has returns fs key once (Nat.zero_add _) pos none
  refine ⟨r, ends, ?_⟩
  rintro ⟨i, hi, free⟩
  obtain ⟨j, ⟨hj, there⟩, -⟩ := visits i hi
  exact slot (.inr ⟨j, Nat.zero_le j, hj, by rwa [there]⟩)

/-- With an overflow two addresses are followed by the address 0. -/
theorem not_probesWell_of_overflow (rehash_lt : sizes.2.2 < sizes.2.1) (rehash_pos : 0 < sizes.2.2)
    (size_lt : sizes.2.1 < 2 ^ 32) (overflow : 2 ^ 32 ≤ sizes.2.1 + hash % sizes.2.2) :
  ¬ ProbesWell sizes hash
  := by
  intro well
  have step_lt := Nat.mod_lt hash rehash_pos
  obtain ⟨j, ⟨hj, there⟩, -⟩ := well.visits (2 ^ 32 - (1 + hash % sizes.2.2)) (by omega)
  obtain ⟨j', ⟨hj', there'⟩, -⟩ := well.visits (sizes.2.1 - (1 + hash % sizes.2.2)) (by omega)
  have next : probe sizes hash (j + 1) = 0 := by
    rw [probe, there, probeNext, Nat.sub_add_cancel (by omega), Nat.mod_self, Nat.zero_mod]
  have next' : probe sizes hash (j' + 1) = 0 := by
    rw [probe, there', probeNext, Nat.sub_add_cancel (by omega), Nat.mod_eq_of_lt size_lt,
      Nat.mod_self]
  have differ : j ≠ j' := by
    rintro rfl
    omega
  -- the address 0 comes once, where the last step counts as the first one
  obtain ⟨i, -, only⟩ := well.visits 0 (by omega)
  have returns := well.returns
  have first : ∀ k < sizes.2.1, probe sizes hash (k + 1) = 0 →
      i = if k + 1 = sizes.2.1 then 0 else k + 1 := by
    intro k hk zero
    split
    case isTrue last =>
      rw [last, returns] at zero
      exact (only 0 ⟨by omega, zero⟩).symm
    case isFalse => exact (only (k + 1) ⟨by omega, zero⟩).symm
  have eq := first j hj next
  have eq' := first j' hj' next'
  split at eq <;> split at eq' <;> omega

end

/-- The sizes of both tables are primes. -/
theorem sizes_prime :
  ∀ sizes ∈ hashSizes ++ setHashSizes,
    sizes.2.1.Prime ∧ 0 < sizes.2.2 ∧ sizes.2.2 < sizes.2.1 ∧ sizes.2.1 < 2 ^ 32
  := by
  have same : setHashSizes = hashSizes := rfl
  have last : (2362232233 : ℕ).Prime :=
    prime_of_noOddDivisor (k := 11) (by decide) (by decide) (by decide) (by decide)
  have parts : hashSizes = hashSizes.take lastSizeIndex ++ [(2147483648, 2362232233, 2362232231)] :=
    rfl
  intro sizes mem
  rw [same, List.mem_append, or_self, parts, List.mem_append, List.mem_singleton] at mem
  rcases mem with early | rfl
  · have good := goodSizes sizes early
    have fits := good.fits
    exact ⟨good.prime, good.rehash_pos, good.rehash_lt, by omega⟩
  · exact ⟨last, by decide, by decide, by decide⟩

/-- The probe sequence of a hash is as it should be exactly when the greatest address and the step
together do not exceed 32 bits. -/
theorem probesWell_iff {sizes : ℕ × ℕ × ℕ} (mem : sizes ∈ hashSizes ++ setHashSizes) (hash : ℕ) :
  ProbesWell sizes hash ↔ sizes.2.1 + hash % sizes.2.2 < 2 ^ 32
  := by
  obtain ⟨prime, rehash_pos, rehash_lt, size_lt⟩ := sizes_prime sizes mem
  constructor
  · intro well
    by_contra overflow
    exact not_probesWell_of_overflow rehash_lt rehash_pos size_lt (by omega) well
  · exact probesWell_of_fits prime rehash_pos rehash_lt

theorem probesWell_iff_five :
  ProbesWell (2, 5, 3) 17 ↔ 5 + 17 % 3 < 2 ^ 32
  := probesWell_iff (by decide) 17

/-- In a table of the last size the least step that overflows. -/
theorem not_probesWell_last :
  ¬ ∀ sizes ∈ hashSizes, ∀ hash < 2 ^ 32, ProbesWell sizes hash
  := by
  intro all
  exact @not_probesWell_of_overflow (2147483648, 2362232233, 2362232231) 1932735063
    (by decide) (by decide) (by decide) (by decide)
    (all _ (by decide) _ (by decide))

end Util
