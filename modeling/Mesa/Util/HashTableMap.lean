import Mesa.Util.HashTable
import Mathlib.Algebra.Order.BigOperators.Group.Finset

/-!
# Hash tables are finite maps

A table stands for the multiset of the pairs of keys and data that are in it.  No two of the keys are
equal, and every entry is found again because no slot is free that its probe sequence comes to before
it.
-/

namespace Util

open Probing

variable {K D : Type}

/-! ### Sizes -/

/-- What is needed of the sizes of a table. -/
structure GoodSizes (sizes : ℕ × ℕ × ℕ) : Prop where
  prime : sizes.2.1.Prime
  rehash_pos : 0 < sizes.2.2
  rehash_lt : sizes.2.2 < sizes.2.1
  max_lt : sizes.1 < sizes.2.1
  max_pos : 0 < sizes.1
  fits : sizes.2.1 + sizes.2.2 < 2 ^ 32

/-- A check for sizes that are not very small. -/
def checkSizes (sizes : ℕ × ℕ × ℕ) : Bool :=
  let k := Nat.log2 sizes.2.1 / 2 - 4
  decide (0 < sizes.2.2 ∧ sizes.2.2 < sizes.2.1 ∧ sizes.1 < sizes.2.1 ∧ 0 < sizes.1
      ∧ sizes.2.1 + sizes.2.2 < 2 ^ 32 ∧ 1 < sizes.2.1 ∧ sizes.2.1 % 2 = 1
      ∧ sizes.2.1 < (3 + 32 * 2 ^ k) ^ 2)
    && noOddDivisor sizes.2.1 k 3

theorem goodSizes_of_check {sizes : ℕ × ℕ × ℕ} (h : checkSizes sizes = true) :
  GoodSizes sizes
  := by
  rw [checkSizes, Bool.and_eq_true, decide_eq_true_eq] at h
  obtain ⟨⟨h₁, h₂, h₃, h₄, h₅, h₆, h₇, h₈⟩, h₉⟩ := h
  exact ⟨prime_of_noOddDivisor h₆ h₇ h₈ h₉, h₁, h₂, h₃, h₄, h₅⟩

/-- The sizes before the last one are good. -/
theorem goodSizes :
  ∀ sizes ∈ hashSizes.take lastSizeIndex, GoodSizes sizes
  := by
  have small : ∀ sizes ∈ hashSizes.take 4, GoodSizes sizes := by
    simp only [hashSizes, List.take_succ_cons, List.take_zero, List.forall_mem_cons]
    refine ⟨⟨?_, ?_, ?_, ?_, ?_, ?_⟩, ⟨?_, ?_, ?_, ?_, ?_, ?_⟩, ⟨?_, ?_, ?_, ?_, ?_, ?_⟩,
      ⟨?_, ?_, ?_, ?_, ?_, ?_⟩, by simp⟩ <;> decide
  have large : ((hashSizes.take lastSizeIndex).drop 4).all checkSizes = true := by decide
  rw [List.all_eq_true] at large
  intro sizes mem
  rw [← List.take_append_drop 4 (hashSizes.take lastSizeIndex), List.mem_append] at mem
  rcases mem with first | later
  · exact small sizes first
  · exact goodSizes_of_check (large sizes later)

/-- Each size holds more entries than the one before it. -/
theorem maxEntries_lt_succ {index : ℕ} {sizes sizes' : ℕ × ℕ × ℕ}
    (h : hashSizes[index]? = some sizes) (h' : hashSizes[index + 1]? = some sizes') :
  sizes.1 < sizes'.1
  := by
  have sorted : List.Pairwise (fun a b => a.1 < b.1) hashSizes := by decide
  obtain ⟨hi, rfl⟩ := List.getElem?_eq_some_iff.1 h
  obtain ⟨hi', rfl⟩ := List.getElem?_eq_some_iff.1 h'
  exact List.pairwise_iff_getElem.1 sorted _ _ hi hi' (Nat.lt_succ_self index)

/-- The key and the data of an entry. -/
def HashEntry.pair (e : HashEntry K D) : K × D := (e.key, e.data)

namespace HashTable

/-! ### Sums over the slots -/

@[simp]
theorem set_table_self (ht : HashTable K D) (a : ℕ) (slot : Slot K D) :
  (ht.set a slot).table a = slot
  := Function.update_self _ _ _

theorem set_table_of_ne (ht : HashTable K D) {a i : ℕ} (slot : Slot K D) (h : i ≠ a) :
  (ht.set a slot).table i = ht.table i
  := Function.update_of_ne h _ _

section
variable {α : Type} [AddCommMonoid α]

/-- The sum of a weight over the slots of a table. -/
def total (w : Slot K D → α) (ht : HashTable K D) : α := ∑ i ∈ Finset.range ht.size, w (ht.table i)

theorem total_set (w : Slot K D → α) (ht : HashTable K D) {a : ℕ} (ha : a < ht.size)
    (slot : Slot K D) :
  total w (ht.set a slot) + w (ht.table a) = total w ht + w slot
  := by
  have mem : a ∈ Finset.range ht.size := Finset.mem_range.2 ha
  have rest : ∑ i ∈ (Finset.range ht.size).erase a, w ((ht.set a slot).table i)
      = ∑ i ∈ (Finset.range ht.size).erase a, w (ht.table i) := by
    apply Finset.sum_congr rfl
    intro i hi
    rw [set_table_of_ne _ _ (Finset.ne_of_mem_erase hi)]
  rw [total, total, show (ht.set a slot).size = ht.size from rfl,
    ← Finset.add_sum_erase _ _ mem, ← Finset.add_sum_erase _ (fun i => w (ht.table i)) mem, rest,
    set_table_self, add_right_comm, add_comm (w slot), add_right_comm]

theorem map_total {β : Type} [AddCommMonoid β] (f : α →+ β) (w : Slot K D → α)
    (ht : HashTable K D) :
  f (total w ht) = total (fun slot => f (w slot)) ht
  := map_sum f _ _

theorem total_congr {w w' : Slot K D → α} {ht ht' : HashTable K D} (hsize : ht.size = ht'.size)
    (h : ∀ i < ht.size, w (ht.table i) = w' (ht'.table i)) :
  total w ht = total w' ht'
  := by
  rw [total, total, ← hsize]
  apply Finset.sum_congr rfl
  intro i hi
  exact h i (Finset.mem_range.1 hi)

end

/-- Whether a slot holds an entry, as a number. -/
def presentWeight : Slot K D → ℕ
  | .present _ => 1
  | _ => 0

/-- Whether an entry was deleted in a slot, as a number. -/
def deletedWeight : Slot K D → ℕ
  | .deleted => 1
  | _ => 0

/-- The key and the data in a slot. -/
def pairs : Slot K D → Multiset (K × D)
  | .present e => {(e.key, e.data)}
  | _ => 0

/-- The keys in a table with their data. -/
def contents (ht : HashTable K D) : Multiset (K × D) := total pairs ht

/-- The address of a probe sequence after the given number of steps. -/
def addr (ht : HashTable K D) (hash j : ℕ) : ℕ := address ht.size hash (1 + hash % ht.rehash) j

/-- What all operations keep. -/
structure Inv (fs : KeyFunctions K) (ht : HashTable K D) : Prop where
  sizes : hashSizes[ht.sizeIndex]? = some (ht.maxEntries, ht.size, ht.rehash)
  below : ht.sizeIndex < lastSizeIndex
  entries_eq : ht.entries = total presentWeight ht
  deleted_eq : ht.deletedEntries = total deletedWeight ht
  bound : ht.entries + ht.deletedEntries ≤ ht.maxEntries
  hash_eq : ∀ {i e}, i < ht.size → ht.table i = .present e → e.hash = fs.hash e.key
  unique : ∀ {i i' e e'}, i < ht.size → i' < ht.size → ht.table i = .present e →
    ht.table i' = .present e' → fs.equals e.key e'.key = true → i = i'
  chain : ∀ {i e}, i < ht.size → ht.table i = .present e →
    ∃ j, ht.addr e.hash j = i ∧ ∀ j' < j, (ht.table (ht.addr e.hash j')).isFree = false

/-! ### Probe sequences of a table -/

section
variable {fs : KeyFunctions K} {ht : HashTable K D}

theorem Inv.good (inv : ht.Inv fs) :
  GoodSizes (ht.maxEntries, ht.size, ht.rehash)
  := by
  apply goodSizes
  have found : (hashSizes.take lastSizeIndex)[ht.sizeIndex]?
      = some (ht.maxEntries, ht.size, ht.rehash) := by
    rw [List.getElem?_take, if_pos inv.below, inv.sizes]
  exact List.mem_of_getElem? found

theorem Inv.size_pos (inv : ht.Inv fs) :
  0 < ht.size
  := inv.good.prime.pos

theorem Inv.addr_lt (inv : ht.Inv fs) (hash j : ℕ) :
  ht.addr hash j < ht.size
  := address_lt inv.size_pos j

theorem Inv.coprime (inv : ht.Inv fs) (hash : ℕ) :
  Nat.Coprime ht.size (1 + hash % ht.rehash)
  := by
  have low := Nat.mod_lt hash inv.good.rehash_pos
  have high := inv.good.rehash_lt
  dsimp only at low high
  rw [Nat.Prime.coprime_iff_not_dvd inv.good.prime]
  intro divides
  have := Nat.le_of_dvd (by omega) divides
  dsimp only at this
  omega

theorem addr_zero (ht : HashTable K D) (hash : ℕ) :
  ht.addr hash 0 = hash % ht.size
  := address_zero _ _ _

/-- The next address is the one of the next step, without an overflow. -/
theorem Inv.next_addr (inv : ht.Inv fs) (hash j : ℕ) :
  ht.next hash (ht.addr hash j) = ht.addr hash (j + 1)
  := by
  have low := Nat.mod_lt hash inv.good.rehash_pos
  have here := inv.addr_lt hash j
  have fits := inv.good.fits
  dsimp only at low fits
  have noWrap : (ht.addr hash j + (1 + hash % ht.rehash)) % 2 ^ 32
      = ht.addr hash j + (1 + hash % ht.rehash) := by
    apply Nat.mod_eq_of_lt
    omega
  rw [next, noWrap, addr, addr, address_succ]

/-- The probe sequence does not come back to its start within a round. -/
theorem Inv.addr_ne_start (inv : ht.Inv fs) {hash j : ℕ} (hj : j + 1 < ht.size) :
  ht.addr hash (j + 1) ≠ hash % ht.size
  := by
  rw [← addr_zero ht hash]
  intro h
  have := address_inj (inv.coprime hash) hj inv.size_pos h
  omega

/-- How many slots are not free. -/
def usedWeight : Slot K D → ℕ
  | .free => 0
  | _ => 1

theorem total_used (ht : HashTable K D) :
  total usedWeight ht = total presentWeight ht + total deletedWeight ht
  := by
  rw [total, total, total, ← Finset.sum_add_distrib]
  apply Finset.sum_congr rfl
  intro i _
  rcases ht.table i with _ | _ | e <;> rfl

/-- Some slot is free. -/
theorem Inv.exists_free (inv : ht.Inv fs) :
  ∃ i < ht.size, (ht.table i).isFree = true
  := by
  by_contra none
  have full : total usedWeight ht = ht.size := by
    have ones : ∀ i ∈ Finset.range ht.size, usedWeight (ht.table i) = 1 := by
      intro i hi
      rcases h : ht.table i with _ | _ | e
      · exact absurd ⟨i, Finset.mem_range.1 hi, by rw [h]; rfl⟩ none
      · rfl
      · rfl
    rw [total, Finset.sum_congr rfl ones]
    simp
  have used := total_used ht
  have max := inv.good.max_lt
  dsimp only at max
  have := inv.bound
  have := inv.entries_eq
  have := inv.deleted_eq
  omega

/-- The first slot of a probe sequence that is free. -/
theorem Inv.first_free (inv : ht.Inv fs) (hash : ℕ) :
  ∃ n < ht.size, (ht.table (ht.addr hash n)).isFree = true
    ∧ ∀ j < n, (ht.table (ht.addr hash j)).isFree = false
  := by
  obtain ⟨i, hi, free⟩ := inv.exists_free
  have visited : ∃ j < ht.size, ht.addr hash j = i := exists_address (inv.coprime hash) hi
  obtain ⟨j, hj, rfl⟩ := visited
  have exists_free : ∃ j, (ht.table (ht.addr hash j)).isFree = true := ⟨j, free⟩
  classical
  refine ⟨Nat.find exists_free, ?_, Nat.find_spec exists_free, ?_⟩
  · exact Nat.lt_of_le_of_lt (Nat.find_min' exists_free free) hj
  · intro j' hj'
    exact Bool.eq_false_iff.2 (Nat.find_min exists_free hj')

/-! ### Loops -/

/-- The search ends before the first free slot with a slot that matches, or there is none. -/
theorem Inv.searchLoop_spec (inv : ht.Inv fs) {hash : ℕ} (key : K) {n : ℕ} (hn : n < ht.size)
    (free : (ht.table (ht.addr hash n)).isFree = true)
    (used : ∀ j < n, (ht.table (ht.addr hash j)).isFree = false) {fuel j : ℕ} (hj : j ≤ n)
    (enough : n < fuel + j) :
  ∃ r, ht.searchLoop fs hash key fuel (ht.addr hash j) = some r
    ∧ ((∃ j' < n, Matches fs hash key (ht.table (ht.addr hash j')) = true
          ∧ r = some (ht.addr hash j'))
      ∨ ((∀ j', j ≤ j' → j' < n → Matches fs hash key (ht.table (ht.addr hash j')) = false)
          ∧ r = none))
  := by
  induction fuel generalizing j with
  | zero => omega
  | succ fuel ih =>
    rw [searchLoop]
    rcases Nat.lt_or_ge j n with before | atEnd
    · rw [if_neg (by rw [used j before]; decide)]
      rcases found : Matches fs hash key (ht.table (ht.addr hash j)) with _ | _
      · rw [if_neg (by decide), inv.next_addr, if_neg (inv.addr_ne_start (by omega))]
        obtain ⟨r, eq, spec⟩ := ih (j := j + 1) (by omega) (by omega)
        refine ⟨r, eq, spec.imp_right ?_⟩
        rintro ⟨others, rfl⟩
        refine ⟨?_, rfl⟩
        intro j' low high
        rcases Nat.eq_or_lt_of_le low with rfl | later
        · exact found
        · exact others j' later high
      · rw [if_pos rfl]
        exact ⟨_, rfl, .inl ⟨j, before, found, rfl⟩⟩
    · obtain rfl : j = n := by omega
      rw [if_pos free]
      refine ⟨none, rfl, .inr ⟨?_, rfl⟩⟩
      intro j' low high
      omega

/-- The insertion ends before the first free slot with a slot that matches, or there is none; then
the first slot without an entry is available. -/
theorem Inv.insertLoop_spec (inv : ht.Inv fs) {hash : ℕ} (key : K) {n : ℕ} (hn : n < ht.size)
    (free : (ht.table (ht.addr hash n)).isFree = true)
    (used : ∀ j < n, (ht.table (ht.addr hash j)).isFree = false) {fuel j : ℕ} (hj : j ≤ n)
    (enough : n < fuel + j) (available : Option ℕ) :
  ∃ r, ht.insertLoop fs hash key fuel (ht.addr hash j) available = some r
    ∧ ((∃ j' < n, Matches fs hash key (ht.table (ht.addr hash j')) = true
          ∧ r = .replace (ht.addr hash j'))
      ∨ ((∀ j', j ≤ j' → j' < n → Matches fs hash key (ht.table (ht.addr hash j')) = false)
          ∧ ∃ m, j ≤ m ∧ m ≤ n ∧ (ht.table (ht.addr hash m)).isPresent = false
            ∧ (∀ j', j ≤ j' → j' < m → (ht.table (ht.addr hash j')).isPresent = true)
            ∧ r = .available (available.or (some (ht.addr hash m)))))
  := by
  induction fuel generalizing j available with
  | zero => omega
  | succ fuel ih =>
    rw [insertLoop]
    rcases Nat.lt_or_ge j n with before | atEnd
    · rw [if_neg (by rw [used j before]; decide)]
      rcases found : Matches fs hash key (ht.table (ht.addr hash j)) with _ | _
      · rw [if_neg (by simp), inv.next_addr, if_neg (inv.addr_ne_start (by omega))]
        obtain ⟨r, eq, spec⟩ := ih (j := j + 1) (by omega) (by omega)
          (if !(ht.table (ht.addr hash j)).isPresent && available.isNone then some (ht.addr hash j)
            else available)
        refine ⟨r, eq, spec.imp_right ?_⟩
        rintro ⟨others, m, low, high, absent, occupied, rfl⟩
        have none : ∀ j', j ≤ j' → j' < n →
            Matches fs hash key (ht.table (ht.addr hash j')) = false := by
          intro j' low' high'
          rcases Nat.eq_or_lt_of_le low' with rfl | later
          · exact found
          · exact others j' later high'
        rcases here : (ht.table (ht.addr hash j)).isPresent with _ | _
        · refine ⟨none, j, Nat.le_refl j, hj, here, ?_, ?_⟩
          · intro j' low' high'
            omega
          · cases available <;> simp
        · refine ⟨none, m, by omega, high, absent, ?_, ?_⟩
          · intro j' low' high'
            rcases Nat.eq_or_lt_of_le low' with rfl | later
            · exact here
            · exact occupied j' later high'
          · simp
      · refine ⟨.replace (ht.addr hash j), ?_, .inl ⟨j, before, found, rfl⟩⟩
        rw [if_pos]
        rcases slot : ht.table (ht.addr hash j) with _ | _ | e
        · rw [slot] at found
          contradiction
        · rw [slot] at found
          contradiction
        · rfl
    · obtain rfl : j = n := by omega
      rw [if_pos free]
      have absent : (ht.table (ht.addr hash j)).isPresent = false := by
        rcases slot : ht.table (ht.addr hash j) with _ | _ | e
        · rfl
        · rfl
        · rw [slot] at free
          contradiction
      refine ⟨_, rfl, .inr ⟨?_, j, Nat.le_refl j, Nat.le_refl j, absent, ?_, ?_⟩⟩
      · intro j' low high
        omega
      · intro j' low high
        omega
      · cases available <;> simp [absent]

/-! ### Contents -/

theorem mem_contents {q : K × D} :
  q ∈ ht.contents ↔ ∃ i < ht.size, ∃ e, ht.table i = .present e ∧ q = (e.key, e.data)
  := by
  rw [contents, total, Multiset.mem_sum]
  constructor
  · rintro ⟨i, hi, mem⟩
    rcases slot : ht.table i with _ | _ | e
    · rw [slot] at mem
      exact absurd mem (Multiset.notMem_zero q)
    · rw [slot] at mem
      exact absurd mem (Multiset.notMem_zero q)
    · rw [slot] at mem
      exact ⟨i, Finset.mem_range.1 hi, e, slot, Multiset.mem_singleton.1 mem⟩
  · rintro ⟨i, hi, e, slot, rfl⟩
    refine ⟨i, Finset.mem_range.2 hi, ?_⟩
    rw [slot]
    exact Multiset.mem_singleton_self _

/-- How many keys there are. -/
theorem card_contents (ht : HashTable K D) :
  Multiset.card ht.contents = total presentWeight ht
  := by
  change Multiset.cardHom (total pairs ht) = _
  rw [map_total]
  apply total_congr rfl
  intro i _
  rcases ht.table i with _ | _ | e <;> rfl

/-- What is left of the contents without a slot, where no other slot is left out. -/
theorem filter_contents (q : K × D → Prop) [DecidablePred q] {a : ℕ}
    (here : ∀ e, ht.table a = .present e → ¬ q (e.key, e.data))
    (elsewhere : ∀ i < ht.size, i ≠ a → ∀ e, ht.table i = .present e → q (e.key, e.data)) :
  ht.contents.filter q = total pairs (ht.set a .deleted)
  := by
  let f : Multiset (K × D) →+ Multiset (K × D) :=
    ⟨⟨Multiset.filter q, Multiset.filter_zero q⟩, Multiset.filter_add q⟩
  change f (total pairs ht) = _
  rw [map_total]
  apply total_congr (show ht.size = (ht.set a .deleted).size from rfl)
  intro i hi
  change Multiset.filter q (pairs (ht.table i)) = _
  rcases Decidable.em (i = a) with rfl | other
  · rw [set_table_self]
    rcases slot : ht.table i with _ | _ | e
    · rfl
    · rfl
    · change Multiset.filter q {(e.key, e.data)} = 0
      rw [Multiset.filter_singleton, if_neg (here e slot)]
      rfl
  · rw [set_table_of_ne _ _ other]
    rcases slot : ht.table i with _ | _ | e
    · rfl
    · rfl
    · change Multiset.filter q {(e.key, e.data)} = {(e.key, e.data)}
      rw [Multiset.filter_singleton, if_pos (elsewhere i hi other e slot)]

/-- The contents with another entry in a slot. -/
theorem total_pairs_set {a : ℕ} (ha : a < ht.size) (e : HashEntry K D) :
  total pairs (ht.set a (.present e)) = (e.key, e.data) ::ₘ total pairs (ht.set a .deleted)
  := by
  have put := total_set pairs ht ha (.present e)
  have gone : total pairs (ht.set a .deleted) + pairs (ht.table a) = total pairs ht + 0 :=
    total_set pairs ht ha .deleted
  rw [add_zero] at gone
  rw [← gone, add_right_comm] at put
  have same := add_right_cancel put
  rw [same, add_comm]
  rfl

/-! ### Searching -/

theorem matches_iff {hash : ℕ} {key : K} {slot : Slot K D} :
  Matches fs hash key slot = true
    ↔ ∃ e, slot = .present e ∧ e.hash = hash ∧ fs.equals key e.key = true
  := by
  rcases slot with _ | _ | e
  · simp [Matches]
  · simp [Matches]
  · simp [Matches]

/-- An entry with an equal key is before the first free slot. -/
theorem Inv.matches_before (inv : ht.Inv fs) {key : K} {n : ℕ}
    (free : (ht.table (ht.addr (fs.hash key) n)).isFree = true) {i : ℕ} {e : HashEntry K D}
    (hi : i < ht.size) (slot : ht.table i = .present e) (equal : fs.equals key e.key = true) :
  ∃ j < n, ht.addr (fs.hash key) j = i
    ∧ Matches fs (fs.hash key) key (ht.table (ht.addr (fs.hash key) j)) = true
  := by
  have hash : e.hash = fs.hash key := by
    rw [inv.hash_eq hi slot, fs.hash_eq equal]
  obtain ⟨j, eq, used⟩ := inv.chain hi slot
  rw [hash] at eq used
  refine ⟨j, ?_, eq, ?_⟩
  · by_contra late
    rcases Nat.eq_or_lt_of_le (Nat.le_of_not_lt late) with rfl | later
    · rw [eq, slot] at free
      contradiction
    · rw [used n later] at free
      contradiction
  · rw [eq, slot, matches_iff]
    exact ⟨e, rfl, hash, equal⟩

/-- The search finds the entry with an equal key, or there is none. -/
theorem Inv.search_spec (inv : ht.Inv fs) (key : K) :
  (∃ a < ht.size, ∃ e, ht.table a = .present e ∧ fs.equals key e.key = true
      ∧ ht.search fs (fs.hash key) key = some (some a))
    ∨ ((∀ i < ht.size, ∀ e, ht.table i = .present e → fs.equals key e.key = false)
      ∧ ht.search fs (fs.hash key) key = some none)
  := by
  obtain ⟨n, hn, free, used⟩ := inv.first_free (fs.hash key)
  obtain ⟨r, eq, spec⟩ := inv.searchLoop_spec key hn free used (Nat.zero_le n)
    (show n < ht.size + 0 from hn)
  rw [addr_zero] at eq
  rcases spec with ⟨j, hj, found, rfl⟩ | ⟨none, rfl⟩
  · left
    obtain ⟨e, slot, -, equal⟩ := matches_iff.1 found
    exact ⟨_, inv.addr_lt _ j, e, slot, equal, eq⟩
  · right
    refine ⟨?_, eq⟩
    intro i hi e slot
    by_contra equal
    rw [Bool.not_eq_false] at equal
    obtain ⟨j, hj, -, found⟩ := inv.matches_before free hi slot equal
    rw [none j (Nat.zero_le j) hj] at found
    contradiction

/-! ### Placing an entry -/

/-- The counters of a table after a slot was set. -/
def counted (ht : HashTable K D) (entries deleted : ℕ) : HashTable K D :=
  { ht with entries := entries, deletedEntries := deleted }

/-- The keys that are equal to the given one are elsewhere. -/
def OnlyAt (fs : KeyFunctions K) (ht : HashTable K D) (key : K) (a : ℕ) : Prop :=
  ∀ i < ht.size, i ≠ a → ∀ e, ht.table i = .present e → fs.equals key e.key = false

/-- An entry can be put into a slot that its probe sequence comes to before all free ones. -/
theorem Inv.put (inv : ht.Inv fs) {a entries deleted : ℕ} {e : HashEntry K D} (ha : a < ht.size)
    (hash : e.hash = fs.hash e.key) (only : OnlyAt fs ht e.key a)
    (reached : ∃ j, ht.addr e.hash j = a ∧ ∀ j' < j, (ht.table (ht.addr e.hash j')).isFree = false)
    (hentries : entries + presentWeight (ht.table a) = ht.entries + 1)
    (hdeleted : deleted + deletedWeight (ht.table a) = ht.deletedEntries)
    (bound : entries + deleted ≤ ht.maxEntries) :
  ((ht.set a (.present e)).counted entries deleted).Inv fs
  := by
  have used : ∀ i, (ht.table i).isFree = false → ((ht.set a (.present e)).table i).isFree = false := by
    intro i h
    rcases Decidable.em (i = a) with rfl | other
    · rw [set_table_self]
      rfl
    · rw [set_table_of_ne _ _ other]
      exact h
  refine ⟨inv.sizes, inv.below, ?_, ?_, bound, ?_, ?_, ?_⟩
  · have h := total_set presentWeight ht ha (.present e)
    rw [← inv.entries_eq] at h
    change entries = total presentWeight (ht.set a (.present e))
    change _ = ht.entries + 1 at h
    omega
  · have h := total_set deletedWeight ht ha (.present e)
    rw [← inv.deleted_eq] at h
    change deleted = total deletedWeight (ht.set a (.present e))
    change _ = ht.deletedEntries + 0 at h
    omega
  · intro i e' hi slot
    change (ht.set a (.present e)).table i = _ at slot
    rcases Decidable.em (i = a) with rfl | other
    · rw [set_table_self] at slot
      obtain rfl := Slot.present.inj slot
      exact hash
    · rw [set_table_of_ne _ _ other] at slot
      exact inv.hash_eq hi slot
  · intro i i' e₁ e₂ hi hi' slot slot' equal
    change (ht.set a (.present e)).table i = _ at slot
    change (ht.set a (.present e)).table i' = _ at slot'
    rcases Decidable.em (i = a) with rfl | other
    · rcases Decidable.em (i' = i) with rfl | other'
      · rfl
      · rw [set_table_self] at slot
        rw [set_table_of_ne _ _ other'] at slot'
        obtain rfl := Slot.present.inj slot
        rw [only i' hi' other' e₂ slot'] at equal
        contradiction
    · rcases Decidable.em (i' = a) with rfl | other'
      · rw [set_table_self] at slot'
        rw [set_table_of_ne _ _ other] at slot
        obtain rfl := Slot.present.inj slot'
        have := only i hi other e₁ slot
        rw [fs.equals_symm equal] at this
        contradiction
      · rw [set_table_of_ne _ _ other] at slot
        rw [set_table_of_ne _ _ other'] at slot'
        exact inv.unique hi hi' slot slot' equal
  · intro i e' hi slot
    change (ht.set a (.present e)).table i = _ at slot
    rcases Decidable.em (i = a) with rfl | other
    · rw [set_table_self] at slot
      obtain rfl := Slot.present.inj slot
      obtain ⟨j, eq, before⟩ := reached
      exact ⟨j, eq, fun j' hj' => used _ (before j' hj')⟩
    · rw [set_table_of_ne _ _ other] at slot
      obtain ⟨j, eq, before⟩ := inv.chain hi slot
      exact ⟨j, eq, fun j' hj' => used _ (before j' hj')⟩

/-- The pairs with a key that is not equal to the given one. -/
def others (fs : KeyFunctions K) (key : K) (m : Multiset (K × D)) : Multiset (K × D) :=
  m.filter fun q => fs.equals key q.1 = false

theorem OnlyAt.contents_set {key : K} {a : ℕ} (only : OnlyAt fs ht key a) (ha : a < ht.size)
    (equal : ∀ e, ht.table a = .present e → fs.equals key e.key = true) (hash : ℕ) (data : D) :
  total pairs (ht.set a (.present ⟨hash, key, data⟩))
    = (key, data) ::ₘ others fs key ht.contents
  := by
  rw [total_pairs_set ha, others, filter_contents]
  · intro e slot
    rw [equal e slot]
    decide
  · exact only

theorem le_total (w : Slot K D → ℕ) {a : ℕ} (ha : a < ht.size) :
  w (ht.table a) ≤ total w ht
  := Finset.single_le_sum (f := fun i => w (ht.table i)) (fun _ _ => Nat.zero_le _)
    (Finset.mem_range.2 ha)

theorem place_of_replace {hash a : ℕ} {key : K} {data : D}
    (h : ht.insertLoop fs hash key ht.size (hash % ht.size) none = some (.replace a)) :
  ht.place fs hash key data = some (some a, (ht.set a (.present ⟨hash, key, data⟩)).counted
    ht.entries ht.deletedEntries)
  := by
  rw [place, h]
  rfl

theorem place_of_available {hash a : ℕ} {key : K} {data : D}
    (h : ht.insertLoop fs hash key ht.size (hash % ht.size) none = some (.available (some a))) :
  ht.place fs hash key data = some (some a, (ht.set a (.present ⟨hash, key, data⟩)).counted
    (ht.entries + 1) (ht.deletedEntries - deletedWeight (ht.table a)))
  := by
  rw [place, h]
  rcases slot : ht.table a with _ | _ | e <;> simp [Slot.isDeleted, deletedWeight, counted, slot]

/-- Where there is room, the pair is in the table afterwards, and no other one with an equal key. -/
theorem Inv.place_spec (inv : ht.Inv fs) (key : K) (data : D)
    (room : ht.entries + ht.deletedEntries < ht.maxEntries) :
  ∃ a ht', ht.place fs (fs.hash key) key data = some (some a, ht') ∧ ht'.Inv fs
    ∧ ht'.contents = (key, data) ::ₘ others fs key ht.contents
    ∧ ht'.sizeIndex = ht.sizeIndex ∧ ht'.deletedEntries ≤ ht.deletedEntries
  := by
  obtain ⟨n, hn, free, used⟩ := inv.first_free (fs.hash key)
  obtain ⟨r, eq, spec⟩ := inv.insertLoop_spec key hn free used (Nat.zero_le n)
    (show n < ht.size + 0 from hn) none
  rw [addr_zero] at eq
  rcases spec with ⟨j, hj, found, rfl⟩ | ⟨absent, m, -, hm, vacant, occupied, rfl⟩
  · -- An entry with an equal key is replaced.
    obtain ⟨e, slot, hash, equal⟩ := matches_iff.1 found
    have ha := inv.addr_lt (fs.hash key) j
    have only : OnlyAt fs ht key (ht.addr (fs.hash key) j) := by
      intro i hi other e' slot'
      by_contra equal'
      rw [Bool.not_eq_false] at equal'
      exact other (inv.unique hi ha slot' slot
        (fs.equals_trans (fs.equals_symm equal') equal))
    refine ⟨_, _, place_of_replace eq, ?_, ?_, rfl, Nat.le_refl _⟩
    · apply inv.put ha rfl only ⟨j, rfl, fun j' hj' => used j' (by omega)⟩
      · rw [slot]
        rfl
      · rw [slot]
        rfl
      · exact inv.bound
    · apply only.contents_set ha
      intro e' slot'
      rw [slot] at slot'
      obtain rfl := Slot.present.inj slot'
      exact equal
  · -- The first slot without an entry is taken.
    have ha := inv.addr_lt (fs.hash key) m
    have none : ∀ i < ht.size, ∀ e, ht.table i = .present e → fs.equals key e.key = false := by
      intro i hi e slot
      by_contra equal
      rw [Bool.not_eq_false] at equal
      obtain ⟨j, hj, -, found⟩ := inv.matches_before free hi slot equal
      rw [absent j (Nat.zero_le j) hj] at found
      contradiction
    have only : OnlyAt fs ht key (ht.addr (fs.hash key) m) := fun i hi _ => none i hi
    have reached : ∀ j' < m, (ht.table (ht.addr (fs.hash key) j')).isFree = false :=
      fun j' hj' => used j' (by omega)
    have counted := le_total deletedWeight ha
    rw [← inv.deleted_eq] at counted
    have empty : presentWeight (ht.table (ht.addr (fs.hash key) m)) = 0 := by
      rcases slot : ht.table (ht.addr (fs.hash key) m) with _ | _ | e
      · rfl
      · rfl
      · rw [slot] at vacant
        contradiction
    refine ⟨_, _, place_of_available eq, ?_, ?_, rfl, Nat.sub_le _ _⟩
    · apply inv.put ha rfl only ⟨m, rfl, reached⟩
      · rw [empty]
      · omega
      · omega
    · apply only.contents_set ha
      intro e slot
      rw [slot] at vacant
      contradiction

/-! ### Removing entries -/

/-- An entry can be removed. -/
theorem Inv.remove (inv : ht.Inv fs) {a : ℕ} {e : HashEntry K D} (ha : a < ht.size)
    (slot : ht.table a = .present e) :
  (ht.remove (some a)).Inv fs
  := by
  have kept : ∀ {i e'}, (ht.set a .deleted).table i = .present e' → ht.table i = .present e' := by
    intro i e' h
    rcases Decidable.em (i = a) with rfl | other
    · rw [set_table_self] at h
      contradiction
    · rwa [set_table_of_ne _ _ other] at h
  have one := le_total presentWeight ha
  rw [slot, ← inv.entries_eq] at one
  change 1 ≤ ht.entries at one
  refine ⟨inv.sizes, inv.below, ?_, ?_, ?_, ?_, ?_, ?_⟩
  · have h := total_set presentWeight ht ha .deleted
    rw [← inv.entries_eq, slot] at h
    change _ + 1 = ht.entries + 0 at h
    change ht.entries - 1 = total presentWeight (ht.set a .deleted)
    omega
  · have h := total_set deletedWeight ht ha .deleted
    rw [← inv.deleted_eq, slot] at h
    change _ + 0 = ht.deletedEntries + 1 at h
    change ht.deletedEntries + 1 = total deletedWeight (ht.set a .deleted)
    omega
  · have := inv.bound
    change ht.entries - 1 + (ht.deletedEntries + 1) ≤ ht.maxEntries
    omega
  · intro i e' hi h
    exact inv.hash_eq hi (kept h)
  · intro i i' e₁ e₂ hi hi' h h' equal
    exact inv.unique hi hi' (kept h) (kept h') equal
  · intro i e' hi h
    obtain ⟨j, eq, before⟩ := inv.chain hi (kept h)
    refine ⟨j, eq, ?_⟩
    intro j' hj'
    change ((ht.set a .deleted).table (ht.addr e'.hash j')).isFree = false
    rcases Decidable.em (ht.addr e'.hash j' = a) with here | other
    · rw [here, set_table_self]
      rfl
    · rw [set_table_of_ne _ _ other]
      exact before j' hj'

/-- The contents without an entry that is removed. -/
theorem contents_remove {a : ℕ} {e : HashEntry K D} (ha : a < ht.size)
    (slot : ht.table a = .present e) :
  ht.contents = (e.key, e.data) ::ₘ (ht.remove (some a)).contents
  := by
  have gone : total pairs (ht.set a .deleted) + pairs (ht.table a) = total pairs ht + 0 :=
    total_set pairs ht ha .deleted
  rw [slot, add_zero] at gone
  rw [contents, ← gone, add_comm]
  rfl

/-- The entry that a search finds can be removed; then no key is equal to the given one. -/
theorem Inv.remove_search (inv : ht.Inv fs) (key : K) :
  ∃ r, ht.search fs (fs.hash key) key = some r ∧ (ht.remove r).Inv fs
    ∧ (ht.remove r).contents = others fs key ht.contents
    ∧ (ht.remove r).sizeIndex = ht.sizeIndex
  := by
  rcases inv.search_spec key with ⟨a, ha, e, slot, equal, eq⟩ | ⟨none, eq⟩
  · refine ⟨some a, eq, inv.remove ha slot, ?_, rfl⟩
    rw [others, filter_contents]
    · rfl
    · intro e' slot'
      rw [slot] at slot'
      obtain rfl := Slot.present.inj slot'
      rw [equal]
      decide
    · intro i hi other e' slot'
      by_contra equal'
      rw [Bool.not_eq_false] at equal'
      exact other (inv.unique hi ha slot' slot (fs.equals_trans (fs.equals_symm equal') equal))
  · refine ⟨Option.none, eq, inv, ?_, rfl⟩
    rw [others, Multiset.filter_eq_self.2]
    · rfl
    · intro q mem
      obtain ⟨i, hi, e, slot, rfl⟩ := mem_contents.1 mem
      exact none i hi e slot

/-! ### Empty tables -/

theorem empty_sizes {index : ℕ} (h : index < hashSizes.length) :
  hashSizes[index]? = some ((HashTable.empty K D index).maxEntries, (HashTable.empty K D index).size,
    (HashTable.empty K D index).rehash)
  := by
  simp only [HashTable.empty, List.getElem?_eq_getElem h, Option.getD_some]

/-- A table without entries. -/
theorem inv_of_free (sizes : hashSizes[ht.sizeIndex]? = some (ht.maxEntries, ht.size, ht.rehash))
    (below : ht.sizeIndex < lastSizeIndex) (free : ∀ i < ht.size, ht.table i = .free)
    (noEntries : ht.entries = 0) (noDeleted : ht.deletedEntries = 0) :
  ht.Inv fs ∧ ht.contents = 0
  := by
  have zero : ∀ {α : Type} [AddCommMonoid α] (w : Slot K D → α), w .free = 0 → total w ht = 0 := by
    intro α _ w hw
    rw [total]
    apply Finset.sum_eq_zero
    intro i hi
    rw [free i (Finset.mem_range.1 hi), hw]
  have absent : ∀ {i e}, i < ht.size → ht.table i ≠ .present e := by
    intro i e hi h
    rw [free i hi] at h
    contradiction
  refine ⟨⟨sizes, below, ?_, ?_, ?_, ?_, ?_, ?_⟩, zero pairs rfl⟩
  · rw [noEntries, zero presentWeight rfl]
  · rw [noDeleted, zero deletedWeight rfl]
  · omega
  · intro i e hi h
    exact absurd h (absent hi)
  · intro i i' e e' hi _ h
    exact absurd h (absent hi)
  · intro i e hi h
    exact absurd h (absent hi)

theorem Inv.clear (inv : ht.Inv fs) :
  (ht.clear).Inv fs ∧ ht.clear.contents = 0
  := by
  have sizes : hashSizes[ht.clear.sizeIndex]?
      = some (ht.clear.maxEntries, ht.clear.size, ht.clear.rehash) := inv.sizes
  apply inv_of_free sizes inv.below _ rfl rfl
  intro i hi
  exact if_pos hi

theorem empty_inv {index : ℕ} (h : index < lastSizeIndex) :
  (HashTable.empty K D index).Inv fs ∧ (HashTable.empty K D index).contents = 0
  := by
  apply inv_of_free _ h (fun _ _ => rfl) rfl rfl
  apply empty_sizes
  exact Nat.lt_trans h (by decide)

/-! ### Iterating -/

/-- The entries in some of the slots, in the order of the addresses. -/
def entriesFrom (ht : HashTable K D) (a n : ℕ) : List (HashEntry K D) :=
  (List.range' a n).filterMap fun i => (ht.table i).live

/-- The first entry is the one that iteration comes to first. -/
theorem firstPresent_spec (ht : HashTable K D) (n a : ℕ) :
  (ht.firstPresent n a = none ∧ ht.entriesFrom a n = [])
    ∨ ∃ i e, ht.firstPresent n a = some (i, e) ∧ a ≤ i ∧ i < a + n ∧ ht.table i = .present e
      ∧ ht.entriesFrom a n = e :: ht.entriesFrom (i + 1) (a + n - (i + 1))
  := by
  induction n generalizing a with
  | zero => exact .inl ⟨rfl, rfl⟩
  | succ n ih =>
    have split : ht.entriesFrom a (n + 1)
        = (ht.table a).live.toList ++ ht.entriesFrom (a + 1) n := by
      rw [entriesFrom, List.range'_succ, List.filterMap_cons]
      rcases (ht.table a).live with _ | e <;> rfl
    rcases slot : ht.table a with _ | _ | e
    rotate_left 2
    · right
      refine ⟨a, e, by simp [firstPresent, slot], Nat.le_refl a, by omega, slot, ?_⟩
      rw [split, slot, show a + (n + 1) - (a + 1) = n by omega]
      rfl
    all_goals
      have step : ht.firstPresent (n + 1) a = ht.firstPresent n (a + 1) := by
        simp [firstPresent, slot]
      rw [slot] at split
      rw [step, split]
      rcases ih (a + 1) with ⟨none, nil⟩ | ⟨i, e, found, low, high, slot', cons⟩
      · exact .inl ⟨none, nil⟩
      · refine .inr ⟨i, e, found, by omega, by omega, slot', ?_⟩
        rw [show a + (n + 1) - (i + 1) = a + 1 + n - (i + 1) by omega]
        exact cons

/-- The entries that iteration comes to are all entries. -/
theorem contents_eq_entriesFrom (ht : HashTable K D) :
  ht.contents = ((ht.entriesFrom 0 ht.size).map HashEntry.pair : Multiset (K × D))
  := by
  have sum : ∀ n, ∑ i ∈ Finset.range n, pairs (ht.table i)
      = (((List.range n).filterMap fun i => (ht.table i).live).map HashEntry.pair
        : Multiset (K × D)) := by
    intro n
    induction n with
    | zero => rfl
    | succ n ih =>
      rw [Finset.sum_range_succ, ih, List.range_succ, List.filterMap_append, List.map_append,
        ← Multiset.coe_add]
      rcases slot : ht.table n with _ | _ | e <;> simp [Slot.live, pairs, slot, HashEntry.pair]
  rw [contents, total, sum, List.range_eq_range']
  rfl

theorem entriesFrom_remove (ht : HashTable K D) {i a n : ℕ} (h : i < a) :
  (ht.remove (some i)).entriesFrom a n = ht.entriesFrom a n
  := by
  rw [entriesFrom, entriesFrom]
  apply List.filterMap_congr
  intro j mem
  change ((ht.set i .deleted).table j).live = _
  rw [set_table_of_ne]
  have := (List.mem_range'_1.1 mem).1
  omega

/-- Where iteration goes on after an entry. -/
def resume : Option ℕ → ℕ
  | none => 0
  | some a => a + 1

theorem nextEntry_eq (ht : HashTable K D) (entry : Option ℕ) :
  ht.nextEntry entry = ht.firstPresent (ht.size - resume entry) (resume entry)
  := by
  cases entry <;> rfl

/-- Iteration comes to every entry once, also where the body removes the current one. -/
theorem Inv.foreachFrom_spec (inv : ht.Inv fs) (discard : HashEntry K D → Bool) {fuel : ℕ}
    (entry : Option ℕ) (enough : ht.size - resume entry < fuel) :
  ∃ ht', foreachFrom discard fuel ht entry
      = some (ht.entriesFrom (resume entry) (ht.size - resume entry), ht')
    ∧ ht'.Inv fs ∧ ht'.sizeIndex = ht.sizeIndex
    ∧ ht.contents = (((ht.entriesFrom (resume entry) (ht.size - resume entry)).filter discard).map
        HashEntry.pair : Multiset (K × D)) + ht'.contents
    ∧ ((∀ e, discard e = false) → ht' = ht)
  := by
  induction fuel generalizing ht entry with
  | zero => omega
  | succ fuel ih =>
    rw [foreachFrom, nextEntry_eq]
    rcases ht.firstPresent_spec (ht.size - resume entry) (resume entry) with
      ⟨none, nil⟩ | ⟨i, e, found, low, high, slot, cons⟩
    · rw [none, nil]
      exact ⟨ht, rfl, inv, rfl, by simp, fun _ => rfl⟩
    · have hi : i < ht.size := by omega
      have left : resume entry + (ht.size - resume entry) - (i + 1) = ht.size - (i + 1) := by omega
      rw [found, cons, left]
      dsimp only
      rcases discarded : discard e with _ | _
      · obtain ⟨ht', eq, inv', same, parts, kept⟩ := ih inv (some i)
          (show ht.size - (i + 1) < fuel by omega)
        refine ⟨ht', ?_, inv', same, ?_, kept⟩
        · rw [if_neg (by decide), eq]
          rfl
        · rw [List.filter_cons_of_neg (by rw [discarded]; decide)]
          exact parts
      · have inv₁ := inv.remove hi slot
        obtain ⟨ht', eq, inv', same, parts, -⟩ := ih inv₁ (some i)
          (show ht.size - (i + 1) < fuel by omega)
        have later : (ht.remove (some i)).entriesFrom (resume (some i))
            ((ht.remove (some i)).size - resume (some i))
            = ht.entriesFrom (i + 1) (ht.size - (i + 1)) :=
          entriesFrom_remove ht (Nat.lt_succ_self i)
        rw [later] at eq parts
        refine ⟨ht', ?_, inv', same, ?_, fun none => absurd discarded (by rw [none e]; decide)⟩
        · rw [if_pos rfl, eq]
          rfl
        · rw [List.filter_cons_of_pos discarded, contents_remove hi slot, parts, List.map_cons,
            ← Multiset.cons_coe, Multiset.cons_add]
          rfl

/-- An iteration that removes nothing comes to all entries. -/
theorem Inv.foreach_all (inv : ht.Inv fs) :
  ht.foreach (fun _ => false) = some (ht.entriesFrom 0 ht.size, ht)
  := by
  obtain ⟨ht', eq, -, -, -, kept⟩ := inv.foreachFrom_spec (fun _ => false) none
    (show ht.size - 0 < ht.size + 1 by omega)
  rw [kept fun _ => rfl] at eq
  exact eq

/-- The pairs that satisfy a condition are removed during an iteration over all of them. -/
theorem Inv.foreach_spec (inv : ht.Inv fs) (discard : K × D → Bool) :
  ∃ visited ht', ht.foreach (fun e => discard e.pair) = some (visited, ht')
    ∧ (visited.map HashEntry.pair : Multiset (K × D)) = ht.contents
    ∧ ht'.Inv fs ∧ ht'.sizeIndex = ht.sizeIndex
    ∧ ht'.contents = ht.contents.filter (fun q => discard q = false)
  := by
  obtain ⟨ht', eq, inv', same, parts, -⟩ := inv.foreachFrom_spec (fun e => discard e.pair) none
    (show ht.size - 0 < ht.size + 1 by omega)
  have all : ht.contents = ((ht.entriesFrom (resume none) (ht.size - resume none)).map
      HashEntry.pair : Multiset (K × D)) := contents_eq_entriesFrom ht
  refine ⟨_, ht', eq, all.symm, inv', same, ?_⟩
  have removed : (((ht.entriesFrom (resume none) (ht.size - resume none)).filter
      fun e => discard e.pair).map HashEntry.pair : Multiset (K × D))
      = ht.contents.filter fun q => discard q = true := by
    rw [all, Multiset.filter_coe, List.filter_map]
    congr 2
    apply List.filter_congr
    intro e _
    simp
  rw [removed] at parts
  have split := Multiset.filter_add_not (fun q => discard q = true) ht.contents
  have cancel := parts.symm.trans split.symm
  rw [add_left_cancel cancel]
  apply Multiset.filter_congr
  intro q _
  exact Bool.not_eq_true _ ▸ Iff.rfl

/-! ### Rehashing -/

theorem Inv.entries_eq_card (inv : ht.Inv fs) :
  ht.entries = Multiset.card ht.contents
  := by
  rw [inv.entries_eq, card_contents]

theorem others_eq_self {key : K} {m : Multiset (K × D)}
    (h : ∀ q ∈ m, fs.equals key q.1 = false) :
  others fs key m = m
  := Multiset.filter_eq_self.2 h

variable {alloc : ℕ → Bool}

/-- Where there is room, nothing is rehashed. -/
theorem insertFuel_of_room (room : ht.entries + ht.deletedEntries < ht.maxEntries) (fuel hash : ℕ)
    (key : K) (data : D) :
  insertFuel fs alloc (fuel + 1) ht hash key data = ht.place fs hash key data
  := by
  rw [insertFuel, if_neg (by omega), if_neg (by omega)]
  rfl

/-- How the rehashing inserts an entry. -/
def reinsert (fs : KeyFunctions K) (alloc : ℕ → Bool) (fuel : ℕ) (ht : HashTable K D)
    (e : HashEntry K D) : Option (HashTable K D) :=
  (insertFuel fs alloc fuel ht e.hash e.key e.data).map Prod.snd

/-- Entries with different keys are all inserted, where there is room for them. -/
theorem Inv.insertAll_spec (inv : ht.Inv fs) {es : List (HashEntry K D)} (alloc : ℕ → Bool)
    (fuel : ℕ) (hashes : ∀ e ∈ es, e.hash = fs.hash e.key)
    (distinct : es.Pairwise fun e e' => fs.equals e.key e'.key = false)
    (apart : ∀ e ∈ es, ∀ q ∈ ht.contents, fs.equals e.key q.1 = false)
    (room : Multiset.card ht.contents + ht.deletedEntries + es.length ≤ ht.maxEntries) :
  ∃ ht', insertAll (reinsert fs alloc (fuel + 1)) ht es = some ht' ∧ ht'.Inv fs
    ∧ ht'.contents = (es.map HashEntry.pair : Multiset (K × D)) + ht.contents
    ∧ ht'.sizeIndex = ht.sizeIndex ∧ ht'.deletedEntries ≤ ht.deletedEntries
  := by
  induction es generalizing ht with
  | nil => exact ⟨ht, rfl, inv, by simp, rfl, Nat.le_refl _⟩
  | cons e es ih =>
    have card := inv.entries_eq_card
    have here : ht.entries + ht.deletedEntries < ht.maxEntries := by
      rw [List.length_cons] at room
      omega
    obtain ⟨a, ht₁, placed, inv₁, contents₁, index₁, deleted₁⟩ :=
      inv.place_spec e.key e.data here
    rw [others_eq_self (apart e List.mem_cons_self)] at contents₁
    have inserted : reinsert fs alloc (fuel + 1) ht e = some ht₁ := by
      rw [reinsert, insertFuel_of_room here, hashes e List.mem_cons_self, placed]
      rfl
    rw [List.pairwise_cons] at distinct
    have apart₁ : ∀ e' ∈ es, ∀ q ∈ ht₁.contents, fs.equals e'.key q.1 = false := by
      intro e' mem q mem'
      rw [contents₁, Multiset.mem_cons] at mem'
      rcases mem' with rfl | old
      · by_contra equal
        rw [Bool.not_eq_false] at equal
        have := distinct.1 e' mem
        rw [fs.equals_symm equal] at this
        contradiction
      · exact apart e' (List.mem_cons_of_mem _ mem) q old
    have room₁ : Multiset.card ht₁.contents + ht₁.deletedEntries + es.length ≤ ht₁.maxEntries := by
      have same := inv₁.sizes
      rw [index₁, inv.sizes] at same
      have max : ht.maxEntries = ht₁.maxEntries := (Prod.mk.inj (Option.some.inj same)).1
      rw [contents₁, Multiset.card_cons]
      rw [List.length_cons] at room
      omega
    obtain ⟨ht', all, inv', contents', index', deleted'⟩ :=
      ih inv₁ (fun e' mem => hashes e' (List.mem_cons_of_mem _ mem)) distinct.2 apart₁ room₁
    refine ⟨ht', ?_, inv', ?_, index'.trans index₁, Nat.le_trans deleted' deleted₁⟩
    · rw [insertAll, inserted]
      exact all
    · rw [contents', contents₁, List.map_cons, ← Multiset.cons_coe, Multiset.cons_add,
        Multiset.add_cons]
      rfl

/-- The entries of a table have different keys. -/
theorem Inv.distinct (inv : ht.Inv fs) :
  (ht.entriesFrom 0 ht.size).Pairwise fun e e' => fs.equals e.key e'.key = false
  := by
  rw [entriesFrom, List.pairwise_filterMap]
  apply List.Pairwise.imp_of_mem _ (List.pairwise_lt_range' (s := 0) (n := ht.size))
  intro i i' mem mem' lt e found e' found'
  have slot : ht.table i = .present e := by
    rcases h : ht.table i with _ | _ | e₁ <;> simp_all [Slot.live]
  have slot' : ht.table i' = .present e' := by
    rcases h : ht.table i' with _ | _ | e₁ <;> simp_all [Slot.live]
  have hi := (List.mem_range'_1.1 mem).2
  have hi' := (List.mem_range'_1.1 mem').2
  by_contra equal
  rw [Bool.not_eq_false] at equal
  have := inv.unique (by omega) (by omega) slot slot' equal
  omega

theorem Inv.hashes (inv : ht.Inv fs) :
  ∀ e ∈ ht.entriesFrom 0 ht.size, e.hash = fs.hash e.key
  := by
  intro e mem
  obtain ⟨i, mem', found⟩ := List.mem_filterMap.1 mem
  have slot : ht.table i = .present e := by
    rcases h : ht.table i with _ | _ | e₁ <;> simp_all [Slot.live]
  have hi := (List.mem_range'_1.1 mem').2
  exact inv.hash_eq (by omega) slot

/-- A table is rehashed to a size that has room for its entries. -/
theorem Inv.rehashTo_spec (inv : ht.Inv fs) (ample : ∀ n, alloc n = true) {index : ℕ} (fuel : ℕ)
    (below : index < lastSizeIndex)
    (room : ht.entries ≤ (HashTable.empty K D index).maxEntries) :
  ∃ ht', ht.rehashTo alloc (reinsert fs alloc (fuel + 1)) index = some ht' ∧ ht'.Inv fs
    ∧ ht'.contents = ht.contents ∧ ht'.sizeIndex = index ∧ ht'.deletedEntries = 0
  := by
  have visited := inv.foreach_all
  have empty : (HashTable.empty K D index).Inv fs ∧ (HashTable.empty K D index).contents = 0 :=
    empty_inv below
  obtain ⟨emptyInv, emptyContents⟩ := empty
  have length : (ht.entriesFrom 0 ht.size).length = ht.entries := by
    rw [inv.entries_eq_card, contents_eq_entriesFrom, Multiset.coe_card, List.length_map]
  obtain ⟨ht', all, inv', contents', index', deleted'⟩ :=
    emptyInv.insertAll_spec alloc fuel inv.hashes inv.distinct
      (by rw [emptyContents]; simp)
      (show _ + 0 + _ ≤ _ by rw [emptyContents, length]; simpa using room)
  refine ⟨ht', ?_, inv', ?_, index', Nat.le_zero.1 deleted'⟩
  · have short : ¬ hashSizes.length ≤ index := by
      have : lastSizeIndex < hashSizes.length := by decide
      omega
    rw [rehashTo, if_neg short]
    dsimp only
    rw [if_pos (ample _), visited]
    exact all
  · rw [contents', emptyContents, add_zero, ← contents_eq_entriesFrom]

/-- The table would grow to the last of the sizes. -/
def GrowsToLast (ht : HashTable K D) : Prop :=
  ht.maxEntries ≤ ht.entries ∧ ht.sizeIndex + 1 = lastSizeIndex

/-- The pair is in the table afterwards, and no other one with an equal key. -/
theorem Inv.insert_spec (inv : ht.Inv fs) (ample : ∀ n, alloc n = true) (notLast : ¬ ht.GrowsToLast)
    (key : K) (data : D) :
  ∃ a ht', ht.insert fs alloc (fs.hash key) key data = some (some a, ht') ∧ ht'.Inv fs
    ∧ ht'.contents = (key, data) ::ₘ others fs key ht.contents
  := by
  have sizes := inv.sizes
  have below := inv.below
  have enough : lastSizeIndex < hashSizes.length := by decide
  -- What is done before the entry is placed.
  suffices prepared : ∃ ht₁, (if ht.maxEntries ≤ ht.entries then
        ht.rehashTo alloc (reinsert fs alloc hashSizes.length) (ht.sizeIndex + 1)
      else if ht.maxEntries ≤ ht.deletedEntries + ht.entries then
        ht.rehashTo alloc (reinsert fs alloc hashSizes.length) ht.sizeIndex
      else some ht) = some ht₁ ∧ ht₁.Inv fs ∧ ht₁.contents = ht.contents
      ∧ ht₁.entries + ht₁.deletedEntries < ht₁.maxEntries by
    obtain ⟨ht₁, eq, inv₁, contents₁, room⟩ := prepared
    obtain ⟨a, ht', placed, inv', contents', -, -⟩ := inv₁.place_spec key data room
    refine ⟨a, ht', ?_, inv', ?_⟩
    · rw [insert, insertFuel]
      change (Option.bind (if ht.maxEntries ≤ ht.entries then
          ht.rehashTo alloc (reinsert fs alloc hashSizes.length) (ht.sizeIndex + 1)
        else if ht.maxEntries ≤ ht.deletedEntries + ht.entries then
          ht.rehashTo alloc (reinsert fs alloc hashSizes.length) ht.sizeIndex
        else some ht) fun ht => ht.place fs (fs.hash key) key data) = _
      rw [eq]
      exact placed
    · rw [contents', contents₁]
  split
  · rename_i full
    have next : ht.sizeIndex + 1 < lastSizeIndex := by
      have : ht.sizeIndex + 1 ≠ lastSizeIndex := fun last => notLast ⟨full, last⟩
      omega
    have sizes' := empty_sizes (K := K) (D := D) (Nat.lt_trans next enough)
    have larger := maxEntries_lt_succ sizes sizes'
    dsimp only at larger
    have bound := inv.bound
    obtain ⟨ht₁, eq, inv₁, contents₁, index₁, deleted₁⟩ :=
      inv.rehashTo_spec ample 30 next (by omega)
    refine ⟨ht₁, eq, inv₁, contents₁, ?_⟩
    have same := inv₁.sizes
    rw [index₁, sizes'] at same
    have max := (Prod.mk.inj (Option.some.inj same)).1
    rw [inv₁.entries_eq_card, contents₁, ← inv.entries_eq_card, deleted₁, ← max]
    omega
  · rename_i roomy
    split
    · have sizes' := empty_sizes (K := K) (D := D) (Nat.lt_trans below enough)
      have max' := (Prod.mk.inj (Option.some.inj (sizes.symm.trans sizes'))).1
      obtain ⟨ht₁, eq, inv₁, contents₁, index₁, deleted₁⟩ :=
        inv.rehashTo_spec ample 30 below (by omega)
      refine ⟨ht₁, eq, inv₁, contents₁, ?_⟩
      have same := inv₁.sizes
      rw [index₁, sizes] at same
      have max := (Prod.mk.inj (Option.some.inj same)).1
      rw [inv₁.entries_eq_card, contents₁, ← inv.entries_eq_card, deleted₁, ← max]
      omega
    · exact ⟨ht, rfl, inv, rfl, by omega⟩

end

end HashTable

/-! ### Runs -/

/-- An operation on a table.  An iteration removes the pairs that satisfy a condition. -/
inductive HashOp (K D : Type) where
  | insert (key : K) (data : D)
  | insertPreHashed (hash : ℕ) (key : K) (data : D)
  | search (key : K)
  | searchPreHashed (hash : ℕ) (key : K)
  | remove (key : K)
  | clear
  | foreach (discard : K × D → Bool)

/-- What an operation returns: whether there is an entry, the data of one, or the pairs that an
iteration came to. -/
inductive HashReply (K D : Type) where
  | inserted (entry : Bool)
  | found (data : Option D)
  | visited (pairs : List (K × D))
  | done

namespace HashTable

/-- The data of an entry. -/
def dataAt (ht : HashTable K D) (entry : Option ℕ) : Option D :=
  entry.bind fun a => (ht.table a).live.map HashEntry.data

/-- An operation.  A hash that is passed has to be the one of the key. -/
def step (fs : KeyFunctions K) (alloc : ℕ → Bool) (ht : HashTable K D) :
    HashOp K D → Option (HashReply K D × HashTable K D)
  | .insert key data =>
    (ht.insert fs alloc (fs.hash key) key data).map fun r => (.inserted r.1.isSome, r.2)
  | .insertPreHashed hash key data =>
    if hash = fs.hash key then
      (ht.insert fs alloc hash key data).map fun r => (.inserted r.1.isSome, r.2)
    else none
  | .search key => (ht.search fs (fs.hash key) key).map fun r => (.found (ht.dataAt r), ht)
  | .searchPreHashed hash key =>
    if hash = fs.hash key then (ht.search fs hash key).map fun r => (.found (ht.dataAt r), ht)
    else none
  | .remove key => (ht.search fs (fs.hash key) key).map fun r => (.done, ht.remove r)
  | .clear => some (.done, ht.clear)
  | .foreach discard =>
    (ht.foreach fun e => discard e.pair).map fun r => (.visited (r.1.map HashEntry.pair), r.2)

/-- The operations, one after the other. -/
def run (fs : KeyFunctions K) (alloc : ℕ → Bool) (ht : HashTable K D) :
    List (HashOp K D) → Option (List (HashReply K D) × HashTable K D)
  | [] => some ([], ht)
  | op :: ops =>
    (ht.step fs alloc op).bind fun r => (r.2.run fs alloc ops).map fun rs => (r.1 :: rs.1, rs.2)

/-- An operation that does not make the table grow to the last of the sizes, and whose hash is the
one of its key. -/
def Allowed (fs : KeyFunctions K) (ht : HashTable K D) : HashOp K D → Prop
  | .insert _ _ => ¬ ht.GrowsToLast
  | .insertPreHashed hash key _ => hash = fs.hash key ∧ ¬ ht.GrowsToLast
  | .searchPreHashed hash key => hash = fs.hash key
  | _ => True

/-- All operations are allowed in the states in which they are done. -/
def AllAllowed (fs : KeyFunctions K) (alloc : ℕ → Bool) (ht : HashTable K D)
    (ops : List (HashOp K D)) : Prop :=
  ∀ before op after replies ht', ops = before ++ op :: after →
    ht.run fs alloc before = some (replies, ht') → ht'.Allowed fs op

end HashTable

/-- What an operation means for a finite map, a multiset of pairs with different keys. -/
inductive MapStep (fs : KeyFunctions K) :
    Multiset (K × D) → HashOp K D → HashReply K D → Multiset (K × D) → Prop
  | insert {m key data} :
    MapStep fs m (.insert key data) (.inserted true) ((key, data) ::ₘ HashTable.others fs key m)
  | insertPreHashed {m hash key data} :
    MapStep fs m (.insertPreHashed hash key data) (.inserted true)
      ((key, data) ::ₘ HashTable.others fs key m)
  | search_some {m key key' data} : fs.equals key key' = true → (key', data) ∈ m →
    MapStep fs m (.search key) (.found (some data)) m
  | search_none {m key} : (∀ q ∈ m, fs.equals key q.1 = false) →
    MapStep fs m (.search key) (.found none) m
  | searchPreHashed_some {m hash key key' data} : fs.equals key key' = true → (key', data) ∈ m →
    MapStep fs m (.searchPreHashed hash key) (.found (some data)) m
  | searchPreHashed_none {m hash key} : (∀ q ∈ m, fs.equals key q.1 = false) →
    MapStep fs m (.searchPreHashed hash key) (.found none) m
  | remove {m key} : MapStep fs m (.remove key) .done (HashTable.others fs key m)
  | clear {m} : MapStep fs m .clear .done 0
  | foreach {m discard} {visited : List (K × D)} : (visited : Multiset (K × D)) = m →
    MapStep fs m (.foreach discard) (.visited visited) (m.filter fun q => discard q = false)

/-- What operations mean for a finite map. -/
inductive MapRun (fs : KeyFunctions K) :
    Multiset (K × D) → List (HashOp K D) → List (HashReply K D) → Multiset (K × D) → Prop
  | nil {m} : MapRun fs m [] [] m
  | cons {m op reply m' ops replies m''} : MapStep fs m op reply m' →
    MapRun fs m' ops replies m'' → MapRun fs m (op :: ops) (reply :: replies) m''

namespace HashTable

variable {fs : KeyFunctions K} {alloc : ℕ → Bool} {ht : HashTable K D}

/-- The search says what is in the map. -/
theorem Inv.search_map (inv : ht.Inv fs) (key : K) :
  ∃ r, ht.search fs (fs.hash key) key = some r
    ∧ ((∃ key' data, fs.equals key key' = true ∧ (key', data) ∈ ht.contents
          ∧ ht.dataAt r = some data)
      ∨ ((∀ q ∈ ht.contents, fs.equals key q.1 = false) ∧ ht.dataAt r = none))
  := by
  rcases inv.search_spec key with ⟨a, ha, e, slot, equal, eq⟩ | ⟨none, eq⟩
  · refine ⟨some a, eq, .inl ⟨e.key, e.data, equal, mem_contents.2 ⟨a, ha, e, slot, rfl⟩, ?_⟩⟩
    simp [dataAt, slot, Slot.live]
  · refine ⟨Option.none, eq, .inr ⟨?_, rfl⟩⟩
    intro q mem
    obtain ⟨i, hi, e, slot, rfl⟩ := mem_contents.1 mem
    exact none i hi e slot

/-- An operation does what it means. -/
theorem Inv.step_spec (inv : ht.Inv fs) (ample : ∀ n, alloc n = true) {op : HashOp K D}
    (allowed : ht.Allowed fs op) :
  ∃ reply ht', ht.step fs alloc op = some (reply, ht') ∧ ht'.Inv fs
    ∧ MapStep fs ht.contents op reply ht'.contents
  := by
  cases op with
  | insert key data =>
    obtain ⟨a, ht', eq, inv', contents'⟩ := inv.insert_spec ample allowed key data
    refine ⟨.inserted true, ht', by rw [step, eq]; rfl, inv', ?_⟩
    rw [contents']
    exact .insert
  | insertPreHashed hash key data =>
    obtain ⟨rfl, notLast⟩ := allowed
    obtain ⟨a, ht', eq, inv', contents'⟩ := inv.insert_spec ample notLast key data
    refine ⟨.inserted true, ht', by rw [step, if_pos rfl, eq]; rfl, inv', ?_⟩
    rw [contents']
    exact .insertPreHashed
  | search key =>
    obtain ⟨r, eq, spec⟩ := inv.search_map key
    refine ⟨.found (ht.dataAt r), ht, by rw [step, eq]; rfl, inv, ?_⟩
    rcases spec with ⟨key', data, equal, mem, found⟩ | ⟨none, found⟩
    · rw [found]
      exact .search_some equal mem
    · rw [found]
      exact .search_none none
  | searchPreHashed hash key =>
    obtain rfl : hash = fs.hash key := allowed
    obtain ⟨r, eq, spec⟩ := inv.search_map key
    refine ⟨.found (ht.dataAt r), ht, by rw [step, if_pos rfl, eq]; rfl, inv, ?_⟩
    rcases spec with ⟨key', data, equal, mem, found⟩ | ⟨none, found⟩
    · rw [found]
      exact .searchPreHashed_some equal mem
    · rw [found]
      exact .searchPreHashed_none none
  | remove key =>
    obtain ⟨r, eq, inv', contents', -⟩ := inv.remove_search key
    refine ⟨.done, ht.remove r, by rw [step, eq]; rfl, inv', ?_⟩
    rw [contents']
    exact .remove
  | clear =>
    refine ⟨.done, ht.clear, rfl, inv.clear.1, ?_⟩
    rw [inv.clear.2]
    exact .clear
  | foreach discard =>
    obtain ⟨visited, ht', eq, all, inv', -, contents'⟩ := inv.foreach_spec discard
    refine ⟨.visited (visited.map HashEntry.pair), ht', by rw [step, eq]; rfl, inv', ?_⟩
    rw [contents']
    exact .foreach all

theorem AllAllowed.head {op : HashOp K D} {ops : List (HashOp K D)}
    (h : ht.AllAllowed fs alloc (op :: ops)) :
  ht.Allowed fs op
  := h [] op ops [] ht rfl rfl

theorem AllAllowed.tail {op : HashOp K D} {ops : List (HashOp K D)} {reply : HashReply K D}
    {ht' : HashTable K D} (h : ht.AllAllowed fs alloc (op :: ops))
    (stepped : ht.step fs alloc op = some (reply, ht')) :
  ht'.AllAllowed fs alloc ops
  := by
  intro before op' after replies ht'' split ran
  apply h (op :: before) op' after (reply :: replies) ht''
  · rw [split, List.cons_append]
  · rw [run, stepped, Option.bind_some, ran]
    rfl

/-- Operations do what they mean. -/
theorem Inv.run_spec (inv : ht.Inv fs) (ample : ∀ n, alloc n = true) {ops : List (HashOp K D)}
    (allowed : ht.AllAllowed fs alloc ops) :
  ∃ replies ht', ht.run fs alloc ops = some (replies, ht') ∧ ht'.Inv fs
    ∧ MapRun fs ht.contents ops replies ht'.contents
  := by
  induction ops generalizing ht with
  | nil => exact ⟨[], ht, rfl, inv, .nil⟩
  | cons op ops ih =>
    obtain ⟨reply, ht₁, stepped, inv₁, meaning⟩ := inv.step_spec ample allowed.head
    obtain ⟨replies, ht', ran, inv', meaning'⟩ := ih inv₁ (allowed.tail stepped)
    refine ⟨reply :: replies, ht', ?_, inv', .cons meaning meaning'⟩
    rw [run, stepped, Option.bind_some, ran]
    rfl

/-- Whatever is done with a table, it behaves as a finite map as long as it stays below the last of
the sizes: every operation returns what the map says; the counters are those of the keys and of the
slots that are not free; there is a free slot; and an iteration comes to each key once, where no two
keys are equal. -/
theorem run_refines_map (fs : KeyFunctions K) (alloc : ℕ → Bool) (ops : List (HashOp K D))
    (ample : ∀ n, alloc n = true)
    (allowed : (HashTable.empty K D 0).AllAllowed fs alloc ops) :
  ∃ ht replies ht' m, hashTableCreate K D alloc = some ht
    ∧ ht.run fs alloc ops = some (replies, ht') ∧ MapRun fs 0 ops replies m
    ∧ ht'.entries = Multiset.card m
    ∧ ht'.entries + ht'.deletedEntries
      = ((Finset.range ht'.size).filter fun i => (ht'.table i).isFree = false).card
    ∧ (∃ i < ht'.size, (ht'.table i).isFree = true)
    ∧ ∃ visited, ht'.foreach (fun _ => false) = some (visited, ht')
      ∧ (visited.map HashEntry.pair : Multiset (K × D)) = m
      ∧ visited.Pairwise fun e e' => fs.equals e.key e'.key = false
  := by
  have empty : (HashTable.empty K D 0).Inv fs ∧ (HashTable.empty K D 0).contents = 0 :=
    empty_inv (by decide)
  obtain ⟨replies, ht', ran, inv', meaning⟩ := empty.1.run_spec ample allowed
  rw [empty.2] at meaning
  refine ⟨HashTable.empty K D 0, replies, ht', ht'.contents, if_pos (ample _), ran, meaning,
    inv'.entries_eq_card, ?_, inv'.exists_free, ht'.entriesFrom 0 ht'.size, inv'.foreach_all,
    (contents_eq_entriesFrom ht').symm, inv'.distinct⟩
  rw [inv'.entries_eq, inv'.deleted_eq, ← total_used, total, Finset.card_filter]
  apply Finset.sum_congr rfl
  intro i _
  rcases ht'.table i with _ | _ | e <;> rfl

/-- Numbers as keys. -/
def numberKeys : KeyFunctions ℕ where
  hash k := k % 2 ^ 32
  equals k k' := k == k'
  hash_lt := Numbers.hash_lt
  equals_refl := Numbers.equals_refl
  equals_symm := @Numbers.equals_symm
  equals_trans := @Numbers.equals_trans
  hash_eq := @Numbers.hash_eq

/-- A pair is inserted and its key is searched for. -/
def smallOps : List (HashOp ℕ ℕ) := [.insert 7 70, .search 7]

theorem smallOps_allowed :
  (HashTable.empty ℕ ℕ 0).AllAllowed numberKeys (fun _ => true) smallOps
  := by
  intro before op after replies ht' split ran
  rcases before with _ | ⟨op₁, _ | ⟨op₂, before⟩⟩
  · obtain ⟨rfl, rfl⟩ := List.cons.inj split
    obtain ⟨rfl, rfl⟩ := Prod.mk.inj (Option.some.inj ran)
    rintro ⟨full, -⟩
    exact absurd full (by decide)
  · obtain ⟨rfl, rfl⟩ := List.cons.inj (List.cons.inj split).2
    trivial
  · have := congrArg List.length split
    simp [smallOps] at this

theorem run_refines_map_small :
  ∃ ht replies ht' m, hashTableCreate ℕ ℕ (fun _ => true) = some ht
    ∧ ht.run numberKeys (fun _ => true) smallOps = some (replies, ht')
    ∧ MapRun numberKeys 0 smallOps replies m ∧ ht'.entries = Multiset.card m
  := by
  obtain ⟨ht, replies, ht', m, created, ran, meaning, entries, -⟩ :=
    run_refines_map numberKeys (fun _ => true) smallOps (fun _ => rfl) smallOps_allowed
  exact ⟨ht, replies, ht', m, created, ran, meaning, entries⟩

end HashTable

end Util
