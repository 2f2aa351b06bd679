import Mesa.Util.HashTableMap

/-!
# Tables whose mark is a key

The key that marks the deleted entries of a table cannot be in the table.  Where it is a key like
the others, its data are kept beside the table, and the two together stand for a map.
-/

namespace Util

namespace HashTable

variable {K D : Type} {fs : KeyFunctions K}

/-- The entry that a search has found gets other data. -/
def setData (ht : HashTable K D) (a : ℕ) (data : D) : HashTable K D :=
  match ht.table a with
  | .present e => ht.set a (.present { e with data := data })
  | _ => ht

theorem Inv.setData {ht : HashTable K D} (inv : ht.Inv fs) {a : ℕ} {e : HashEntry K D}
  (ha : a < ht.size) (slot : ht.table a = .present e) (data : D) :
  (ht.setData a data).Inv fs ∧
    (ht.setData a data).contents = (e.key, data) ::ₘ others fs e.key ht.contents
  := by
  have only : OnlyAt fs ht e.key a := by
    intro i hi other e' slot'
    by_contra equal
    rw [Bool.not_eq_false] at equal
    exact other (inv.unique hi ha slot' slot (fs.equals_symm equal))
  have updated : ht.setData a data = ht.set a (.present { e with data := data }) := by
    rw [HashTable.setData, slot]
  rw [updated]
  constructor
  · have counters : (ht.set a (.present { e with data := data })).counted ht.entries
        ht.deletedEntries = ht.set a (.present { e with data := data }) := rfl
    rw [← counters]
    have hash : e.hash = fs.hash e.key := inv.hash_eq ha slot
    have reached := inv.chain ha slot
    apply @Inv.put _ _ _ _ inv a _ _ { e with data := data } ha hash only reached
    · rw [slot]
      rfl
    · rw [slot]
      rfl
    · exact inv.bound
  · apply only.contents_set ha
    intro e' slot'
    rw [slot] at slot'
    obtain rfl := Slot.present.inj slot'
    exact fs.equals_refl e.key

/-- A table and the data of the mark stand for a map, in which a key that is not there has `NULL`.
-/
structure StandsFor (fs : KeyFunctions K) (mark : K) (ht : HashTable K (Option D))
    (markData : Option D) (m : K → Option D) : Prop where
  inv : ht.Inv fs
  exact_equals : ∀ k k', fs.equals k k' = true → k = k'
  mark_eq : m mark = markData
  present : ∀ key data, (key, data) ∈ ht.contents → key ≠ mark ∧ m key = data
  absent : ∀ key, key ≠ mark → (∀ data, (key, data) ∉ ht.contents) → m key = none

section

variable {mark : K} {ht : HashTable K (Option D)} {markData : Option D} {m : K → Option D}

theorem standsFor_empty (exact_equals : ∀ k k', fs.equals k k' = true → k = k') :
  StandsFor fs mark (HashTable.empty K (Option D) 0) none fun _ => none
  := by
  have empty : (HashTable.empty K (Option D) 0).Inv fs ∧
      (HashTable.empty K (Option D) 0).contents = 0 := empty_inv (by decide)
  refine ⟨empty.1, exact_equals, rfl, ?_, fun _ _ _ => rfl⟩
  intro key data mem
  rw [empty.2] at mem
  cases mem

theorem StandsFor.mem_others (stands : StandsFor fs mark ht markData m) {key : K}
  {q : K × Option D} :
  q ∈ others fs key ht.contents ↔ q ∈ ht.contents ∧ q.1 ≠ key
  := by
  rw [others, Multiset.mem_filter]
  refine and_congr_right fun _ => ?_
  constructor
  · rintro apart rfl
    rw [fs.equals_refl] at apart
    cases apart
  · intro ne
    by_contra equal
    rw [Bool.not_eq_false] at equal
    exact ne (stands.exact_equals _ _ equal).symm

variable [DecidableEq K]

theorem StandsFor.set_mark (stands : StandsFor fs mark ht markData m) (data : Option D) :
  StandsFor fs mark ht data (Function.update m mark data)
  where
  inv := stands.inv
  exact_equals := stands.exact_equals
  mark_eq := Function.update_self _ _ _
  present := by
    intro key data' mem
    obtain ⟨ne, eq⟩ := stands.present key data' mem
    exact ⟨ne, by rw [Function.update_of_ne ne, eq]⟩
  absent := by
    intro key ne none
    rw [Function.update_of_ne ne, stands.absent key ne none]

/-- A table with a pair in the place of those with its key. -/
theorem StandsFor.put (stands : StandsFor fs mark ht markData m) {key : K} (ne : key ≠ mark)
  (data : Option D) {ht' : HashTable K (Option D)} (inv : ht'.Inv fs)
  (contents : ht'.contents = (key, data) ::ₘ others fs key ht.contents) :
  StandsFor fs mark ht' markData (Function.update m key data)
  := by
  have cases : ∀ q, q ∈ ht'.contents ↔ q = (key, data) ∨ q ∈ ht.contents ∧ q.1 ≠ key := by
    intro q
    rw [contents, Multiset.mem_cons, stands.mem_others]
  refine ⟨inv, stands.exact_equals, ?_, ?_, ?_⟩
  · rw [Function.update_of_ne ne.symm, stands.mark_eq]
  · intro key' data' mem
    rcases (cases _).mp mem with new | ⟨old, other⟩
    · obtain ⟨rfl, rfl⟩ := Prod.mk.inj new
      exact ⟨ne, Function.update_self _ _ _⟩
    · obtain ⟨ne', eq⟩ := stands.present key' data' old
      exact ⟨ne', by rw [Function.update_of_ne other, eq]⟩
  · intro key' ne' none
    have other : key' ≠ key := by
      rintro rfl
      exact none data ((cases _).mpr (.inl rfl))
    rw [Function.update_of_ne other]
    apply stands.absent key' ne'
    intro data' mem
    exact none data' ((cases _).mpr (.inr ⟨mem, other⟩))

/-- A table without the pairs with a key. -/
theorem StandsFor.erase (stands : StandsFor fs mark ht markData m) {key : K} (ne : key ≠ mark)
  {ht' : HashTable K (Option D)} (inv : ht'.Inv fs)
  (contents : ht'.contents = others fs key ht.contents) :
  StandsFor fs mark ht' markData (Function.update m key none)
  := by
  have cases : ∀ q, q ∈ ht'.contents ↔ q ∈ ht.contents ∧ q.1 ≠ key := by
    intro q
    rw [contents, stands.mem_others]
  refine ⟨inv, stands.exact_equals, ?_, ?_, ?_⟩
  · rw [Function.update_of_ne ne.symm, stands.mark_eq]
  · intro key' data' mem
    obtain ⟨old, other⟩ := (cases _).mp mem
    obtain ⟨ne', eq⟩ := stands.present key' data' old
    exact ⟨ne', by rw [Function.update_of_ne other, eq]⟩
  · intro key' ne' none
    by_cases same : key' = key
    · rw [same, Function.update_self]
    · rw [Function.update_of_ne same]
      apply stands.absent key' ne'
      intro data' mem
      exact none data' ((cases _).mpr ⟨mem, same⟩)

omit [DecidableEq K] in
/-- A search finds the entry of the key, or the table has none. -/
theorem StandsFor.search (stands : StandsFor fs mark ht markData m) {key : K} (ne : key ≠ mark) :
  (∃ a e, ht.search fs (fs.hash key) key = some (some a) ∧ a < ht.size ∧
      ht.table a = .present e ∧ e.key = key ∧ m key = e.data) ∨
    ht.search fs (fs.hash key) key = some none ∧ m key = none
  := by
  rcases stands.inv.search_spec key with ⟨a, ha, e, slot, equal, found⟩ | ⟨none, found⟩
  · left
    obtain rfl := stands.exact_equals _ _ equal
    have mem : (e.key, e.data) ∈ ht.contents := mem_contents.mpr ⟨a, ha, e, slot, rfl⟩
    exact ⟨a, e, found, ha, slot, rfl, (stands.present _ _ mem).2⟩
  · right
    refine ⟨found, stands.absent key ne ?_⟩
    intro data mem
    obtain ⟨i, hi, e, slot, eq⟩ := mem_contents.mp mem
    have apart := none i hi e slot
    obtain ⟨rfl, -⟩ := Prod.mk.inj eq
    rw [fs.equals_refl] at apart
    cases apart

end

end HashTable

end Util
