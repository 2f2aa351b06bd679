import Mesa.Flow.Transition
import Mesa.Gallium.Cache

/-!
# The cache forgets what was used least recently

A cache that is used with care is a bounded map in the sense of `Lru`: its pairs are those of the
filled entries, in the order of the list.  A key is found since all entries on the way from its first
address to its entry have been used.
-/

namespace Gallium

namespace Cache

open Util (KeyFunctions)

variable {K V : Type} {f : KeyFunctions K}

namespace State

/-! ### The invariant -/

/-- The address of an entry after a number of probes. -/
def probed (c : State K V) (hash probe : ℕ) : ℕ := Probing.address c.size hash 1 probe

/-- The list has the entries that are filled. -/
structure Linked (c : State K V) : Prop where
  two_le : 2 ≤ c.size
  le : c.size ≤ 2 ^ 31
  nodup : c.lru.Nodup
  mem : ∀ i, i ∈ c.lru ↔ i < c.size ∧ (c.entries i).isFilled = true
  count_eq : c.count = c.lru.length
  sentinel : c.sentinel.isFilled = false

/-- What holds between operations. -/
structure Inv (f : KeyFunctions K) (c : State K V) : Prop where
  linked : c.Linked
  count_le : c.count ≤ c.size / 2
  hash_eq : ∀ i < c.size, ∀ hash key value, c.entries i = .filled hash key value →
    hash = f.hash key
  path : ∀ i < c.size, ∀ hash key value, c.entries i = .filled hash key value →
    ∃ d < c.size, c.probed hash d = i ∧ ∀ p < d, (c.entries (c.probed hash p)).isEmpty = false
  unique : ∀ i < c.size, ∀ j < c.size, ∀ hash key value hash' key' value',
    c.entries i = .filled hash key value → c.entries j = .filled hash' key' value' →
    f.equals key key' = true → i = j

variable {c c' : State K V}

theorem Linked.pos (linked : c.Linked) :
  0 < c.size
  := Nat.lt_of_succ_lt linked.two_le

theorem probed_lt (linked : c.Linked) (hash probe : ℕ) :
  c.probed hash probe < c.size
  := Probing.address_lt linked.pos probe

/-- The address in the loop does not overflow. -/
theorem probed_eq (linked : c.Linked) (hash : ℕ) {probe : ℕ} (lt : probe < c.size) :
  (hash % c.size + probe) % 2 ^ 32 % c.size = c.probed hash probe
  := by
  have index := Nat.mod_lt hash linked.pos
  have le := linked.le
  rw [Nat.mod_eq_of_lt (by omega : hash % c.size + probe < 2 ^ 32), Nat.mod_add_mod]
  unfold probed Probing.address
  rw [Nat.mul_one]

theorem exists_probed {i : ℕ} (lt : i < c.size) (hash : ℕ) :
  ∃ d < c.size, c.probed hash d = i
  := Probing.exists_address (Nat.coprime_one_right _) lt

/-- An entry that is filled, by its fields. -/
theorem Entry.exists_of_isFilled {e : Entry K V} (filled : e.isFilled = true) :
  ∃ hash key value, e = .filled hash key value
  := by
  cases e with
  | filled hash key value => exact ⟨hash, key, value, rfl⟩
  | empty => cases filled
  | deleted => cases filled

/-! ### Searching -/

/-- The entry at an address does not have a key. -/
def Other (f : KeyFunctions K) (c : State K V) (key : K) (i : ℕ) : Prop :=
  ∀ hash key' value, c.entries i = .filled hash key' value → f.equals key key' = false

/-- What `util_cache_entry_get` finds. -/
inductive Found (f : KeyFunctions K) (c : State K V) (key : K) : Option ℕ → Prop where
  /-- the entry of the key -/
  | hit {i : ℕ} (lt : i < c.size) {key' : K} {value : V}
    (filled : c.entries i = .filled (f.hash key) key' value) (same : f.equals key key' = true) :
    Found f c key (some i)
  /-- the first entry that is not filled -/
  | unfilled {i d : ℕ} (lt : i < c.size) (le : d < c.size) (eq : c.probed (f.hash key) d = i)
    (notFilled : (c.entries i).isFilled = false)
    (used : ∀ p < d, (c.entries (c.probed (f.hash key) p)).isEmpty = false)
    (others : ∀ i < c.size, Other f c key i) : Found f c key (some i)
  /-- all entries have been used -/
  | full (used : ∀ i < c.size, (c.entries i).isEmpty = false)
    (others : ∀ i < c.size, Other f c key i) : Found f c key none

/-- A key that is not on the way to an empty entry has no entry. -/
theorem Inv.others (inv : Inv f c) {key : K} {e : ℕ} (lt : e < c.size)
    (empty : (c.entries (c.probed (f.hash key) e)).isEmpty = true)
    (others : ∀ p < e, Other f c key (c.probed (f.hash key) p)) :
  ∀ i < c.size, Other f c key i
  := by
  intro i hi hash key' value filled
  apply Bool.eq_false_iff.2
  intro same
  have hash_eq := inv.hash_eq i hi hash key' value filled
  obtain ⟨d, -, eq, used⟩ := inv.path i hi hash key' value filled
  rw [hash_eq, ← f.hash_eq same] at eq used
  rcases Nat.lt_trichotomy d e with before | rfl | after
  · have ne := others d before hash key' value (eq ▸ filled)
    rw [same] at ne
    cases ne
  · rw [eq, filled] at empty
    cases empty
  · rw [used e after] at empty
    cases empty

/-- The loop of `util_cache_entry_get`, after some probes. -/
theorem Inv.entryGetLoop (inv : Inv f c) {key : K} {rounds probe : ℕ} {first : Option ℕ}
    (eq : probe + rounds = c.size)
    (used : ∀ p < probe, (c.entries (c.probed (f.hash key) p)).isEmpty = false)
    (others : ∀ p < probe, Other f c key (c.probed (f.hash key) p))
    (ok : ∀ i ∈ first, ∃ d < probe, c.probed (f.hash key) d = i ∧ (c.entries i).isFilled = false) :
  Found f c key (c.entryGetLoop f (f.hash key) key rounds probe first)
  := by
  induction rounds generalizing probe first with
  | zero =>
    rw [Nat.add_zero] at eq
    rw [eq] at used others
    refine .full ?_ ?_
    · intro i hi
      obtain ⟨d, hd, rfl⟩ := exists_probed hi (f.hash key)
      exact used d hd
    · intro i hi
      obtain ⟨d, hd, rfl⟩ := exists_probed hi (f.hash key)
      exact others d hd
  | succ rounds ih =>
    have lt : probe < c.size := by omega
    have here := probed_lt inv.linked (f.hash key) probe
    rw [State.entryGetLoop, probed_eq inv.linked _ lt]
    cases entry : c.entries (c.probed (f.hash key) probe) with
    | filled hash key' value =>
      dsimp only
      split
      case isTrue matched =>
        rw [matched.1] at entry
        exact .hit here entry matched.2
      case isFalse differs =>
        apply ih (by omega)
        · intro p hp
          rcases Nat.lt_succ_iff_lt_or_eq.1 hp with hp | rfl
          · exact used p hp
          · rw [entry]
            rfl
        · intro p hp
          rcases Nat.lt_succ_iff_lt_or_eq.1 hp with hp | rfl
          · exact others p hp
          · intro hash' key'' value' filled
            rw [entry] at filled
            cases filled
            apply Bool.eq_false_iff.2
            intro same
            apply differs
            refine ⟨?_, same⟩
            rw [inv.hash_eq _ here hash key' value entry, f.hash_eq same]
        · intro i mem
          obtain ⟨d, hd, rest⟩ := ok i mem
          exact ⟨d, Nat.lt_succ_of_lt hd, rest⟩
    | deleted =>
      dsimp only
      apply ih (by omega)
      · intro p hp
        rcases Nat.lt_succ_iff_lt_or_eq.1 hp with hp | rfl
        · exact used p hp
        · rw [entry]
          rfl
      · intro p hp
        rcases Nat.lt_succ_iff_lt_or_eq.1 hp with hp | rfl
        · exact others p hp
        · intro hash' key'' value' filled
          rw [entry] at filled
          cases filled
      · intro i mem
        cases first with
        | none =>
          obtain rfl := Option.some.inj mem
          exact ⟨probe, Nat.lt_succ_self probe, rfl, by rw [entry]; rfl⟩
        | some j =>
          obtain ⟨d, hd, rest⟩ := ok i mem
          exact ⟨d, Nat.lt_succ_of_lt hd, rest⟩
    | empty =>
      dsimp only
      have all := inv.others lt (by rw [entry]; rfl) others
      cases first with
      | none =>
        exact .unfilled here lt rfl (by rw [entry]; rfl) used all
      | some j =>
        obtain ⟨d, hd, rfl, notFilled⟩ := ok j rfl
        exact .unfilled (probed_lt inv.linked _ d) (hd.trans lt) rfl notFilled
          (fun p hp => used p (hp.trans hd)) all

/-- What `util_cache_entry_get` finds. -/
theorem Inv.entryGet (inv : Inv f c) (key : K) :
  Found f c key (c.entryGet f (f.hash key) key)
  := by
  apply inv.entryGetLoop (Nat.zero_add _)
  · exact fun p hp => absurd hp (Nat.not_lt_zero p)
  · exact fun p hp => absurd hp (Nat.not_lt_zero p)
  · intro i mem
    cases mem

/-! ### Destroying entries -/

/-- There are no more filled entries than entries. -/
theorem Linked.length_le (linked : c.Linked) :
  c.lru.length ≤ c.size
  := by
  have sub : c.lru ⊆ List.range c.size := by
    intro i mem
    exact List.mem_range.2 ((linked.mem i).1 mem).1
  have le := (List.subperm_of_subset linked.nodup sub).length_le
  rw [List.length_range] at le
  exact le

/-- An entry that is not filled is left alone. -/
theorem entryDestroy_of_not_filled (entry : Place) (notFilled : (c.entryAt entry).isFilled = false) :
  c.entryDestroy entry = c
  := by
  unfold entryDestroy
  split
  case h_1 eq =>
    rw [eq] at notFilled
    cases notFilled
  case h_2 => rfl

/-- What is changed when an entry is destroyed. -/
theorem Linked.entryDestroy_eq (linked : c.Linked) {i hash : ℕ} {key : K} {value : V}
    (lt : i < c.size) (filled : c.entries i = .filled hash key value) :
  c.entryDestroy (.slot i) = { c with
    entries := Function.update c.entries i .deleted
    lru := c.lru.erase i
    count := c.count - 1
    destroyed := c.destroyed ++ [(key, value)] }
  := by
  have mem : i ∈ c.lru := (linked.mem i).2 ⟨lt, by rw [filled]; rfl⟩
  have pos := List.length_pos_of_mem mem
  have length := linked.length_le
  have le := linked.le
  have count : (c.count + (2 ^ 32 - 1)) % 2 ^ 32 = c.count - 1 := by
    rw [linked.count_eq]
    omega
  have entry : c.entryAt (.slot i) = .filled hash key value := filled
  unfold entryDestroy
  rw [entry, count]
  rfl

/-- The list after an entry was destroyed. -/
theorem Linked.destroy (linked : c.Linked) {i hash : ℕ} {key : K} {value : V} (lt : i < c.size)
    (filled : c.entries i = .filled hash key value) :
  (c.entryDestroy (.slot i)).Linked
  := by
  have mem : i ∈ c.lru := (linked.mem i).2 ⟨lt, by rw [filled]; rfl⟩
  rw [linked.entryDestroy_eq lt filled]
  constructor
  case two_le => exact linked.two_le
  case le => exact linked.le
  case nodup => exact linked.nodup.erase i
  case mem =>
    intro j
    dsimp only
    rw [linked.nodup.mem_erase_iff, linked.mem, Function.update_apply]
    by_cases eq : j = i
    · rw [if_pos eq]
      apply iff_of_false
      · exact fun h => h.1 eq
      · exact fun h => Bool.false_ne_true h.2
    · rw [if_neg eq]
      exact and_iff_right eq
  case count_eq =>
    dsimp only
    rw [List.length_erase_of_mem mem, linked.count_eq]
  case sentinel => exact linked.sentinel

/-- The pairs before and after an entry was destroyed. -/
theorem Linked.contents_destroy (linked : c.Linked) {i hash : ℕ} {key : K} {value : V}
    {before after : List ℕ} (lt : i < c.size) (filled : c.entries i = .filled hash key value)
    (split : c.lru = before ++ i :: after) :
  c.contents = before.filterMap (fun j => (c.entries j).pair)
      ++ (key, value) :: after.filterMap (fun j => (c.entries j).pair)
    ∧ (c.entryDestroy (.slot i)).contents = before.filterMap (fun j => (c.entries j).pair)
      ++ after.filterMap (fun j => (c.entries j).pair)
    ∧ (c.entryDestroy (.slot i)).lru = before ++ after
  := by
  have nodup := linked.nodup
  rw [split] at nodup
  obtain ⟨-, right, apart⟩ := List.pairwise_append.1 nodup
  have notBefore : i ∉ before := fun mem => apart i mem i List.mem_cons_self rfl
  have notAfter : i ∉ after := (List.nodup_cons.1 right).1
  have erased : c.lru.erase i = before ++ after := by
    rw [split, List.erase_append_right _ notBefore, List.erase_cons_head]
  have same : ∀ l : List ℕ, i ∉ l → l.filterMap (fun j =>
      (Function.update c.entries i .deleted j).pair) = l.filterMap fun j => (c.entries j).pair := by
    intro l notMem
    apply List.filterMap_congr
    intro j mem
    rw [Function.update_of_ne]
    rintro rfl
    exact notMem mem
  rw [linked.entryDestroy_eq lt filled]
  refine ⟨?_, ?_, erased⟩
  · unfold contents
    rw [split, List.filterMap_append, List.filterMap_cons_some (b := (key, value))]
    rw [filled]
    rfl
  · unfold contents
    dsimp only
    rw [erased, List.filterMap_append, same before notBefore, same after notAfter]

/-- What holds between operations still holds after an entry was destroyed. -/
theorem Inv.destroy (inv : Inv f c) {i hash : ℕ} {key : K} {value : V} (lt : i < c.size)
    (filled : c.entries i = .filled hash key value) :
  Inv f (c.entryDestroy (.slot i))
  := by
  have linked := inv.linked.destroy lt filled
  have eq := inv.linked.entryDestroy_eq lt filled
  have before : ∀ j hash key value, (c.entryDestroy (.slot i)).entries j = .filled hash key value →
      c.entries j = .filled hash key value := by
    intro j hash key value filled'
    rw [eq] at filled'
    dsimp only at filled'
    rw [Function.update_apply] at filled'
    split at filled'
    case isTrue => cases filled'
    case isFalse => exact filled'
  have used : ∀ j, (c.entries j).isEmpty = false →
      ((c.entryDestroy (.slot i)).entries j).isEmpty = false := by
    intro j notEmpty
    rw [eq]
    dsimp only
    rw [Function.update_apply]
    split
    case isTrue => rfl
    case isFalse => exact notEmpty
  have size : (c.entryDestroy (.slot i)).size = c.size := by rw [eq]
  constructor
  case linked => exact linked
  case count_le =>
    rw [eq]
    exact (Nat.sub_le _ _).trans inv.count_le
  case hash_eq =>
    intro j hj hash key value filled'
    rw [size] at hj
    exact inv.hash_eq j hj hash key value (before j hash key value filled')
  case path =>
    intro j hj hash key value filled'
    rw [size] at hj
    obtain ⟨d, hd, there, used'⟩ := inv.path j hj hash key value (before j hash key value filled')
    unfold probed at *
    rw [size]
    exact ⟨d, hd, there, fun p hp => used _ (used' p hp)⟩
  case unique =>
    intro j hj k hk hash key value hash' key' value' here there
    rw [size] at hj hk
    exact inv.unique j hj k hk hash key value hash' key' value' (before j _ _ _ here)
      (before k _ _ _ there)

/-- What is changed when an entry is destroyed, by the fields. -/
theorem Linked.destroy_frame (linked : c.Linked) {i hash : ℕ} {key : K} {value : V}
    (lt : i < c.size) (filled : c.entries i = .filled hash key value) :
  (c.entryDestroy (.slot i)).entries = Function.update c.entries i .deleted
    ∧ (c.entryDestroy (.slot i)).size = c.size
    ∧ (c.entryDestroy (.slot i)).count = c.count - 1
    ∧ (c.entryDestroy (.slot i)).destroyed = c.destroyed ++ [(key, value)]
  := by
  rw [linked.entryDestroy_eq lt filled]
  exact ⟨rfl, rfl, rfl, rfl⟩

/-- Destroying an entry does not make an entry empty, and gives no key an entry. -/
theorem Linked.destroy_keeps (linked : c.Linked) {i hash : ℕ} {key : K} {value : V}
    (lt : i < c.size) (filled : c.entries i = .filled hash key value) (key' : K) (j : ℕ) :
  ((c.entries j).isEmpty = false → ((c.entryDestroy (.slot i)).entries j).isEmpty = false)
    ∧ (Other f c key' j → Other f (c.entryDestroy (.slot i)) key' j)
  := by
  obtain ⟨entries, -⟩ := linked.destroy_frame lt filled
  unfold Other
  rw [entries, Function.update_apply]
  split
  case isTrue =>
    refine ⟨fun _ => rfl, ?_⟩
    rintro - hash key'' value ⟨⟩
  case isFalse => exact ⟨id, id⟩

/-- When the entry of a key is destroyed, no entry has the key. -/
theorem Inv.others_destroy (inv : Inv f c) {i hash : ℕ} {key key' : K} {value : V}
    (lt : i < c.size) (filled : c.entries i = .filled hash key' value)
    (same : f.equals key key' = true) :
  ∀ j < c.size, Other f (c.entryDestroy (.slot i)) key j
  := by
  intro j hj
  obtain ⟨entries, -⟩ := inv.linked.destroy_frame lt filled
  unfold Other
  rw [entries, Function.update_apply]
  split
  case isTrue => rintro hash key'' value ⟨⟩
  case isFalse ne =>
    intro hash' key'' value' filled'
    apply Bool.eq_false_iff.2
    intro same'
    exact ne (inv.unique j hj i lt hash' key'' value' hash key' value filled' filled
      (f.equals_trans (f.equals_symm same') same))

/-! ### Pairs -/

/-- The pairs are those of the filled entries. -/
theorem Linked.mem_contents (linked : c.Linked) {pair : K × V} (mem : pair ∈ c.contents) :
  ∃ i < c.size, ∃ hash, c.entries i = .filled hash pair.1 pair.2
  := by
  obtain ⟨i, inList, eq⟩ := List.mem_filterMap.1 mem
  obtain ⟨lt, filled⟩ := (linked.mem i).1 inList
  obtain ⟨hash, key, value, entry⟩ := Entry.exists_of_isFilled filled
  rw [entry] at eq
  obtain rfl := Option.some.inj eq
  exact ⟨i, lt, hash, entry⟩

/-- A key without an entry has no pair. -/
theorem Linked.not_equals (linked : c.Linked) {key : K} (others : ∀ i < c.size, Other f c key i) :
  ∀ pair ∈ c.contents, f.equals key pair.1 = false
  := by
  intro pair mem
  obtain ⟨i, lt, hash, filled⟩ := linked.mem_contents mem
  exact others i lt hash pair.1 pair.2 filled

/-- There are as many pairs as the count says. -/
theorem Linked.length_contents (linked : c.Linked) :
  c.contents.length = c.count
  := by
  have all : ∀ l : List ℕ, (∀ i ∈ l, (c.entries i).isFilled = true) →
      (l.filterMap fun i => (c.entries i).pair).length = l.length := by
    intro l filled
    induction l with
    | nil => rfl
    | cons i l ih =>
      obtain ⟨hash, key, value, entry⟩ := Entry.exists_of_isFilled (filled i List.mem_cons_self)
      have some : (c.entries i).pair = some (key, value) := by
        rw [entry]
        rfl
      rw [List.filterMap_cons_some (f := fun i => (c.entries i).pair) some, List.length_cons,
        List.length_cons, ih fun j mem => filled j (List.mem_cons_of_mem i mem)]
  rw [linked.count_eq]
  exact all c.lru fun i mem => ((linked.mem i).1 mem).2

/-! ### Filling entries -/

/-- A pair is put into an entry that is not filled. -/
theorem Inv.fill (inv : Inv f c) {i d : ℕ} {key : K} (value : V) (lt : i < c.size)
    (notFilled : (c.entries i).isFilled = false) (hd : d < c.size)
    (eq : c.probed (f.hash key) d = i)
    (used : ∀ p < d, (c.entries (c.probed (f.hash key) p)).isEmpty = false)
    (others : ∀ j < c.size, Other f c key j) (room : c.count < c.size / 2)
    (result : c' = { c with
      entries := Function.update c.entries i (.filled (f.hash key) key value)
      lru := i :: c.lru
      count := (c.count + 1) % 2 ^ 32 }) :
  Inv f c' ∧ c'.contents = (key, value) :: c.contents ∧ c'.destroyed = c.destroyed
    ∧ c'.size = c.size
  := by
  have notMem : i ∉ c.lru := by
    intro mem
    rw [((inv.linked.mem i).1 mem).2] at notFilled
    cases notFilled
  have le := inv.linked.le
  have count : (c.count + 1) % 2 ^ 32 = c.count + 1 := Nat.mod_eq_of_lt (by omega)
  rw [count] at result
  have size : c'.size = c.size := by rw [result]
  have self : c'.entries i = .filled (f.hash key) key value := by
    rw [result]
    exact Function.update_self _ _ _
  have elsewhere : ∀ j ≠ i, c'.entries j = c.entries j := by
    intro j ne
    rw [result]
    exact Function.update_of_ne ne _ _
  have still : ∀ j, (c.entries j).isEmpty = false → (c'.entries j).isEmpty = false := by
    intro j notEmpty
    by_cases same : j = i
    · rw [same, self]
      rfl
    · rw [elsewhere j same]
      exact notEmpty
  have probed_eq : ∀ hash p, c'.probed hash p = c.probed hash p := by
    intro hash p
    unfold probed
    rw [size]
  refine ⟨?_, ?_, by rw [result], size⟩
  · constructor
    case linked =>
      constructor
      case two_le => exact size ▸ inv.linked.two_le
      case le => exact size ▸ le
      case nodup =>
        rw [result]
        exact List.nodup_cons.2 ⟨notMem, inv.linked.nodup⟩
      case mem =>
        intro j
        have list : c'.lru = i :: c.lru := by rw [result]
        rw [list, size]
        by_cases same : j = i
        · rw [same, self]
          exact iff_of_true List.mem_cons_self ⟨lt, rfl⟩
        · rw [elsewhere j same, ← inv.linked.mem, List.mem_cons]
          exact or_iff_right same
      case count_eq =>
        rw [result]
        dsimp only
        rw [List.length_cons, inv.linked.count_eq]
      case sentinel =>
        rw [result]
        exact inv.linked.sentinel
    case count_le =>
      rw [result]
      exact room
    case hash_eq =>
      intro j hj hash key' value' filled
      rw [size] at hj
      by_cases same : j = i
      · rw [same, self] at filled
        cases filled
        rfl
      · rw [elsewhere j same] at filled
        exact inv.hash_eq j hj hash key' value' filled
    case path =>
      intro j hj hash key' value' filled
      rw [size] at hj ⊢
      by_cases same : j = i
      · rw [same, self] at filled
        cases filled
        refine ⟨d, hd, ?_, ?_⟩
        · rw [probed_eq, eq, same]
        · intro p hp
          rw [probed_eq]
          exact still _ (used p hp)
      · rw [elsewhere j same] at filled
        obtain ⟨e, he, probed, used'⟩ := inv.path j hj hash key' value' filled
        refine ⟨e, he, ?_, ?_⟩
        · rw [probed_eq, probed]
        · intro p hp
          rw [probed_eq]
          exact still _ (used' p hp)
    case unique =>
      intro j hj k hk hash key' value' hash' key'' value'' here there same
      rw [size] at hj hk
      by_cases ji : j = i
      · by_cases ki : k = i
        · rw [ji, ki]
        · rw [ji, self] at here
          rw [elsewhere k ki] at there
          cases here
          have ne := others k hk hash' key'' value'' there
          rw [same] at ne
          cases ne
      · rw [elsewhere j ji] at here
        by_cases ki : k = i
        · rw [ki, self] at there
          cases there
          have ne := others j hj hash key' value' here
          rw [f.equals_symm same] at ne
          cases ne
        · rw [elsewhere k ki] at there
          exact inv.unique j hj k hk hash key' value' hash' key'' value'' here there same
  · have list : c'.lru = i :: c.lru := by rw [result]
    unfold contents
    rw [list, List.filterMap_cons_some (b := (key, value)) (by rw [self]; rfl)]
    congr 1
    apply List.filterMap_congr
    intro j mem
    rw [elsewhere]
    rintro rfl
    exact notMem mem

/-! ### Setting -/

/-- What is asked of a state after a pair was put into a cache. -/
def SetOk (f : KeyFunctions K) (c : State K V) (key : K) (value : V) (c' : State K V) : Prop :=
  Inv f c' ∧ c'.size = c.size ∧ ∃ out, c'.destroyed = c.destroyed ++ out
    ∧ Lru.Step f.equals (c.size / 2) c.contents (.set key value) none out c'.contents

/-- The last entry of the list is destroyed. -/
theorem Inv.evict (inv : Inv f c) (ne : c.lru ≠ []) :
  ∃ i l last, c.lruPrev = .slot i ∧ i < c.size ∧ (c.entries i).isFilled = true
    ∧ Inv f (c.entryDestroy (.slot i)) ∧ c.contents = l ++ [last]
    ∧ (c.entryDestroy (.slot i)).contents = l
    ∧ (c.entryDestroy (.slot i)).destroyed = c.destroyed ++ [last]
  := by
  obtain ⟨before, i, split⟩ := List.eq_nil_or_concat c.lru |>.resolve_left ne
  rw [List.concat_eq_append] at split
  have mem : i ∈ c.lru := by
    rw [split]
    exact List.mem_append_right _ (List.mem_singleton_self i)
  obtain ⟨lt, isFilled⟩ := (inv.linked.mem i).1 mem
  obtain ⟨hash, key, value, filled⟩ := Entry.exists_of_isFilled isFilled
  obtain ⟨contents, after, -⟩ := inv.linked.contents_destroy lt filled split
  rw [List.filterMap_nil, List.append_nil] at after
  obtain ⟨-, -, -, destroyed⟩ := inv.linked.destroy_frame lt filled
  refine ⟨i, _, (key, value), ?_, lt, isFilled, inv.destroy lt filled, contents, after, destroyed⟩
  unfold lruPrev
  rw [split, List.getLast?_concat]

/-- A pair is put into an entry that is not filled, in a cache that is not full. -/
theorem Inv.setAt (inv : Inv f c) {i d : ℕ} (key : K) (value : V) (lt : i < c.size)
    (notFilled : (c.entries i).isFilled = false) (hd : d < c.size)
    (eq : c.probed (f.hash key) d = i)
    (used : ∀ p < d, (c.entries (c.probed (f.hash key) p)).isEmpty = false)
    (others : ∀ j < c.size, Other f c key j) (room : c.count < c.size / 2) :
  Inv f (c.setAt f key value (.slot i))
    ∧ (c.setAt f key value (.slot i)).contents = (key, value) :: c.contents
    ∧ (c.setAt f key value (.slot i)).destroyed = c.destroyed
    ∧ (c.setAt f key value (.slot i)).size = c.size
  := by
  apply inv.fill value lt notFilled hd eq used others room
  unfold State.setAt
  rw [if_neg (Nat.not_le_of_lt room)]
  dsimp only
  rw [entryDestroy_of_not_filled (.slot i) notFilled]
  rfl

/-- Whatever is destroyed first may as well be destroyed before the call. -/
theorem setAt_of_full (key : K) (value : V) (entry : Place) (full : c.size / 2 ≤ c.count)
    (size : (c.entryDestroy c.lruPrev).size = c.size)
    (room : (c.entryDestroy c.lruPrev).count < c.size / 2) :
  c.setAt f key value entry = (c.entryDestroy c.lruPrev).setAt f key value entry
  := by
  unfold State.setAt
  rw [if_pos full, size, if_neg (Nat.not_le_of_lt room)]

/-- The entry that is used may as well be destroyed before the call. -/
theorem setAt_destroy (key : K) (value : V) {entry : Place} (room : c.count < c.size / 2)
    (size : (c.entryDestroy entry).size = c.size)
    (room' : (c.entryDestroy entry).count < c.size / 2)
    (notFilled : ((c.entryDestroy entry).entryAt entry).isFilled = false) :
  c.setAt f key value entry = (c.entryDestroy entry).setAt f key value entry
  := by
  unfold State.setAt
  rw [if_neg (Nat.not_le_of_lt room), size, if_neg (Nat.not_le_of_lt room')]
  dsimp only
  rw [entryDestroy_of_not_filled entry notFilled]

/-- A full cache has entries. -/
theorem Linked.ne_nil (linked : c.Linked) (full : c.size / 2 ≤ c.count) :
  c.lru ≠ []
  := by
  intro nil
  have two := linked.two_le
  rw [linked.count_eq, nil, List.length_nil] at full
  omega

/-- The entry that was found for a key can still be used when an entry was destroyed. -/
theorem Inv.found_destroy (inv : Inv f c) {i j hash : ℕ} {key key' : K} {value : V}
    (found : Found f c key (some i)) (lt : j < c.size)
    (filled : c.entries j = .filled hash key' value) :
  Found f (c.entryDestroy (.slot j)) key (some i)
  := by
  obtain ⟨entries, size, -⟩ := inv.linked.destroy_frame lt filled
  have keeps := inv.linked.destroy_keeps (f := f) lt filled key
  have probed_eq : ∀ hash p, (c.entryDestroy (.slot j)).probed hash p = c.probed hash p := by
    intro hash p
    unfold probed
    rw [size]
  cases found with
  | @hit _ hi key'' value'' entry same =>
    by_cases eq : i = j
    · rw [← eq] at filled lt entries keeps ⊢
      obtain ⟨d, hd, there, used⟩ := inv.path i hi _ key'' value'' entry
      refine .unfilled (d := d) ?_ ?_ ?_ ?_ ?_ ?_
      · rw [eq, size, ← eq]
        exact hi
      · rw [eq, size]
        exact hd
      · rw [eq, probed_eq, ← eq]
        exact there
      · rw [entries, Function.update_self]
        rfl
      · intro p hp
        rw [eq, probed_eq, ← eq]
        exact (keeps _).1 (used p hp)
      · rw [eq, size, ← eq]
        exact inv.others_destroy hi entry same
    · refine @Found.hit _ _ f _ key i (size ▸ hi) key'' value'' ?_ same
      rw [entries, Function.update_of_ne eq]
      exact entry
  | @unfilled _ d hi hd there notFilled used others =>
    have ne : i ≠ j := by
      rintro rfl
      rw [filled] at notFilled
      cases notFilled
    refine .unfilled (d := d) (size ▸ hi) (size ▸ hd) ?_ ?_ ?_ ?_
    · rw [probed_eq]
      exact there
    · rw [entries, Function.update_of_ne ne]
      exact notFilled
    · intro p hp
      rw [probed_eq]
      exact (keeps _).1 (used p hp)
    · rw [size]
      exact fun k hk => (keeps k).2 (others k hk)

/-- An entry that is destroyed can be used for any key when all entries have been used. -/
theorem Inv.found_of_used (inv : Inv f c) {j hash : ℕ} {key key' : K} {value : V}
    (used : ∀ i < c.size, (c.entries i).isEmpty = false) (others : ∀ i < c.size, Other f c key i)
    (lt : j < c.size) (filled : c.entries j = .filled hash key' value) :
  Found f (c.entryDestroy (.slot j)) key (some j)
  := by
  obtain ⟨entries, size, -⟩ := inv.linked.destroy_frame lt filled
  have keeps := inv.linked.destroy_keeps (f := f) lt filled key
  have linked := inv.linked.destroy lt filled
  obtain ⟨d, hd, there⟩ := exists_probed (c := c.entryDestroy (.slot j)) (size ▸ lt) (f.hash key)
  refine .unfilled (size ▸ lt) hd there ?_ ?_ ?_
  · rw [entries, Function.update_self]
    rfl
  · intro p _
    apply (keeps _).1
    apply used
    rw [← size]
    exact probed_lt linked _ p
  · rw [size]
    exact fun k hk => (keeps k).2 (others k hk)

/-- A pair is put into the entry that was found, in a cache that is not full. -/
theorem Inv.setAt_of_room (inv : Inv f c) {i : ℕ} (key : K) (value : V)
    (found : Found f c key (some i)) (room : c.count < c.size / 2) :
  Inv f (c.setAt f key value (.slot i))
    ∧ (c.setAt f key value (.slot i)).contents
      = (key, value) :: Lru.without f.equals key c.contents
    ∧ (c.setAt f key value (.slot i)).destroyed
      = c.destroyed ++ Lru.having f.equals key c.contents
    ∧ (c.setAt f key value (.slot i)).size = c.size
  := by
  cases found with
  | @unfilled _ d hi hd there notFilled used others =>
    obtain ⟨without, having⟩ := Lru.without_eq_self (inv.linked.not_equals others)
    rw [without, having, List.append_nil]
    exact inv.setAt key value hi notFilled hd there used others room
  | @hit _ hi key' value' entry same =>
    have mem : i ∈ c.lru := (inv.linked.mem i).2 ⟨hi, by rw [entry]; rfl⟩
    obtain ⟨before, after, split⟩ := List.append_of_mem mem
    obtain ⟨entries, size, count, destroyed⟩ := inv.linked.destroy_frame hi entry
    obtain ⟨contents, contents₁, -⟩ := inv.linked.contents_destroy hi entry split
    have inv₁ := inv.destroy hi entry
    have others := inv.others_destroy hi entry same
    rw [← size] at others
    have elsewhere := inv₁.linked.not_equals others
    rw [contents₁] at elsewhere
    obtain ⟨without, having, -⟩ := Lru.without_append_cons (key', value') same elsewhere
    have notFilled : ((c.entryDestroy (.slot i)).entries i).isFilled = false := by
      rw [entries, Function.update_self]
      rfl
    have room₁ : (c.entryDestroy (.slot i)).count < c.size / 2 := by omega
    rw [setAt_destroy key value room size room₁ notFilled, contents, without, having, ← destroyed,
      ← size]
    obtain ⟨d, hd, there, used⟩ := inv.path i hi _ key' value' entry
    have keeps := inv.linked.destroy_keeps (f := f) hi entry key
    rw [← contents₁]
    apply inv₁.setAt (d := d) key value
    · rw [size]
      exact hi
    · exact notFilled
    · rw [size]
      exact hd
    · unfold probed at there ⊢
      rw [size]
      exact there
    · unfold probed at used ⊢
      rw [size]
      exact fun p hp => (keeps _).1 (used p hp)
    · exact others
    · rw [size]
      exact room₁

/-- A pair is put into a cache whose last entry is destroyed first. -/
theorem setOk_of_evict {i : ℕ} {key : K} {value : V} {l : List (K × V)}
    {last : K × V} {c₁ : State K V} (inv₁ : Inv f c₁) (size : c₁.size = c.size)
    (room : c₁.count < c.size / 2) (before : c.contents = l ++ [last]) (after : c₁.contents = l)
    (destroyed : c₁.destroyed = c.destroyed ++ [last]) (found : Found f c₁ key (some i))
    (eq : c' = c₁.setAt f key value (.slot i)) :
  SetOk f c key value c'
  := by
  obtain ⟨inv₂, contents₂, destroyed₂, size₂⟩ := inv₁.setAt_of_room key value found (size ▸ room)
  rw [← eq] at inv₂ contents₂ destroyed₂ size₂
  refine ⟨inv₂, size₂.trans size, last :: Lru.having f.equals key l, ?_, ?_⟩
  · rw [destroyed₂, destroyed, after, List.append_assoc]
    rfl
  · rw [contents₂, before, after]
    exact .evict l last key value

/-- A pair is put into a cache that has an entry, or in which an entry has not been used. -/
theorem Inv.set (inv : Inv f c) (key : K) (value : V)
    (careful : c.count ≠ 0 ∨ ∃ i < c.size, (c.entries i).isEmpty = true) :
  SetOk f c key value (c.set f key value)
  := by
  have found := inv.entryGet key
  have le := inv.count_le
  have two := inv.linked.two_le
  unfold State.set
  generalize c.entryGet f (f.hash key) key = result at found
  cases result with
  | some i =>
    dsimp only
    by_cases full : c.size / 2 ≤ c.count
    · obtain ⟨j, l, last, prev, hj, filled, inv₁, before, after, destroyed⟩ :=
        inv.evict (inv.linked.ne_nil full)
      obtain ⟨hash, key', value', entry⟩ := Entry.exists_of_isFilled filled
      obtain ⟨-, size, count, -⟩ := inv.linked.destroy_frame hj entry
      have room : (c.entryDestroy (.slot j)).count < c.size / 2 := by omega
      apply setOk_of_evict inv₁ size room before after destroyed
        (inv.found_destroy found hj entry)
      rw [← prev]
      exact setAt_of_full key value _ full (prev ▸ size) (prev ▸ room)
    · obtain ⟨inv₁, contents, destroyed, size⟩ :=
        inv.setAt_of_room key value found (Nat.lt_of_not_le full)
      refine ⟨inv₁, size, _, destroyed, ?_⟩
      rw [contents]
      apply Lru.Step.set
      rw [inv.linked.length_contents]
      exact Nat.lt_of_not_le full
  | none =>
    dsimp only
    cases found with
    | full used others =>
      have ne : c.lru ≠ [] := by
        rcases careful with pos | ⟨i, hi, empty⟩
        · intro nil
          rw [inv.linked.count_eq, nil] at pos
          exact pos rfl
        · rw [used i hi] at empty
          cases empty
      obtain ⟨j, l, last, prev, hj, filled, inv₁, before, after, destroyed⟩ := inv.evict ne
      obtain ⟨hash, key', value', entry⟩ := Entry.exists_of_isFilled filled
      obtain ⟨entries, size, count, -⟩ := inv.linked.destroy_frame hj entry
      have pos : 0 < c.count := by
        rw [inv.linked.count_eq]
        exact List.length_pos_of_ne_nil ne
      have room : (c.entryDestroy (.slot j)).count < c.size / 2 := by omega
      apply setOk_of_evict inv₁ size room before after destroyed
        (inv.found_of_used used others hj entry)
      rw [prev]
      by_cases full : c.size / 2 ≤ c.count
      · have eq := setAt_of_full (f := f) key value (.slot j) full (prev ▸ size) (prev ▸ room)
        rw [prev] at eq
        exact eq
      · apply setAt_destroy key value (Nat.lt_of_not_le full) size room
        have unfilled : ((c.entryDestroy (.slot j)).entries j).isFilled = false := by
          rw [entries, Function.update_self]
          rfl
        exact unfilled

/-! ### Getting, removing and clearing -/

/-- An entry is moved to the head of the list. -/
theorem Inv.touch (inv : Inv f c) {i : ℕ} (mem : i ∈ c.lru) :
  Inv f { c with lru := i :: c.lru.erase i }
  := by
  refine { inv with linked := ?_ }
  refine { inv.linked with nodup := ?_, mem := ?_, count_eq := ?_ }
  · exact List.nodup_cons.2 ⟨inv.linked.nodup.not_mem_erase, inv.linked.nodup.erase i⟩
  · intro j
    have perm : (i :: c.lru.erase i).Perm c.lru := (List.perm_cons_erase mem).symm
    rw [perm.mem_iff]
    exact inv.linked.mem j
  · dsimp only
    rw [List.length_cons, List.length_erase_of_mem mem, inv.linked.count_eq,
      Nat.sub_add_cancel (List.length_pos_of_mem mem)]

/-- A value is looked up. -/
theorem Inv.get (inv : Inv f c) (key : K) :
  Inv f (c.get f key).2 ∧ (c.get f key).2.size = c.size
    ∧ (c.get f key).2.destroyed = c.destroyed
    ∧ Lru.Step f.equals (c.size / 2) c.contents (.get key) (c.get f key).1 []
      (c.get f key).2.contents
  := by
  have found := inv.entryGet key
  have step : Lru.Step f.equals (c.size / 2) c.contents (.get key) _ [] _ := .get c.contents key
  have absent : (∀ i < c.size, Other f c key i) →
      Lru.Step f.equals (c.size / 2) c.contents (.get key) none [] c.contents := by
    intro others
    have nowhere := inv.linked.not_equals others
    rw [Lru.find_eq_none nowhere, (Lru.without_eq_self nowhere).1] at step
    exact step
  unfold State.get
  generalize c.entryGet f (f.hash key) key = result at found
  cases found with
  | full used others => exact ⟨inv, rfl, rfl, absent others⟩
  | @unfilled i d hi hd there notFilled used others =>
    dsimp only
    split
    case h_1 entry =>
      rw [entry] at notFilled
      cases notFilled
    case h_2 => exact ⟨inv, rfl, rfl, absent others⟩
  | @hit i hi key' value entry same =>
    have mem : i ∈ c.lru := (inv.linked.mem i).2 ⟨hi, by rw [entry]; rfl⟩
    obtain ⟨before, after, split⟩ := List.append_of_mem mem
    obtain ⟨contents, contents₁, lru₁⟩ := inv.linked.contents_destroy hi entry split
    obtain ⟨-, size, -⟩ := inv.linked.destroy_frame hi entry
    have others := inv.others_destroy hi entry same
    rw [← size] at others
    have elsewhere := (inv.destroy hi entry).linked.not_equals others
    rw [contents₁] at elsewhere
    obtain ⟨without, -, find⟩ := Lru.without_append_cons (key', value) same elsewhere
    dsimp only
    rw [entry]
    refine ⟨inv.touch mem, rfl, rfl, ?_⟩
    have moved : (((c.removeFromList (.slot i)).insertAtHead (.slot i)).contents)
        = (key', value) :: (before.filterMap (fun j => (c.entries j).pair)
          ++ after.filterMap (fun j => (c.entries j).pair)) := by
      have erased : c.lru.erase i = before ++ after := by
        rw [← lru₁, inv.linked.entryDestroy_eq hi entry]
      have pair : (c.entries i).pair = some (key', value) := by
        rw [entry]
        rfl
      unfold State.contents removeFromList insertAtHead
      dsimp only
      rw [erased, List.filterMap_cons_some (f := fun j => (c.entries j).pair) pair,
        List.filterMap_append]
    rw [contents, find, without] at step
    rw [moved, contents]
    exact step

/-- A key is removed. -/
theorem Inv.remove (inv : Inv f c) (key : K) :
  Inv f (c.remove f key) ∧ (c.remove f key).size = c.size
    ∧ ∃ out, (c.remove f key).destroyed = c.destroyed ++ out
      ∧ Lru.Step f.equals (c.size / 2) c.contents (.remove key) none out (c.remove f key).contents
  := by
  have found := inv.entryGet key
  have step : Lru.Step f.equals (c.size / 2) c.contents (.remove key) none _ _ :=
    .remove c.contents key
  have absent : (∀ i < c.size, Other f c key i) →
      Lru.Step f.equals (c.size / 2) c.contents (.remove key) none [] c.contents := by
    intro others
    obtain ⟨without, having⟩ := Lru.without_eq_self (inv.linked.not_equals others)
    rw [without, having] at step
    exact step
  unfold State.remove
  generalize c.entryGet f (f.hash key) key = result at found
  cases found with
  | full used others => exact ⟨inv, rfl, [], (List.append_nil _).symm, absent others⟩
  | @unfilled i d hi hd there notFilled used others =>
    dsimp only
    rw [entryDestroy_of_not_filled (.slot i) notFilled]
    exact ⟨inv, rfl, [], (List.append_nil _).symm, absent others⟩
  | @hit i hi key' value entry same =>
    have mem : i ∈ c.lru := (inv.linked.mem i).2 ⟨hi, by rw [entry]; rfl⟩
    obtain ⟨before, after, split⟩ := List.append_of_mem mem
    obtain ⟨contents, contents₁, -⟩ := inv.linked.contents_destroy hi entry split
    obtain ⟨-, size, -, destroyed⟩ := inv.linked.destroy_frame hi entry
    have inv₁ := inv.destroy hi entry
    have others := inv.others_destroy hi entry same
    rw [← size] at others
    have elsewhere := inv₁.linked.not_equals others
    rw [contents₁] at elsewhere
    obtain ⟨without, having, -⟩ := Lru.without_append_cons (key', value) same elsewhere
    refine ⟨inv₁, size, _, destroyed, ?_⟩
    rw [contents, without, having] at step
    dsimp only
    rw [contents₁, contents]
    exact step

/-- An entry that is not filled is marked as empty. -/
theorem Linked.setEmpty (linked : c.Linked) {i : ℕ} (notFilled : (c.entries i).isFilled = false) :
  (c.setEntry .empty (.slot i)).Linked ∧ (c.setEntry .empty (.slot i)).contents = c.contents
  := by
  have notMem : i ∉ c.lru := by
    intro mem
    rw [((linked.mem i).1 mem).2] at notFilled
    cases notFilled
  constructor
  · refine { linked with mem := ?_ }
    intro j
    have same : (Function.update c.entries i .empty j).isFilled = (c.entries j).isFilled := by
      rw [Function.update_apply]
      split
      case isTrue eq =>
        rw [eq, notFilled]
        rfl
      case isFalse => rfl
    have iff := linked.mem j
    rw [← same] at iff
    exact iff
  · unfold State.contents setEntry
    apply List.filterMap_congr
    intro j mem
    dsimp only
    rw [Function.update_of_ne]
    rintro rfl
    exact notMem mem

/-- The loop of `util_cache_clear`, after some rounds. -/
theorem Linked.clearLoop (linked : c.Linked) {n : ℕ} (le : n ≤ c.size) :
  (c.clearLoop n).Linked ∧ (c.clearLoop n).size = c.size
    ∧ (∀ i < n, (c.clearLoop n).entries i = .empty)
    ∧ ∃ out, (c.clearLoop n).destroyed = c.destroyed ++ out
      ∧ (out ++ (c.clearLoop n).contents).Perm c.contents
  := by
  induction n with
  | zero =>
    refine ⟨linked, rfl, fun i lt => absurd lt (Nat.not_lt_zero i), [], ?_, ?_⟩
    · exact (List.append_nil _).symm
    · exact List.Perm.refl _
  | succ n ih =>
    obtain ⟨linked₁, size₁, empty₁, out, destroyed₁, perm⟩ := ih (Nat.le_of_succ_le le)
    rw [State.clearLoop]
    have lt : n < (c.clearLoop n).size := by omega
    have empty : ∀ (d : State K V), (∀ i < n, d.entries i = .empty) →
        ∀ i < n + 1, (d.setEntry .empty (.slot n)).entries i = .empty := by
      intro d before i hi
      unfold setEntry
      dsimp only
      rw [Function.update_apply]
      split
      case isTrue => rfl
      case isFalse ne => exact before i (by omega)
    by_cases filled : ((c.clearLoop n).entries n).isFilled = true
    · obtain ⟨hash, key, value, entry⟩ := Entry.exists_of_isFilled filled
      obtain ⟨entries, size₂, -, destroyed₂⟩ := linked₁.destroy_frame lt entry
      have mem : n ∈ (c.clearLoop n).lru := (linked₁.mem n).2 ⟨lt, filled⟩
      obtain ⟨before, after, split⟩ := List.append_of_mem mem
      obtain ⟨contents, contents₂, -⟩ := linked₁.contents_destroy lt entry split
      obtain ⟨linked₃, contents₃⟩ := (linked₁.destroy lt entry).setEmpty (i := n) (by
        rw [entries, Function.update_self]
        rfl)
      refine ⟨linked₃, size₂.trans size₁, ?_, out ++ [(key, value)], ?_, ?_⟩
      · apply empty
        intro i hi
        rw [entries, Function.update_of_ne (Nat.ne_of_lt hi)]
        exact empty₁ i hi
      · rw [← List.append_assoc, ← destroyed₁]
        exact destroyed₂
      · rw [contents₃, contents₂]
        rw [contents] at perm
        apply List.Perm.trans _ perm
        rw [List.append_assoc]
        apply List.Perm.append_left
        rw [List.singleton_append]
        exact List.perm_middle.symm
    · have notFilled : ((c.clearLoop n).entries n).isFilled = false := Bool.eq_false_iff.2 filled
      rw [entryDestroy_of_not_filled (.slot n) notFilled]
      obtain ⟨linked₃, contents₃⟩ := linked₁.setEmpty notFilled
      refine ⟨linked₃, size₁, empty _ empty₁, out, destroyed₁, ?_⟩
      rw [contents₃]
      exact perm

/-- All entries are removed. -/
theorem Inv.clear (inv : Inv f c) :
  Inv f c.clear ∧ c.clear.size = c.size
    ∧ ∃ out, c.clear.destroyed = c.destroyed ++ out
      ∧ Lru.Step f.equals (c.size / 2) c.contents .clear none out c.clear.contents
  := by
  obtain ⟨linked, size, empty, out, destroyed, perm⟩ := inv.linked.clearLoop (Nat.le_refl c.size)
  have nil : c.clear.lru = [] := by
    apply List.eq_nil_iff_forall_not_mem.2
    intro i mem
    obtain ⟨lt, filled⟩ := (linked.mem i).1 mem
    rw [empty i (size ▸ lt)] at filled
    cases filled
  have contents : c.clear.contents = [] := by
    unfold State.contents
    rw [nil]
    rfl
  have none : ∀ i < c.clear.size, ∀ hash key value, c.clear.entries i ≠ .filled hash key value := by
    intro i lt hash key value filled
    cases (empty i (size ▸ lt)).symm.trans filled
  refine ⟨⟨linked, ?_, ?_, ?_, ?_⟩, size, out, destroyed, ?_⟩
  · have count := linked.count_eq
    have zero : (c.clearLoop c.size).lru = [] := nil
    rw [zero] at count
    exact count ▸ Nat.zero_le _
  · exact fun i lt hash key value filled => absurd filled (none i lt hash key value)
  · exact fun i lt hash key value filled => absurd filled (none i lt hash key value)
  · exact fun i lt j _ hash key value _ _ _ filled => absurd filled (none i lt hash key value)
  · rw [contents]
    apply Lru.Step.clear
    have whole : c.clearLoop c.size = c.clear := rfl
    rw [whole, contents, List.append_nil] at perm
    exact perm

/-! ### Runs -/

/-- When a pair is put into a cache, there is an entry in the cache, or one that has not been used. -/
def Careful (c : State K V) : Lru.Op K V → Prop
  | .set _ _ => c.count ≠ 0 ∨ ∃ i < c.size, (c.entries i).isEmpty = true
  | _ => True

instance (c : State K V) (op : Lru.Op K V) : Decidable (Careful c op) :=
  match op with
  | .set _ _ => inferInstanceAs (Decidable (_ ∨ _))
  | .get _ | .remove _ | .clear => inferInstanceAs (Decidable True)

/-- One operation is one of a bounded map. -/
theorem Inv.step (inv : Inv f c) {op : Lru.Op K V} (careful : Careful c op) :
  Inv f (c.step f op).2 ∧ (c.step f op).2.size = c.size
    ∧ ∃ out, (c.step f op).2.destroyed = c.destroyed ++ out
      ∧ Lru.Step f.equals (c.size / 2) c.contents op (c.step f op).1 out (c.step f op).2.contents
  := by
  cases op with
  | set key value => exact inv.set key value careful
  | get key =>
    obtain ⟨inv', size, destroyed, step⟩ := inv.get key
    refine ⟨inv', size, [], ?_, step⟩
    rw [List.append_nil]
    exact destroyed
  | remove key => exact inv.remove key
  | clear => exact inv.clear

/-- All operations of a sequence are done with care. -/
def CarefulRun (f : KeyFunctions K) (c : State K V) (ops : List (Lru.Op K V)) : Prop :=
  Flow.Meets (fun c op => some (c.step f op).2) Careful c ops

instance (f : KeyFunctions K) (c : State K V) (ops : List (Lru.Op K V)) :
    Decidable (CarefulRun f c ops) :=
  inferInstanceAs (Decidable (Flow.Meets _ _ _ _))

/-- A sequence of operations is one of a bounded map. -/
theorem Inv.run (inv : Inv f c) {ops : List (Lru.Op K V)} (careful : CarefulRun f c ops) :
  Inv f (c.run f ops).2 ∧ (c.run f ops).2.size = c.size
    ∧ ∃ out, (c.run f ops).2.destroyed = c.destroyed ++ out
      ∧ Lru.Run f.equals (c.size / 2) c.contents ops (c.run f ops).1 out (c.run f ops).2.contents
  := by
  induction ops generalizing c with
  | nil => exact ⟨inv, rfl, [], (List.append_nil _).symm, .nil _⟩
  | cons op ops ih =>
    obtain ⟨inv₁, size₁, out₁, destroyed₁, step⟩ := inv.step careful.1
    obtain ⟨inv₂, size₂, out₂, destroyed₂, run⟩ := ih inv₁ (careful.2 _ rfl)
    refine ⟨inv₂, size₂.trans size₁, out₁ ++ out₂, ?_, ?_⟩
    · rw [← List.append_assoc, ← destroyed₁]
      exact destroyed₂
    · rw [size₁] at run
      exact .cons step run

/-- A sequence of operations goes on where another one has ended. -/
theorem run_append (c : State K V) (ops ops' : List (Lru.Op K V)) :
  (c.run f (ops ++ ops')).2 = ((c.run f ops).2.run f ops').2
  := by
  induction ops generalizing c with
  | nil => rfl
  | cons op ops ih => exact ih (c.step f op).2

theorem CarefulRun.append {ops ops' : List (Lru.Op K V)} (careful : CarefulRun f c (ops ++ ops')) :
  CarefulRun f c ops ∧ CarefulRun f (c.run f ops).2 ops'
  := by
  induction ops generalizing c with
  | nil => exact ⟨trivial, careful⟩
  | cons op ops ih =>
    obtain ⟨first, rest⟩ := ih (careful.2 _ rfl)
    refine ⟨⟨careful.1, ?_⟩, rest⟩
    rintro c' ⟨⟩
    exact first

/-- No key has two pairs. -/
theorem Inv.distinct (inv : Inv f c) :
  Lru.Distinct f.equals c.contents
  := by
  apply List.pairwise_filterMap.2
  apply inv.linked.nodup.imp_of_mem
  intro i j hi hj ne p hp q hq
  obtain ⟨lti, filled⟩ := (inv.linked.mem i).1 hi
  obtain ⟨ltj, filled'⟩ := (inv.linked.mem j).1 hj
  obtain ⟨hash, key, value, entry⟩ := Entry.exists_of_isFilled filled
  obtain ⟨hash', key', value', entry'⟩ := Entry.exists_of_isFilled filled'
  rw [entry] at hp
  rw [entry'] at hq
  obtain rfl := Option.some.inj hp
  obtain rfl := Option.some.inj hq
  apply Bool.eq_false_iff.2
  intro same
  exact ne (inv.unique i lti j ltj hash key value hash' key' value' entry entry' same)

/-- A pair that is in the cache is found. -/
theorem Inv.get_of_mem (inv : Inv f c) {key key' : K} {value : V} (mem : (key, value) ∈ c.contents)
    (same : f.equals key' key = true) :
  (c.get f key').1 = some value
  := by
  obtain ⟨before, after, split⟩ := List.append_of_mem mem
  have distinct := inv.distinct
  rw [split] at distinct
  obtain ⟨-, right, apart⟩ := List.pairwise_append.1 distinct
  have elsewhere : ∀ p ∈ before ++ after, f.equals key' p.1 = false := by
    intro p other
    apply Bool.eq_false_iff.2
    intro there
    rcases List.mem_append.1 other with other | other
    · have ne := apart p other (key, value) List.mem_cons_self
      rw [f.equals_trans (f.equals_symm there) same] at ne
      cases ne
    · have ne := (List.pairwise_cons.1 right).1 p other
      rw [f.equals_trans (f.equals_symm same) there] at ne
      cases ne
  obtain ⟨-, -, find⟩ := Lru.without_append_cons (key, value) same elsewhere
  obtain ⟨-, -, -, step⟩ := inv.get key'
  rw [step.result_of_get, split, find]
  rfl

/-- The assertions of `ensure_sanity` hold between operations. -/
theorem Inv.ensureSanity (inv : Inv f c) :
  c.ensureSanity f
  := by
  have perm : ((List.range c.size).filter fun i => (c.entries i).isFilled).Perm c.lru := by
    apply (List.perm_ext_iff_of_nodup (List.nodup_range.filter _) inv.linked.nodup).2
    intro i
    rw [List.mem_filter, List.mem_range, inv.linked.mem]
  have count := inv.linked.count_eq
  refine ⟨inv.hash_eq, ?_, ?_, ?_⟩
  · rw [perm.length_eq, count]
  · rw [count]
    exact inv.linked.length_le
  · split
    case isTrue zero =>
      rw [count] at zero
      exact List.length_eq_zero_iff.1 zero
    case isFalse pos =>
      constructor
      · intro nil
        rw [count, nil] at pos
        exact pos rfl
      · rw [count]
        exact Nat.mod_self _

/-- A new cache. -/
theorem inv_create {size : ℕ} (pos : 0 < (create size : State K V).size)
    (le : (create size : State K V).size ≤ 2 ^ 31) :
  Inv f (create size : State K V)
  := by
  have even : (create size : State K V).size % 2 = 0 := by
    unfold create
    dsimp only
    omega
  constructor
  case linked =>
    refine ⟨by omega, le, .nil, ?_, rfl, rfl⟩
    intro i
    exact iff_of_false List.not_mem_nil fun h => Bool.false_ne_true h.2
  case count_le => exact Nat.zero_le _
  case hash_eq => rintro i - hash key value ⟨⟩
  case path => rintro i - hash key value ⟨⟩
  case unique => rintro i - j - hash key value hash' key' value' ⟨⟩

end State

open State

/-- A cache that is used with care is a map that forgets what was used least recently. -/
theorem cache_is_lru (f : KeyFunctions K) {size : ℕ} (pos : 0 < (create size : State K V).size)
    (le : (create size : State K V).size ≤ 2 ^ 31) {ops : List (Lru.Op K V)}
    (careful : CarefulRun f (create size) ops) {results : List (Option V)} {c : State K V}
    (ran : (create size).run f ops = (results, c)) :
  Lru.Run f.equals (c.size / 2) [] ops results c.destroyed c.contents
    ∧ c.contents.length = c.count ∧ c.count ≤ c.size / 2 ∧ c.ensureSanity f
    ∧ ∀ before key value after key', ops = before ++ .set key value :: after →
      (∀ op ∈ after, op.Keeps f.equals key) → f.equals key' key = true →
      ∃ out, c.destroyed = ((create size).run f (before ++ [.set key value])).2.destroyed ++ out
        ∧ ((c.get f key').1 = some value ∨ (key, value) ∈ out)
  := by
  have init := inv_create (f := f) pos le
  obtain ⟨inv, size_eq, out, destroyed, run⟩ := init.run careful
  rw [ran] at inv size_eq destroyed run
  have nothing : (create size : State K V).destroyed = [] := rfl
  rw [nothing, List.nil_append] at destroyed
  refine ⟨?_, inv.linked.length_contents, inv.count_le, inv.ensureSanity, ?_⟩
  · rw [size_eq, destroyed]
    exact run
  · intro before key value after key' split keeps same
    have regroup : ops = (before ++ [.set key value]) ++ after := by
      rw [split, List.append_assoc]
      rfl
    rw [regroup] at careful
    obtain ⟨careful₁, careful₂⟩ := careful.append
    obtain ⟨careful₀, last⟩ := careful₁.append
    have inv₀ := (init.run careful₀).1
    obtain ⟨inv₁, -⟩ := init.run careful₁
    obtain ⟨inv₂, -, out₂, destroyed₂, run₂⟩ := inv₁.run careful₂
    rw [← run_append, ← regroup, ran] at inv₂ destroyed₂ run₂
    refine ⟨out₂, destroyed₂, ?_⟩
    have mem : (key, value) ∈ ((create size).run f (before ++ [.set key value])).2.contents := by
      obtain ⟨-, -, out', -, step⟩ := inv₀.step last.1
      rw [run_append]
      exact step.mem_of_set
    have symm : ∀ k k', f.equals k k' = true → f.equals k' k = true := fun _ _ => f.equals_symm
    have trans : ∀ k k' k'', f.equals k k' = true → f.equals k' k'' = true →
      f.equals k k'' = true := fun _ _ _ => f.equals_trans
    rcases run₂.mem_or_out symm trans inv₁.distinct mem keeps with mem | out
    · exact .inl (inv₂.get_of_mem mem same)
    · exact .inr out

/-- Numbers as keys. -/
def numbers : KeyFunctions ℕ where
  hash k := k % 2 ^ 32
  equals k k' := k == k'
  hash_lt _ := Nat.mod_lt _ (Nat.two_pow_pos 32)
  equals_refl k := beq_self_eq_true k
  equals_symm same := beq_iff_eq.2 (beq_iff_eq.1 same).symm
  equals_trans same same' := beq_iff_eq.2 ((beq_iff_eq.1 same).trans (beq_iff_eq.1 same'))
  hash_eq same := by rw [beq_iff_eq.1 same]

/-- Two pairs are put into a cache of two, the first one is used, and a third one is put into it. -/
def rotating : List (Lru.Op ℕ ℕ) := [.set 0 10, .set 1 11, .get 0, .set 2 12, .get 1, .get 0]

theorem cache_is_lru_rotating :
  ∃ results c, (create 2).run numbers rotating = (results, c)
    ∧ results = [none, none, some 10, none, none, some 10]
    ∧ c.contents = [(0, 10), (2, 12)] ∧ c.destroyed = [(1, 11)]
    ∧ Lru.Run numbers.equals (c.size / 2) [] rotating results c.destroyed c.contents
    ∧ c.ensureSanity numbers
  := by
  have pos : 0 < (create 2 : State ℕ ℕ).size := by decide
  have le : (create 2 : State ℕ ℕ).size ≤ 2 ^ 31 := by decide
  have careful : CarefulRun numbers (create 2) rotating := by decide
  refine ⟨_, _, rfl, rfl, rfl, rfl, ?_, ?_⟩
  · exact (cache_is_lru numbers pos le careful rfl).1
  · exact (cache_is_lru numbers pos le careful rfl).2.2.2.1

/-- All entries of a cache are used and removed before a pair is put into it. -/
def exhausting : List (Lru.Op ℕ ℕ) := [.set 0 10, .remove 0, .set 1 11, .remove 1, .set 2 12]

theorem lost_pair :
  ∃ results c, (create 1).run numbers exhausting = (results, c) ∧ c.count = 1 ∧ c.contents = []
    ∧ c.destroyed = [(0, 10), (1, 11)] ∧ (c.get numbers 2).1 = none ∧ ¬ c.ensureSanity numbers
  := by
  refine ⟨_, _, rfl, rfl, rfl, rfl, rfl, ?_⟩
  intro sanity
  exact absurd sanity.2.1 (by decide)

end Cache

end Gallium
