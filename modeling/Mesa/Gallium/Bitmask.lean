import Mesa.Data.BitScan
import Mathlib.Data.Finset.Basic
import Mathlib.Order.Bounds.Basic
import Mathlib.Algebra.Group.Nat.Defs

/-!
# Bitmasks

The bitmask of `u_bitmask.c`, which grows when bits behind its end are set.  How many bits are set
from the start on is kept, and brought up to date only when a bit is looked at.
-/

namespace Gallium

/-- `struct util_bitmask`. -/
structure UtilBitmask where
  words : List (BitVec 32)
  size : ℕ
  filled : ℕ

/-- `UTIL_BITMASK_INVALID_INDEX`. -/
def invalidIndex : ℕ := 2 ^ 32 - 1

namespace UtilBitmask

/-- `util_bitmask_create`, when there is memory. -/
def create : UtilBitmask := ⟨List.replicate 16 0#32, 16 * 32, 0⟩

/-- The loop of `util_bitmask_resize`: the new size, or nothing where it overflows.  There is no
result if the loop does not end within the given number of rounds. -/
def doubleSize (size minimumSize : ℕ) : ℕ → ℕ → Option (Option ℕ)
  | 0, newSize => if newSize < minimumSize then none else some (some newSize)
  | fuel + 1, newSize =>
    if newSize < minimumSize then
      if newSize * 2 % 2 ^ 32 < size then some none
      else doubleSize size minimumSize fuel (newSize * 2 % 2 ^ 32)
    else some (some newSize)

/-- `util_bitmask_resize`; `realloc` says whether there is memory.  There is no result where an
assertion fails. -/
def resize (realloc : Bool) (bm : UtilBitmask) (minimumIndex : ℕ) : Option (Bool × UtilBitmask) :=
  let minimumSize := (minimumIndex + 1) % 2 ^ 32
  if minimumSize = 0 then some (false, bm)
  else if bm.size ≥ minimumSize then some (true, bm)
  else if bm.size % 32 ≠ 0 then none
  else (doubleSize bm.size minimumSize 32 bm.size).bind fun newSize =>
    match newSize with
    | none => some (false, bm)
    | some newSize =>
      if newSize = 0 ∨ newSize % 32 ≠ 0 then none
      else if realloc then
        some (true, { bm with
          words := bm.words ++ List.replicate ((newSize - bm.size) / 32) 0#32
          size := newSize })
      else some (false, bm)

/-- `util_bitmask_filled_set`. -/
def filledSet (bm : UtilBitmask) (index : ℕ) : Option UtilBitmask :=
  if bm.filled ≤ bm.size ∧ index < bm.size then
    if index = bm.filled then
      if bm.filled + 1 ≤ bm.size then some { bm with filled := bm.filled + 1 } else none
    else some bm
  else none

/-- `util_bitmask_filled_unset`. -/
def filledUnset (bm : UtilBitmask) (index : ℕ) : Option UtilBitmask :=
  if bm.filled ≤ bm.size ∧ index < bm.size then
    some (if index < bm.filled then { bm with filled := index } else bm)
  else none

/-- The loops of `util_bitmask_add` and `util_bitmask_get_next_index` from an index on: they stop at
a bit with the given value. -/
def scanFrom (bm : UtilBitmask) (value : Bool) (index : ℕ) :
    Option (Bool × ℕ × BitVec 32 × ℕ) :=
  Bitset.scanWords value bm.words (bm.size / 32 - index / 32) (index / 32) (32 - index % 32)
    (1#32 <<< (index % 32)) index

/-- `util_bitmask_add`. -/
def add (realloc : Bool) (bm : UtilBitmask) : Option (ℕ × UtilBitmask) :=
  (bm.scanFrom false bm.filled).bind fun (_, word, mask, filled) =>
    (resize realloc { bm with filled := filled } filled).bind fun (grown, bm) =>
      if grown then
        bm.words[word]?.bind fun x =>
          if x &&& mask ≠ 0#32 then none
          else some (bm.filled, { bm with
            words := bm.words.modify word (· ||| mask)
            filled := bm.filled + 1 })
      else some (invalidIndex, bm)

/-- `util_bitmask_set`. -/
def set (realloc : Bool) (bm : UtilBitmask) (index : ℕ) : Option (ℕ × UtilBitmask) :=
  (resize realloc bm index).bind fun (grown, bm) =>
    if grown then
      (Bitset.set bm.words index).bind fun words =>
        ({ bm with words := words }.filledSet index).map fun bm => (index, bm)
    else some (invalidIndex, bm)

/-- `util_bitmask_clear`. -/
def clear (bm : UtilBitmask) (index : ℕ) : Option UtilBitmask :=
  if index ≥ bm.size then some bm
  else (Bitset.clear bm.words index).bind fun words => { bm with words := words }.filledUnset index

/-- `util_bitmask_get`. -/
def get (bm : UtilBitmask) (index : ℕ) : Option (Bool × UtilBitmask) :=
  if index < bm.filled then
    if Bitset.test bm.words index then some (true, bm) else none
  else if index ≥ bm.size then some (false, bm)
  else if Bitset.test bm.words index then (bm.filledSet index).map fun bm => (true, bm)
  else some (false, bm)

/-- `util_bitmask_get_next_index`. -/
def getNextIndex (bm : UtilBitmask) (index : ℕ) : Option (ℕ × UtilBitmask) :=
  if index < bm.filled then
    if Bitset.test bm.words index then some (index, bm) else none
  else if index ≥ bm.size then some (invalidIndex, bm)
  else (bm.scanFrom true index).bind fun (found, _, _, index) =>
    if found then
      if index = bm.filled then
        if bm.filled + 1 ≤ bm.size then some (index, { bm with filled := bm.filled + 1 }) else none
      else some (index, bm)
    else some (invalidIndex, bm)

end UtilBitmask

/-! ### Calls -/

/-- A call, with whether there is memory where it could grow the bitmask. -/
inductive BitmaskOp where
  | add (realloc : Bool)
  | set (realloc : Bool) (index : ℕ)
  | clear (index : ℕ)
  | get (index : ℕ)
  | getNextIndex (index : ℕ)

/-- What a call returns. -/
inductive BitmaskReply where
  | index (i : ℕ)
  | bool (b : Bool)
  | nothing
  deriving DecidableEq

/-- The index that is passed to a call is a number of 32 bits. -/
def BitmaskOp.Small : BitmaskOp → Prop
  | .add _ => True
  | .set _ index => index < 2 ^ 32
  | .clear index => index < 2 ^ 32
  | .get index => index < 2 ^ 32
  | .getNextIndex index => index < 2 ^ 32

namespace UtilBitmask

def step (bm : UtilBitmask) : BitmaskOp → Option (BitmaskReply × UtilBitmask)
  | .add realloc => (bm.add realloc).map fun r => (.index r.1, r.2)
  | .set realloc index => (bm.set realloc index).map fun r => (.index r.1, r.2)
  | .clear index => (bm.clear index).map fun bm => (.nothing, bm)
  | .get index => (bm.get index).map fun r => (.bool r.1, r.2)
  | .getNextIndex index => (bm.getNextIndex index).map fun r => (.index r.1, r.2)

def run (bm : UtilBitmask) : List BitmaskOp → Option (List BitmaskReply × UtilBitmask)
  | [] => some ([], bm)
  | op :: ops => (bm.step op).bind fun r => (run r.2 ops).map fun r' => (r.1 :: r'.1, r'.2)

end UtilBitmask

/-! ### Sets of numbers -/

/-- A set with room for the numbers below `n` has, or can be given, room for `i`. -/
def CanHold (n : ℕ) (realloc : Bool) (i : ℕ) : Prop := i < n ∨ realloc = true ∧ i < 2 ^ 31

/-- What a call does to a finite set with room for the numbers below a bound. -/
inductive SetStep : Finset ℕ × ℕ → BitmaskOp → BitmaskReply → Finset ℕ × ℕ → Prop
  | add {s : Finset ℕ} {n n' i : ℕ} {realloc : Bool} (least : IsLeast {j | j ∉ s} i)
    (room : CanHold n realloc i) (grows : n ≤ n') (holds : i < n') :
    SetStep (s, n) (.add realloc) (.index i) (insert i s, n')
  | add_fails {s : Finset ℕ} {n i : ℕ} {realloc : Bool} (least : IsLeast {j | j ∉ s} i)
    (room : ¬ CanHold n realloc i) :
    SetStep (s, n) (.add realloc) (.index invalidIndex) (s, n)
  | set {s : Finset ℕ} {n n' i : ℕ} {realloc : Bool} (room : CanHold n realloc i)
    (grows : n ≤ n') (holds : i < n') :
    SetStep (s, n) (.set realloc i) (.index i) (insert i s, n')
  | set_fails {s : Finset ℕ} {n i : ℕ} {realloc : Bool} (room : ¬ CanHold n realloc i) :
    SetStep (s, n) (.set realloc i) (.index invalidIndex) (s, n)
  | clear {s : Finset ℕ} {n i : ℕ} : SetStep (s, n) (.clear i) .nothing (s.erase i, n)
  | get {s : Finset ℕ} {n i : ℕ} : SetStep (s, n) (.get i) (.bool (decide (i ∈ s))) (s, n)
  | next {s : Finset ℕ} {n i j : ℕ} (least : IsLeast {k | k ∈ s ∧ i ≤ k} j) :
    SetStep (s, n) (.getNextIndex i) (.index j) (s, n)
  | next_none {s : Finset ℕ} {n i : ℕ} (none : ∀ k ∈ s, k < i) :
    SetStep (s, n) (.getNextIndex i) (.index invalidIndex) (s, n)

/-- What all calls do. -/
inductive SetRun : Finset ℕ × ℕ → List BitmaskOp → List BitmaskReply → Finset ℕ × ℕ → Prop
  | nil {s : Finset ℕ × ℕ} : SetRun s [] [] s
  | cons {s s' s'' : Finset ℕ × ℕ} {op : BitmaskOp} {ops : List BitmaskOp} {reply : BitmaskReply}
    {replies : List BitmaskReply} (step : SetStep s op reply s') (rest : SetRun s' ops replies s'') :
    SetRun s (op :: ops) (reply :: replies) s''

namespace UtilBitmask

/-- A bitmask stands for a set. -/
structure Holds (bm : UtilBitmask) (s : Finset ℕ) : Prop where
  size_eq : bm.size = 32 * bm.words.length
  double : ∃ k ≤ 22, bm.size = 2 ^ (9 + k)
  filled_le : bm.filled ≤ bm.size
  mem_iff : ∀ i, i ∈ s ↔ Bitset.test bm.words i = true
  filled_mem : ∀ i < bm.filled, i ∈ s

section

variable {bm : UtilBitmask} {s : Finset ℕ}

theorem holds_create :
  create.Holds ∅
  where
  size_eq := rfl
  double := ⟨0, by decide, rfl⟩
  filled_le := Nat.zero_le _
  mem_iff := by
    intro i
    have empty := Bitset.test_append_zero ([] : List (BitVec 32)) 16 i
    rw [List.nil_append] at empty
    change i ∈ ∅ ↔ Bitset.test (List.replicate 16 0#32) i = true
    rw [empty]
    simp [Bitset.test]
  filled_mem := fun i lt => absurd lt (Nat.not_lt_zero i)

theorem Holds.lt_size (holds : bm.Holds s) {i : ℕ} (mem : i ∈ s) :
  i < bm.size
  := by
  rw [holds.size_eq]
  exact Bitset.lt_of_test (by decide) ((holds.mem_iff i).mp mem)

theorem Holds.size_le (holds : bm.Holds s) :
  bm.size ≤ 2 ^ 31
  := by
  obtain ⟨k, le, eq⟩ := holds.double
  rw [eq]
  exact Nat.pow_le_pow_right (by decide) (by omega)

/-- The number of bits that are known to be set, when it is brought up to date. -/
theorem Holds.withFilled (holds : bm.Holds s) {filled : ℕ} (le : filled ≤ bm.size)
    (mem : ∀ i < filled, i ∈ s) :
  Holds { bm with filled := filled } s
  := ⟨holds.size_eq, holds.double, le, holds.mem_iff, mem⟩

/-! ### Growing -/

/-- The sizes are powers of two, and the next one after `2 ^ 31` overflows.  By induction on the
rounds. -/
theorem doubleSize_spec {k j fuel minimumSize : ℕ} (k_le : k ≤ j) (j_le : j ≤ 22)
    (enough : 23 ≤ j + fuel) :
  (minimumSize ≤ 2 ^ 31 → ∃ j' ≤ 22, j ≤ j' ∧ minimumSize ≤ 2 ^ (9 + j') ∧
    doubleSize (2 ^ (9 + k)) minimumSize fuel (2 ^ (9 + j)) = some (some (2 ^ (9 + j')))) ∧
  (2 ^ 31 < minimumSize →
    doubleSize (2 ^ (9 + k)) minimumSize fuel (2 ^ (9 + j)) = some none)
  := by
  induction fuel generalizing j with
  | zero => omega
  | succ fuel ih =>
    rw [doubleSize]
    by_cases short : 2 ^ (9 + j) < minimumSize
    case neg =>
      rw [if_neg short]
      have top : 2 ^ (9 + j) ≤ 2 ^ 31 := Nat.pow_le_pow_right (by decide) (by omega)
      exact ⟨fun _ => ⟨j, j_le, Nat.le_refl j, by omega, rfl⟩, fun large => by omega⟩
    case pos =>
      rw [if_pos short, ← Nat.pow_succ]
      by_cases last : j = 22
      · subst last
        have zero : 2 ^ (9 + 22).succ % 2 ^ 32 = 0 := by decide
        rw [zero, if_pos (Nat.two_pow_pos _)]
        exact ⟨fun small => by omega, fun _ => rfl⟩
      · have fits : 2 ^ (9 + j).succ < 2 ^ 32 := Nat.pow_lt_pow_right (by decide) (by omega)
        have grown : 2 ^ (9 + k) ≤ 2 ^ (9 + j).succ := Nat.pow_le_pow_right (by decide) (by omega)
        rw [Nat.mod_eq_of_lt fits, if_neg (by omega)]
        obtain ⟨small, large⟩ := @ih (j + 1) (by omega) (by omega) (by omega)
        refine ⟨fun h => ?_, large⟩
        obtain ⟨j', le, le', result⟩ := small h
        exact ⟨j', le, by omega, result⟩

/-- The bitmask has room for an index afterwards, or it is what it was. -/
theorem Holds.resize (holds : bm.Holds s) (realloc : Bool) {index : ℕ} (small : index < 2 ^ 32) :
  (CanHold bm.size realloc index ∧ ∃ bm', resize realloc bm index = some (true, bm') ∧
    bm'.Holds s ∧ bm'.filled = bm.filled ∧ bm.size ≤ bm'.size ∧ index < bm'.size ∧
    (index < bm.size → bm' = bm)) ∨
  ¬ CanHold bm.size realloc index ∧ resize realloc bm index = some (false, bm)
  := by
  have size_le := holds.size_le
  rw [UtilBitmask.resize]
  by_cases last : (index + 1) % 2 ^ 32 = 0
  case pos =>
    right
    refine ⟨?_, if_pos last⟩
    rintro (lt | ⟨-, lt⟩) <;> omega
  have minimum : (index + 1) % 2 ^ 32 = index + 1 := by omega
  rw [if_neg last, minimum]
  by_cases enough : bm.size ≥ index + 1
  case pos =>
    left
    exact ⟨.inl enough, bm, if_pos enough, holds, rfl, le_refl _, enough, fun _ => rfl⟩
  have whole : ¬ bm.size % 32 ≠ 0 := by
    have := holds.size_eq
    omega
  rw [if_neg enough, if_neg whole]
  obtain ⟨k, k_le, size⟩ := holds.double
  obtain ⟨grows, overflows⟩ := @doubleSize_spec k k 32 (index + 1) (le_refl k) k_le (by omega)
  rw [← size] at grows overflows
  by_cases large : 2 ^ 31 < index + 1
  · right
    rw [overflows large]
    refine ⟨?_, rfl⟩
    rintro (lt | ⟨-, lt⟩) <;> omega
  · obtain ⟨j, j_le, le, fits, result⟩ := grows (by omega)
    rw [result, Option.bind_some]
    dsimp only
    have pow : 2 ^ (9 + j) = 32 * 2 ^ (4 + j) := by
      rw [show 9 + j = 5 + (4 + j) by omega, Nat.pow_add]
    have pos := Nat.two_pow_pos (9 + j)
    have good : ¬ (2 ^ (9 + j) = 0 ∨ 2 ^ (9 + j) % 32 ≠ 0) := by omega
    rw [if_neg good]
    cases realloc with
    | false =>
      right
      refine ⟨?_, rfl⟩
      rintro (lt | ⟨eq, -⟩)
      · omega
      · cases eq
    | true =>
      left
      refine ⟨.inr ⟨rfl, by omega⟩, _, rfl, ?_, rfl, by dsimp only; omega, by dsimp only; omega,
        fun lt => by omega⟩
      have size_eq := holds.size_eq
      have filled_le := holds.filled_le
      refine ⟨?_, ⟨j, j_le, rfl⟩, by dsimp only; omega, ?_, holds.filled_mem⟩
      · dsimp only
        rw [List.length_append, List.length_replicate]
        omega
      · intro i
        rw [Bitset.test_append_zero]
        exact holds.mem_iff i

/-! ### Single calls -/

/-- A bit is set whose word is there. -/
theorem Holds.insert (holds : bm.Holds s) {index : ℕ} {words : List (BitVec 32)}
    (set : Bitset.set bm.words index = some words) :
  Holds { bm with words := words } (insert index s)
  := by
  refine ⟨?_, holds.double, holds.filled_le, ?_, ?_⟩
  · dsimp only
    rw [Bitset.length_set set, holds.size_eq]
  · intro i
    rw [Bitset.test_set (by decide) set, Finset.mem_insert, holds.mem_iff]
    exact or_comm
  · exact fun i lt => Finset.mem_insert_of_mem (holds.filled_mem i lt)

theorem Holds.filledSet (holds : bm.Holds s) {index : ℕ} (mem : index ∈ s) :
  ∃ bm', bm.filledSet index = some bm' ∧ bm'.Holds s ∧ bm'.size = bm.size
  := by
  have lt := holds.lt_size mem
  have le := holds.filled_le
  rw [UtilBitmask.filledSet, if_pos ⟨le, lt⟩]
  by_cases next : index = bm.filled
  · subst next
    rw [if_pos rfl, if_pos (show bm.filled + 1 ≤ bm.size from lt)]
    refine ⟨_, rfl, holds.withFilled lt ?_, rfl⟩
    intro i below
    rcases Nat.lt_succ_iff_lt_or_eq.mp below with below | rfl
    · exact holds.filled_mem i below
    · exact mem
  · rw [if_neg next]
    exact ⟨bm, rfl, holds, rfl⟩

/-- The loops come to the first index with the value, or to the end. -/
theorem Holds.scanFrom (holds : bm.Holds s) (value : Bool) {index : ℕ} (le : index ≤ bm.size) :
  ∃ m, index ≤ m ∧ m ≤ bm.size ∧ (∀ i, index ≤ i → i < m → Bitset.test bm.words i = !value) ∧
    (m < bm.size → Bitset.test bm.words m = value) ∧
    bm.scanFrom value index = some (decide (m < bm.size), m / 32, 1#32 <<< (m % 32), m)
  := by
  have size_eq := holds.size_eq
  rw [UtilBitmask.scanFrom, size_eq]
  exact Bitset.scanWords_spec (by decide) value bm.words (by omega) (by omega)

theorem Holds.add (holds : bm.Holds s) (realloc : Bool) :
  ∃ r s', bm.add realloc = some r ∧ r.2.Holds s' ∧
    SetStep (s, bm.size) (.add realloc) (.index r.1) (s', r.2.size)
  := by
  have size_le := holds.size_le
  obtain ⟨m, low, high, passed, stopped, scanned⟩ := holds.scanFrom false holds.filled_le
  have before : ∀ i < m, i ∈ s := by
    intro i lt
    by_cases known : i < bm.filled
    · exact holds.filled_mem i known
    · rw [holds.mem_iff, passed i (by omega) lt]
      rfl
  have absent : m ∉ s := by
    intro mem
    have := stopped (holds.lt_size mem)
    rw [(holds.mem_iff m).mp mem] at this
    cases this
  have least : IsLeast {j | j ∉ s} m := by
    refine ⟨absent, ?_⟩
    intro j absent'
    by_contra lt
    exact absent' (before j (by omega))
  have holds' := holds.withFilled high before
  rw [UtilBitmask.add, scanned, Option.bind_some]
  dsimp only
  rcases holds'.resize realloc (show m < 2 ^ 32 by omega) with
    ⟨room, bm', resized, grown, filled, size, inside, -⟩ | ⟨full, resized⟩
  · dsimp only at filled room size
    rw [resized, Option.bind_some]
    dsimp only
    have there := inside
    rw [grown.size_eq] at there
    obtain ⟨words, set⟩ := Bitset.exists_set (by decide) there
    have lt : m / 32 < bm'.words.length := by omega
    have modified : bm'.words.modify (m / 32) (· ||| 1#32 <<< (m % 32)) = words := by
      rw [Bitset.set, if_pos lt] at set
      exact Option.some.inj set
    have clear : ¬ bm'.words[m / 32] &&& 1#32 <<< (m % 32) ≠ 0#32 := by
      rw [Bitset.and_mask_ne_zero_iff]
      intro isSet
      apply absent
      rw [grown.mem_iff, Bitset.test, List.getElem?_eq_getElem lt]
      exact isSet
    rw [if_pos rfl, List.getElem?_eq_getElem lt, Option.bind_some, if_neg clear, filled, modified]
    have inserted := grown.insert set
    refine ⟨_, _, rfl, ⟨inserted.size_eq, inserted.double, inside, inserted.mem_iff, ?_⟩,
      .add least room size inside⟩
    intro i below
    rcases Nat.lt_succ_iff_lt_or_eq.mp below with below | rfl
    · exact Finset.mem_insert_of_mem (before i below)
    · exact Finset.mem_insert_self i s
  · rw [resized]
    exact ⟨_, s, rfl, holds', .add_fails least full⟩

theorem Holds.set (holds : bm.Holds s) (realloc : Bool) {index : ℕ} (small : index < 2 ^ 32) :
  ∃ r s', bm.set realloc index = some r ∧ r.2.Holds s' ∧
    SetStep (s, bm.size) (.set realloc index) (.index r.1) (s', r.2.size)
  := by
  rw [UtilBitmask.set]
  rcases holds.resize realloc small with
    ⟨room, bm', resized, grown, -, size, inside, -⟩ | ⟨full, resized⟩
  · rw [resized, Option.bind_some]
    dsimp only
    have there := inside
    rw [grown.size_eq] at there
    obtain ⟨words, set⟩ := Bitset.exists_set (by decide) there
    obtain ⟨bm'', filled, holds'', same⟩ :=
      (grown.insert set).filledSet (Finset.mem_insert_self index s)
    rw [if_pos rfl, set, Option.bind_some, filled]
    refine ⟨_, _, rfl, holds'', .set room ?_ ?_⟩
    · rw [same]
      exact size
    · rw [same]
      exact inside
  · rw [resized]
    exact ⟨_, s, rfl, holds, .set_fails full⟩

theorem Holds.clear (holds : bm.Holds s) (index : ℕ) :
  ∃ bm', bm.clear index = some bm' ∧ bm'.Holds (s.erase index) ∧ bm'.size = bm.size
  := by
  rw [UtilBitmask.clear]
  by_cases outside : index ≥ bm.size
  · have absent : index ∉ s := by
      intro mem
      have := holds.lt_size mem
      omega
    rw [if_pos outside, Finset.erase_eq_of_notMem absent]
    exact ⟨bm, rfl, holds, rfl⟩
  · have inside : index < 32 * bm.words.length := by
      rw [← holds.size_eq]
      omega
    obtain ⟨words, cleared⟩ := Bitset.exists_clear (by decide) inside
    have le := holds.filled_le
    have size_eq : bm.size = 32 * words.length := by
      rw [Bitset.length_clear cleared, holds.size_eq]
    have mem_iff : ∀ i, i ∈ s.erase index ↔ Bitset.test words i = true := by
      intro i
      rw [Bitset.test_clear (by decide) cleared, Finset.mem_erase, holds.mem_iff]
      exact and_comm
    rw [if_neg outside, cleared, Option.bind_some, filledUnset, if_pos ⟨le, by dsimp only; omega⟩]
    refine ⟨_, rfl, ?_, ?_⟩
    · split
      case isTrue lt =>
        refine ⟨size_eq, holds.double, by dsimp only; omega, mem_iff, ?_⟩
        intro i below
        exact Finset.mem_erase.mpr ⟨Nat.ne_of_lt below, holds.filled_mem i (Nat.lt_trans below lt)⟩
      case isFalse above =>
        refine ⟨size_eq, holds.double, le, mem_iff, ?_⟩
        intro i below
        dsimp only at below above
        exact Finset.mem_erase.mpr ⟨by omega, holds.filled_mem i below⟩
    · split <;> rfl

theorem Holds.get (holds : bm.Holds s) (index : ℕ) :
  ∃ bm', bm.get index = some (decide (index ∈ s), bm') ∧ bm'.Holds s ∧ bm'.size = bm.size
  := by
  have mem_iff := holds.mem_iff index
  rw [UtilBitmask.get]
  by_cases known : index < bm.filled
  · have mem := holds.filled_mem index known
    rw [if_pos known, if_pos (mem_iff.mp mem), decide_eq_true mem]
    exact ⟨bm, rfl, holds, rfl⟩
  rw [if_neg known]
  by_cases outside : index ≥ bm.size
  · have absent : index ∉ s := by
      intro mem
      have := holds.lt_size mem
      omega
    rw [if_pos outside, decide_eq_false absent]
    exact ⟨bm, rfl, holds, rfl⟩
  rw [if_neg outside]
  by_cases mem : index ∈ s
  · obtain ⟨bm', filled, holds', same⟩ := holds.filledSet mem
    rw [if_pos (mem_iff.mp mem), filled, decide_eq_true mem]
    exact ⟨bm', rfl, holds', same⟩
  · rw [if_neg (fun isSet => mem (mem_iff.mpr isSet)), decide_eq_false mem]
    exact ⟨bm, rfl, holds, rfl⟩

theorem Holds.getNextIndex (holds : bm.Holds s) (index : ℕ) :
  ∃ r, bm.getNextIndex index = some r ∧ r.2.Holds s ∧ r.2.size = bm.size ∧
    SetStep (s, bm.size) (.getNextIndex index) (.index r.1) (s, bm.size)
  := by
  rw [UtilBitmask.getNextIndex]
  by_cases known : index < bm.filled
  · have mem := holds.filled_mem index known
    rw [if_pos known, if_pos ((holds.mem_iff index).mp mem)]
    exact ⟨_, rfl, holds, rfl, .next ⟨⟨mem, le_refl index⟩, fun k h => h.2⟩⟩
  rw [if_neg known]
  by_cases outside : index ≥ bm.size
  · rw [if_pos outside]
    refine ⟨_, rfl, holds, rfl, .next_none ?_⟩
    intro k mem
    exact Nat.lt_of_lt_of_le (holds.lt_size mem) outside
  rw [if_neg outside]
  obtain ⟨m, low, high, passed, stopped, scanned⟩ :=
    holds.scanFrom true (Nat.le_of_lt (Nat.lt_of_not_le outside))
  have none : ∀ k ∈ s, index ≤ k → m ≤ k := by
    intro k mem le
    by_contra lt
    have := passed k le (by omega)
    rw [(holds.mem_iff k).mp mem] at this
    cases this
  rw [scanned, Option.bind_some]
  dsimp only
  by_cases inside : m < bm.size
  · have mem : m ∈ s := (holds.mem_iff m).mpr (stopped inside)
    have least : IsLeast {k | k ∈ s ∧ index ≤ k} m := ⟨⟨mem, low⟩, fun k h => none k h.1 h.2⟩
    rw [if_pos (decide_eq_true inside)]
    by_cases next : m = bm.filled
    · rw [if_pos next, if_pos (show bm.filled + 1 ≤ bm.size by omega)]
      refine ⟨_, rfl, holds.withFilled (by omega) ?_, rfl, .next least⟩
      intro i below
      rcases Nat.lt_succ_iff_lt_or_eq.mp below with below | rfl
      · exact holds.filled_mem i below
      · rwa [← next]
    · rw [if_neg next]
      exact ⟨_, rfl, holds, rfl, .next least⟩
  · have no : ¬ decide (m < bm.size) = true := by simpa using inside
    rw [if_neg no]
    refine ⟨_, rfl, holds, rfl, .next_none ?_⟩
    intro k mem
    by_contra le
    have := none k mem (by omega)
    have := holds.lt_size mem
    omega

/-! ### All calls -/

theorem Holds.step (holds : bm.Holds s) {op : BitmaskOp} (small : op.Small) :
  ∃ r s', bm.step op = some r ∧ r.2.Holds s' ∧ SetStep (s, bm.size) op r.1 (s', r.2.size)
  := by
  cases op with
  | add realloc =>
    obtain ⟨r, s', eq, holds', stepped⟩ := holds.add realloc
    exact ⟨_, s', by rw [UtilBitmask.step, eq]; rfl, holds', stepped⟩
  | set realloc index =>
    obtain ⟨r, s', eq, holds', stepped⟩ := holds.set realloc small
    exact ⟨_, s', by rw [UtilBitmask.step, eq]; rfl, holds', stepped⟩
  | clear index =>
    obtain ⟨bm', eq, holds', same⟩ := holds.clear index
    refine ⟨_, _, by rw [UtilBitmask.step, eq]; rfl, holds', ?_⟩
    rw [same]
    exact .clear
  | get index =>
    obtain ⟨bm', eq, holds', same⟩ := holds.get index
    refine ⟨_, s, by rw [UtilBitmask.step, eq]; rfl, holds', ?_⟩
    rw [same]
    exact .get
  | getNextIndex index =>
    obtain ⟨r, eq, holds', same, stepped⟩ := holds.getNextIndex index
    refine ⟨_, s, by rw [UtilBitmask.step, eq]; rfl, holds', ?_⟩
    rw [same]
    exact stepped

/-- By induction on the calls. -/
theorem Holds.run (holds : bm.Holds s) {ops : List BitmaskOp} (small : ∀ op ∈ ops, op.Small) :
  ∃ r s', bm.run ops = some r ∧ r.2.Holds s' ∧ SetRun (s, bm.size) ops r.1 (s', r.2.size)
  := by
  induction ops generalizing bm s with
  | nil => exact ⟨_, s, rfl, holds, .nil⟩
  | cons op ops ih =>
    obtain ⟨r₁, s₁, eq, holds₁, stepped⟩ := holds.step (small op List.mem_cons_self)
    obtain ⟨r, s', ran, holds', rest⟩ :=
      ih holds₁ fun op mem => small op (List.mem_cons_of_mem _ mem)
    refine ⟨(r₁.1 :: r.1, r.2), s', ?_, holds', .cons stepped rest⟩
    rw [UtilBitmask.run, eq, Option.bind_some, ran]
    rfl

end

/-- A bitmask behaves as a finite set, and no assertion fails: what is known to be filled is in the
set and not more than the size, in every state. -/
theorem run_refines_set {ops : List BitmaskOp} (small : ∀ op ∈ ops, op.Small) :
  ∃ replies bm s, create.run ops = some (replies, bm) ∧
    SetRun (∅, create.size) ops replies (s, bm.size) ∧ (∀ i, i ∈ s ↔ Bitset.test bm.words i = true) ∧
    (∀ i < bm.filled, Bitset.test bm.words i = true) ∧ bm.filled ≤ bm.size
  := by
  obtain ⟨r, s, ran, holds, stepped⟩ := holds_create.run small
  exact ⟨r.1, r.2, s, ran, stepped, holds.mem_iff,
    fun i lt => (holds.mem_iff i).mp (holds.filled_mem i lt), holds.filled_le⟩

/-- Two indices, one of which needs more room than there is at first. -/
def someCalls : List BitmaskOp :=
  [.add true, .set false 600, .set true 600, .getNextIndex 1, .clear 0, .add true]

theorem run_refines_set_someCalls :
  ∃ replies bm s, create.run someCalls = some (replies, bm) ∧
    SetRun (∅, create.size) someCalls replies (s, bm.size) ∧
    (∀ i, i ∈ s ↔ Bitset.test bm.words i = true) ∧
    (∀ i < bm.filled, Bitset.test bm.words i = true) ∧ bm.filled ≤ bm.size
  := by
  apply run_refines_set
  intro op mem
  simp only [someCalls, List.mem_cons, List.not_mem_nil, or_false] at mem
  rcases mem with rfl | rfl | rfl | rfl | rfl | rfl <;> simp [BitmaskOp.Small]

/-- The loop from `util_bitmask_get_first_index` on, as of `alloc_temporary`: the indices it visits,
of at most `n` rounds. -/
def visit : ℕ → UtilBitmask → ℕ → Option (List ℕ)
  | 0, _, _ => none
  | n + 1, bm, index => (bm.getNextIndex index).bind fun (i, bm) =>
      if i = invalidIndex then some [] else (visit n bm (i + 1)).map (i :: ·)

theorem Holds.visit {bm : UtilBitmask} {s : Finset ℕ} (holds : bm.Holds s) {n index : ℕ}
  (le : index ≤ bm.size) (enough : bm.size < n + index) :
  ∃ l, bm.visit n index = some l ∧ l.Pairwise (· < ·) ∧ ∀ i, i ∈ l ↔ i ∈ s ∧ index ≤ i
  := by
  induction n generalizing bm index with
  | zero => omega
  | succ n ih =>
    obtain ⟨⟨j, bm'⟩, eq, holds', same, stepped⟩ := holds.getNextIndex index
    rw [UtilBitmask.visit, eq, Option.bind_some]
    dsimp only at holds' same stepped ⊢
    cases stepped with
    | next least =>
      have le_j := least.1.2
      have lt := holds.lt_size least.1.1
      have size_le := holds.size_le
      have le' : j + 1 ≤ bm'.size := by omega
      obtain ⟨l, visited, sorted, mem⟩ := ih holds' le' (by omega)
      rw [if_neg (by unfold invalidIndex; omega), visited]
      refine ⟨j :: l, rfl, List.pairwise_cons.mpr ⟨fun i h => ((mem i).mp h).2, sorted⟩, ?_⟩
      intro i
      rw [List.mem_cons, mem]
      constructor
      · rintro (rfl | ⟨h, hle⟩)
        · exact least.1
        · exact ⟨h, by omega⟩
      · intro h
        have := least.2 h
        rcases Nat.eq_or_lt_of_le this with heq | hlt
        · exact .inl heq.symm
        · exact .inr ⟨h.1, hlt⟩
    | next_none none =>
      refine ⟨[], if_pos rfl, List.Pairwise.nil, ?_⟩
      intro i
      constructor
      · intro h
        cases h
      · rintro ⟨h, hle⟩
        exact absurd (none i h) (by omega)

/-- After any calls the loop visits the indices that are set, each once, in increasing order. -/
theorem visit_run {ops : List BitmaskOp} (small : ∀ op ∈ ops, op.Small) :
  ∃ replies bm l, create.run ops = some (replies, bm) ∧ bm.visit (bm.size + 1) 0 = some l ∧
    l.Pairwise (· < ·) ∧ ∀ i, i ∈ l ↔ Bitset.test bm.words i = true
  := by
  obtain ⟨r, s, ran, holds, -⟩ := holds_create.run small
  obtain ⟨l, visited, sorted, mem⟩ := holds.visit (Nat.zero_le _) (Nat.lt_succ_self _)
  refine ⟨r.1, r.2, l, ran, visited, sorted, ?_⟩
  intro i
  rw [mem, holds.mem_iff]
  exact and_iff_left (Nat.zero_le i)

theorem visit_run_set :
  ∃ replies bm l, create.run [.set true 600] = some (replies, bm) ∧
    bm.visit (bm.size + 1) 0 = some l ∧
    l.Pairwise (· < ·) ∧ ∀ i, i ∈ l ↔ Bitset.test bm.words i = true
  := by
  apply visit_run
  intro op mem
  rw [List.mem_singleton.mp mem]
  simp [BitmaskOp.Small]

end UtilBitmask

end Gallium
