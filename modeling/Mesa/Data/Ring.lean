import Mathlib.Data.Int.ModEq
import Mathlib.Data.List.Nodup
import Mathlib.Data.List.ReduceOption
import Mathlib.Data.Multiset.Basic

/-!
# Ring buffers

A ring buffer holds a list in some of the slots of an array: `num` slots from `read` on, where the
slot after the last one is the first one.  Taking an element away at the front, putting one in at the
end and clearing one in between do to the list what they say.
-/

namespace Ring

variable {α : Type} {max : ℕ}

/-- The slot that comes the given number of places after another one. -/
def index (max read i : ℕ) : ℕ := (read + i) % max

/-- The list that a ring buffer holds. -/
def window (max : ℕ) (slots : ℕ → α) (read num : ℕ) : List α :=
  (List.range num).map fun i => slots (index max read i)

@[simp]
theorem length_window (slots : ℕ → α) (read num : ℕ) :
  (window max slots read num).length = num
  := by
  simp [window]

theorem index_lt (h : 0 < max) (read i : ℕ) :
  index max read i < max
  := Nat.mod_lt _ h

theorem index_zero {read : ℕ} (h : read < max) :
  index max read 0 = read
  := Nat.mod_eq_of_lt h

theorem index_max {read : ℕ} (h : read < max) :
  index max read max = read
  := by
  rw [index, Nat.add_mod_right, Nat.mod_eq_of_lt h]

theorem index_succ (max read i : ℕ) :
  (index max read i + 1) % max = index max read (i + 1)
  := by
  rw [index, index, Nat.mod_add_mod, Nat.add_assoc]

theorem index_next (max read i : ℕ) :
  index max ((read + 1) % max) i = index max read (i + 1)
  := by
  rw [index, index, Nat.mod_add_mod, Nat.add_right_comm, Nat.add_assoc]

/-- Places that are less than a round apart are different slots. -/
theorem index_inj {read i j : ℕ} (hi : i < max) (hj : j < max)
    (h : index max read i = index max read j) :
  i = j
  := by
  rw [index, index] at h
  have hi' := Nat.mod_eq_of_lt hi
  have hj' := Nat.mod_eq_of_lt hj
  have cancel : i ≡ j [MOD max] := Nat.ModEq.add_left_cancel' read h
  rw [Nat.ModEq, hi', hj'] at cancel
  exact cancel

theorem window_congr {slots slots' : ℕ → α} {read num : ℕ}
    (h : ∀ i < num, slots (index max read i) = slots' (index max read i)) :
  window max slots read num = window max slots' read num
  := by
  apply List.map_congr_left
  intro i mem
  exact h i (List.mem_range.1 mem)

/-- An element is put in at the end. -/
theorem window_push {slots : ℕ → α} {read num : ℕ} (room : num < max) (x : α) :
  window max (Function.update slots (index max read num) x) read (num + 1)
    = window max slots read num ++ [x]
  := by
  rw [window, List.range_succ, List.map_append, List.map_singleton, Function.update_self]
  congr 1
  apply window_congr
  intro i hi
  rw [Function.update_of_ne]
  intro same
  have := index_inj (by omega) room same
  omega

/-- The first element is taken away. -/
theorem window_pop {slots : ℕ → α} {read num : ℕ} (hread : read < max) (fits : num + 1 ≤ max)
    (x : α) :
  window max slots read (num + 1)
    = slots read :: window max (Function.update slots read x) ((read + 1) % max) num
  := by
  rw [window, List.range_succ_eq_map, List.map_cons, index_zero hread, List.map_map]
  congr 1
  apply List.map_congr_left
  intro i mem
  have hi := List.mem_range.1 mem
  rw [index_next, Function.update_of_ne]
  · rfl
  · intro same
    have zero : index max read (i + 1) = index max read 0 := by rw [same, index_zero hread]
    have := index_inj (by omega) (by omega) zero
    omega

/-- An element in between is replaced. -/
theorem window_set {slots : ℕ → α} {read num k : ℕ} (hk : k < num) (fits : num ≤ max) (x : α) :
  window max (Function.update slots (index max read k) x) read num
    = (window max slots read num).set k x
  := by
  apply List.ext_getElem?
  intro i
  rw [List.getElem?_set, length_window, window, window, List.getElem?_map, List.getElem?_map]
  rcases Nat.lt_or_ge i num with hi | hi
  · rw [List.getElem?_range hi]
    split
    · rename_i same
      subst same
      simp [Function.update_self]
    · rename_i other
      simp only [Option.map_some]
      rw [Function.update_of_ne]
      intro same
      exact other (index_inj (by omega) (by omega) same).symm
  · rw [if_neg (by omega), List.getElem?_eq_none (by simpa using hi)]
    rfl

/-! ### Empty entries -/

/-- An entry that is cleared leaves the list without changing the order of the others. -/
theorem reduceOption_set_none {l : List (Option α)} {k : ℕ} {x : α} (h : l[k]? = some (some x)) :
  (l.set k none).reduceOption.Sublist l.reduceOption ∧
    (l.reduceOption : Multiset α) = x ::ₘ ((l.set k none).reduceOption : Multiset α)
  := by
  obtain ⟨hk, hx⟩ := List.getElem?_eq_some_iff.1 h
  have split : l = l.take k ++ some x :: l.drop (k + 1) := by
    rw [← hx, List.getElem_cons_drop, List.take_append_drop]
  have whole : l.reduceOption
      = (l.take k).reduceOption ++ x :: (l.drop (k + 1)).reduceOption := by
    conv_lhs => rw [split]
    rw [List.reduceOption_append, List.reduceOption_cons_of_some]
  have cleared : (l.set k none).reduceOption
      = (l.take k).reduceOption ++ (l.drop (k + 1)).reduceOption := by
    rw [List.set_eq_take_append_cons_drop, if_pos hk, List.reduceOption_append,
      List.reduceOption_cons_of_none]
  rw [whole, cleared]
  constructor
  · apply List.Sublist.append_left
    apply List.sublist_cons_self
  · apply Multiset.coe_eq_coe.2
    exact List.perm_middle

/-! ### Loops over the slots -/

/-- The slots that `for (i = read; i != write; i = (i + 1) % max)` comes to. -/
def scan (max write : ℕ) : ℕ → ℕ → List ℕ
  | 0, _ => []
  | fuel + 1, i => if i = write then [] else i :: scan max write fuel ((i + 1) % max)

/-- The slots that the loop comes to whose condition is checked at the end of each round. -/
def scanOnce (max write : ℕ) : ℕ → ℕ → List ℕ
  | 0, _ => []
  | fuel + 1, i =>
    i :: if (i + 1) % max = write then [] else scanOnce max write fuel ((i + 1) % max)

/-- The loop comes to all slots of the list, where the buffer is not full. -/
theorem scan_eq {read num : ℕ} (notFull : num < max) {fuel k : ℕ} (hk : k ≤ num)
    (enough : num ≤ fuel + k) :
  scan max (index max read num) fuel (index max read k)
    = (List.range' k (num - k)).map (index max read)
  := by
  induction fuel generalizing k with
  | zero =>
    rw [show num - k = 0 by omega]
    rfl
  | succ fuel ih =>
    rw [scan]
    split
    · rename_i atEnd
      have := index_inj (by omega) notFull atEnd
      rw [show num - k = 0 by omega]
      rfl
    · rename_i inside
      have before : k < num := by
        rcases Nat.eq_or_lt_of_le hk with rfl | h
        · exact absurd rfl inside
        · exact h
      rw [index_succ, ih (by omega) (by omega), show num - k = num - (k + 1) + 1 by omega,
        List.range'_succ, List.map_cons]

theorem scan_eq_map_index {read num : ℕ} (hread : read < max) (notFull : num < max) :
  scan max (index max read num) max read = (List.range num).map (index max read)
  := by
  have all := @scan_eq max read num notFull max 0 (Nat.zero_le num) (by omega)
  rw [index_zero hread, Nat.sub_zero, ← List.range_eq_range'] at all
  exact all

theorem nodup_map_index (read : ℕ) {num : ℕ} (fits : num ≤ max) :
  ((List.range num).map (index max read)).Nodup
  := by
  apply List.Nodup.map_on
  · intro i hi j hj same
    have hi' := List.mem_range.1 hi
    have hj' := List.mem_range.1 hj
    exact index_inj (by omega) (by omega) same
  · exact List.nodup_range

/-- The loop comes to no slot where the buffer is full: it looks as if it were empty. -/
theorem scan_full {read : ℕ} (hread : read < max) (fuel : ℕ) :
  scan max (index max read max) fuel read = []
  := by
  cases fuel with
  | zero => rfl
  | succ fuel => rw [scan, if_pos (index_max hread).symm]

/-- The loop that checks its condition later comes to all slots of a buffer that is full. -/
theorem scanOnce_eq {read : ℕ} (hread : read < max) {fuel k : ℕ} (hk : k < max)
    (enough : max ≤ fuel + k) :
  scanOnce max read fuel (index max read k) = (List.range' k (max - k)).map (index max read)
  := by
  induction fuel generalizing k with
  | zero => omega
  | succ fuel ih =>
    rw [scanOnce, index_succ, show max - k = max - (k + 1) + 1 by omega, List.range'_succ,
      List.map_cons]
    congr 1
    split
    · rename_i back
      rcases Nat.lt_or_ge (k + 1) max with inside | last
      · have := index_inj inside (by omega) (back.trans (index_zero hread).symm)
        omega
      · rw [show max - (k + 1) = 0 by omega]
        rfl
    · rename_i goOn
      have inside : k + 1 < max := by
        by_contra last
        apply goOn
        rw [show k + 1 = max by omega, index_max hread]
      exact ih inside (by omega)

theorem scanOnce_eq_map_index {read : ℕ} (hread : read < max) :
  scanOnce max (index max read max) max read = (List.range max).map (index max read)
  := by
  have all := @scanOnce_eq max read hread max 0 (by omega) (by omega)
  rw [index_zero hread, Nat.sub_zero, ← List.range_eq_range'] at all
  rw [index_max hread, all]

/-! ### Copies -/

/-- An array with `n` slots from `d` on that are those of another array from `s` on. -/
def copy (dst : ℕ → α) (d : ℕ) (src : ℕ → α) (s n : ℕ) : ℕ → α :=
  fun p => if d ≤ p ∧ p < d + n then src (s + (p - d)) else dst p

theorem copy_of_lt (dst : ℕ → α) (d : ℕ) (src : ℕ → α) (s : ℕ) {n i : ℕ} (h : i < n) :
  copy dst d src s n (d + i) = src (s + i)
  := by
  rw [copy, if_pos ⟨Nat.le_add_right d i, Nat.add_lt_add_left h d⟩, Nat.add_sub_cancel_left]

/-- Slots that are next to each other, before the end of the array. -/
theorem index_eq_add {read i : ℕ} (h : read % max + i < max) :
  index max read i = read % max + i
  := by
  rw [index, ← Nat.mod_add_mod, Nat.mod_eq_of_lt h]

theorem index_add (max read m i : ℕ) :
  index max (read + m) i = index max read (m + i)
  := by
  rw [index, index, Nat.add_assoc]

/-- There is room for a block at every place that is aligned. -/
theorem mod_add_le_of_dvd {e read : ℕ} (hmax : 0 < max) (hread : e ∣ read) (he : e ∣ max) :
  read % max + e ≤ max
  := by
  obtain ⟨k, hk⟩ := (Nat.dvd_mod_iff he).mpr hread
  obtain ⟨n, rfl⟩ := he
  have hlt := Nat.mod_lt read hmax
  rw [hk] at hlt ⊢
  have hkn : k + 1 ≤ n := Nat.lt_of_mul_lt_mul_left hlt
  calc
    e * k + e = e * (k + 1) := (Nat.mul_succ e k).symm
    _ ≤ e * n := Nat.mul_le_mul_left e hkn

/-- The list of several blocks. -/
theorem window_add (slots : ℕ → α) (read m n : ℕ) :
  window max slots read (m + n) = window max slots read m ++ window max slots (read + m) n
  := by
  rw [window, List.range_add, List.map_append, List.map_map]
  congr 1
  apply List.map_congr_left
  intro i _
  simp only [Function.comp_apply, index, Nat.add_assoc]

/-- A block is put in at the end. -/
theorem window_copy {slots src : ℕ → α} {read num n : ℕ} (room : num + n ≤ max)
    (hend : (read + num) % max + n ≤ max) :
  window max (copy slots ((read + num) % max) src 0 n) read (num + n) =
    window max slots read num ++ (List.range n).map src
  := by
  have hidx : ∀ i < n, index max (read + num) i = (read + num) % max + i := by
    intro i hi
    apply index_eq_add
    omega
  rw [window_add]
  congr 1
  · apply window_congr
    intro i hi
    apply if_neg
    rintro ⟨hle, hlt⟩
    have heq : index max read i =
        index max read (num + (index max read i - (read + num) % max)) := by
      rw [← index_add, hidx _ (by omega), Nat.add_sub_cancel' hle]
    have hne := index_inj (by omega) (by omega) heq
    omega
  · apply List.map_congr_left
    intro i mem
    have hi := List.mem_range.1 mem
    rw [hidx i hi, copy_of_lt _ _ _ _ hi, Nat.zero_add]

/-! ### Growing -/

/-- A full ring that begins at the start of its array is copied to a ring of twice the size. -/
theorem window_grow_linear {slots new : ℕ → α} {read : ℕ} (hmax : 0 < max)
    (hread : read % max = 0) :
  window (2 * max) (copy new (read % (2 * max)) slots 0 max) read max = window max slots read max
  := by
  have hroom : read % (2 * max) + max ≤ 2 * max :=
    mod_add_le_of_dvd (by omega) (Nat.dvd_of_mod_eq_zero hread) (Nat.dvd_mul_left max 2)
  apply List.map_congr_left
  intro i mem
  have hi := List.mem_range.1 mem
  rw [index_eq_add (show read % (2 * max) + i < 2 * max by omega),
    index_eq_add (show read % max + i < max by omega), copy_of_lt _ _ _ _ hi, hread]

/-- The end of the array is at a multiple of its size. -/
theorem dvd_add_sub_mod {read : ℕ} (hmax : 0 < max) :
  max ∣ read + (max - read % max)
  := by
  have hlt := Nat.mod_lt read hmax
  have hle : read % max ≤ read := Nat.mod_le read max
  have heq : read + (max - read % max) = read - read % max + max := by omega
  rw [heq]
  exact Nat.dvd_add (Nat.dvd_sub_mod read) (dvd_refl max)

/-- What is before the end of an array stays before the end of one of twice the size. -/
theorem mod_two_mul_add_le {read : ℕ} (hmax : 0 < max) :
  read % (2 * max) + (max - read % max) ≤ 2 * max
  := by
  have hlt := Nat.mod_lt read hmax
  have hmod : read % (2 * max) % max = read % max :=
    Nat.mod_mod_of_dvd read (Nat.dvd_mul_left max 2)
  have hlt₂ := Nat.mod_lt read (show 0 < 2 * max by omega)
  rcases Nat.lt_or_ge (read % (2 * max)) max with hsmall | hlarge
  · omega
  · rw [Nat.mod_eq_sub_mod hlarge, Nat.mod_eq_of_lt (by omega)] at hmod
    omega

/-- A full ring is copied in two parts to a ring of twice the size: from its start up to the end of
the array, and from the start of the array on. -/
theorem window_grow_split {slots new : ℕ → α} {read : ℕ} (hmax : 0 < max) :
  window (2 * max)
      (copy (copy new (read % (2 * max)) slots (read % max) (max - read % max))
        ((read + (max - read % max)) % (2 * max)) slots 0 (read % max)) read max =
    window max slots read max
  := by
  have hlt := Nat.mod_lt read hmax
  have hsplit : max ∣ read + (max - read % max) := dvd_add_sub_mod hmax
  have hroom : (read + (max - read % max)) % (2 * max) + max ≤ 2 * max :=
    mod_add_le_of_dvd (by omega) hsplit (Nat.dvd_mul_left max 2)
  have hfirst : read % (2 * max) + (max - read % max) ≤ 2 * max := mod_two_mul_add_le hmax
  apply List.map_congr_left
  intro i mem
  have hi := List.mem_range.1 mem
  rcases Nat.lt_or_ge i (max - read % max) with hpart | hpart
  · -- the first part, which the second copy leaves as it is
    have hpos : index (2 * max) read i = read % (2 * max) + i := by
      apply index_eq_add
      omega
    rw [index_eq_add (show read % max + i < max by omega), copy, if_neg, hpos,
      copy_of_lt _ _ _ _ hpart]
    rintro ⟨hle, hin⟩
    have hsame : index (2 * max) read i = index (2 * max) read (max - read % max +
        (index (2 * max) read i - (read + (max - read % max)) % (2 * max))) := by
      have hback := @index_eq_add (2 * max) (read + (max - read % max))
        (index (2 * max) read i - (read + (max - read % max)) % (2 * max)) (by omega)
      rw [← index_add, hback, Nat.add_sub_cancel' hle]
    have hne := index_inj (by omega) (by omega) hsame
    omega
  · -- the second part
    have hpos : index (2 * max) read i =
        (read + (max - read % max)) % (2 * max) + (i - (max - read % max)) := by
      rw [← index_eq_add (by omega)]
      unfold index
      congr 1
      omega
    have hpos' : index max read i = i - (max - read % max) := by
      have hzero : (read + (max - read % max)) % max = 0 := Nat.mod_eq_zero_of_dvd hsplit
      have hadd := @index_eq_add max (read + (max - read % max)) (i - (max - read % max))
        (by omega)
      rw [hzero, Nat.zero_add] at hadd
      rw [← hadd]
      unfold index
      congr 1
      omega
    rw [hpos, hpos', copy_of_lt _ _ _ _ (by omega), Nat.zero_add]

end Ring
