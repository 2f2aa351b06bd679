import Mesa.Util.StringBuffer
import Mathlib.Data.List.GetD

/-!
# Runs of string buffers

The buffer holds the strings that have been appended, and the null character after them, unless the
memory that a call needs is not there, the capacity cannot be reached by doubling, the length of a
string is the largest number, or a text that is printed is so long that the length would wrap around.
-/

namespace Util

namespace StringBuffer

/-! ### The loop that doubles the capacity -/

/-- The capacity that the loop comes to is the first one that is enough. -/
def Doubles (needed capacity n : ℕ) : Prop :=
  ∃ k, n = capacity * 2 ^ (k + 1) % 2 ^ 32 ∧ needed ≤ n ∧
    ∀ j < k, capacity * 2 ^ (j + 1) % 2 ^ 32 < needed

theorem double_mod (capacity k : ℕ) :
  capacity * 2 ^ k % 2 ^ 32 * 2 % 2 ^ 32 = capacity * 2 ^ (k + 1) % 2 ^ 32
  := by
  rw [Nat.mod_mul_mod, Nat.mul_assoc, ← Nat.pow_succ]

theorem doubleLoop_eq_some_iff {needed capacity fuel k n : ℕ} :
  doubleLoop needed fuel (capacity * 2 ^ k % 2 ^ 32) = some n ↔
    ∃ j < fuel, n = capacity * 2 ^ (k + j) % 2 ^ 32 ∧ needed ≤ n ∧
      ∀ i < j, capacity * 2 ^ (k + i) % 2 ^ 32 < needed
  := by
  induction fuel generalizing k with
  | zero => simp [doubleLoop]
  | succ fuel ih =>
    rw [doubleLoop]
    by_cases hsmall : needed > capacity * 2 ^ k % 2 ^ 32
    · rw [if_pos hsmall, double_mod, ih]
      constructor
      · rintro ⟨j, hj, hn, hle, hmin⟩
        refine ⟨j + 1, by omega, ?_, hle, ?_⟩
        · rw [hn, Nat.add_right_comm, Nat.add_assoc]
        · intro i hi
          cases i with
          | zero => exact hsmall
          | succ i =>
            have hlt := hmin i (by omega)
            rwa [Nat.add_right_comm, Nat.add_assoc] at hlt
      · rintro ⟨j, hj, hn, hle, hmin⟩
        cases j with
        | zero =>
          rw [Nat.add_zero] at hn
          omega
        | succ j =>
          refine ⟨j, by omega, ?_, hle, ?_⟩
          · rw [hn, Nat.add_right_comm, Nat.add_assoc]
          · intro i hi
            have hlt := hmin (i + 1) (by omega)
            rwa [Nat.add_right_comm, Nat.add_assoc]
    · rw [if_neg hsmall]
      constructor
      · intro heq
        obtain rfl := Option.some.inj heq
        refine ⟨0, by omega, rfl, by omega, ?_⟩
        intro i hi
        exact absurd hi (Nat.not_lt_zero i)
      · rintro ⟨j, hj, hn, hle, hmin⟩
        cases j with
        | zero => rw [hn, Nat.add_zero]
        | succ j => exact absurd (hmin 0 (Nat.succ_pos j)) (by simpa using hsmall)

/-- A number that has been doubled often enough is 0. -/
theorem double_eq_zero (capacity : ℕ) {k : ℕ} (hk : 32 ≤ k) :
  capacity * 2 ^ k % 2 ^ 32 = 0
  := by
  apply Nat.mod_eq_zero_of_dvd
  exact Nat.dvd_mul_left_of_dvd (Nat.pow_dvd_pow 2 hk) capacity

theorem doubles_iff {needed capacity n : ℕ} (hneeded : 0 < needed) :
  doubleLoop needed 32 (capacity * 2 % 2 ^ 32) = some n ↔ Doubles needed capacity n
  := by
  have hloop := @doubleLoop_eq_some_iff needed capacity 32 1 n
  rw [Nat.pow_one] at hloop
  rw [hloop]
  constructor
  · rintro ⟨j, -, hn, hle, hmin⟩
    refine ⟨j, ?_, hle, ?_⟩
    · rw [hn, Nat.add_comm]
    · intro i hi
      have hlt := hmin i hi
      rwa [Nat.add_comm 1 i] at hlt
  · rintro ⟨j, hn, hle, hmin⟩
    have hj : j < 32 := by
      by_contra hge
      have hzero := double_eq_zero capacity (show 32 ≤ j + 1 by omega)
      omega
    refine ⟨j, hj, ?_, hle, ?_⟩
    · rw [hn, Nat.add_comm]
    · intro i hi
      have hlt := hmin i hi
      rwa [Nat.add_comm 1 i]

/-- The loop that has not ended after 32 rounds never ends. -/
theorem doubleLoop_endless {needed capacity : ℕ} (hneeded : 0 < needed)
    (h : doubleLoop needed 32 (capacity * 2 % 2 ^ 32) = none) (fuel : ℕ) :
  doubleLoop needed fuel (capacity * 2 % 2 ^ 32) = none
  := by
  have hloop := fun n fuel => @doubleLoop_eq_some_iff needed capacity fuel 1 n
  simp only [Nat.pow_one] at hloop
  cases hfuel : doubleLoop needed fuel (capacity * 2 % 2 ^ 32) with
  | none => rfl
  | some n =>
    obtain ⟨j, -, hn, hle, hmin⟩ := (hloop n fuel).mp hfuel
    have hj : j < 32 := by
      by_contra hge
      have hzero := double_eq_zero capacity (show 32 ≤ 1 + j by omega)
      omega
    rw [(hloop n 32).mpr ⟨j, hj, hn, hle, hmin⟩] at h
    exact absurd h (Option.some_ne_none n)

/-! ### Contents -/

/-- The buffer begins with a string. -/
structure Keeps (str : StringBuffer) (s : List UInt8) : Prop where
  length_eq : str.length = s.length
  fits : s.length < str.capacity
  capacity_lt : str.capacity < 2 ^ 32
  contents : ∃ b, str.buf = some b ∧ ∀ i (hi : i < s.length), b i = s[i]

/-- The buffer holds a string and the null character after it. -/
structure Holds (str : StringBuffer) (s : List UInt8) : Prop extends Keeps str s where
  terminated : ∀ b, str.buf = some b → b s.length = 0

theorem put_of_lt {b : ℕ → UInt8} {place i : ℕ} {text : List UInt8} (h : i < place) :
  put b place text i = b i
  := by
  rw [put, if_neg (by omega)]

theorem put_add {b : ℕ → UInt8} {place i : ℕ} {text : List UInt8} (h : i < text.length) :
  put b place text (place + i) = text[i]
  := by
  rw [put, if_pos (Nat.le_add_right place i), Nat.add_sub_cancel_left, List.getD_eq_getElem _ _ h]

/-- A text comes after a string. -/
theorem getElem_append_of {b c : ℕ → UInt8} {s text : List UInt8}
    (hs : ∀ i (hi : i < s.length), b i = s[i]) (hold : ∀ i < s.length, c i = b i)
    (hnew : ∀ i (hi : i < text.length), c (s.length + i) = text[i]) (i : ℕ)
    (hi : i < (s ++ text).length) :
  c i = (s ++ text)[i]
  := by
  rcases Nat.lt_or_ge i s.length with hlt | hge
  · rw [List.getElem_append_left hlt, hold i hlt, hs i hlt]
  · obtain ⟨j, rfl⟩ := Nat.exists_eq_add_of_le hge
    rw [List.length_append] at hi
    rw [List.getElem_append_right hge, hnew j (by omega)]
    congr 1
    omega

/-- The new buffer is one that holds a text at its end. -/
theorem Keeps.holds_append {str : StringBuffer} {s : List UInt8} (h : Keeps str s)
    {b c : ℕ → UInt8} (hb : str.buf = some b) {text : List UInt8}
    (hold : ∀ i < s.length, c i = b i)
    (hnew : ∀ i (hi : i < text.length), c (s.length + i) = text[i])
    (hnull : c (s.length + text.length) = 0) (hfits : s.length + text.length < str.capacity) :
  Holds { str with buf := some c, length := s.length + text.length } (s ++ text)
  := by
  obtain ⟨b', hb', hs⟩ := h.contents
  obtain rfl := Option.some.inj (hb.symm.trans hb')
  refine ⟨⟨?_, ?_, h.capacity_lt, c, rfl, getElem_append_of hs hold hnew⟩, ?_⟩
  · rw [List.length_append]
  · rw [List.length_append]
    exact hfits
  · intro d hd
    obtain rfl := Option.some.inj hd
    rw [List.length_append]
    exact hnull

/-! ### Growing -/

/-- The capacity is enough or can be made so. -/
def CanGrow (str : StringBuffer) (needed : ℕ) (alloc : Alloc) : Prop :=
  needed ≤ str.capacity ∨ ∃ n, Doubles needed str.capacity n ∧ (alloc n).isSome

theorem Keeps.ensureCapacity {str : StringBuffer} {s : List UInt8} (h : Keeps str s) {needed : ℕ}
    {alloc : Alloc} (hpos : 0 < needed) (hgrow : CanGrow str needed alloc) :
  ∃ str', str.ensureCapacity needed alloc = .ok (true, str') ∧ Keeps str' s ∧
    needed ≤ str'.capacity
  := by
  by_cases hle : needed ≤ str.capacity
  · refine ⟨str, ?_, h, hle⟩
    rw [StringBuffer.ensureCapacity, if_pos hle]
  · obtain ⟨n, hn, hsome⟩ := hgrow.resolve_left hle
    obtain ⟨fresh, hfresh⟩ := Option.isSome_iff_exists.mp hsome
    obtain ⟨b, hb, hs⟩ := h.contents
    have hloop := (doubles_iff hpos).mpr hn
    obtain ⟨k, hk, hneeded, -⟩ := hn
    have hfits := h.fits
    refine ⟨{ str with
      buf := some fun i => if i < str.capacity then b i else fresh i
      capacity := n }, ?_, ⟨h.length_eq, ?_, ?_, _, rfl, ?_⟩, hneeded⟩
    · rw [StringBuffer.ensureCapacity, if_neg hle]
      simp only [hloop, reralloc, hfresh, hb, Option.map_some]
    · simp only
      omega
    · rw [hk]
      exact Nat.mod_lt _ (Nat.two_pow_pos 32)
    · intro i hi
      rw [if_pos (by omega), hs i hi]

/-- The loop does not end, or the buffer is lost. -/
theorem ensureCapacity_of_not {str : StringBuffer} {needed : ℕ} {alloc : Alloc}
    (hpos : 0 < needed) (hgrow : ¬CanGrow str needed alloc) :
  str.ensureCapacity needed alloc = .error .endless ∨
    str.ensureCapacity needed alloc = .ok (false, { str with buf := none })
  := by
  rw [CanGrow, not_or, not_exists] at hgrow
  obtain ⟨hle, hgrow⟩ := hgrow
  rw [StringBuffer.ensureCapacity, if_neg hle]
  cases hloop : doubleLoop needed 32 (str.capacity * 2 % 2 ^ 32) with
  | none => exact Or.inl rfl
  | some n =>
    have hn := (doubles_iff hpos).mp hloop
    have hnone : alloc n = none := by
      cases hm : alloc n with
      | none => rfl
      | some fresh => exact absurd ⟨hn, by rw [hm, Option.isSome_some]⟩ (hgrow n)
    right
    simp only [reralloc, hnone, Option.map_none]

/-! ### Appending -/

theorem Keeps.writeLen {str : StringBuffer} {s : List UInt8} (h : Keeps str s) {c : List UInt8}
    {len : ℕ} (hlen : len ≤ c.length) (hfits : s.length + len < str.capacity) :
  ∃ str', str.writeLen c len = .ok (true, str') ∧ Holds str' (s ++ c.take len)
  := by
  obtain ⟨b, hb, -⟩ := h.contents
  have hlt := h.capacity_lt
  have hmod : (str.length + len) % 2 ^ 32 = s.length + len := by
    rw [h.length_eq]
    apply Nat.mod_eq_of_lt
    omega
  have htake : (c.take len).length = len := List.length_take_of_le hlen
  have hput : ∀ i < s.length + len,
      put (put b s.length (c.take len)) (s.length + len) [0] i = put b s.length (c.take len) i :=
    fun i hi => put_of_lt hi
  have hholds := @Keeps.holds_append str s h b
    (put (put b s.length (c.take len)) (s.length + len) [0]) hb (c.take len)
    (fun i hi => by rw [hput i (by omega), put_of_lt hi])
    (fun i hi => by rw [hput _ (by omega), put_add hi])
    (by rw [htake]; exact @put_add _ _ 0 [0] Nat.one_pos)
    (by omega)
  refine ⟨_, ?_, hholds⟩
  rw [StringBuffer.writeLen]
  simp only [hb, hmod]
  rw [if_pos ⟨by rw [h.length_eq]; omega, hlen, by omega⟩, h.length_eq, htake]

/-- The result is that of a text that is appended, or of one that is not. -/
def Appends (r : Except Fault (Bool × StringBuffer)) (s text : List UInt8) : Prop :=
  ∃ out str, r = .ok (out, str) ∧ Holds str (if out then s ++ text else s)

/-- The length is not the largest number, and the capacity can be made enough if the length does not
wrap around. -/
def SafeLen (str : StringBuffer) (len : ℕ) (alloc : Alloc) : Prop :=
  len + 1 ≠ 2 ^ 32 ∧
    (str.length + len + 1 < 2 ^ 32 → CanGrow str (str.length + len + 1) alloc)

/-- The program ends, or the buffer is lost. -/
def Lost (r : Except Fault (Bool × StringBuffer)) : Prop :=
  (∃ e, r = .error e) ∨ ∃ str, r = .ok (false, str) ∧ str.buf = none

theorem Lost.not_holds {r : Except Fault (Bool × StringBuffer)} (h : Lost r) {out : Bool}
    {str : StringBuffer} (hr : r = .ok (out, str)) (s : List UInt8) :
  ¬Holds str s
  := by
  intro hholds
  obtain ⟨b, hb, -⟩ := hholds.contents
  rcases h with ⟨e, rfl⟩ | ⟨str', rfl, hnone⟩
  · cases hr
  · cases hr
    rw [hnone] at hb
    exact absurd hb.symm (Option.some_ne_none b)

theorem Lost.not_appends {r : Except Fault (Bool × StringBuffer)} (h : Lost r)
    (s text : List UInt8) :
  ¬Appends r s text
  := by
  rintro ⟨out, str, hr, hholds⟩
  exact h.not_holds hr _ hholds

/-- A string of the largest length is written outside of the buffer. -/
theorem Holds.appendLen_max {str : StringBuffer} {s : List UInt8} (h : Holds str s)
    (c : List UInt8) {len : ℕ} (hlen : len + 1 = 2 ^ 32) (alloc : Alloc) :
  str.appendLen c len alloc = .error .outside
  := by
  obtain ⟨b, hb, -⟩ := h.contents
  have hlength := h.length_eq
  have hfits := h.fits
  have hlt := h.capacity_lt
  have hneeded : (str.length + len + 1) % 2 ^ 32 = str.length := by omega
  rw [StringBuffer.appendLen]
  simp only [hneeded, Nat.lt_irrefl, if_false]
  rw [StringBuffer.ensureCapacity, if_pos (by omega)]
  simp only [bind, Except.bind, if_true]
  rw [StringBuffer.writeLen]
  simp only [hb]
  rw [if_neg]
  rintro ⟨hle, -, hlt'⟩
  have hmod : (str.length + len) % 2 ^ 32 = str.length + len := Nat.mod_eq_of_lt (by omega)
  omega

/-- A string is appended, or nothing is changed, where the call is safe. -/
theorem Holds.appendLen {str : StringBuffer} {s : List UInt8} (h : Holds str s)
    {c : List UInt8} {len : ℕ} (hlen : len ≤ c.length) (hlt : len < 2 ^ 32) {alloc : Alloc}
    (hsafe : SafeLen str len alloc) :
  Appends (str.appendLen c len alloc) s (c.take len)
  := by
  obtain ⟨hmax, hgrow⟩ := hsafe
  have hlength := h.length_eq
  by_cases hover : str.length + len + 1 < 2 ^ 32
  · obtain ⟨str₁, hensure, hkeeps, hneeded⟩ :=
      h.toKeeps.ensureCapacity (Nat.succ_pos _) (hgrow hover)
    obtain ⟨str', hwrite, hholds⟩ := hkeeps.writeLen hlen (by omega)
    refine ⟨true, str', ?_, hholds⟩
    rw [StringBuffer.appendLen, Nat.mod_eq_of_lt hover]
    simp only [hensure, bind, Except.bind, if_true]
    rw [if_neg (by omega), hwrite]
  · have hfits := h.fits
    have hcapacity := h.capacity_lt
    refine ⟨false, str, ?_, h⟩
    rw [StringBuffer.appendLen]
    exact if_pos (by omega)

/-- The string is lost where the call is not safe. -/
theorem Holds.lost_of_not_safe {str : StringBuffer} {s : List UInt8} (h : Holds str s)
    (c : List UInt8) {len : ℕ} {alloc : Alloc} (hbad : ¬SafeLen str len alloc) :
  Lost (str.appendLen c len alloc)
  := by
  rw [SafeLen, not_and_or, not_not, Classical.not_imp] at hbad
  rcases hbad with hmax | ⟨hover, hgrow⟩
  · exact Or.inl ⟨.outside, h.appendLen_max c hmax alloc⟩
  · rw [StringBuffer.appendLen, Nat.mod_eq_of_lt hover, if_neg (by omega)]
    rcases ensureCapacity_of_not (Nat.succ_pos _) hgrow with hensure | hensure
    · rw [hensure]
      exact Or.inl ⟨.endless, rfl⟩
    · rw [hensure]
      exact Or.inr ⟨_, rfl, rfl⟩

/-! ### Printing -/

/-- What `vsnprintf` does at the end of the buffer. -/
theorem Keeps.vsnprintf {str : StringBuffer} {s : List UInt8} (h : Keeps str s)
    {b : ℕ → UInt8} (hb : str.buf = some b) (printed : Printed) :
  let spaceLeft := (str.capacity + 2 ^ 32 - str.length) % 2 ^ 32
  let c := put b s.length (printed.written (str.capacity - s.length))
  spaceLeft = str.capacity - s.length ∧
    str.vsnprintf spaceLeft printed = .ok { str with buf := some c } ∧
    Keeps { str with buf := some c } s
  := by
  have hfits := h.fits
  have hlt := h.capacity_lt
  have hlength := h.length_eq
  have hspace : (str.capacity + 2 ^ 32 - str.length) % 2 ^ 32 = str.capacity - s.length := by
    omega
  have hwritten : (printed.written (str.capacity - s.length)).length ≤
      str.capacity - s.length := by
    cases printed with
    | text out =>
      rw [Printed.written, if_neg (by omega), List.length_append, List.length_singleton]
      have hle := List.length_take_le (str.capacity - s.length - 1) out
      omega
    | error written => exact List.length_take_le _ _
  obtain ⟨b', hb', hs⟩ := h.contents
  obtain rfl := Option.some.inj (hb.symm.trans hb')
  refine ⟨hspace, ?_, h.length_eq, h.fits, h.capacity_lt, _, rfl, ?_⟩
  · rw [StringBuffer.vsnprintf]
    simp only [hb, hspace]
    rw [if_pos (by omega), hlength]
  · intro i hi
    rw [put_of_lt hi, hs i hi]

/-- The character after the string. -/
theorem put_self {b : ℕ → UInt8} {place : ℕ} (text : List UInt8) :
  put b place text place = text.headD (b place)
  := by
  rw [put, if_pos (Nat.le_refl place), Nat.sub_self]
  cases text <;> rfl

/-- A text for which there is room is printed. -/
theorem Keeps.vprintfLoop {str : StringBuffer} {s : List UInt8} (h : Keeps str s)
    {out : List UInt8} (hroom : s.length + out.length < str.capacity) (alloc : Alloc)
    (rounds : ℕ) :
  ∃ str', vprintfLoop (.text out) alloc (rounds + 1) str = .ok (true, str') ∧
    Holds str' (s ++ out)
  := by
  obtain ⟨b, hb, -⟩ := h.contents
  obtain ⟨hspace, hprint, -⟩ := h.vsnprintf hb (.text out)
  have hlt := h.capacity_lt
  have hlength := h.length_eq
  have hwritten : Printed.written (str.capacity - s.length) (.text out) = out ++ [0] := by
    rw [Printed.written, if_neg (by omega), List.take_of_length_le (by omega)]
  rw [hwritten] at hprint
  have hold : ∀ i < s.length, put b s.length (out ++ [0]) i = b i := fun i hi => put_of_lt hi
  have hnew : ∀ i (hi : i < out.length), put b s.length (out ++ [0]) (s.length + i) = out[i] := by
    intro i hi
    rw [put_add (by rw [List.length_append]; omega), List.getElem_append_left hi]
  have hnull : put b s.length (out ++ [0]) (s.length + out.length) = 0 := by
    rw [put_add (by rw [List.length_append, List.length_singleton]; omega),
      List.getElem_append_right (Nat.le_refl out.length)]
    simp
  refine ⟨_, ?_, h.holds_append hb hold hnew hnull hroom⟩
  rw [StringBuffer.vprintfLoop]
  simp only [hprint, bind, Except.bind]
  have hmod : (str.length + out.length) % 2 ^ 32 = s.length + out.length := by
    rw [hlength]
    exact Nat.mod_eq_of_lt (by omega)
  rw [if_neg (by omega), if_pos (by omega), hmod]
  rfl

/-- The text can be made room for, or nothing of it comes where the null character is. -/
def SafePrintf (str : StringBuffer) (alloc : Alloc) : Printed → Prop
  | .text out =>
    if str.length + out.length + 1 < 2 ^ 32 then
      CanGrow str (str.length + out.length + 1) alloc
    else str.capacity = str.length + 1 ∨ out.headD 0 = 0
  | .error written => written.headD 0 = 0

/-- An error leaves the string as it is just if the null character is left. -/
theorem Holds.vprintf_error_iff {str : StringBuffer} {s : List UInt8} (h : Holds str s)
    (written : List UInt8) (alloc : Alloc) :
  SafePrintf str alloc (.error written) ↔
    ∃ str', str.vprintf (.error written) alloc = .ok (false, str') ∧ Holds str' s
  := by
  obtain ⟨b, hb, -⟩ := h.contents
  obtain ⟨hspace, hprint, hkeeps⟩ := h.vsnprintf hb (.error written)
  have hfits := h.fits
  have hrun : str.vprintf (.error written) alloc = .ok (false, { str with
      buf := some (put b s.length (Printed.written (str.capacity - s.length)
        (.error written))) }) := by
    rw [vprintf, StringBuffer.vprintfLoop]
    simp only [hprint, bind, Except.bind]
    rfl
  have hnull : put b s.length (Printed.written (str.capacity - s.length) (.error written))
      s.length = written.headD 0 := by
    rw [put_self, h.terminated b hb, Printed.written]
    obtain ⟨k, hk⟩ : ∃ k, str.capacity - s.length = k + 1 := ⟨str.capacity - s.length - 1, by omega⟩
    rw [hk]
    cases written <;> rfl
  rw [hrun, SafePrintf, ← hnull]
  constructor
  · intro hzero
    refine ⟨_, rfl, hkeeps, ?_⟩
    intro c hc
    obtain rfl := Option.some.inj hc
    exact hzero
  · rintro ⟨str', heq, hholds⟩
    rw [Except.ok.injEq, Prod.mk.injEq] at heq
    obtain ⟨-, rfl⟩ := heq
    exact hholds.terminated _ rfl

/-- A result is passed on. -/
theorem ok_bind {α β : Type} (a : α) (f : α → Except Fault β) :
  (Except.ok a >>= f) = f a
  := rfl

/-- Nothing is printed where there is no buffer. -/
theorem vprintfLoop_lost {str : StringBuffer} (hpos : str.length < str.capacity)
    (hlt : str.capacity < 2 ^ 32) (out : List UInt8) (alloc : Alloc) (rounds : ℕ) :
  vprintfLoop (.text out) alloc (rounds + 1) { str with buf := none } = .error .outside
  := by
  rw [StringBuffer.vprintfLoop, StringBuffer.vsnprintf]
  simp only
  rw [if_neg]
  · rfl
  · intro hnil
    have hlen := congrArg List.length hnil
    rw [Printed.written, if_neg (by omega), List.length_append, List.length_singleton] at hlen
    exact absurd hlen (Nat.succ_ne_zero _)

/-- A text for which there is no room is printed after the buffer has grown. -/
theorem Holds.vprintf_grow_iff {str : StringBuffer} {s : List UInt8} (h : Holds str s)
    {out : List UInt8} (hover : str.length + out.length + 1 < 2 ^ 32)
    (hfull : str.capacity ≤ s.length + out.length) (alloc : Alloc) :
  CanGrow str (str.length + out.length + 1) alloc ↔
    Appends (str.vprintf (.text out) alloc) s out
  := by
  obtain ⟨b, hb, -⟩ := h.contents
  obtain ⟨hspace, hprint, hkeeps⟩ := h.vsnprintf hb (.text out)
  have hfits := h.fits
  have hlength := h.length_eq
  generalize put b s.length (Printed.written (str.capacity - s.length) (.text out)) = c
    at hprint hkeeps
  have hrun : str.vprintf (.text out) alloc =
      (do
        let grown ← StringBuffer.ensureCapacity { str with buf := some c }
          (str.length + out.length + 1) alloc
        vprintfLoop (.text out) alloc 1 grown.2) := by
    rw [vprintf, StringBuffer.vprintfLoop]
    simp only [hprint, bind, Except.bind, Nat.mod_eq_of_lt hover]
    rw [if_neg (by omega), if_neg (by omega)]
  rw [hrun]
  by_cases hgrow : CanGrow str (str.length + out.length + 1) alloc
  · obtain ⟨str₁, hensure, hkeeps₁, hneeded⟩ :=
      hkeeps.ensureCapacity (Nat.succ_pos (str.length + out.length)) hgrow
    obtain ⟨str', hloop, hholds⟩ := hkeeps₁.vprintfLoop (show s.length + out.length < _ by omega)
      alloc 0
    constructor
    · intro _
      refine ⟨true, str', ?_, hholds⟩
      rw [hensure, ok_bind, hloop]
    · intro _
      exact hgrow
  · constructor
    · intro hyes
      exact absurd hyes hgrow
    · intro happends
      have hlost : vprintfLoop (.text out) alloc 1 { str with buf := none } = .error .outside :=
        vprintfLoop_lost (by omega) h.capacity_lt out alloc 0
      rcases @ensureCapacity_of_not { str with buf := some c } _ alloc
        (Nat.succ_pos (str.length + out.length)) hgrow with hensure | hensure
      · rw [hensure] at happends
        exact absurd happends (Lost.not_appends (Or.inl ⟨.endless, rfl⟩) s out)
      · rw [hensure, ok_bind, hlost] at happends
        exact absurd happends (Lost.not_appends (Or.inl ⟨.outside, rfl⟩) s out)

/-- A text is printed, or nothing is changed, just if the call is safe. -/
theorem Holds.vprintf_text_iff {str : StringBuffer} {s : List UInt8} (h : Holds str s)
    {out : List UInt8} (hout : out.length < 2 ^ 31) (alloc : Alloc) :
  SafePrintf str alloc (.text out) ↔ Appends (str.vprintf (.text out) alloc) s out
  := by
  obtain ⟨b, hb, -⟩ := h.contents
  obtain ⟨hspace, hprint, hkeeps⟩ := h.vsnprintf hb (.text out)
  have hfits := h.fits
  have hlt := h.capacity_lt
  have hlength := h.length_eq
  rw [SafePrintf]
  by_cases hover : str.length + out.length + 1 < 2 ^ 32
  · rw [if_pos hover]
    by_cases hroom : s.length + out.length < str.capacity
    · obtain ⟨str', hrun, hholds⟩ := h.toKeeps.vprintfLoop hroom alloc 1
      constructor
      · intro _
        exact ⟨true, str', hrun, hholds⟩
      · intro _
        exact Or.inl (by omega)
    · exact h.vprintf_grow_iff hover (by omega) alloc
  · rw [if_neg hover]
    have hrun : str.vprintf (.text out) alloc = .ok (false, { str with
        buf := some (put b s.length (Printed.written (str.capacity - s.length)
          (.text out))) }) := by
      rw [vprintf, StringBuffer.vprintfLoop]
      simp only [hprint, bind, Except.bind]
      rw [if_pos (by omega)]
      rfl
    have hnull : put b s.length (Printed.written (str.capacity - s.length) (.text out))
        s.length = 0 ↔ str.capacity = str.length + 1 ∨ out.headD 0 = 0 := by
      obtain ⟨x, out, rfl⟩ : ∃ x xs, out = x :: xs := by
        apply List.exists_cons_of_length_pos
        omega
      obtain ⟨k, hk⟩ : ∃ k, str.capacity - s.length = k + 1 :=
        ⟨str.capacity - s.length - 1, by omega⟩
      rw [put_self, hk, Printed.written, if_neg (Nat.succ_ne_zero k), Nat.add_sub_cancel]
      cases k with
      | zero =>
        constructor
        · intro _
          exact Or.inl (by omega)
        · intro _
          rfl
      | succ k =>
        constructor
        · exact Or.inr
        · rintro (hone | hzero)
          · omega
          · exact hzero
    rw [hrun, ← hnull]
    constructor
    · intro hzero
      refine ⟨false, _, rfl, hkeeps, ?_⟩
      intro c hc
      obtain rfl := Option.some.inj hc
      exact hzero
    · rintro ⟨done, str', heq, hholds⟩
      rw [Except.ok.injEq, Prod.mk.injEq] at heq
      obtain ⟨rfl, rfl⟩ := heq
      exact hholds.terminated _ rfl

/-! ### Several strings -/

/-- Strings are appended one after the other until one is not. -/
inductive AppendsAll : List UInt8 → List (List UInt8) → Bool → List UInt8 → Prop where
  | nil (s : List UInt8) : AppendsAll s [] true s
  | failed (s text : List UInt8) (texts : List (List UInt8)) : AppendsAll s (text :: texts) false s
  | cons {s text s' : List UInt8} {texts : List (List UInt8)} {out : Bool}
    (h : AppendsAll (s ++ text) texts out s') : AppendsAll s (text :: texts) out s'

theorem appendsAll_singleton_iff {s text s' : List UInt8} {out : Bool} :
  AppendsAll s [text] out s' ↔ s' = if out then s ++ text else s
  := by
  constructor
  · intro h
    cases h with
    | failed => rfl
    | cons h =>
      cases h
      rfl
  · rintro rfl
    cases out with
    | false => exact AppendsAll.failed s text []
    | true => exact AppendsAll.cons (AppendsAll.nil (s ++ text))

/-- Each call of `_mesa_string_buffer_append` is safe. -/
def SafeAll (str : StringBuffer) : List (List UInt8 × Alloc) → Prop
  | [] => True
  | (c, alloc) :: args => SafeLen str (strlen c) alloc ∧
      ∀ str', str.append c alloc = .ok (true, str') → SafeAll str' args

theorem strlen_le (c : List UInt8) :
  strlen c ≤ c.length
  := (List.takeWhile_prefix _).length_le

theorem append_eq (str : StringBuffer) {c : List UInt8} (hlt : strlen c < 2 ^ 32)
    (alloc : Alloc) :
  str.append c alloc = str.appendLen c (strlen c) alloc
  := by
  rw [StringBuffer.append, Nat.mod_eq_of_lt hlt]

theorem Holds.appendAll {str : StringBuffer} {s : List UInt8} (h : Holds str s)
    {args : List (List UInt8 × Alloc)} (hargs : ∀ arg ∈ args, strlen arg.1 < 2 ^ 32)
    (hsafe : SafeAll str args) :
  ∃ out str' s', str.appendAll args = .ok (out, str') ∧
    AppendsAll s (args.map fun arg => arg.1.take (strlen arg.1)) out s' ∧ Holds str' s'
  := by
  induction args generalizing str s with
  | nil => exact ⟨true, str, s, rfl, AppendsAll.nil s, h⟩
  | cons arg args ih =>
    obtain ⟨c, alloc⟩ := arg
    obtain ⟨hlen, hrest⟩ := hsafe
    have hlt := hargs (c, alloc) List.mem_cons_self
    rw [append_eq str hlt] at hrest
    obtain ⟨out, str₁, hr, hholds⟩ := h.appendLen (strlen_le c) hlt hlen
    rw [StringBuffer.appendAll, append_eq str hlt, hr]
    cases out with
    | false => exact ⟨false, str₁, s, rfl, AppendsAll.failed _ _ _, hholds⟩
    | true =>
      obtain ⟨out, str', s', hr', hs', hholds'⟩ :=
        ih hholds (fun arg harg => hargs arg (List.mem_cons_of_mem _ harg)) (hrest str₁ hr)
      exact ⟨out, str', s', hr', AppendsAll.cons hs', hholds'⟩

theorem Holds.lost_of_not_safeAll {str : StringBuffer} {s : List UInt8} (h : Holds str s)
    {args : List (List UInt8 × Alloc)} (hargs : ∀ arg ∈ args, strlen arg.1 < 2 ^ 32)
    (hbad : ¬SafeAll str args) :
  Lost (str.appendAll args)
  := by
  induction args generalizing str s with
  | nil => exact absurd trivial hbad
  | cons arg args ih =>
    obtain ⟨c, alloc⟩ := arg
    have hlt := hargs (c, alloc) List.mem_cons_self
    rw [SafeAll, append_eq str hlt] at hbad
    rw [StringBuffer.appendAll, append_eq str hlt]
    by_cases hlen : SafeLen str (strlen c) alloc
    · obtain ⟨out, str₁, hr, hholds⟩ := h.appendLen (strlen_le c) hlt hlen
      rw [hr] at hbad ⊢
      cases out with
      | false =>
        exfalso
        apply hbad
        refine ⟨hlen, ?_⟩
        intro str' heq
        cases heq
      | true =>
        apply ih hholds fun arg harg => hargs arg (List.mem_cons_of_mem _ harg)
        intro hall
        apply hbad
        refine ⟨hlen, ?_⟩
        intro str' heq
        obtain rfl : str₁ = str' := (Prod.mk.inj (Except.ok.inj heq)).2
        exact hall
    · rcases h.lost_of_not_safe c hlen with ⟨e, he⟩ | ⟨str₁, hr, hnone⟩
      · rw [he]
        exact Or.inl ⟨e, rfl⟩
      · rw [hr]
        exact Or.inr ⟨str₁, rfl, hnone⟩

/-! ### Calls -/

/-- What a call does to the string: its strings are appended, or an error changes nothing. -/
def AppendStep (s : List UInt8) (op : Op) (out : Bool) (s' : List UInt8) : Prop :=
  match op.texts with
  | some texts => AppendsAll s texts out s'
  | none => out = false ∧ s' = s

/-- Each call that a call makes is safe. -/
def Safe (str : StringBuffer) : Op → Prop
  | .appendLen _ len alloc => SafeLen str len alloc
  | .append c alloc => SafeLen str (strlen c) alloc
  | .appendChar _ alloc => SafeLen str 1 alloc
  | .appendAll args => SafeAll str args
  | .vprintf printed alloc => SafePrintf str alloc printed

/-- The result of a call is what it should be. -/
def Meets (r : Except Fault (Bool × StringBuffer)) (s : List UInt8) (op : Op) : Prop :=
  ∃ out str s', r = .ok (out, str) ∧ AppendStep s op out s' ∧ Holds str s'

theorem meets_iff_appends {r : Except Fault (Bool × StringBuffer)} {s text : List UInt8} {op : Op}
    (h : op.texts = some [text]) :
  Meets r s op ↔ Appends r s text
  := by
  simp only [Meets, Appends, AppendStep, h, appendsAll_singleton_iff]
  constructor
  · rintro ⟨out, str, s', hr, rfl, hholds⟩
    exact ⟨out, str, hr, hholds⟩
  · rintro ⟨out, str, hr, hholds⟩
    exact ⟨out, str, _, hr, rfl, hholds⟩

theorem Lost.not_meets {r : Except Fault (Bool × StringBuffer)} (h : Lost r) (s : List UInt8)
    (op : Op) :
  ¬Meets r s op
  := by
  rintro ⟨out, str, s', hr, -, hholds⟩
  exact h.not_holds hr s' hholds

/-- The calls of `_mesa_string_buffer_append_len`. -/
theorem Holds.appendLen_iff {str : StringBuffer} {s : List UInt8} (h : Holds str s)
    {c : List UInt8} {len : ℕ} (hlen : len ≤ c.length) (hlt : len < 2 ^ 32) (alloc : Alloc) :
  SafeLen str len alloc ↔ Appends (str.appendLen c len alloc) s (c.take len)
  := by
  constructor
  · exact h.appendLen hlen hlt
  · intro happends
    by_contra hbad
    exact (h.lost_of_not_safe c hbad).not_appends s _ happends

/-- The result of a call is what it should be just if the call is safe. -/
theorem Holds.step_iff {str : StringBuffer} {s : List UInt8} (h : Holds str s) {op : Op}
    (hop : op.Valid) :
  Safe str op ↔ Meets (str.step op) s op
  := by
  cases op with
  | appendLen c len alloc =>
    rw [meets_iff_appends rfl]
    exact h.appendLen_iff hop.1 hop.2 alloc
  | append c alloc =>
    rw [meets_iff_appends rfl, step, append_eq str hop]
    exact h.appendLen_iff (strlen_le c) hop alloc
  | appendChar c alloc =>
    rw [meets_iff_appends rfl]
    exact @Holds.appendLen_iff str s h [c] 1 (Nat.le_refl 1) (by omega) alloc
  | appendAll args =>
    constructor
    · exact h.appendAll hop
    · intro hmeets
      by_contra hbad
      exact (h.lost_of_not_safeAll hop hbad).not_meets s _ hmeets
  | vprintf printed alloc =>
    cases printed with
    | text out =>
      rw [meets_iff_appends rfl]
      exact h.vprintf_text_iff hop alloc
    | error written =>
      apply (h.vprintf_error_iff written alloc).trans
      constructor
      · rintro ⟨str', hr, hholds⟩
        exact ⟨false, str', s, hr, ⟨rfl, rfl⟩, hholds⟩
      · rintro ⟨out, str', s', hr, ⟨rfl, rfl⟩, hholds⟩
        exact ⟨str', hr, hholds⟩

/-! ### Runs -/

/-- All calls of a run are safe. -/
def SafeRun (str : StringBuffer) : List Op → Prop
  | [] => True
  | op :: ops => Safe str op ∧ ∀ out str', str.step op = .ok (out, str') → SafeRun str' ops

/-- Each call of a run does to the string what it should do, and the buffer holds the string in every
state. -/
def Correct (str : StringBuffer) (s : List UInt8) : List Op → Prop
  | [] => Holds str s
  | op :: ops => Holds str s ∧ ∃ out str' s', str.step op = .ok (out, str') ∧
      AppendStep s op out s' ∧ Correct str' s' ops

theorem Correct.holds {str : StringBuffer} {s : List UInt8} {ops : List Op}
    (h : Correct str s ops) :
  Holds str s
  := by
  cases ops with
  | nil => exact h
  | cons op ops => exact h.1

/-- The buffer is empty at first. -/
theorem create_holds {initialCapacity : ℕ} (hlt : initialCapacity < 2 ^ 32) {alloc : Alloc}
    {str : StringBuffer} (hstr : create initialCapacity alloc = some str) :
  Holds str []
  := by
  rw [create] at hstr
  obtain ⟨b, -, rfl⟩ := Option.map_eq_some_iff.mp hstr
  refine ⟨⟨rfl, ?_, ?_, _, rfl, ?_⟩, ?_⟩
  · rw [List.length_nil]
    simp only
    split <;> omega
  · simp only
    split <;> omega
  · intro i hi
    exact absurd hi (Nat.not_lt_zero i)
  · intro c hc
    obtain rfl := Option.some.inj hc
    rfl

theorem Holds.correct_iff {str : StringBuffer} {s : List UInt8} (h : Holds str s)
    {ops : List Op} (hops : ∀ op ∈ ops, op.Valid) :
  SafeRun str ops ↔ Correct str s ops
  := by
  induction ops generalizing str s with
  | nil =>
    constructor
    · intro _
      exact h
    · intro _
      trivial
  | cons op ops ih =>
    have hstep := h.step_iff (hops op List.mem_cons_self)
    have hops' : ∀ op ∈ ops, op.Valid := fun op hop => hops op (List.mem_cons_of_mem _ hop)
    constructor
    · rintro ⟨hsafe, hrest⟩
      obtain ⟨out, str', s', hr, hs', hholds⟩ := hstep.mp hsafe
      exact ⟨h, out, str', s', hr, hs', (ih hholds hops').mp (hrest out str' hr)⟩
    · rintro ⟨-, out, str', s', hr, hs', hcorrect⟩
      refine ⟨hstep.mpr ⟨out, str', s', hr, hs', hcorrect.holds⟩, ?_⟩
      intro out₁ str₁ hr₁
      rw [hr] at hr₁
      cases hr₁
      exact (ih hcorrect.holds hops').mpr hcorrect

/-- In every run from a new buffer, the buffer holds the strings that have been appended and the null
character after them, and a call that fails changes nothing, just if all calls are safe. -/
theorem create_correct_iff {initialCapacity : ℕ} (hlt : initialCapacity < 2 ^ 32) {alloc : Alloc}
    {str : StringBuffer} (hstr : create initialCapacity alloc = some str) {ops : List Op}
    (hops : ∀ op ∈ ops, op.Valid) :
  Correct str [] ops ↔ SafeRun str ops
  := by
  apply Iff.symm
  exact (create_holds hlt hstr).correct_iff hops

/-- Memory that is always there. -/
def zeros : Alloc := fun _ => some fun _ => 0

/-- A buffer that has to grow. -/
theorem create_correct_iff_grown :
  Correct ⟨some (put (fun _ => 0) 0 [0]), 0, 1⟩ [] [.appendChar 97 zeros]
  := by
  have hiff := @create_correct_iff 1 (by decide) zeros _ rfl [.appendChar 97 zeros]
    (fun op hop => by rw [List.mem_singleton.mp hop]; trivial)
  apply hiff.mpr
  refine ⟨⟨by decide, ?_⟩, ?_⟩
  · intro _
    exact Or.inr ⟨2, ⟨0, rfl, Nat.le_refl 2, fun j hj => absurd hj (Nat.not_lt_zero j)⟩, rfl⟩
  · intro out str' _
    trivial

/-- The loop of `ensure_capacity` does not end for a string of half the largest length, a string of
the largest length is written outside of the buffer, and the buffer is lost where there is no more
memory. -/
theorem create_not_correct :
  ∃ str, create 0 zeros = some str ∧
    Op.Valid (.appendLen (List.replicate (2 ^ 31) 97) (2 ^ 31) zeros) ∧
    str.step (.appendLen (List.replicate (2 ^ 31) 97) (2 ^ 31) zeros) = .error .endless ∧
    (∀ fuel, doubleLoop (2 ^ 31 + 1) fuel (str.capacity * 2 % 2 ^ 32) = none) ∧
    ¬Correct str [] [.appendLen (List.replicate (2 ^ 31) 97) (2 ^ 31) zeros] ∧
    Op.Valid (.appendLen (List.replicate (2 ^ 32 - 1) 97) (2 ^ 32 - 1) zeros) ∧
    str.step (.appendLen (List.replicate (2 ^ 32 - 1) 97) (2 ^ 32 - 1) zeros) = .error .outside ∧
    str.step (.appendLen (List.replicate 32 97) 32 fun _ => none) =
      .ok (false, { str with buf := none })
  := by
  refine ⟨⟨some (put (fun _ => 0) 0 [0]), 0, 32⟩, rfl, ⟨?_, by decide⟩, rfl, ?_, ?_,
    ⟨?_, by decide⟩, rfl, rfl⟩
  · exact Nat.le_of_eq List.length_replicate.symm
  · apply doubleLoop_endless (Nat.succ_pos _)
    rfl
  · rintro ⟨-, out, str', s', hr, -⟩
    cases hr
  · exact Nat.le_of_eq List.length_replicate.symm

end StringBuffer

end Util
