import Mesa.Util.UVector

/-!
# Runs of growing circular buffers

A vector holds a queue of elements.  A call gives what it gives for the queue, unless the vector
grows beyond the largest number or while the counter of its head has wrapped around and the one of
its tail has not.
-/

namespace Util

namespace UVector

open Ring (window copy index)

/-! ### Numbers -/

/-- The vector holds the queue. -/
structure Holds (v : UVector) (q : List (List UInt8)) : Prop where
  elementSize_pos : 0 < v.elementSize
  elementSize_dvd : v.elementSize ∣ v.size
  size_pow : ∃ k < 32, v.size = 2 ^ k
  tail_lt : v.tail < 2 ^ 32
  tail_dvd : v.elementSize ∣ v.tail
  head_eq : v.head = (v.tail + q.length * v.elementSize) % 2 ^ 32
  fits : q.length * v.elementSize ≤ v.size
  element_length : ∀ x ∈ q, x.length = v.elementSize
  window_eq : window v.size v.data v.tail (q.length * v.elementSize) = q.flatten

namespace Holds

variable {v : UVector} {q : List (List UInt8)} (h : Holds v q)

include h

theorem size_pos :
  0 < v.size
  := by
  obtain ⟨k, -, hk⟩ := h.size_pow
  rw [hk]
  exact Nat.two_pow_pos k

theorem size_dvd :
  v.size ∣ 2 ^ 32
  := by
  obtain ⟨k, hk, hsize⟩ := h.size_pow
  rw [hsize]
  exact Nat.pow_dvd_pow 2 hk.le

theorem size_le :
  v.size ≤ 2 ^ 31
  := by
  obtain ⟨k, hk, hsize⟩ := h.size_pow
  rw [hsize]
  exact Nat.pow_le_pow_right Nat.two_pos (Nat.le_of_lt_succ hk)

theorem head_lt :
  v.head < 2 ^ 32
  := by
  rw [h.head_eq]
  exact Nat.mod_lt _ (Nat.two_pow_pos 32)

/-- The number of bytes that are in use. -/
theorem sub32_eq :
  sub32 v.head v.tail = q.length * v.elementSize
  := by
  have htail := h.tail_lt
  have hfits := h.fits
  have hsize := h.size_le
  rw [h.head_eq]
  unfold sub32
  omega

/-- The tail and the head are the same just if the queue is empty. -/
theorem head_eq_tail_iff :
  v.head = v.tail ↔ q = []
  := by
  have hsub := h.sub32_eq
  have htail := h.tail_lt
  constructor
  · intro heq
    have hzero : q.length * v.elementSize = 0 := by
      rw [← hsub, heq]
      unfold sub32
      omega
    apply List.eq_nil_of_length_eq_zero
    exact (Nat.mul_eq_zero.mp hzero).resolve_right h.elementSize_pos.ne'
  · rintro rfl
    have hhead := h.head_eq
    rw [List.length_nil, Nat.zero_mul, Nat.add_zero, Nat.mod_eq_of_lt htail] at hhead
    exact hhead

/-- The counter of the head has not wrapped around. -/
theorem tail_le_head_iff :
  v.tail ≤ v.head ↔ v.tail + q.length * v.elementSize < 2 ^ 32
  := by
  have htail := h.tail_lt
  have hfits := h.fits
  have hsize := h.size_le
  have hhead := h.head_eq
  omega

end Holds

/-- A list of bytes from an address does not depend on multiples of the size. -/
theorem window_mod {size m : ℕ} (h : size ∣ m) (data : ℕ → UInt8) (t n : ℕ) :
  window size data (t % m) n = window size data t n
  := by
  apply List.map_congr_left
  intro i _
  rw [index, index, ← Nat.mod_add_mod, Nat.mod_mod_of_dvd t h, Nat.mod_add_mod]

/-! ### Adding -/

/-- The bytes of an element that is filled with the given ones. -/
def fill (elementSize : ℕ) (x : List UInt8) : List UInt8 :=
  (List.range elementSize).map fun i => x.getD i 0

theorem length_fill (elementSize : ℕ) (x : List UInt8) :
  (fill elementSize x).length = elementSize
  := by
  simp [fill]

/-- The place of a new element, and what the vector holds after it has been filled. -/
theorem Holds.push {v : UVector} {q : List (List UInt8)} (h : Holds v q)
    (hroom : q.length * v.elementSize < v.size) (x : List UInt8) :
  v.push = some (some (v.head % v.size), { v with head := (v.head + v.elementSize) % 2 ^ 32 }) ∧
    Holds { v with
      head := (v.head + v.elementSize) % 2 ^ 32
      data := copy v.data (v.head % v.size) (fun i => x.getD i 0) 0 v.elementSize }
      (q ++ [fill v.elementSize x])
  := by
  have hnext : q.length * v.elementSize + v.elementSize ≤ v.size := by
    have hmod := Ring.mod_add_le_of_dvd h.size_pos (Nat.dvd_mul_left v.elementSize q.length)
      h.elementSize_dvd
    rwa [Nat.mod_eq_of_lt hroom] at hmod
  have hlen : (q ++ [fill v.elementSize x]).length * v.elementSize =
      q.length * v.elementSize + v.elementSize := by
    rw [List.length_append, List.length_singleton, Nat.succ_mul]
  have hplace : v.head % v.size = (v.tail + q.length * v.elementSize) % v.size := by
    rw [h.head_eq, Nat.mod_mod_of_dvd _ h.size_dvd]
  constructor
  · rw [UVector.push, h.sub32_eq, if_pos hroom]
  · refine ⟨h.elementSize_pos, h.elementSize_dvd, h.size_pow, h.tail_lt, h.tail_dvd, ?_, ?_, ?_,
      ?_⟩
    · simp only
      rw [hlen, h.head_eq, Nat.mod_add_mod, Nat.add_assoc]
    · simp only
      rw [hlen]
      exact hnext
    · intro y hy
      rcases List.mem_append.mp hy with hy | hy
      · exact h.element_length y hy
      · rw [List.mem_singleton.mp hy]
        exact length_fill _ _
    · simp only
      rw [hlen, hplace, Ring.window_copy hnext, h.window_eq, List.flatten_append]
      · simp [fill]
      · apply Ring.mod_add_le_of_dvd h.size_pos _ h.elementSize_dvd
        exact Nat.dvd_add h.tail_dvd (Nat.dvd_mul_left _ _)

/-! ### Growing -/

/-- The end of the array, where the counters do not wrap around. -/
theorem alignU32_eq {t size : ℕ} (hpos : 0 < size) (hmod : t % size ≠ 0)
    (hlt : t + size < 2 ^ 32) :
  alignU32 t size = t + (size - t % size)
  := by
  have hdiv := Nat.div_add_mod t size
  have hmodlt := Nat.mod_lt t hpos
  have hceil : (t + size - 1) / size = t / size + 1 := by
    apply Nat.div_eq_of_lt_le
    · rw [Nat.succ_mul, Nat.mul_comm]
      omega
    · rw [Nat.succ_mul, Nat.succ_mul, Nat.mul_comm]
      omega
  rw [alignU32, Nat.mod_eq_of_lt (by omega), hceil, Nat.succ_mul, Nat.mul_comm]
  omega

/-- The same elements are in a new array. -/
theorem Holds.resize {v : UVector} {q : List (List UInt8)} (h : Holds v q)
    (hsize : v.size < 2 ^ 31) (data : ℕ → UInt8)
    (hwindow : window (2 * v.size) data v.tail (q.length * v.elementSize) =
      window v.size v.data v.tail (q.length * v.elementSize)) :
  Holds { v with data := data, size := 2 * v.size } q
  := by
  refine ⟨h.elementSize_pos, ?_, ?_, h.tail_lt, h.tail_dvd, h.head_eq, ?_, h.element_length, ?_⟩
  · exact Dvd.dvd.mul_left h.elementSize_dvd 2
  · obtain ⟨k, -, hk⟩ := h.size_pow
    have hlt : k < 31 := by
      rw [hk] at hsize
      exact (Nat.pow_lt_pow_iff_right Nat.one_lt_two).mp hsize
    refine ⟨k + 1, by omega, ?_⟩
    simp only [hk]
    rw [Nat.pow_succ, Nat.mul_comm]
  · have hfits := h.fits
    simp only
    omega
  · simp only
    rw [hwindow, h.window_eq]

/-- The elements are moved, where the vector can grow. -/
theorem Holds.grow {v : UVector} {q : List (List UInt8)} (h : Holds v q)
    (hfull : q.length * v.elementSize = v.size) (hsize : v.size < 2 ^ 31)
    (hlinear : v.tail % v.size = 0 ∨ v.tail < v.head) (data : ℕ → UInt8) :
  ∃ new, v.grow (2 * v.size) data = some { v with data := new, size := 2 * v.size } ∧
    Holds { v with data := new, size := 2 * v.size } q
  := by
  have hpos := h.size_pos
  have hhead := h.head_eq
  rw [hfull] at hhead
  by_cases hstart : v.tail % v.size = 0
  · have hroom : v.tail % (2 * v.size) + v.size ≤ 2 * v.size :=
      Ring.mod_add_le_of_dvd (by omega) (Nat.dvd_of_mod_eq_zero hstart)
        (Nat.dvd_mul_left v.size 2)
    refine ⟨copy data (v.tail % (2 * v.size)) v.data 0 v.size, ?_, ?_⟩
    · rw [UVector.grow]
      simp only [hstart, if_true]
      rw [memcpy, if_pos ⟨hroom, by omega⟩]
      rfl
    · apply h.resize hsize
      rw [hfull]
      exact Ring.window_grow_linear hpos hstart
  · have htail := h.tail_lt
    have hlt : v.tail + v.size < 2 ^ 32 := by
      have hwrapped := hlinear.resolve_left hstart
      have hle := h.size_le
      omega
    have hmod := Nat.mod_lt v.tail hpos
    have hsplit := alignU32_eq hpos hstart hlt
    have hfirst := @Ring.mod_two_mul_add_le v.size v.tail hpos
    have hsecond := Ring.mod_add_le_of_dvd (show 0 < 2 * v.size by omega)
      (@Ring.dvd_add_sub_mod v.size v.tail hpos) (Nat.dvd_mul_left v.size 2)
    have hsub₁ : sub32 (v.tail + (v.size - v.tail % v.size)) v.tail =
        v.size - v.tail % v.size := by
      unfold sub32
      omega
    have hsub₂ : sub32 v.head (v.tail + (v.size - v.tail % v.size)) = v.tail % v.size := by
      unfold sub32
      omega
    refine ⟨copy (copy data (v.tail % (2 * v.size)) v.data (v.tail % v.size)
      (v.size - v.tail % v.size)) ((v.tail + (v.size - v.tail % v.size)) % (2 * v.size)) v.data 0
      (v.tail % v.size), ?_, ?_⟩
    · rw [UVector.grow]
      simp only [hstart, if_false, hsplit, hsub₁, hsub₂]
      rw [if_pos (by omega), memcpy, if_pos (by omega)]
      dsimp only [Option.bind_eq_bind, Option.bind_some]
      rw [memcpy, if_pos (by omega)]
      rfl
    · apply h.resize hsize
      rw [hfull]
      exact Ring.window_grow_split hpos

/-- The vector does not grow otherwise. -/
theorem Holds.grow_none {v : UVector} {q : List (List UInt8)} (h : Holds v q)
    (hfull : q.length * v.elementSize = v.size)
    (hbad : ¬(v.size < 2 ^ 31 ∧ (v.tail % v.size = 0 ∨ v.tail < v.head)))
    (data : ℕ → UInt8) :
  v.grow (v.size * 2 % 2 ^ 32) data = none
  := by
  have hpos := h.size_pos
  have hle := h.size_le
  have htail := h.tail_lt
  have hhead := h.head_eq
  rw [hfull] at hhead
  have hmod := Nat.mod_lt v.tail hpos
  rw [UVector.grow]
  by_cases hstart : v.tail % v.size = 0
  · have hzero : v.size * 2 % 2 ^ 32 = 0 := by omega
    simp only [hstart, if_true, hzero]
    rw [memcpy, if_neg (by omega)]
    rfl
  · simp only [hstart, if_false]
    by_cases hassert : v.tail ≤ alignU32 v.tail v.size ∧ alignU32 v.tail v.size < v.head
    · have hsplit := alignU32_eq hpos hstart (by omega)
      have hzero : v.size * 2 % 2 ^ 32 = 0 := by omega
      have hsub : sub32 (alignU32 v.tail v.size) v.tail = v.size - v.tail % v.size := by
        unfold sub32
        omega
      rw [if_pos hassert, hsub, hzero, memcpy, if_neg (by omega)]
      rfl
    · rw [if_neg hassert]

/-! ### Removing -/

/-- The element at an aligned place is the list of its bytes. -/
theorem Holds.element_eq {v : UVector} {q : List (List UInt8)} (h : Holds v q) {t : ℕ}
    (ht : v.elementSize ∣ t) :
  v.element (t % v.size) = window v.size v.data t v.elementSize
  := by
  have hroom := Ring.mod_add_le_of_dvd h.size_pos ht h.elementSize_dvd
  apply List.map_congr_left
  intro i mem
  have hi := List.mem_range.1 mem
  rw [Ring.index_eq_add (by omega)]

/-- The first element and the ones that come after it. -/
theorem window_cons {size elementSize t : ℕ} {data : ℕ → UInt8} {x : List UInt8}
    {q : List (List UInt8)} (hx : x.length = elementSize)
    (h : window size data t ((x :: q).length * elementSize) = (x :: q).flatten) :
  window size data t elementSize = x ∧
    window size data (t + elementSize) (q.length * elementSize) = q.flatten
  := by
  rw [List.length_cons, Nat.succ_mul, Nat.add_comm, Ring.window_add, List.flatten_cons] at h
  apply List.append_inj h
  rw [Ring.length_window, hx]

theorem Holds.remove {v : UVector} {x : List UInt8} {q : List (List UInt8)}
    (h : Holds v (x :: q)) :
  v.remove =
      some (some (v.tail % v.size), { v with tail := (v.tail + v.elementSize) % 2 ^ 32 }) ∧
    v.element (v.tail % v.size) = x ∧
    Holds { v with tail := (v.tail + v.elementSize) % 2 ^ 32 } q
  := by
  have hx := h.element_length x List.mem_cons_self
  obtain ⟨hfirst, hrest⟩ := window_cons hx h.window_eq
  have hfits := h.fits
  have hlen : (x :: q).length * v.elementSize = q.length * v.elementSize + v.elementSize := by
    rw [List.length_cons, Nat.succ_mul]
  have hne : v.head ≠ v.tail := fun heq => List.cons_ne_nil x q (h.head_eq_tail_iff.mp heq)
  have hdvd := h.elementSize_dvd.trans h.size_dvd
  refine ⟨?_, ?_, ?_⟩
  · rw [UVector.remove, if_neg hne, h.sub32_eq, if_pos hfits]
  · rw [h.element_eq h.tail_dvd, hfirst]
  · refine ⟨h.elementSize_pos, h.elementSize_dvd, h.size_pow, ?_, ?_, ?_, ?_, ?_, ?_⟩
    · apply Nat.mod_lt
      exact Nat.two_pow_pos 32
    · exact (Nat.dvd_mod_iff hdvd).mpr (Nat.dvd_add h.tail_dvd (dvd_refl v.elementSize))
    · simp only
      rw [h.head_eq, hlen, Nat.mod_add_mod]
      congr 1
      omega
    · simp only
      omega
    · intro y hy
      exact h.element_length y (List.mem_cons_of_mem x hy)
    · simp only
      rw [window_mod h.size_dvd, hrest]

/-! ### What can be seen -/

/-- The loop comes to the elements in order, where its counter does not wrap around. -/
theorem Holds.foreachLoop {v : UVector} {q₀ : List (List UInt8)} (h : Holds v q₀)
    {q : List (List UInt8)} {t fuel : ℕ} (ht : v.elementSize ∣ t)
    (hhead : t + q.length * v.elementSize = v.head)
    (hlength : ∀ x ∈ q, x.length = v.elementSize)
    (hwindow : window v.size v.data t (q.length * v.elementSize) = q.flatten)
    (hfuel : q.length < fuel) :
  v.foreachLoop fuel t = some q
  := by
  have hlt := h.head_lt
  have hpos := h.elementSize_pos
  induction q generalizing t fuel with
  | nil =>
    obtain ⟨fuel, rfl⟩ : ∃ n, fuel = n + 1 := ⟨fuel - 1, by omega⟩
    rw [List.length_nil, Nat.zero_mul] at hhead
    rw [UVector.foreachLoop, if_neg (by omega)]
  | cons x q ih =>
    obtain ⟨fuel, rfl⟩ : ∃ n, fuel = n + 1 := ⟨fuel - 1, by omega⟩
    obtain ⟨hfirst, hrest⟩ := window_cons (hlength x List.mem_cons_self) hwindow
    rw [List.length_cons, Nat.succ_mul] at hhead
    rw [List.length_cons] at hfuel
    have hnext : (t + v.elementSize) % 2 ^ 32 = t + v.elementSize := by
      apply Nat.mod_eq_of_lt
      omega
    have hloop := @ih (t + v.elementSize) fuel (Nat.dvd_add ht (dvd_refl v.elementSize))
      (by omega) (fun y hy => hlength y (List.mem_cons_of_mem x hy)) hrest (by omega)
    rw [UVector.foreachLoop, if_pos (by omega), hnext, hloop, h.element_eq ht, hfirst,
      Option.map_some]

/-- The loop comes to all elements just if the counter of the head has not wrapped around. -/
theorem Holds.foreach_iff {v : UVector} {q : List (List UInt8)} (h : Holds v q) :
  v.foreach = some q ↔ v.tail ≤ v.head
  := by
  have hpos := h.elementSize_pos
  constructor
  · intro heq
    by_contra hlt
    rw [UVector.foreach, UVector.foreachLoop, if_neg (by omega), Option.some.injEq] at heq
    have hsame := h.head_eq_tail_iff.mpr heq.symm
    omega
  · intro hle
    have hno := h.tail_le_head_iff.mp hle
    have hhead := h.head_eq
    rw [Nat.mod_eq_of_lt hno] at hhead
    apply h.foreachLoop h.tail_dvd hhead.symm h.element_length h.window_eq
    have hcount : q.length * 1 ≤ q.length * v.elementSize := Nat.mul_le_mul_left _ hpos
    omega

/-- The number of elements is right just if it is below the largest signed number. -/
theorem Holds.length_iff {v : UVector} {q : List (List UInt8)} (h : Holds v q) :
  v.length = q.length ↔ q.length < 2 ^ 31
  := by
  have hdiv : q.length * v.elementSize / v.elementSize = q.length :=
    Nat.mul_div_cancel _ h.elementSize_pos
  rw [UVector.length, h.sub32_eq, hdiv]
  constructor
  · intro heq
    by_contra hge
    rw [if_neg hge] at heq
    omega
  · intro hlt
    rw [if_pos hlt]

/-! ### Calls -/

/-- What a call does to the queue. -/
inductive QueueStep (elementSize : ℕ) :
    List (List UInt8) → Op → Out → List (List UInt8) → Prop where
  | added (q : List (List UInt8)) (malloc : ℕ → Option (ℕ → UInt8)) (x : List UInt8) :
    QueueStep elementSize q (.add malloc x) (.added true) (q ++ [fill elementSize x])
  | noMemory (q : List (List UInt8)) {malloc : ℕ → Option (ℕ → UInt8)} (x : List UInt8) {size : ℕ}
    (h : malloc size = none) : QueueStep elementSize q (.add malloc x) (.added false) q
  | removed (x : List UInt8) (q : List (List UInt8)) :
    QueueStep elementSize (x :: q) .remove (.removed (some x)) q
  | empty : QueueStep elementSize [] .remove (.removed none) []

/-- What several calls do to the queue. -/
inductive QueueRun (elementSize : ℕ) :
    List (List UInt8) → List Op → List Out → List (List UInt8) → Prop where
  | nil (q : List (List UInt8)) : QueueRun elementSize q [] [] q
  | cons {q q' q'' : List (List UInt8)} {op : Op} {ops : List Op} {out : Out} {outs : List Out}
    (head : QueueStep elementSize q op out q') (tail : QueueRun elementSize q' ops outs q'') :
    QueueRun elementSize q (op :: ops) (out :: outs) q''

/-- A call that makes the vector grow does so below the largest size, and the elements begin at the
start of the array or the counter of the head has not wrapped around. -/
def Safe (v : UVector) : Op → Prop
  | .add malloc _ => sub32 v.head v.tail = v.size → (malloc (v.size * 2 % 2 ^ 32)).isSome →
      v.size < 2 ^ 31 ∧ (v.tail % v.size = 0 ∨ v.tail < v.head)
  | .remove => True

/-- All calls of a run are so. -/
def SafeRun (v : UVector) : List Op → Prop
  | [] => True
  | op :: ops => Safe v op ∧ ∀ out v', step v op = some (out, v') → SafeRun v' ops

/-- An element is added where there is room. -/
theorem Holds.step_push (v : UVector) {w : UVector} {q : List (List UInt8)} (hw : Holds w q)
    {malloc : ℕ → Option (ℕ → UInt8)} (x : List UInt8)
    (hes : w.elementSize = v.elementSize) (hroom : q.length * w.elementSize < w.size)
    (hadd : v.add malloc = w.push) :
  ∃ v', step v (.add malloc x) = some (.added true, v') ∧
    Holds v' (q ++ [fill v.elementSize x]) ∧ v'.elementSize = v.elementSize
  := by
  obtain ⟨hpush, hholds⟩ := Holds.push hw hroom x
  rw [← hes]
  refine ⟨_, ?_, hholds, rfl⟩
  rw [step, hadd, hpush]
  rfl

/-- A safe call gives what it gives for the queue. -/
theorem Holds.step_of_safe {v : UVector} {q : List (List UInt8)} (h : Holds v q) {op : Op}
    (hsafe : Safe v op) :
  ∃ out v' q', step v op = some (out, v') ∧ QueueStep v.elementSize q op out q' ∧ Holds v' q' ∧
    v'.elementSize = v.elementSize
  := by
  cases op with
  | add malloc x =>
    by_cases hfull : sub32 v.head v.tail = v.size
    · cases hm : malloc (v.size * 2 % 2 ^ 32) with
      | none =>
        refine ⟨.added false, v, q, ?_, QueueStep.noMemory q x hm, h, rfl⟩
        rw [step, add, if_pos hfull]
        simp only [hm]
        rfl
      | some data =>
        have hsome : (malloc (v.size * 2 % 2 ^ 32)).isSome := by rw [hm, Option.isSome_some]
        obtain ⟨hsize, hlinear⟩ := hsafe hfull hsome
        have hdouble : v.size * 2 % 2 ^ 32 = 2 * v.size := by omega
        rw [h.sub32_eq] at hfull
        obtain ⟨new, hgrow, hholds⟩ := h.grow hfull hsize hlinear data
        have hpos := h.size_pos
        have hadd : v.add malloc = UVector.push { v with data := new, size := 2 * v.size } := by
          rw [hdouble] at hm
          rw [add, if_pos (h.sub32_eq.trans hfull), hdouble]
          simp only [hm]
          rw [hgrow, Option.bind_some]
        obtain ⟨v', hstep, hv', hes⟩ := Holds.step_push v hholds x rfl
          (by simp only; omega) hadd
        exact ⟨_, v', _, hstep, QueueStep.added q malloc x, hv', hes⟩
    · have hadd : v.add malloc = v.push := by rw [add, if_neg hfull]
      rw [h.sub32_eq] at hfull
      have hfits := h.fits
      obtain ⟨v', hstep, hv', hes⟩ := Holds.step_push v h x rfl (by omega) hadd
      exact ⟨_, v', _, hstep, QueueStep.added q malloc x, hv', hes⟩
  | remove =>
    cases q with
    | nil =>
      refine ⟨.removed none, v, [], ?_, QueueStep.empty, h, rfl⟩
      rw [step, UVector.remove, if_pos (h.head_eq_tail_iff.mpr rfl)]
      rfl
    | cons x q =>
      obtain ⟨hremove, hx, hholds⟩ := h.remove
      refine ⟨.removed (some x), _, q, ?_, QueueStep.removed x q, hholds, rfl⟩
      rw [step, hremove]
      simp only [Option.bind_eq_bind, Option.bind_some, hx]

/-- Another call fails. -/
theorem Holds.step_of_not_safe {v : UVector} {q : List (List UInt8)} (h : Holds v q) {op : Op}
    (hbad : ¬Safe v op) :
  step v op = none
  := by
  cases op with
  | add malloc x =>
    simp only [Safe, Classical.not_imp] at hbad
    obtain ⟨hfull, hsome, hbad⟩ := hbad
    obtain ⟨data, hm⟩ := Option.isSome_iff_exists.mp hsome
    have hgrow := h.grow_none (h.sub32_eq.symm.trans hfull) hbad data
    rw [step, add, if_pos hfull]
    simp only [hm, hgrow, Option.bind_none, Option.bind_eq_bind]
  | remove => exact absurd trivial hbad

/-! ### Runs -/

/-- A run has a result just if its calls are safe. -/
theorem Holds.run_isSome_iff {v : UVector} {q : List (List UInt8)} (h : Holds v q)
    (ops : List Op) :
  (run v ops).isSome ↔ SafeRun v ops
  := by
  induction ops generalizing v q with
  | nil => simp [run, SafeRun]
  | cons op ops ih =>
    rw [SafeRun]
    by_cases hsafe : Safe v op
    · obtain ⟨out, v', q', hstep, -, hv', -⟩ := h.step_of_safe hsafe
      have hrun : (run v (op :: ops)).isSome = (run v' ops).isSome := by
        rw [run, hstep]
        cases hrest : run v' ops with
        | none => simp [hrest]
        | some r => simp [hrest]
      rw [hrun, ih hv', hstep]
      constructor
      · intro hrest
        refine ⟨hsafe, ?_⟩
        rintro out₁ v₁ heq
        rw [Option.some.injEq, Prod.mk.injEq] at heq
        rw [← heq.2]
        exact hrest
      · rintro ⟨-, hrest⟩
        exact hrest out v' rfl
    · rw [run, h.step_of_not_safe hsafe]
      constructor
      · intro hnone
        simp at hnone
      · rintro ⟨hyes, -⟩
        exact absurd hyes hsafe

/-- A run gives what it gives for the queue. -/
theorem Holds.run {v : UVector} {q : List (List UInt8)} (h : Holds v q) {ops : List Op}
    {outs : List Out} {v' : UVector} (hrun : run v ops = some (outs, v')) :
  ∃ q', QueueRun v.elementSize q ops outs q' ∧ Holds v' q'
  := by
  induction ops generalizing v q outs with
  | nil =>
    rw [UVector.run, Option.some.injEq, Prod.mk.injEq] at hrun
    obtain ⟨rfl, rfl⟩ := hrun
    exact ⟨q, QueueRun.nil q, h⟩
  | cons op ops ih =>
    have hsafe : Safe v op := by
      by_contra hbad
      rw [UVector.run, h.step_of_not_safe hbad] at hrun
      simp at hrun
    obtain ⟨out, v₁, q₁, hstep, hqueue, hv₁, hes⟩ := h.step_of_safe hsafe
    rw [UVector.run, hstep] at hrun
    simp only [Option.bind_eq_bind, Option.bind_some, Option.bind_eq_some_iff] at hrun
    obtain ⟨⟨outs₁, v₂⟩, hrest, heq⟩ := hrun
    simp only [Option.pure_def, Option.some.injEq, Prod.mk.injEq] at heq
    obtain ⟨rfl, rfl⟩ := heq
    obtain ⟨q', hq', hv'⟩ := ih hv₁ hrest
    rw [hes] at hq'
    exact ⟨q', QueueRun.cons hqueue hq', hv'⟩

/-- The calls and what they give determine the queue. -/
theorem QueueRun.unique {elementSize : ℕ} {q q₁ q₂ : List (List UInt8)} {ops : List Op}
    {outs : List Out} (h₁ : QueueRun elementSize q ops outs q₁)
    (h₂ : QueueRun elementSize q ops outs q₂) :
  q₁ = q₂
  := by
  induction h₁ with
  | nil q =>
    cases h₂
    rfl
  | cons head tail ih =>
    cases h₂ with
    | cons head₂ tail₂ =>
      cases head <;> cases head₂ <;> exact ih tail₂

/-- The number of elements that were added. -/
def adds (outs : List Out) : ℕ := outs.countP fun out => out matches .added true

/-- The number of elements that were removed. -/
def removes (outs : List Out) : ℕ := outs.countP fun out => out matches .removed (some _)

/-- The elements of the queue are those that were added and not removed. -/
theorem QueueRun.adds_eq {elementSize : ℕ} {q q' : List (List UInt8)} {ops : List Op}
    {outs : List Out} (h : QueueRun elementSize q ops outs q') :
  q.length + adds outs = q'.length + removes outs
  := by
  induction h with
  | nil q => rfl
  | cons head tail ih =>
    unfold adds removes at ih ⊢
    cases head with
    | added q malloc x =>
      rw [List.length_append, List.length_singleton] at ih
      simp only [List.countP_cons, if_true, Bool.false_eq_true, if_false]
      omega
    | noMemory q x h =>
      simp only [List.countP_cons, Bool.false_eq_true, if_false]
      omega
    | removed x q =>
      rw [List.length_cons]
      simp only [List.countP_cons, if_true, Bool.false_eq_true, if_false]
      omega
    | empty =>
      simp only [List.countP_cons, Bool.false_eq_true, if_false]
      omega

/-- A vector is empty at first. -/
theorem init_eq {elementSize size : ℕ} (hes : ∃ j, elementSize = 2 ^ j)
    (hsize : ∃ k < 32, size = 2 ^ k) (hlt : elementSize < size) (data : ℕ → UInt8) :
  init elementSize size data = some ⟨0, 0, elementSize, size, data⟩ ∧
    Holds ⟨0, 0, elementSize, size, data⟩ []
  := by
  have hpow : ∀ k < 32, isPowerOfTwo (2 ^ k) = true := by decide
  obtain ⟨k, hk, rfl⟩ := hsize
  obtain ⟨j, rfl⟩ := hes
  have hjk : j < k := (Nat.pow_lt_pow_iff_right Nat.one_lt_two).mp hlt
  constructor
  · rw [init, if_pos]
    exact ⟨hpow k hk, hlt, hpow j (by omega)⟩
  · refine ⟨Nat.two_pow_pos j, Nat.pow_dvd_pow 2 hjk.le, ⟨k, hk, rfl⟩, Nat.two_pow_pos 32,
      dvd_zero _, ?_, ?_, ?_, ?_⟩
    · simp
    · simp
    · intro x hx
      exact absurd hx List.not_mem_nil
    · simp [window]

/-- Fewer elements than the largest signed number are there, and the counter of the head has not
wrapped around before that of the tail. -/
def Visible (v : UVector) : Prop :=
  v.tail ≤ v.head ∧ sub32 v.head v.tail / v.elementSize < 2 ^ 31

theorem Holds.visible_iff {v : UVector} {q : List (List UInt8)} (h : Holds v q) :
  Visible v ↔ v.length = q.length ∧ v.foreach = some q
  := by
  rw [Visible, h.sub32_eq, Nat.mul_div_cancel _ h.elementSize_pos, h.length_iff, h.foreach_iff]
  exact and_comm

/-- Elements are removed in the order in which they were added, the length and the loop are those of
the queue, and no assertion fails, just if the vector grows only below the largest size and before
its head has wrapped around, and the head has not wrapped around in the end. -/
theorem run_queue_iff {elementSize size : ℕ} (hes : ∃ j, elementSize = 2 ^ j)
    (hsize : ∃ k < 32, size = 2 ^ k) (hlt : elementSize < size) (data : ℕ → UInt8)
    (ops : List Op) :
  ∃ v₀, init elementSize size data = some v₀ ∧
    ((∃ outs v q, run v₀ ops = some (outs, v) ∧ QueueRun elementSize [] ops outs q ∧
        v.length = (adds outs : ℤ) - removes outs ∧ v.foreach = some q) ↔
      SafeRun v₀ ops ∧ ∀ outs v, run v₀ ops = some (outs, v) → Visible v) ∧
    ∀ outs v, run v₀ ops = some (outs, v) → ∃ q, QueueRun elementSize [] ops outs q
  := by
  obtain ⟨hinit, hholds⟩ := init_eq hes hsize hlt data
  refine ⟨_, hinit, ⟨?_, ?_⟩, ?_⟩
  · rintro ⟨outs, v, q, hrun, hqueue, hlength, hforeach⟩
    refine ⟨(hholds.run_isSome_iff ops).mp (by rw [hrun, Option.isSome_some]), ?_⟩
    intro outs₁ v₁ hrun₁
    rw [hrun, Option.some.injEq, Prod.mk.injEq] at hrun₁
    obtain ⟨rfl, rfl⟩ := hrun₁
    obtain ⟨q₁, hqueue₁, hv⟩ := hholds.run hrun
    obtain rfl := hqueue.unique hqueue₁
    have hcount := hqueue.adds_eq
    rw [List.length_nil] at hcount
    apply hv.visible_iff.mpr
    exact ⟨by omega, hforeach⟩
  · rintro ⟨hsafe, hvisible⟩
    obtain ⟨⟨outs, v⟩, hrun⟩ := Option.isSome_iff_exists.mp ((hholds.run_isSome_iff ops).mpr hsafe)
    obtain ⟨q, hqueue, hv⟩ := hholds.run hrun
    obtain ⟨hlength, hforeach⟩ := hv.visible_iff.mp (hvisible outs v hrun)
    have hcount := hqueue.adds_eq
    rw [List.length_nil] at hcount
    exact ⟨outs, v, q, hrun, hqueue, by omega, hforeach⟩
  · intro outs v hrun
    obtain ⟨q, hqueue, -⟩ := hholds.run hrun
    exact ⟨q, hqueue⟩

/-- The vector grows once, and an element is removed. -/
theorem run_queue_iff_grown :
  ∃ q, QueueRun 2 [] [.add (fun _ => none) [1, 2], .add (fun _ => none) [3, 4],
      .add (fun _ => some fun _ => 0) [5, 6], .remove]
    [.added true, .added true, .added true, .removed (some [1, 2])] q
  := by
  obtain ⟨v₀, hinit, -, hqueue⟩ := @run_queue_iff 2 4 ⟨1, rfl⟩ ⟨2, by decide, rfl⟩ (by decide)
    (fun _ => 0) [.add (fun _ => none) [1, 2], .add (fun _ => none) [3, 4],
      .add (fun _ => some fun _ => 0) [5, 6], .remove]
  obtain rfl := Option.some.inj hinit
  exact hqueue _ _ rfl

/-- Memory as it is used here: all zero. -/
def zeros : ℕ → Option (ℕ → UInt8) := fun _ => some fun _ => 0

/-- Two elements are there after the head has wrapped around, and the loop comes to none of them;
and the assertion of the growing fails where the head has wrapped around and the tail has not. -/
theorem run_wrapped :
  (∃ v₀, init (2 ^ 30) (2 ^ 31) (fun _ => 0) = some v₀ ∧
    ∃ outs v, run v₀ [.add zeros [], .add zeros [], .remove, .remove, .add zeros [],
        .add zeros []] = some (outs, v) ∧
      adds outs = 4 ∧ removes outs = 2 ∧ v.length = 2 ∧ v.foreach = some []) ∧
  ∃ v₀, init (2 ^ 29) (2 ^ 30) (fun _ => 0) = some v₀ ∧
    run v₀ ((List.replicate 7 [.add zeros [], .remove]).flatten ++
      [.add zeros [], .add zeros [], .add zeros []]) = none
  := by
  constructor
  · exact ⟨_, rfl, _, _, rfl, rfl, rfl, rfl, rfl⟩
  · exact ⟨_, rfl, rfl⟩

end UVector

end Util
