import Mesa.Glsl.PackedVaryings
import Mathlib.Data.List.Induction

/-!
# Where packed varyings fit

A varying is restored in the consumer whatever its type and its location are.  It fits into what the
linker reserves for it exactly when no vector of 64-bit components leaves a component of a slot
free.
-/

namespace Glsl.PackedVaryings

open Layout

/-! ### Locations -/

/-- Assignments that go up from one fine location to another one. -/
structure Lowers (as : List Assignment) (start stop : ℕ) : Prop where
  le : start ≤ stop
  within : ∀ a ∈ as, start ≤ a.fineLocation ∧ a.fineLocation + a.words ≤ stop
  ordered : as.Pairwise fun a b => a.fineLocation + a.words ≤ b.fineLocation
  reached : start = stop ∨ ∃ a ∈ as, 0 < a.words ∧ a.fineLocation + a.words = stop

theorem Lowers.nil (start : ℕ) :
  Lowers [] start start
  := ⟨le_refl _, by simp, List.Pairwise.nil, .inl rfl⟩

theorem Lowers.append {as bs : List Assignment} {start middle stop : ℕ}
    (h : Lowers as start middle) (h' : Lowers bs middle stop) :
  Lowers (as ++ bs) start stop
  := by
  constructor
  · exact h.le.trans h'.le
  · intro a ha
    have le := h.le
    have le' := h'.le
    rcases List.mem_append.mp ha with ha | ha
    · have w := h.within a ha
      omega
    · have w := h'.within a ha
      omega
  · apply List.pairwise_append.mpr
    refine ⟨h.ordered, h'.ordered, ?_⟩
    intro a ha b hb
    exact (h.within a ha).2.trans (h'.within b hb).1
  · rcases h'.reached with rfl | ⟨b, hb, pos, last⟩
    · rcases h.reached with rfl | ⟨a, ha, pos, last⟩
      · exact .inl rfl
      · exact .inr ⟨a, List.mem_append_left _ ha, pos, last⟩
    · exact .inr ⟨b, List.mem_append_right _ hb, pos, last⟩

theorem Lowers.singleton (a : Assignment) :
  Lowers [a] a.fineLocation (a.fineLocation + a.words)
  := by
  constructor
  · apply Nat.le_add_right
  · simp
  · apply List.pairwise_singleton
  · by_cases pos : 0 < a.words
    · exact .inr ⟨a, List.mem_singleton_self a, pos, rfl⟩
    · left
      omega

/-- How many components of a slot a vector leaves free. -/
def skipped (wide : Bool) (elements fineLocation : ℕ) : ℕ :=
  if wide ∧ elements ≠ 0 ∧ fineLocation % 2 = 1 ∧ ¬ (elements = 1 ∧ fineLocation % 4 = 1) then 1
  else 0

theorem alignedVector_iff (wide : Bool) (elements fineLocation : ℕ) :
  AlignedVector wide elements fineLocation ↔ skipped wide elements fineLocation = 0
  := by
  unfold AlignedVector skipped
  grind

/-- The left part of a vector fills its slot. -/
theorem skipped_leftComponents (wide : Bool) (fineLocation : ℕ) :
  skipped wide (leftComponents wide fineLocation) fineLocation = 0
  := by
  cases wide with
  | false => simp [skipped]
  | true =>
    simp only [skipped, leftComponents, ↓reduceIte, true_and, ite_eq_right_iff, one_ne_zero]
    omega

theorem skipped_of_even {wide : Bool} {count fineLocation : ℕ} (even : fineLocation % 2 = 0) :
  skipped wide count fineLocation = 0
  := by
  simp [skipped, even]

/-- What the right part of a vector leaves free is what the whole vector does. -/
theorem skipped_rightComponents {wide : Bool} {count fineLocation : ℕ}
    (double : 4 < count * dmul wide + fineLocation % 4)
    (nonzero : leftComponents wide fineLocation ≠ 0) :
  skipped wide (count - leftComponents wide fineLocation)
    (fineLocation + dmul wide * leftComponents wide fineLocation) =
    skipped wide count fineLocation
  := by
  cases wide with
  | false => simp [skipped]
  | true =>
    simp only [leftComponents, dmul, ↓reduceIte] at double nonzero ⊢
    simp only [skipped, true_and]
    congr 1
    apply propext
    omega

theorem skipped_of_last {wide : Bool} {count fineLocation : ℕ}
    (double : 4 < count * dmul wide + fineLocation % 4)
    (zero : leftComponents wide fineLocation = 0) :
  skipped wide count fineLocation = 1
  := by
  have last := mod_of_leftComponents zero
  cases wide with
  | false =>
    simp only [leftComponents, Bool.false_eq_true, ↓reduceIte] at zero
    omega
  | true =>
    simp only [dmul, ↓reduceIte] at double
    rw [skipped, if_pos]
    refine ⟨rfl, ?_, ?_, ?_⟩ <;> omega

theorem skipped_of_single {wide : Bool} {count fineLocation : ℕ}
    (single : ¬ 4 < count * dmul wide + fineLocation % 4) :
  skipped wide count fineLocation = 0
  := by
  cases wide with
  | false => simp [skipped]
  | true =>
    simp only [dmul, ↓reduceIte] at single
    rw [skipped, if_neg]
    omega

/-- Where the lowering of a vector ends. -/
theorem lowerVector_eq (path : Path) (wide : Bool) (vertexIndex first count fineLocation : ℕ) :
  (lowerVector path wide vertexIndex first count fineLocation).2 =
    fineLocation + dmul wide * count + skipped wide count fineLocation
  := by
  fun_induction lowerVector path wide vertexIndex first count fineLocation with
  | case1 first count fineLocation double right zero ih =>
    have even : (fineLocation + 1) % 2 = 0 := by
      have last := mod_of_leftComponents zero
      omega
    have whole : right = count := by
      rw [show right = count - leftComponents wide fineLocation from rfl, zero, Nat.sub_zero]
    rw [ih, skipped_of_even even, skipped_of_last double zero, whole]
    omega
  | case2 first count fineLocation double right nonzero left r ihl ihr =>
    have behind : left.2 = fineLocation + dmul wide * leftComponents wide fineLocation := by
      rw [show left.2 = _ from ihl, skipped_leftComponents, add_zero]
    have sum : dmul wide * leftComponents wide fineLocation + dmul wide * right =
        dmul wide * count := by
      have le := (leftComponents_lt double).le
      rw [← Nat.mul_add, show right = count - leftComponents wide fineLocation from rfl,
        Nat.add_sub_cancel' le]
    rw [ihr, behind, skipped_rightComponents double nonzero]
    omega
  | case3 first count fineLocation single =>
    rw [skipped_of_single single, mul_comm]
    rfl

theorem lowerVector_lowers (path : Path) (wide : Bool) (vertexIndex first count fineLocation : ℕ) :
  Lowers (lowerVector path wide vertexIndex first count fineLocation).1 fineLocation
    (lowerVector path wide vertexIndex first count fineLocation).2
  := by
  fun_induction lowerVector path wide vertexIndex first count fineLocation with
  | case1 first count fineLocation double right zero ih =>
    refine ⟨(Nat.le_succ _).trans ih.le, ?_, ih.ordered, ?_⟩
    · intro a ha
      have w := ih.within a ha
      omega
    · -- something is left for the next slot
      right
      apply ih.reached.resolve_left
      rw [lowerVector_eq]
      have pos : 0 < count := Nat.zero_lt_of_lt (leftComponents_lt double)
      have words : 0 < dmul wide * right := by
        rw [show right = count - leftComponents wide fineLocation from rfl, zero, Nat.sub_zero]
        apply Nat.mul_pos _ pos
        cases wide <;> decide
      omega
  | case2 first count fineLocation double right nonzero left r ihl ihr => exact ihl.append ihr
  | case3 first count fineLocation single =>
    exact Lowers.singleton ⟨path, first, count, wide, vertexIndex, fineLocation⟩

theorem lowerArraylike_lowers {lower : ℕ → ℕ → List Assignment × ℕ}
    (h : ∀ i fineLocation, Lowers (lower i fineLocation).1 fineLocation (lower i fineLocation).2)
    (n fineLocation : ℕ) :
  Lowers (lowerArraylike lower n fineLocation).1 fineLocation
    (lowerArraylike lower n fineLocation).2
  := by
  induction n with
  | zero => exact Lowers.nil fineLocation
  | succ n ih => exact ih.append (h n _)

mutual

/-- The assignments for a value go up from its fine location. -/
theorem lowerRvalue_lowers : ∀ (type : Layout.GlslType) (path : Path) (fineLocation vertexIndex : ℕ),
    Lowers (lowerRvalue type path fineLocation false vertexIndex).1 fineLocation
      (lowerRvalue type path fineLocation false vertexIndex).2
  | .vector wide elements, path, fineLocation, vertexIndex =>
    lowerVector_lowers path wide vertexIndex 0 elements fineLocation
  | .matrix wide columns rows, path, fineLocation, vertexIndex =>
    lowerArraylike_lowers (fun i => lowerVector_lowers (path ++ [i]) wide vertexIndex 0 rows)
      columns fineLocation
  | .array element length, path, fineLocation, vertexIndex =>
    lowerArraylike_lowers
      (fun i fineLocation => lowerRvalue_lowers element (path ++ [i]) fineLocation vertexIndex)
      length fineLocation
  | .record fields, path, fineLocation, vertexIndex =>
    lowerFields_lowers fields path 0 fineLocation vertexIndex

theorem lowerFields_lowers : ∀ (fields : Fields) (path : Path) (i fineLocation vertexIndex : ℕ),
    Lowers (lowerFields fields path i fineLocation vertexIndex).1 fineLocation
      (lowerFields fields path i fineLocation vertexIndex).2
  | .nil, _, _, fineLocation, _ => Lowers.nil fineLocation
  | .cons _ type rest, path, i, fineLocation, vertexIndex =>
    (lowerRvalue_lowers type (path ++ [i]) fineLocation vertexIndex).append
      (lowerFields_lowers rest path (i + 1) _ vertexIndex)

end

/-- A lowering ends behind the components that are reserved for it, exactly under a condition right
at its end. -/
structure Ends (start slots stop : ℕ) (aligned : Prop) : Prop where
  le : start + slots ≤ stop
  eq_iff : stop = start + slots ↔ aligned

theorem lowerVector_ends (path : Path) (wide : Bool) (vertexIndex first count fineLocation : ℕ) :
  Ends fineLocation (dmul wide * count)
    (lowerVector path wide vertexIndex first count fineLocation).2
    (AlignedVector wide count fineLocation)
  := by
  rw [lowerVector_eq]
  constructor
  · apply Nat.le_add_right
  · rw [alignedVector_iff]
    omega

/-- A lowering after another one. -/
theorem Ends.trans {start slots middle slots' stop : ℕ} {p : Prop} {q : ℕ → Prop}
    (h : Ends start slots middle p) (h' : Ends middle slots' stop (q middle)) :
  Ends start (slots + slots') stop (p ∧ q (start + slots))
  := by
  have le := h.le
  have le' := h'.le
  constructor
  · omega
  · constructor
    · intro eq
      have first : middle = start + slots := by omega
      have last : stop = middle + slots' := by omega
      refine ⟨h.eq_iff.mp first, ?_⟩
      rw [← first]
      exact h'.eq_iff.mp last
    · rintro ⟨hp, hq⟩
      have first := h.eq_iff.mpr hp
      rw [← first] at hq
      have last := h'.eq_iff.mpr hq
      omega

theorem lowerArraylike_ends {lower : ℕ → ℕ → List Assignment × ℕ} {slots : ℕ}
    {aligned : ℕ → Prop}
    (h : ∀ i fineLocation, Ends fineLocation slots (lower i fineLocation).2 (aligned fineLocation))
    (n fineLocation : ℕ) :
  Ends fineLocation (n * slots) (lowerArraylike lower n fineLocation).2
    (∀ i < n, aligned (fineLocation + i * slots))
  := by
  induction n with
  | zero => exact ⟨by simp [lowerArraylike], by simp [lowerArraylike]⟩
  | succ n ih =>
    have both := ih.trans (h n _)
    have all : (∀ i < n + 1, aligned (fineLocation + i * slots)) ↔
        (∀ i < n, aligned (fineLocation + i * slots)) ∧ aligned (fineLocation + n * slots) :=
      Nat.forall_lt_succ_right
    rw [Nat.succ_mul, all]
    exact both

mutual

theorem lowerRvalue_ends : ∀ (type : Layout.GlslType) (path : Path) (fineLocation vertexIndex : ℕ),
    Ends fineLocation (componentSlots type)
      (lowerRvalue type path fineLocation false vertexIndex).2 (Aligned type fineLocation)
  | .vector wide elements, path, fineLocation, vertexIndex =>
    lowerVector_ends path wide vertexIndex 0 elements fineLocation
  | .matrix wide columns rows, path, fineLocation, vertexIndex => by
    have h := lowerArraylike_ends
      (fun i => lowerVector_ends (path ++ [i]) wide vertexIndex 0 rows) columns fineLocation
    rw [componentSlots, mul_comm rows columns, mul_left_comm]
    exact h
  | .array element length, path, fineLocation, vertexIndex =>
    lowerArraylike_ends
      (fun i fineLocation => lowerRvalue_ends element (path ++ [i]) fineLocation vertexIndex) length
      fineLocation
  | .record fields, path, fineLocation, vertexIndex =>
    lowerFields_ends fields path 0 fineLocation vertexIndex

theorem lowerFields_ends : ∀ (fields : Fields) (path : Path) (i fineLocation vertexIndex : ℕ),
    Ends fineLocation (fieldsSlots fields) (lowerFields fields path i fineLocation vertexIndex).2
      (AlignedFields fields fineLocation)
  | .nil, _, _, fineLocation, _ => ⟨le_refl _, by simp [lowerFields, fieldsSlots, AlignedFields]⟩
  | .cons _ type rest, path, i, fineLocation, vertexIndex =>
    (lowerRvalue_ends type (path ++ [i]) fineLocation vertexIndex).trans
      (lowerFields_ends rest path (i + 1) _ vertexIndex)

end

/-- Without a gap a varying fits into what is reserved for it, and with one it does not. -/
theorem within_iff (type : Layout.GlslType) (fineLocation : ℕ) :
  (∀ a ∈ assignments type fineLocation, fineLocation ≤ a.fineLocation ∧
      a.fineLocation + a.words ≤ fineLocation + componentSlots type) ↔
    Aligned type fineLocation
  := by
  have lowers := lowerRvalue_lowers type [] fineLocation 0
  have ends := lowerRvalue_ends type [] fineLocation 0
  rw [← ends.eq_iff]
  constructor
  · intro within
    apply le_antisymm _ ends.le
    rcases lowers.reached with none | ⟨a, ha, -, last⟩
    · rw [← none]
      apply Nat.le_add_right
    · rw [← last]
      exact (within a ha).2
  · intro eq a ha
    rw [← eq]
    exact lowers.within a ha

/-! ### Components -/

/-- An assignment is about a component. -/
def Assignment.Covers (a : Assignment) (path : Path) (i : ℕ) : Prop :=
  path = a.path ∧ a.first ≤ i ∧ i < a.first + a.count

/-- Some assignment is about a component with so many bits. -/
def Covered (as : List Assignment) (path : Path) (i : ℕ) (wide : Bool) : Prop :=
  ∃ a ∈ as, a.Covers path i ∧ a.wide = wide

theorem covered_append {as bs : List Assignment} {path : Path} {i : ℕ} {wide : Bool} :
  Covered (as ++ bs) path i wide ↔ Covered as path i wide ∨ Covered bs path i wide
  := by
  simp only [Covered, List.mem_append, or_and_right, exists_or]

theorem covered_lowerVector (path : Path) (wide : Bool) (vertexIndex first count fineLocation : ℕ)
    (path' : Path) (i : ℕ) (wide' : Bool) :
  Covered (lowerVector path wide vertexIndex first count fineLocation).1 path' i wide' ↔
    path' = path ∧ (first ≤ i ∧ i < first + count) ∧ wide' = wide
  := by
  fun_induction lowerVector path wide vertexIndex first count fineLocation with
  | case1 first count fineLocation double right zero ih =>
    rw [ih, zero, add_zero, show right = count by simp [right, zero]]
  | case2 first count fineLocation double right nonzero left r ihl ihr =>
    have le := (leftComponents_lt double).le
    have split : (first ≤ i ∧ i < first + count) ↔
        (first ≤ i ∧ i < first + leftComponents wide fineLocation) ∨
        first + leftComponents wide fineLocation ≤ i ∧
          i < first + leftComponents wide fineLocation + right := by
      rw [show right = count - leftComponents wide fineLocation from rfl]
      omega
    rw [covered_append, ihl, ihr, split]
    grind
  | case3 first count fineLocation single =>
    simp only [Covered, Assignment.Covers, List.mem_singleton, exists_eq_left, and_assoc]
    grind

theorem covered_lowerArraylike {lower : ℕ → ℕ → List Assignment × ℕ} {path : Path} {i : ℕ}
    {wide : Bool} {p : ℕ → Prop}
    (h : ∀ k fineLocation, Covered (lower k fineLocation).1 path i wide ↔ p k)
    (n fineLocation : ℕ) :
  Covered (lowerArraylike lower n fineLocation).1 path i wide ↔ ∃ k < n, p k
  := by
  induction n with
  | zero => simp [lowerArraylike, Covered]
  | succ n ih =>
    have last : (∃ k < n + 1, p k) ↔ (∃ k < n, p k) ∨ p n := Nat.exists_lt_succ_right
    rw [last, ← ih, ← h n (lowerArraylike lower n fineLocation).2, ← covered_append]
    rfl

mutual

/-- The assignments for a value are about its components. -/
theorem covered_lowerRvalue : ∀ (type : Layout.GlslType) (path : Path) (fineLocation vertexIndex : ℕ)
    (path' : Path) (i : ℕ) (wide : Bool),
    Covered (lowerRvalue type path fineLocation false vertexIndex).1 path' i wide ↔
      ∃ rest, path' = path ++ rest ∧ Component type rest i wide
  | .vector wide elements, path, fineLocation, vertexIndex, path', i, wide' => by
    have h := covered_lowerVector path wide vertexIndex 0 elements fineLocation path' i wide'
    rw [lowerRvalue, h]
    simp [Component]
  | .matrix wide columns rows, path, fineLocation, vertexIndex, path', i, wide' => by
    have h := covered_lowerArraylike
      (fun k fineLocation => covered_lowerVector (path ++ [k]) wide vertexIndex 0 rows fineLocation
        path' i wide') columns fineLocation
    rw [lowerRvalue, h]
    constructor
    · rintro ⟨k, lt, rfl, ⟨-, bound⟩, rfl⟩
      exact ⟨[k], rfl, k, lt, rfl, by omega, rfl⟩
    · rintro ⟨_, rfl, k, lt, rfl, bound, rfl⟩
      exact ⟨k, lt, rfl, by omega, rfl⟩
  | .array element length, path, fineLocation, vertexIndex, path', i, wide' => by
    have h := covered_lowerArraylike
      (fun k fineLocation => covered_lowerRvalue element (path ++ [k]) fineLocation vertexIndex
        path' i wide') length fineLocation
    rw [lowerRvalue, if_neg Bool.false_ne_true, h]
    constructor
    · rintro ⟨k, lt, rest, rfl, component⟩
      exact ⟨k :: rest, by simp, k, lt, rest, rfl, component⟩
    · rintro ⟨_, rfl, k, lt, rest, rfl, component⟩
      exact ⟨k, lt, rest, by simp, component⟩
  | .record fields, path, fineLocation, vertexIndex, path', i, wide' =>
    covered_lowerFields fields path 0 fineLocation vertexIndex path' i wide'

theorem covered_lowerFields : ∀ (fields : Fields) (path : Path) (k fineLocation vertexIndex : ℕ)
    (path' : Path) (i : ℕ) (wide : Bool),
    Covered (lowerFields fields path k fineLocation vertexIndex).1 path' i wide ↔
      ∃ rest, path' = path ++ rest ∧ FieldComponent fields k rest i wide
  | .nil, path, k, fineLocation, vertexIndex, path', i, wide => by
    simp [lowerFields, Covered, FieldComponent]
  | .cons _ type rest, path, k, fineLocation, vertexIndex, path', i, wide => by
    have field := covered_lowerRvalue type (path ++ [k]) fineLocation vertexIndex path' i wide
    have others := covered_lowerFields rest path (k + 1)
      (lowerRvalue type (path ++ [k]) fineLocation false vertexIndex).2 vertexIndex path' i wide
    rw [lowerFields, covered_append, field, others]
    constructor
    · rintro (⟨rest', rfl, component⟩ | ⟨rest', rfl, component⟩)
      · exact ⟨k :: rest', by simp, .inl ⟨rest', rfl, component⟩⟩
      · exact ⟨rest', rfl, .inr component⟩
    · rintro ⟨_, rfl, ⟨rest', rfl, component⟩ | component⟩
      · exact .inl ⟨rest', by simp, component⟩
      · exact .inr ⟨_, rfl, component⟩

end

/-- The components of later fields have other paths. -/
theorem fieldComponent_path : ∀ (fields : Fields) {k : ℕ} {path : Path} {i : ℕ} {wide : Bool},
    FieldComponent fields k path i wide → ∃ k' rest, k ≤ k' ∧ path = k' :: rest
  | .cons _ _ _, k, _, _, _, .inl ⟨path', h, _⟩ => ⟨k, path', le_refl k, h⟩
  | .cons _ _ rest, k, _, _, _, .inr h => by
    obtain ⟨k', path', le, eq⟩ := fieldComponent_path rest h
    exact ⟨k', path', by omega, eq⟩

mutual

/-- The path of a component determines how many bits it has. -/
theorem component_wide : ∀ (type : Layout.GlslType) {path : Path} {i i' : ℕ} {wide wide' : Bool},
    Component type path i wide → Component type path i' wide' → wide = wide'
  | .vector _ _, _, _, _, _, _, h, h' => h.2.2.trans h'.2.2.symm
  | .matrix _ _ _, _, _, _, _, _, ⟨_, _, _, _, h⟩, ⟨_, _, _, _, h'⟩ => h.trans h'.symm
  | .array element _, _, _, _, _, _, ⟨k, _, rest, hp, h⟩, ⟨k', _, rest', hp', h'⟩ => by
    have same : rest = rest' := by
      rw [hp] at hp'
      exact (List.cons.inj hp').2
    rw [← same] at h'
    exact component_wide element h h'
  | .record fields, _, _, _, _, _, h, h' => fieldComponent_wide fields h h'

theorem fieldComponent_wide : ∀ (fields : Fields) {k : ℕ} {path : Path} {i i' : ℕ}
    {wide wide' : Bool}, FieldComponent fields k path i wide →
    FieldComponent fields k path i' wide' → wide = wide'
  | .cons _ type rest, k, path, i, i', wide, wide', h, h' => by
    have later {j : ℕ} {w : Bool} {path' : Path} (h : FieldComponent rest (k + 1) path j w) :
        path ≠ k :: path' := by
      obtain ⟨k', rest', le, rfl⟩ := fieldComponent_path rest h
      intro eq
      have same := (List.cons.inj eq).1
      omega
    rcases h with ⟨path₁, eq₁, h⟩ | h
    · rcases h' with ⟨path₂, eq₂, h'⟩ | h'
      · have same : path₁ = path₂ := by
          rw [eq₁] at eq₂
          exact (List.cons.inj eq₂).2
        rw [← same] at h'
        exact component_wide type h h'
      · exact absurd eq₁ (later h')
    · rcases h' with ⟨path₂, eq₂, h'⟩ | h'
      · exact absurd eq₂ (later h)
      · exact fieldComponent_wide rest h h'

end

/-! ### Words -/

/-- The two words of a component of 64 bits are put together again. -/
theorem pack2x32_unpack2x32 (x : BitVec 64) :
  pack2x32 (unpack2x32 x 0) (unpack2x32 x 1) = x
  := by
  apply BitVec.eq_of_getLsbD_eq
  intro i hi
  simp only [pack2x32, unpack2x32, BitVec.getLsbD_append, BitVec.getLsbD_extractLsb']
  split
  next low => simp [low]
  next high =>
    have lt : i - 32 < 32 := by omega
    have sum : 32 * 1 + (i - 32) = i := by omega
    simp [lt, sum]

/-- Later assignments leave alone what is before them. -/
theorem packAll_of_lt {as : List Assignment} {contents : Contents} {packed : Packed}
    {vertex location : ℕ} (h : ∀ a ∈ as, location < a.fineLocation) :
  packAll as contents packed vertex location = packed vertex location
  := by
  induction as generalizing packed with
  | nil => rfl
  | cons a as ih =>
    have first : location < a.fineLocation := h a List.mem_cons_self
    have outside : a.pack contents packed vertex location = packed vertex location := by
      rw [Assignment.pack, if_neg]
      omega
    rw [← outside]
    apply ih
    intro b hb
    exact h b (List.mem_cons_of_mem a hb)

/-- The words that an assignment packs stay. -/
theorem packAll_word {as : List Assignment} {contents : Contents} {packed : Packed}
    (ordered : as.Pairwise fun a b => a.fineLocation + a.words ≤ b.fineLocation)
    {a : Assignment} (ha : a ∈ as) {j : ℕ} (hj : j < a.words) :
  packAll as contents packed a.vertexIndex (a.fineLocation + j) = a.word contents j
  := by
  induction as generalizing packed with
  | nil => exact absurd ha List.not_mem_nil
  | cons b as ih =>
    obtain ⟨before, ordered⟩ := List.pairwise_cons.mp ordered
    rcases List.mem_cons.mp ha with rfl | ha
    · have packs : a.pack contents packed a.vertexIndex (a.fineLocation + j) =
          a.word contents j := by
        rw [Assignment.pack, if_pos ⟨rfl, Nat.le_add_right _ _, Nat.add_lt_add_left hj _⟩,
          Nat.add_sub_cancel_left]
      have stays : packAll as contents (a.pack contents packed) a.vertexIndex (a.fineLocation + j) =
          a.pack contents packed a.vertexIndex (a.fineLocation + j) := by
        apply packAll_of_lt
        intro c hc
        have le := before c hc
        omega
      exact stays.trans packs
    · exact ih ordered ha

/-- The components that an assignment unpacks are those that it packed. -/
theorem same_component {a : Assignment} {contents : Contents} {packed : Packed}
    (words : ∀ j < a.words, packed a.vertexIndex (a.fineLocation + j) = a.word contents j) {j : ℕ}
    (hj : j < a.count) :
  Same a.wide (a.component packed j) (contents a.path (a.first + j))
  := by
  unfold Same Assignment.component
  unfold Assignment.words Assignment.word dmul at words
  split
  next wide =>
    simp only [wide, ↓reduceIte] at words
    rw [words (2 * j) (by omega), add_assoc, words (2 * j + 1) (by omega)]
    have quotient : 2 * j / 2 = j := by omega
    have quotient' : (2 * j + 1) / 2 = j := by omega
    have remainder : 2 * j % 2 = 0 := by omega
    have remainder' : (2 * j + 1) % 2 = 1 := by omega
    rw [quotient, quotient', remainder, remainder', pack2x32_unpack2x32]
  next narrow =>
    simp only [narrow, Bool.false_eq_true, ↓reduceIte] at words
    rw [words j (by omega)]
    simp

/-- A component is what the assignments about it unpack, when they agree. -/
theorem unpackAll_same {as : List Assignment} {packed : Packed} {contents : Contents} {path : Path}
    {i : ℕ} {wide : Bool} {x : BitVec 64} (covered : ∃ a ∈ as, a.Covers path i)
    (agree : ∀ a ∈ as, a.Covers path i → Same wide (a.component packed (i - a.first)) x) :
  Same wide (unpackAll as packed contents path i) x
  := by
  induction as using List.reverseRecOn with
  | nil => simp at covered
  | append_singleton as b ih =>
    rw [unpackAll, List.foldl_append, List.foldl_cons, List.foldl_nil, Assignment.unpack]
    split
    next covers => exact agree b (by simp) covers
    next other =>
      apply ih
      · obtain ⟨a, ha, covers⟩ := covered
        rcases List.mem_append.mp ha with ha | ha
        · exact ⟨a, ha, covers⟩
        · rw [List.mem_singleton.mp ha] at covers
          exact absurd covers other
      · intro a ha
        exact agree a (List.mem_append_left _ ha)

/-- What is packed for a varying is unpacked from it. -/
theorem same_of_covers {type : Layout.GlslType} {fineLocation : ℕ} {contents : Contents}
    {packed : Packed} {a : Assignment} (ha : a ∈ assignments type fineLocation) {path : Path}
    {i : ℕ} {wide : Bool} (component : Component type path i wide) (covers : a.Covers path i) :
  Same wide (a.component (packAll (assignments type fineLocation) contents packed) (i - a.first))
    (contents path i)
  := by
  have ordered := (lowerRvalue_lowers type [] fineLocation 0).ordered
  obtain ⟨_, rfl, own⟩ := (covered_lowerRvalue type [] fineLocation 0 path i a.wide).mp
    ⟨a, ha, covers, rfl⟩
  obtain ⟨eq, lower, upper⟩ := covers
  rw [component_wide type component own, eq]
  have inside : i - a.first < a.count := by omega
  have words (j : ℕ) (hj : j < a.words) :
      packAll (assignments type fineLocation) contents packed a.vertexIndex (a.fineLocation + j) =
        a.word contents j := packAll_word ordered ha hj
  have same := same_component words inside
  rw [Nat.add_sub_cancel' lower] at same
  exact same

/-- The consumer finds what the producer packed, wherever vectors are split. -/
theorem restores (type : Layout.GlslType) (fineLocation : ℕ) :
  Restores type fineLocation
  := by
  intro contents contents' packed path i wide component
  apply unpackAll_same
  · obtain ⟨a, ha, covers, -⟩ := (covered_lowerRvalue type [] fineLocation 0 path i wide).mpr
      ⟨path, rfl, component⟩
    exact ⟨a, ha, covers⟩
  · intro a ha covers
    exact same_of_covers ha component covers

/-! ### Geometry shader inputs -/

/-- An assignment about a vertex of an array of vertices. -/
def Assignment.ofVertex (path : Path) (vertexIndex : ℕ) (a : Assignment) : Assignment :=
  { a with path := path ++ a.path, vertexIndex := vertexIndex }

theorem lowerVector_ofVertex (path path' : Path) (wide : Bool)
    (vertexIndex first count fineLocation : ℕ) :
  lowerVector (path ++ path') wide vertexIndex first count fineLocation =
    ((lowerVector path' wide 0 first count fineLocation).1.map
        (Assignment.ofVertex path vertexIndex),
      (lowerVector path' wide 0 first count fineLocation).2)
  := by
  fun_induction lowerVector path' wide 0 first count fineLocation with
  | case1 first count fineLocation double right zero ih =>
    rw [lowerVector, dif_pos double]
    simp only [dif_pos zero]
    exact ih
  | case2 first count fineLocation double right nonzero left r ihl ihr =>
    rw [lowerVector, dif_pos double]
    simp only [dif_neg nonzero]
    rw [ihl, ihr, List.map_append]
  | case3 first count fineLocation single =>
    rw [lowerVector, dif_neg single]
    rfl

theorem lowerArraylike_map {lower lower' : ℕ → ℕ → List Assignment × ℕ}
    {f : Assignment → Assignment}
    (h : ∀ i fineLocation, lower i fineLocation =
      ((lower' i fineLocation).1.map f, (lower' i fineLocation).2)) (n fineLocation : ℕ) :
  lowerArraylike lower n fineLocation =
    ((lowerArraylike lower' n fineLocation).1.map f, (lowerArraylike lower' n fineLocation).2)
  := by
  induction n with
  | zero => rfl
  | succ n ih =>
    rw [lowerArraylike, lowerArraylike, ih, h, List.map_append]

mutual

/-- The lowering does the same for every vertex. -/
theorem lowerRvalue_ofVertex : ∀ (type : Layout.GlslType) (path path' : Path)
    (fineLocation vertexIndex : ℕ),
    lowerRvalue type (path ++ path') fineLocation false vertexIndex =
      ((lowerRvalue type path' fineLocation false 0).1.map (Assignment.ofVertex path vertexIndex),
        (lowerRvalue type path' fineLocation false 0).2)
  | .vector wide elements, path, path', fineLocation, vertexIndex =>
    lowerVector_ofVertex path path' wide vertexIndex 0 elements fineLocation
  | .matrix wide columns rows, path, path', fineLocation, vertexIndex => by
    apply lowerArraylike_map
    intro i fineLocation
    rw [List.append_assoc]
    apply lowerVector_ofVertex
  | .array element length, path, path', fineLocation, vertexIndex => by
    apply lowerArraylike_map
    intro i fineLocation
    rw [List.append_assoc]
    apply lowerRvalue_ofVertex element
  | .record fields, path, path', fineLocation, vertexIndex =>
    lowerFields_ofVertex fields path path' 0 fineLocation vertexIndex

theorem lowerFields_ofVertex : ∀ (fields : Fields) (path path' : Path)
    (i fineLocation vertexIndex : ℕ),
    lowerFields fields (path ++ path') i fineLocation vertexIndex =
      ((lowerFields fields path' i fineLocation 0).1.map (Assignment.ofVertex path vertexIndex),
        (lowerFields fields path' i fineLocation 0).2)
  | .nil, _, _, _, _, _ => rfl
  | .cons _ type rest, path, path', i, fineLocation, vertexIndex => by
    rw [lowerFields, lowerFields, List.append_assoc, lowerRvalue_ofVertex type path (path' ++ [i]),
      lowerFields_ofVertex rest path path', List.map_append]

end

/-- The assignments of a geometry shader are those for each of its vertices. -/
theorem gsAssignments_eq (type : Layout.GlslType) (vertices fineLocation : ℕ) :
  gsAssignments type vertices fineLocation =
    (List.range vertices).flatMap fun m =>
      (assignments type fineLocation).map (Assignment.ofVertex [m] m)
  := by
  rw [gsAssignments, lowerRvalue, if_pos rfl, lowerVertices]
  apply List.flatMap_congr
  intro m _
  have h := lowerRvalue_ofVertex type [m] [] fineLocation m
  rw [List.append_nil] at h
  rw [List.nil_append, h]
  rfl

theorem vertexIndex_eq_zero {type : Layout.GlslType} {fineLocation : ℕ} {a : Assignment}
    (ha : a ∈ assignments type fineLocation) :
  a.vertexIndex = 0
  := by
  have h := lowerRvalue_ofVertex type [] [] fineLocation 0
  rw [List.append_nil] at h
  have same : (assignments type fineLocation).map (Assignment.ofVertex [] 0) =
      assignments type fineLocation := (congrArg Prod.fst h).symm
  rw [← same] at ha
  obtain ⟨b, -, rfl⟩ := List.mem_map.mp ha
  rfl

/-- A geometry shader finds what the producer packed for each vertex. -/
theorem restoresVertices (type : Layout.GlslType) (fineLocation : ℕ) :
  RestoresVertices type fineLocation
  := by
  intro contents contents' packed vertices m hm path i wide component
  rw [gsAssignments_eq]
  apply unpackAll_same
  · obtain ⟨a, ha, covers, -⟩ := (covered_lowerRvalue type [] fineLocation 0 path i wide).mpr
      ⟨path, rfl, component⟩
    refine ⟨a.ofVertex [m] m, ?_, ?_⟩
    · apply List.mem_flatMap.mpr
      exact ⟨m, List.mem_range.mpr hm, List.mem_map_of_mem ha⟩
    · exact ⟨congrArg (List.cons m) covers.1, covers.2⟩
  · intro b hb covers
    obtain ⟨m', -, hb⟩ := List.mem_flatMap.mp hb
    obtain ⟨a, ha, rfl⟩ := List.mem_map.mp hb
    obtain ⟨eq, range⟩ := covers
    obtain ⟨rfl, tails⟩ := List.cons.inj eq
    have same : Same wide
        (a.component (packAll (assignments type fineLocation) (contents m) (packed m))
          (i - a.first)) (contents m path i) := same_of_covers ha component ⟨tails, range⟩
    unfold Assignment.component at same ⊢
    rw [vertexIndex_eq_zero ha] at same
    exact same

/-! ### The reserved components -/

end Glsl.PackedVaryings
