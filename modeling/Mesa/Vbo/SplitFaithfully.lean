import Mesa.Vbo.SplitPieces

/-!
# When draws are split faithfully

A list of primitives is split faithfully exactly when none of them does harm where the splitting
comes to it: one that is issued whole is within the limit with all its vertices, and one that is
cut has no base vertex and, if it is a triangle strip, is cut after even numbers of triangles.
-/

namespace Vbo

variable {ib : Option IndexBuffer} {limit : ℕ} {split : SplitContext} {prim : MesaPrim}

/-- A primitive does no harm where the splitting comes to it. -/
def Harmless (ib : Option IndexBuffer) (limit : ℕ) (split : SplitContext) (prim : MesaPrim) :
    Prop :=
  prim.count < (splitPrimInplace prim.mode).1 ∨
    ∃ split', makeRoom ib limit split prim = some split' ∧
      (wholeCount prim ≤ getMaxVertices limit split' prim ∧
          Fits limit split' prim.start prim.count ∨
        getMaxVertices limit split' prim < wholeCount prim ∧
          CutsWell limit prim (primCount prim.mode prim.count) 0
            (getMaxVertices limit split' prim))

/-- No primitive of a list does harm. -/
def AllHarmless (ib : Option IndexBuffer) (limit : ℕ) (split : SplitContext)
    (prims : List MesaPrim) : Prop :=
  ∀ before prim after split', prims = before ++ prim :: after →
    before.foldlM (splitPrim ib limit) split = some split' → Harmless ib limit split' prim

/-- Afterwards there is room for the first vertices at least. -/
theorem Pending.makeRoom (pending : Pending split)
    (enough : (splitPrimInplace prim.mode).1 ≤ limit) (small : prim.start < 2 ^ 32) :
  ∃ split', makeRoom ib limit split prim = some split' ∧ Pending split' ∧
    drawn ib split' = drawn ib split ∧ (Good limit split' ↔ Good limit split) ∧
    (splitPrimInplace prim.mode).1 ≤ getMaxVertices limit split' prim
  := by
  rw [Vbo.makeRoom]
  by_cases far : getMaxVertices limit split prim < (splitPrimInplace prim.mode).1
  · obtain ⟨split', flushed, pending', empty, same, good⟩ :=
      pending.flushVertex
    rw [if_pos far]
    refine ⟨split', flushed, pending', same, good, ?_⟩
    rwa [pending'.getMaxVertices_of_empty empty small]
  · rw [if_neg far]
    exact ⟨split, rfl, pending, rfl, Iff.rfl, Nat.le_of_not_lt far⟩

/-- One primitive: what is drawn is as much as it draws, and it is the same within the limit exactly
when it does no harm. -/
theorem Pending.splitPrim (pending : Pending split)
    (enough : (splitPrimInplace prim.mode).1 ≤ limit)
    (small : prim.start + prim.count ≤ 2 ^ 32) :
  ∃ split' new, splitPrim ib limit split prim = some split' ∧ Pending split' ∧
    drawn ib split' = drawn ib split ++ new ∧
    new.length = (decompose (offsetOf ib) prim).length ∧
    (Good limit split' → Good limit split) ∧
    (Good limit split →
      (Good limit split' ∧ new = decompose (offsetOf ib) prim ↔ Harmless ib limit split prim))
  := by
  have first_pos := splitPrimInplace_pos prim.mode
  rw [Vbo.splitPrim, Harmless]
  by_cases few : prim.count < (splitPrimInplace prim.mode).1
  · have nothing : decompose (offsetOf ib) prim = [] := by
      rw [decompose, primCount, if_pos few]
      rfl
    rw [if_pos few, nothing]
    exact ⟨split, [], rfl, pending, (List.append_nil _).symm, rfl, id,
      fun good => ⟨fun _ => .inl few, fun _ => ⟨good, rfl⟩⟩⟩
  obtain ⟨split₁, made, pending₁, drawn₁, good₁, room⟩ :=
    pending.makeRoom enough
      (show prim.start < 2 ^ 32 by omega)
  rw [if_neg few, made, Option.bind_some]
  dsimp only
  by_cases whole : getMaxVertices limit split₁ prim ≥ wholeCount prim
  · obtain ⟨split', emitted, pending', drawn', good'⟩ :=
      pending₁.emit (show 1 ≤ prim.count by omega) small
    rw [if_pos whole]
    refine ⟨split', _, emitted, pending', by rw [drawn', drawn₁], rfl,
      fun good => good₁.mp (good'.mp good).1, fun good => ?_⟩
    constructor
    · rintro ⟨within, -⟩
      exact .inr ⟨split₁, rfl, .inl ⟨whole, (good'.mp within).2⟩⟩
    · rintro (few' | ⟨split₂, same, cases⟩)
      · exact absurd few' few
      · obtain rfl := Option.some.inj same
        rcases cases with ⟨-, fits⟩ | ⟨cut, -⟩
        · exact ⟨good'.mpr ⟨good₁.mpr good, fits⟩, rfl⟩
        · omega
  · have count_pos := primCount_pos (Nat.le_of_not_lt few)
    have small' : prim.start + vertexCount prim.mode (primCount prim.mode prim.count) ≤ 2 ^ 32 := by
      have := wholeCount_eq (Nat.le_of_not_lt few)
      rw [wholeCount] at this
      omega
    have rounds : primCount prim.mode prim.count ≤ 0 + wholeCount prim := by
      rw [wholeCount_eq (Nat.le_of_not_lt few), vertexCount]
      have := Nat.le_mul_of_pos_left (primCount prim.mode prim.count - 1) first_pos.1
      omega
    obtain ⟨split', pieces, cut, pending', drawn', length, faithful, good'⟩ :=
      cutLoop_spec enough small' (Nat.lt_of_lt_of_le Nat.zero_lt_one count_pos) rounds room
        (getMaxVertices_le limit split₁ prim) pending₁ (fun good count pos le => by
          rw [Nat.mul_zero, Nat.add_zero]
          exact good.fits pos le (Nat.le_trans le (getMaxVertices_le limit split₁ prim)))
    rw [Nat.mul_zero, ← wholeCount_eq (Nat.le_of_not_lt few)] at cut
    rw [Nat.sub_zero] at length faithful
    rw [segment_zero] at faithful
    rw [if_neg whole]
    refine ⟨split', pieces, cut, pending', by rw [drawn', drawn₁], ?_,
      fun good => good₁.mp (good'.mp good), fun good => ?_⟩
    · rw [length, ← segment_zero, length_segment]
    · rw [faithful]
      constructor
      · rintro ⟨-, well⟩
        exact .inr ⟨split₁, rfl, .inr ⟨by omega, well⟩⟩
      · rintro (few' | ⟨split₂, same, cases⟩)
        · exact absurd few' few
        · obtain rfl := Option.some.inj same
          rcases cases with ⟨fit, -⟩ | ⟨-, well⟩
          · omega
          · exact ⟨good'.mpr (good₁.mpr good), well⟩

theorem allHarmless_cons_iff {prims : List MesaPrim} {split' : SplitContext}
    (stepped : splitPrim ib limit split prim = some split') :
  AllHarmless ib limit split (prim :: prims) ↔
    Harmless ib limit split prim ∧ AllHarmless ib limit split' prims
  := by
  constructor
  · intro all
    refine ⟨all [] prim prims split rfl rfl, ?_⟩
    intro before other after split'' parts ran
    apply all (prim :: before) other after split''
    · rw [parts, List.cons_append]
    · rw [List.foldlM_cons, stepped]
      exact ran
  · rintro ⟨first, rest⟩ before other after split'' parts ran
    rcases before with _ | ⟨head, before⟩
    · obtain ⟨rfl, -⟩ := List.cons.inj parts
      obtain rfl := Option.some.inj ran
      exact first
    · obtain ⟨rfl, tail⟩ := List.cons.inj parts
      rw [List.foldlM_cons, stepped] at ran
      exact rest before other after split'' tail ran

/-- All primitives.  By induction on those that are left. -/
theorem Pending.run (pending : Pending split) {prims : List MesaPrim}
    (enough : ∀ prim ∈ prims, (splitPrimInplace prim.mode).1 ≤ limit)
    (small : ∀ prim ∈ prims, prim.start + prim.count ≤ 2 ^ 32) :
  ∃ split' new, prims.foldlM (Vbo.splitPrim ib limit) split = some split' ∧ Pending split' ∧
    drawn ib split' = drawn ib split ++ new ∧
    new.length = (prims.flatMap (decompose (offsetOf ib))).length ∧
    (Good limit split' → Good limit split) ∧
    (Good limit split → (Good limit split' ∧ new = prims.flatMap (decompose (offsetOf ib)) ↔
      AllHarmless ib limit split prims))
  := by
  induction prims generalizing split with
  | nil =>
    refine ⟨split, [], rfl, pending, (List.append_nil _).symm, rfl, id, fun good => ?_⟩
    refine ⟨fun _ before prim after _ parts => ?_, fun _ => ⟨good, rfl⟩⟩
    simp at parts
  | cons prim prims ih =>
    obtain ⟨split₁, new₁, stepped, pending₁, drawn₁, length₁, back₁, faithful₁⟩ :=
      pending.splitPrim (enough prim List.mem_cons_self)
        (small prim List.mem_cons_self)
    obtain ⟨split', new, ran, pending', drawn', length, back, faithful⟩ :=
      ih pending₁ (fun prim mem => enough prim (List.mem_cons_of_mem _ mem))
        (fun prim mem => small prim (List.mem_cons_of_mem _ mem))
    rw [List.flatMap_cons, allHarmless_cons_iff stepped]
    refine ⟨split', new₁ ++ new, ?_, pending', ?_, ?_, fun good => back₁ (back good),
      fun good => ?_⟩
    · rw [List.foldlM_cons, stepped]
      exact ran
    · rw [drawn', drawn₁, List.append_assoc]
    · rw [List.length_append, List.length_append, length₁, length]
    · rw [← faithful₁ good]
      constructor
      · rintro ⟨within, same⟩
        obtain ⟨first, rest⟩ := List.append_inj same length₁
        exact ⟨⟨back within, first⟩, (faithful (back within)).mp ⟨within, rest⟩⟩
      · rintro ⟨⟨within, first⟩, rest⟩
        obtain ⟨within', same⟩ := (faithful within).mpr rest
        exact ⟨within', by rw [first, same]⟩

/-- A strip of four triangles. -/
def fourTriangles : MesaPrim := ⟨.triangleStrip, false, true, true, 0, 6, 0, 1, 0, 0⟩

end Vbo
