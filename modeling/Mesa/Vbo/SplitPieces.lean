import Mesa.Vbo.SplitInplace

/-!
# What is drawn when draws are split

The primitives that are collected, flushed and cut: nothing is lost, and what the pieces draw is
what the primitive draws, exactly when the pieces of a triangle strip begin with even triangles and
there is no base vertex.
-/

namespace Vbo

variable {ib : Option IndexBuffer} {limit : ℕ} {split : SplitContext} {prim : MesaPrim}

/-! ### The collected primitives -/

/-- The collected primitives have vertices, and these are in the range. -/
structure Pending (split : SplitContext) : Prop where
  empty : split.dstprim = [] → split.minIndex = noIndex ∧ split.maxIndex = 0
  bounds : ∀ prim ∈ split.dstprim,
    split.minIndex ≤ prim.start ∧ 1 ≤ prim.count ∧ prim.start + prim.count ≤ split.maxIndex + 1

/-- The draws and the collected primitives are within the limit. -/
structure Good (limit : ℕ) (split : SplitContext) : Prop where
  pending : split.dstprim ≠ [] → split.maxIndex < split.minIndex + limit
  draws : ∀ d ∈ split.draws, d.Within limit

/-- What has been drawn, together with what has been collected. -/
def drawn (ib : Option IndexBuffer) (split : SplitContext) : List Primitive :=
  split.draws.flatMap Draw.primitives ++ split.dstprim.flatMap (decompose (offsetOf ib))

/-- Whether a primitive is put beside others. -/
def Joins (split : SplitContext) : Prop :=
  split.dstprim ≠ [] ∧ split.dstprim.length ≠ maxPrim - 1

/-- A range of vertices can be collected within the limit. -/
def Fits (limit : ℕ) (split : SplitContext) (start count : ℕ) : Prop :=
  count ≤ limit ∧ (Joins split → start + count ≤ min split.minIndex start + limit ∧
    split.maxIndex < min split.minIndex start + limit)

theorem Pending.min_le_max (pending : Pending split) (ne : split.dstprim ≠ []) :
  split.minIndex ≤ split.maxIndex
  := by
  obtain ⟨prim, mem⟩ := List.exists_mem_of_ne_nil _ ne
  have := pending.bounds prim mem
  omega

theorem pending_empty (draws : List Draw) :
  Pending ⟨noIndex, 0, [], draws⟩
  := ⟨fun _ => ⟨rfl, rfl⟩, fun _ mem => absurd mem List.not_mem_nil⟩

/-- The primitives of a buffer that begins later are the same. -/
theorem decompose_rebase {offset base : ℕ} (le : base ≤ prim.start) :
  decompose (offset + base) { prim with start := prim.start - base } = decompose offset prim
  := by
  have start : offset + base + (prim.start - base) = offset + prim.start := by omega
  rw [decompose, decompose]
  dsimp only
  rw [start]

theorem Pending.primitives_flushedDraw (pending : Pending split) :
  (flushedDraw ib split).primitives = split.dstprim.flatMap (decompose (offsetOf ib))
  := by
  cases ib with
  | none => rfl
  | some ib =>
    rw [flushedDraw, Draw.primitives, List.flatMap_map]
    apply List.flatMap_congr
    intro prim mem
    exact decompose_rebase (pending.bounds prim mem).1

theorem Pending.within_flushedDraw (pending : Pending split) (ne : split.dstprim ≠ []) :
  (flushedDraw ib split).Within limit ↔ split.maxIndex < split.minIndex + limit
  := by
  have le := pending.min_le_max ne
  constructor
  · intro within
    have span := within.span
    cases ib <;> · dsimp only [flushedDraw] at span; omega
  · intro short
    cases ib with
    | none =>
      refine ⟨by dsimp only [flushedDraw]; omega, ?_⟩
      intro prim mem
      have := pending.bounds prim mem
      dsimp only [flushedDraw, Option.elim]
      omega
    | some ib =>
      refine ⟨by dsimp only [flushedDraw]; omega, ?_⟩
      intro rebased mem
      obtain ⟨prim, collected, rfl⟩ := List.mem_map.mp mem
      have := pending.bounds prim collected
      dsimp only [flushedDraw, Option.elim]
      omega

/-- A flush draws what has been collected. -/
theorem Pending.flushVertex (pending : Pending split) :
  ∃ split', flushVertex ib split = some split' ∧ Pending split' ∧ split'.dstprim = [] ∧
    drawn ib split' = drawn ib split ∧ (Good limit split' ↔ Good limit split)
  := by
  rw [Vbo.flushVertex]
  by_cases empty : split.dstprim = []
  · rw [if_pos (by rw [empty]; rfl)]
    exact ⟨split, rfl, pending, empty, rfl, Iff.rfl⟩
  · have ne : split.dstprim.length ≠ 0 := fun zero => empty (List.length_eq_zero_iff.mp zero)
    rw [if_neg ne, if_pos (pending.min_le_max empty)]
    refine ⟨_, rfl, pending_empty _, rfl, ?_, ?_⟩
    · rw [drawn, drawn, List.flatMap_append, List.flatMap_singleton,
        pending.primitives_flushedDraw]
      exact List.append_nil _
    · constructor
      · intro good
        refine ⟨fun _ => ?_, fun d mem => good.draws d (List.mem_append_left _ mem)⟩
        rw [← pending.within_flushedDraw empty]
        exact good.draws _ (List.mem_append_right _ (List.mem_singleton_self _))
      · intro good
        refine ⟨fun ne => absurd rfl ne, ?_⟩
        intro d mem
        rcases List.mem_append.mp mem with mem | mem
        · exact good.draws d mem
        · rw [List.mem_singleton.mp mem, pending.within_flushedDraw empty]
          exact good.pending empty

/-- A primitive is collected, and it is within the limit if it fits. -/
theorem Pending.emit (pending : Pending split) (pos : 1 ≤ prim.count)
    (small : prim.start + prim.count ≤ 2 ^ 32) :
  ∃ split', emit ib split prim = some split' ∧ Pending split' ∧
    drawn ib split' = drawn ib split ++ decompose (offsetOf ib) prim ∧
    (Good limit split' ↔ Good limit split ∧ Fits limit split prim.start prim.count)
  := by
  -- what `next_outprim` does before
  obtain ⟨split₁, next, pending₁, drawn₁, good₁, fits₁⟩ : ∃ split₁, nextOutprim ib split = some split₁ ∧
      Pending split₁ ∧ drawn ib split₁ = drawn ib split ∧
      (Good limit split₁ ↔ Good limit split) ∧
      (Joins split ∧ split₁ = split ∨ ¬ Joins split ∧ split₁.dstprim = []) := by
    rw [nextOutprim]
    by_cases full : split.dstprim.length = maxPrim - 1
    · obtain ⟨split', flushed, pending', empty, same, good⟩ :=
        pending.flushVertex
      rw [if_pos full]
      exact ⟨split', flushed, pending', same, good, .inr ⟨fun joins => joins.2 full, empty⟩⟩
    · rw [if_neg full]
      refine ⟨split, rfl, pending, rfl, Iff.rfl, ?_⟩
      by_cases empty : split.dstprim = []
      · exact .inr ⟨fun joins => joins.1 empty, empty⟩
      · exact .inl ⟨⟨empty, full⟩, rfl⟩
  rw [Vbo.emit, next, Option.map_some]
  refine ⟨_, rfl, ⟨?_, ?_⟩, ?_, ?_⟩
  · intro empty
    simp [updateIndexBounds] at empty
  · intro other mem
    dsimp only [updateIndexBounds] at mem ⊢
    rcases List.mem_append.mp mem with mem | mem
    · have := pending₁.bounds other mem
      omega
    · rw [List.mem_singleton.mp mem]
      omega
  · rw [← drawn₁, drawn, drawn]
    dsimp only [updateIndexBounds]
    rw [List.flatMap_append, List.flatMap_singleton, List.append_assoc]
  · rw [← good₁, Fits]
    dsimp only [updateIndexBounds]
    have ne : split₁.dstprim ++ [prim] ≠ [] := by simp
    have limited : Good limit (updateIndexBounds
          { split₁ with dstprim := split₁.dstprim ++ [prim] } prim) ↔
        max split₁.maxIndex (prim.start + prim.count - 1) <
          min split₁.minIndex prim.start + limit ∧ ∀ d ∈ split₁.draws, d.Within limit := by
      constructor
      · exact fun good => ⟨good.pending ne, good.draws⟩
      · exact fun h => ⟨fun _ => h.1, h.2⟩
    dsimp only [updateIndexBounds] at limited
    rw [limited]
    rcases fits₁ with ⟨joins, rfl⟩ | ⟨apart, empty⟩
    · constructor
      · rintro ⟨short, draws⟩
        exact ⟨⟨fun _ => by omega, draws⟩, by omega, fun _ => ⟨by omega, by omega⟩⟩
      · rintro ⟨good, -, fits⟩
        have := fits joins
        exact ⟨by omega, good.draws⟩
    · obtain ⟨low, high⟩ := pending₁.empty empty
      have value : noIndex = 2 ^ 32 - 1 := rfl
      rw [low, high, value]
      constructor
      · rintro ⟨short, draws⟩
        exact ⟨⟨fun ne => absurd empty ne, draws⟩, by omega, fun joins => absurd joins apart⟩
      · rintro ⟨good, short, -⟩
        exact ⟨by omega, good.draws⟩

/-- What fits when there is room. -/
theorem Good.fits (good : Good limit split) {count : ℕ} (pos : 1 ≤ count)
    (room : count ≤ getMaxVertices limit split prim) (short : count ≤ limit) :
  Fits limit split prim.start count
  := by
  refine ⟨short, ?_⟩
  rintro ⟨ne, -⟩
  have := good.pending ne
  rw [getMaxVertices] at room
  split at room <;> omega

/-- Where nothing has been collected, there is room for as many vertices as the limit. -/
theorem Pending.getMaxVertices_of_empty (pending : Pending split) (empty : split.dstprim = [])
    (small : prim.start < 2 ^ 32) :
  getMaxVertices limit split prim = limit
  := by
  obtain ⟨low, high⟩ := pending.empty empty
  have value : noIndex = 2 ^ 32 - 1 := rfl
  rw [getMaxVertices, low, high, value, if_neg (by omega)]
  omega

theorem getMaxVertices_le (limit : ℕ) (split : SplitContext) (prim : MesaPrim) :
  getMaxVertices limit split prim ≤ limit
  := by
  rw [getMaxVertices]
  split <;> omega

/-! ### Numbers of primitives -/

theorem splitPrimInplace_pos (mode : Mode) :
  0 < (splitPrimInplace mode).2 ∧ (splitPrimInplace mode).2 ≤ (splitPrimInplace mode).1
  := by
  cases mode <;> decide

/-- The number of vertices of a number of primitives. -/
def vertexCount (mode : Mode) (n : ℕ) : ℕ :=
  (splitPrimInplace mode).1 + (splitPrimInplace mode).2 * (n - 1)

theorem primCount_vertexCount (mode : Mode) {n : ℕ} (pos : 1 ≤ n) :
  primCount mode (vertexCount mode n) = n
  := by
  have incr := (splitPrimInplace_pos mode).1
  rw [primCount, vertexCount, if_neg (by omega), Nat.add_sub_cancel_left,
    Nat.mul_div_cancel_left _ incr]
  omega

theorem primCount_pos {mode : Mode} {count : ℕ} (enough : (splitPrimInplace mode).1 ≤ count) :
  1 ≤ primCount mode count
  := by
  rw [primCount, if_neg (by omega)]
  exact Nat.le_add_left 1 _

theorem wholeCount_eq (enough : (splitPrimInplace prim.mode).1 ≤ prim.count) :
  wholeCount prim = vertexCount prim.mode (primCount prim.mode prim.count)
  := by
  rw [wholeCount, vertexCount, primCount, if_neg (by omega), Nat.add_sub_cancel]
  have := Nat.div_add_mod (prim.count - (splitPrimInplace prim.mode).1)
    (splitPrimInplace prim.mode).2
  omega

/-- A piece has as many primitives as there is room for, if there are so many left. -/
theorem pieceCount_eq {mode : Mode} {available m : ℕ}
    (enough : (splitPrimInplace mode).1 ≤ available) (pos : 1 ≤ m) :
  pieceCount mode available (vertexCount mode m) =
    vertexCount mode (min (primCount mode available) m)
  := by
  have roomy : ¬ available < (splitPrimInplace mode).1 := by omega
  have incr := (splitPrimInplace_pos mode).1
  rw [primCount, if_neg roomy, pieceCount, vertexCount, vertexCount]
  generalize (splitPrimInplace mode).1 = first at enough ⊢
  generalize (splitPrimInplace mode).2 = step at incr ⊢
  have le : first ≤ min available (first + step * (m - 1)) := by omega
  have whole := Nat.div_add_mod (min available (first + step * (m - 1)) - first) step
  have quotient : (min available (first + step * (m - 1)) - first) / step =
      min ((available - first) / step + 1) m - 1 := by
    have room := Nat.mul_div_cancel_left (m - 1) incr
    rw [← Nat.sub_min_sub_right, Nat.add_sub_cancel_left]
    rcases Nat.le_total (available - first) (step * (m - 1)) with less | more
    · have le := Nat.div_le_div_right (c := step) less
      rw [room] at le
      rw [Nat.min_eq_left less, Nat.min_eq_left (by omega), Nat.add_sub_cancel]
    · have le := Nat.div_le_div_right (c := step) more
      rw [room] at le
      rw [Nat.min_eq_right more, Nat.min_eq_right (by omega), room]
  rw [quotient] at whole
  omega

theorem pieceCount_le (mode : Mode) (available remaining : ℕ) :
  pieceCount mode available remaining ≤ available
  := by
  rw [pieceCount]
  omega

theorem vertexCount_inj {mode : Mode} {n m : ℕ} (pos : 1 ≤ n) (pos' : 1 ≤ m)
    (same : vertexCount mode n = vertexCount mode m) :
  n = m
  := by
  rw [← primCount_vertexCount mode pos, same, primCount_vertexCount mode pos']

/-- The primitives of a part of a primitive. -/
def segment (ib : Option IndexBuffer) (prim : MesaPrim) (i n : ℕ) : List Primitive :=
  (List.range n).map fun k =>
    ⟨vertices ((i + k) % 2 = 1)
      (offsetOf ib + prim.start + (splitPrimInplace prim.mode).2 * (i + k)) prim.mode,
      prim.basevertex, prim.numInstances, prim.baseInstance⟩

theorem segment_zero (ib : Option IndexBuffer) (prim : MesaPrim) :
  segment ib prim 0 (primCount prim.mode prim.count) = decompose (offsetOf ib) prim
  := by
  rw [segment, decompose]
  simp only [Nat.zero_add]

theorem length_segment (i n : ℕ) :
  (segment ib prim i n).length = n
  := by
  rw [segment, List.length_map, List.length_range]

theorem segment_add (i n m : ℕ) :
  segment ib prim i (n + m) = segment ib prim i n ++ segment ib prim (i + n) m
  := by
  rw [segment, List.range_add, List.map_append, List.map_map]
  simp only [segment, Function.comp_def, Nat.add_assoc]

/-- A piece draws a part of the primitive when it has the base vertex, and begins with a triangle
that is not turned around. -/
theorem decompose_piece_eq_iff {i n remaining : ℕ} (pos : 1 ≤ n) :
  decompose (offsetOf ib) (piece prim ((splitPrimInplace prim.mode).2 * i)
      (vertexCount prim.mode n) remaining) = segment ib prim i n ↔
    prim.basevertex = 0 ∧ (prim.mode = .triangleStrip → i % 2 = 0)
  := by
  have count : primCount prim.mode (vertexCount prim.mode n) = n :=
    primCount_vertexCount prim.mode pos
  rw [decompose, segment]
  dsimp only [piece]
  rw [count]
  constructor
  · intro same
    have first := List.map_inj_left.mp same 0 (List.mem_range.mpr pos)
    obtain ⟨vertices_eq, basevertex, -, -⟩ := Primitive.mk.inj first
    refine ⟨basevertex.symm, ?_⟩
    intro strip
    rw [strip] at vertices_eq
    simpa [vertices, splitPrimInplace, Nat.add_assoc] using vertices_eq
  · rintro ⟨basevertex, even⟩
    apply List.map_congr_left
    intro k _
    rw [basevertex]
    have place : offsetOf ib + (prim.start + (splitPrimInplace prim.mode).2 * i) +
        (splitPrimInplace prim.mode).2 * k =
        offsetOf ib + prim.start + (splitPrimInplace prim.mode).2 * (i + k) := by
      rw [Nat.mul_add]
      omega
    rw [place]
    have turned : vertices (k % 2 = 1)
        (offsetOf ib + prim.start + (splitPrimInplace prim.mode).2 * (i + k)) prim.mode =
        vertices ((i + k) % 2 = 1)
          (offsetOf ib + prim.start + (splitPrimInplace prim.mode).2 * (i + k)) prim.mode := by
      cases mode : prim.mode
      case triangleStrip =>
        have := even mode
        have parity : (i + k) % 2 = k % 2 := by omega
        rw [parity]
      all_goals rfl
    rw [turned]

/-! ### Cutting a primitive -/

/-- What is cut off from a primitive has no base vertex; and the pieces of a triangle strip from the
triangle `i` on begin with triangles that are not turned around, when there is room for some
vertices in the first one and for as many as the limit in the later ones. -/
def CutsWell (limit : ℕ) (prim : MesaPrim) (N i available : ℕ) : Prop :=
  prim.basevertex = 0 ∧ (prim.mode = .triangleStrip → i % 2 = 0 ∧
    (N ≤ i + primCount prim.mode available ∨ primCount prim.mode available % 2 = 0 ∧
      (N ≤ i + primCount prim.mode available + primCount prim.mode limit ∨
        primCount prim.mode limit % 2 = 0)))

/-- The pieces from the primitive `i` on.  By induction on the rounds. -/
theorem cutLoop_spec (enough_limit : (splitPrimInplace prim.mode).1 ≤ limit) {N : ℕ}
    (small : prim.start + vertexCount prim.mode N ≤ 2 ^ 32) {fuel i available : ℕ} (lt : i < N)
    (rounds : N ≤ i + fuel) (enough : (splitPrimInplace prim.mode).1 ≤ available)
    (available_le : available ≤ limit) (pending : Pending split)
    (fits : Good limit split → ∀ count, 1 ≤ count → count ≤ available →
      Fits limit split (prim.start + (splitPrimInplace prim.mode).2 * i) count) :
  ∃ split' pieces, cutLoop ib limit prim (vertexCount prim.mode N) fuel
      ((splitPrimInplace prim.mode).2 * i) available split = some split' ∧
    Pending split' ∧ drawn ib split' = drawn ib split ++ pieces ∧ pieces.length = N - i ∧
    (pieces = segment ib prim i (N - i) ↔ CutsWell limit prim N i available) ∧
    (Good limit split' ↔ Good limit split)
  := by
  induction fuel generalizing i available split with
  | zero => omega
  | succ fuel ih =>
    obtain ⟨incr_pos, incr_le⟩ := splitPrimInplace_pos prim.mode
    have total : vertexCount prim.mode N =
        (splitPrimInplace prim.mode).2 * i + vertexCount prim.mode (N - i) := by
      have split : N - 1 = i + (N - i - 1) := by omega
      rw [vertexCount, vertexCount, split, Nat.mul_add]
      omega
    have left_pos : 1 ≤ N - i := by omega
    have count_pos : ∀ n, 1 ≤ vertexCount prim.mode n := by
      intro n
      rw [vertexCount]
      omega
    have before : (splitPrimInplace prim.mode).2 * i < vertexCount prim.mode N := by
      have := count_pos (N - i)
      omega
    have remaining : vertexCount prim.mode N - (splitPrimInplace prim.mode).2 * i =
        vertexCount prim.mode (N - i) := by omega
    have room_pos := primCount_pos enough
    generalize capacity : primCount prim.mode available = room at room_pos
    have piece_eq := pieceCount_eq enough left_pos
    have piece_le := pieceCount_le prim.mode available (vertexCount prim.mode (N - i))
    rw [piece_eq, capacity] at piece_le
    rw [cutLoop, if_pos before]
    dsimp only
    rw [remaining, piece_eq, capacity]
    have n_pos : 1 ≤ min room (N - i) := by omega
    have within : vertexCount prim.mode (min room (N - i)) ≤ vertexCount prim.mode (N - i) := by
      rw [vertexCount, vertexCount]
      have := Nat.mul_le_mul_left (splitPrimInplace prim.mode).2
        (show min room (N - i) - 1 ≤ N - i - 1 by omega)
      omega
    obtain ⟨split₁, emitted, pending₁, drawn₁, good₁⟩ := @Pending.emit ib limit split
      (piece prim ((splitPrimInplace prim.mode).2 * i)
        (vertexCount prim.mode (min room (N - i))) (vertexCount prim.mode (N - i)))
      pending (count_pos _) (by dsimp only [piece]; omega)
    have good₁ : Good limit split₁ ↔ Good limit split := by
      rw [good₁]
      exact ⟨And.left, fun good => ⟨good, fits good _ (count_pos _) piece_le⟩⟩
    have first := @decompose_piece_eq_iff ib prim i _ (vertexCount prim.mode (N - i)) n_pos
    have length : (decompose (offsetOf ib) (piece prim ((splitPrimInplace prim.mode).2 * i)
        (vertexCount prim.mode (min room (N - i))) (vertexCount prim.mode (N - i)))).length =
        min room (N - i) := by
      rw [decompose, List.length_map, List.length_range]
      exact primCount_vertexCount prim.mode n_pos
    rw [emitted, Option.bind_some]
    by_cases last : N - i ≤ room
    case pos =>
      have all : min room (N - i) = N - i := by omega
      rw [all] at first length drawn₁ ⊢
      have finished : ∀ fuel, cutLoop ib limit prim (vertexCount prim.mode N) fuel
          ((splitPrimInplace prim.mode).2 * i + vertexCount prim.mode (N - i)) available split₁ =
          some split₁ := by
        intro fuel
        have no : ¬ (splitPrimInplace prim.mode).2 * i + vertexCount prim.mode (N - i) <
            vertexCount prim.mode N := by omega
        cases fuel <;> rw [cutLoop, if_neg no]
      rw [if_pos rfl, finished]
      refine ⟨split₁, _, rfl, pending₁, drawn₁, length, first.trans ?_, good₁⟩
      rw [CutsWell, capacity]
      refine and_congr_right fun _ => ⟨fun even strip => ⟨even strip, .inl (by omega)⟩,
        fun h strip => (h strip).1⟩
    case neg =>
      have whole : min room (N - i) = room := by omega
      rw [whole] at first length drawn₁ ⊢
      have differ : vertexCount prim.mode room ≠ vertexCount prim.mode (N - i) := by
        intro same
        have := vertexCount_inj room_pos left_pos same
        omega
      obtain ⟨split₂, flushed, pending₂, empty, drawn₂, good₂⟩ :=
        pending₁.flushVertex
      have start_lt : prim.start < 2 ^ 32 := by
        have := count_pos N
        omega
      have next : (splitPrimInplace prim.mode).2 * i +
          (vertexCount prim.mode room -
            ((splitPrimInplace prim.mode).1 - (splitPrimInplace prim.mode).2)) =
          (splitPrimInplace prim.mode).2 * (i + room) := by
        have succ : (splitPrimInplace prim.mode).2 * room =
            (splitPrimInplace prim.mode).2 * (room - 1) + (splitPrimInplace prim.mode).2 := by
          rw [← Nat.mul_succ]
          congr 1
          omega
        rw [vertexCount, Nat.mul_add, succ]
        omega
      rw [if_neg differ, flushed, Option.bind_some, next,
        pending₂.getMaxVertices_of_empty empty start_lt]
      obtain ⟨split', pieces, cut, pending', drawn', rest_length, rest, good'⟩ :=
        ih (i := i + room) (by omega) (by omega) enough_limit (Nat.le_refl limit) pending₂
          (fun _ count _ short => ⟨short, fun joins => absurd empty joins.1⟩)
      refine ⟨split', decompose (offsetOf ib) (piece prim ((splitPrimInplace prim.mode).2 * i)
        (vertexCount prim.mode room) (vertexCount prim.mode (N - i))) ++ pieces,
        cut, pending', ?_, ?_, ?_, good'.trans (good₂.trans good₁)⟩
      · rw [drawn', drawn₂, drawn₁, List.append_assoc]
      · rw [List.length_append, length, rest_length]
        omega
      · have parts : segment ib prim i (N - i) =
            segment ib prim i room ++ segment ib prim (i + room) (N - (i + room)) := by
          rw [← segment_add]
          congr 1
          omega
        have both : ∀ {a b c d : List Primitive}, a.length = c.length →
            (a ++ b = c ++ d ↔ a = c ∧ b = d) := by
          intro a b c d same
          exact ⟨fun eq => List.append_inj eq same, fun ⟨eq, eq'⟩ => by rw [eq, eq']⟩
        rw [parts, both (by rw [length, length_segment]), first, rest, CutsWell,
          CutsWell, capacity]
        constructor
        · rintro ⟨⟨basevertex, even⟩, -, later⟩
          refine ⟨basevertex, fun strip => ⟨even strip, .inr ?_⟩⟩
          have := even strip
          obtain ⟨even', more⟩ := later strip
          refine ⟨by omega, ?_⟩
          rcases more with short | ⟨evenLimit, -⟩
          · exact .inl short
          · exact .inr evenLimit
        · rintro ⟨basevertex, even⟩
          refine ⟨⟨basevertex, fun strip => (even strip).1⟩, basevertex, fun strip => ?_⟩
          obtain ⟨here, short | ⟨evenRoom, more⟩⟩ := even strip
          · omega
          · refine ⟨by omega, ?_⟩
            rcases more with short | evenLimit
            · exact .inl short
            · exact .inr ⟨evenLimit, .inr evenLimit⟩

end Vbo
