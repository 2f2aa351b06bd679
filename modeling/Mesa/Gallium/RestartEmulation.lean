import Mesa.Data.Runs
import Mathlib.Algebra.Group.Nat.Defs

/-!
# Primitive restart without hardware

The two ways of `u_prim_restart.c` to draw with a restart index on hardware that has none, or that
has only the one with all bits set: the parts between the restart indices are drawn one by one, or
the indices are copied to a buffer in which the restart index is replaced.
-/

namespace Gallium.RestartEmulation

/-! ### Draws -/

/-- `struct pipe_draw_info`, with the contents of the index buffer that it refers to. -/
structure DrawInfo where
  indexSize : ℕ
  indices : List ℕ
  start : ℕ
  count : ℕ
  primitiveRestart : Bool
  restartIndex : ℕ

/-- The draw is one of a buffer with indices of 1, 2 or 4 bytes, whose size is an `unsigned`, and it
stays inside the buffer. -/
structure DrawInfo.Valid (info : DrawInfo) : Prop where
  indexSize : info.indexSize = 1 ∨ info.indexSize = 2 ∨ info.indexSize = 4
  small : ∀ v ∈ info.indices, v < 2 ^ (8 * info.indexSize)
  width : info.indices.length * info.indexSize < 2 ^ 32
  inside : info.start + info.count ≤ info.indices.length

/-- The indices of the draw. -/
def DrawInfo.range (info : DrawInfo) : List ℕ := (info.indices.drop info.start).take info.count

/-- The runs of vertices that are drawn. -/
def DrawInfo.runs (info : DrawInfo) : List (List ℕ) :=
  if info.primitiveRestart then runsBetween info.restartIndex info.range
  else nonemptyPart info.range

/-- `enum pipe_error`, as far as it occurs. -/
inductive Error where
  | outOfMemory
  | badInput
deriving DecidableEq

/-- What is seen where the buffer is mapped: from `info->start * info->index_size` on. -/
def DrawInfo.mapped (info : DrawInfo) : List ℕ :=
  info.indices.drop (info.start * info.indexSize % 2 ^ 32 / info.indexSize)

/-! ### `util_translate_prim_restart_ib` -/

/-- 0xffff or 0xffffffff. -/
def marker (indexSize : ℕ) : ℕ := 2 ^ (8 * indexSize) - 1

/-- `dst_index_size`. -/
def dstIndexSize (info : DrawInfo) : ℕ := max 2 info.indexSize

/-- `util_translate_prim_restart_ib`: the new buffer, if all three calls that create and map buffers
succeed.  When the size of the new buffer wraps around, the loop writes behind its end; there is no
result then. -/
def translatePrimRestartIb (info : DrawInfo) (memory : Bool) : Option (Except Error (List ℕ)) :=
  if !memory then some (.error .outOfMemory)
  else if info.count * dstIndexSize info % 2 ^ 32 < info.count * dstIndexSize info then none
  else
    some (.ok ((info.mapped.take info.count).map fun v =>
      if v = info.restartIndex then marker (dstIndexSize info) else v))

/-- The draw of the new buffer. -/
def translatedInfo (info : DrawInfo) (dst : List ℕ) : DrawInfo where
  indexSize := dstIndexSize info
  indices := dst
  start := 0
  count := info.count
  primitiveRestart := true
  restartIndex := marker (dstIndexSize info)

/-! ### `util_draw_vbo_without_prim_restart` -/

/-- `struct range`. -/
structure Range where
  start : ℕ
  count : ℕ

/-- `add_range`, where `memory` says for which numbers of ranges there is memory. -/
def addRange (memory : ℕ → Bool) (ranges : List Range) (start count : ℕ) : Option (List Range) :=
  if memory (ranges.length + 1) then some (ranges ++ [⟨start % 2 ^ 32, count⟩]) else none

/-- `SCAN_INDEXES` from the index `i` on, where all counters are `unsigned`. -/
@[simp]
def scanIndexes (memory : ℕ → Bool) (info : DrawInfo) :
    ℕ → ℕ → ℕ → ℕ → List Range → Option (Except Error (List Range))
  | 0, _, _, _, _ => none
  | fuel + 1, i, start, count, ranges =>
    if i ≤ info.count then
      let next := (i + 1) % 2 ^ 32
      if i = info.count ∨ info.mapped[i]? = some info.restartIndex then
        if 0 < count then
          match addRange memory ranges (info.start + start) count with
          | some ranges => scanIndexes memory info fuel next next 0 ranges
          | none => some (.error .outOfMemory)
        else scanIndexes memory info fuel next next 0 ranges
      else scanIndexes memory info fuel next start ((count + 1) % 2 ^ 32) ranges
    else some (.ok ranges)

/-- The draw of a range. -/
def rangeInfo (info : DrawInfo) (range : Range) : DrawInfo :=
  { info with primitiveRestart := false, start := range.start, count := range.count }

/-- `util_draw_vbo_without_prim_restart`: the draws that it issues. -/
def drawVboWithoutPrimRestart (memory : ℕ → Bool) (fuel : ℕ) (info : DrawInfo) :
    Option (Except Error (List DrawInfo)) :=
  if info.indexSize = 1 ∨ info.indexSize = 2 ∨ info.indexSize = 4 then
    (scanIndexes memory info fuel 0 0 0 []).map fun scanned =>
      scanned.map fun ranges => ranges.map (rangeInfo info)
  else some (.error .badInput)

/-! ### The draws of the ranges -/

/-- Nothing wraps around where the buffer is mapped. -/
theorem DrawInfo.Valid.mapped {info : DrawInfo} (valid : info.Valid) :
  info.mapped = info.indices.drop info.start
  := by
  have positive : 0 < info.indexSize := by
    rcases valid.indexSize with h | h | h
    all_goals rw [h]; decide
  have bound : info.start * info.indexSize < 2 ^ 32 := by
    apply Nat.lt_of_le_of_lt _ valid.width
    apply Nat.mul_le_mul_right
    exact Nat.le_trans (Nat.le_add_right _ _) valid.inside
  rw [DrawInfo.mapped, Nat.mod_eq_of_lt bound, Nat.mul_div_cancel _ positive]

theorem DrawInfo.Valid.length_lt {info : DrawInfo} (valid : info.Valid) :
  info.indices.length < 2 ^ 32
  := by
  have width := valid.width
  rcases valid.indexSize with h | h | h
  all_goals rw [h] at width; omega

theorem DrawInfo.Valid.length_range {info : DrawInfo} (valid : info.Valid) :
  info.range.length = info.count
  := by
  have inside := valid.inside
  rw [DrawInfo.range, List.length_take, List.length_drop]
  omega

/-- The index that is scanned is one of the range. -/
theorem DrawInfo.Valid.mapped_getElem? {info : DrawInfo} (valid : info.Valid) {i : ℕ}
    (lt : i < info.count) :
  info.mapped[i]? = info.range[i]?
  := by
  rw [valid.mapped, DrawInfo.range, List.getElem?_take_of_lt lt]

/-- A range of the draw as it is drawn. -/
theorem runs_rangeInfo {info : DrawInfo} {start count : ℕ} (inside : start + count ≤ info.count) :
  (rangeInfo info ⟨info.start + start, count⟩).runs
    = nonemptyPart ((info.range.drop start).take count)
  := by
  have same : (rangeInfo info ⟨info.start + start, count⟩).range
      = (info.range.drop start).take count := by
    unfold DrawInfo.range rangeInfo
    dsimp only
    rw [List.drop_take, List.drop_drop, List.take_take, Nat.min_eq_left (by omega)]
  rw [DrawInfo.runs, same]
  rfl

/-- The range that a cut adds. -/
def found (info : DrawInfo) (start count : ℕ) : List Range :=
  if 0 < count then [⟨info.start + start, count⟩] else []

theorem runs_found {info : DrawInfo} {start count : ℕ}
    (inside : start + count ≤ info.count) :
  ((found info start count).map (rangeInfo info)).flatMap DrawInfo.runs
    = nonemptyPart ((info.range.drop start).take count)
  := by
  unfold found
  split
  case isTrue =>
    rw [List.map_singleton, List.flatMap_singleton, runs_rangeInfo inside]
  case isFalse zero =>
    obtain rfl : count = 0 := by omega
    rfl

/-- A cut saves the range that it ends, and begins the next one. -/
theorem scanIndexes_cut {memory : ℕ → Bool} {info : DrawInfo} (valid : info.Valid)
    (ample : ∀ n, memory n = true) (fuel : ℕ) {start count : ℕ} (ranges : List Range)
    (inside : start + count ≤ info.count)
    (cut : start + count = info.count ∨ info.mapped[start + count]? = some info.restartIndex) :
  scanIndexes memory info (fuel + 1) (start + count) start count ranges
    = scanIndexes memory info fuel ((start + count + 1) % 2 ^ 32) ((start + count + 1) % 2 ^ 32) 0
        (ranges ++ found info start count)
  := by
  have offset : (info.start + start) % 2 ^ 32 = info.start + start := by
    apply Nat.mod_eq_of_lt
    have fits : info.indices.length < 2 ^ 32 := valid.length_lt
    have := valid.inside
    omega
  rw [scanIndexes, if_pos inside]
  dsimp only
  rw [if_pos cut]
  unfold found
  split
  case isTrue =>
    rw [addRange, if_pos (ample _), offset]
  case isFalse =>
    rw [List.append_nil]

/-- What the scan has found when it ends: the runs from `start` on, of which the first has begun. -/
theorem scanIndexes_spec {memory : ℕ → Bool} {info : DrawInfo} (valid : info.Valid)
    (ample : ∀ n, memory n = true) (small : info.count + 1 < 2 ^ 32) (left : ℕ) :
  ∀ fuel start count ranges, start + count + left = info.count → left + 2 ≤ fuel →
    info.restartIndex ∉ (info.range.drop start).take count →
    ∃ more, scanIndexes memory info fuel (start + count) start count ranges
        = some (.ok (ranges ++ more))
      ∧ (more.map (rangeInfo info)).flatMap DrawInfo.runs
        = runsBetween info.restartIndex (info.range.drop start)
  := by
  have length := valid.length_range
  induction left with
  | zero =>
    intro fuel start count ranges last enough current
    obtain ⟨fuel, rfl⟩ : ∃ rest, fuel = rest + 2 := ⟨fuel - 2, by omega⟩
    use found info start count
    have all : (info.range.drop start).take count = info.range.drop start := by
      apply List.take_of_length_le
      rw [List.length_drop]
      omega
    constructor
    · rw [scanIndexes_cut valid ample _ _ (by omega) (Or.inl (by omega)), Nat.mod_eq_of_lt (by omega),
        scanIndexes, if_neg (by omega)]
    · rw [runs_found (by omega), all, runsBetween_of_not_mem (all ▸ current)]
  | succ left ih =>
    intro fuel start count ranges here enough current
    obtain ⟨fuel, rfl⟩ : ∃ rest, fuel = rest + 1 := ⟨fuel - 1, by omega⟩
    have lt : start + count < info.range.length := by omega
    have seen : info.mapped[start + count]? = some info.range[start + count] := by
      rw [valid.mapped_getElem? (by omega), List.getElem?_eq_getElem lt]
    have split : info.range.drop start
        = (info.range.drop start).take count
          ++ info.range[start + count] :: info.range.drop (start + count + 1) := by
      rw [← List.drop_eq_getElem_cons lt, ← List.drop_drop, List.take_append_drop]
    by_cases restart : info.range[start + count] = info.restartIndex
    case pos =>
      obtain ⟨more, result, runs⟩ := ih fuel (start + count + 1) 0
        (ranges ++ found info start count) (by omega) (by omega) (by simp)
      use found info start count ++ more
      constructor
      · rw [scanIndexes_cut valid ample _ _ (by omega) (Or.inr (by rw [seen, restart])),
          Nat.mod_eq_of_lt (by omega)]
        rw [List.append_assoc] at result
        exact result
      · rw [List.map_append, List.flatMap_append, runs_found (by omega), runs, split, restart,
          runsBetween_append_cons current, ← restart, ← split]
    case neg =>
      have next : info.restartIndex ∉ (info.range.drop start).take (count + 1) := by
        rw [List.take_add_one, List.getElem?_drop, List.getElem?_eq_getElem lt]
        simp only [Option.toList_some, List.mem_append, List.mem_singleton, not_or]
        exact ⟨current, Ne.symm restart⟩
      obtain ⟨more, result, runs⟩ := ih fuel start (count + 1) ranges (by omega) (by omega) next
      use more, ?_, runs
      rw [scanIndexes, if_pos (by omega)]
      dsimp only
      rw [if_neg, Nat.mod_eq_of_lt (a := start + count + 1) (by omega),
        Nat.mod_eq_of_lt (a := count + 1) (by omega)]
      · exact result
      · rw [seen, Option.some_inj, not_or]
        exact ⟨by omega, restart⟩

/-- With as many indices as there are numbers the scan begins again at its end. -/
theorem scanIndexes_ne_ok {memory : ℕ → Bool} {info : DrawInfo} (wraps : info.count + 1 = 2 ^ 32)
    (fuel i start count : ℕ) (le : i ≤ info.count) (ranges : List Range) :
  ∀ found, scanIndexes memory info fuel i start count ranges ≠ some (.ok found)
  := by
  intro found
  have again : (i + 1) % 2 ^ 32 ≤ info.count := by omega
  induction fuel generalizing i start count ranges with
  | zero => simp [scanIndexes]
  | succ fuel ih =>
    have again' : ((i + 1) % 2 ^ 32 + 1) % 2 ^ 32 ≤ info.count := by omega
    rw [scanIndexes, if_pos le]
    dsimp only
    split
    · split
      · split
        · exact ih _ _ _ again _ again'
        · simp
      · exact ih _ _ _ again _ again'
    · exact ih _ _ _ again _ again'

/-! ### The two emulations -/

/-- The draws that are issued without restart draw the runs. -/
def DrawsSame (info : DrawInfo) : Prop :=
  ∃ fuel draws, drawVboWithoutPrimRestart (fun _ => true) fuel info = some (.ok draws)
    ∧ draws.flatMap DrawInfo.runs = info.runs

/-- The draw of the translated buffer draws the runs. -/
def TranslatesSame (info : DrawInfo) : Prop :=
  ∃ dst, translatePrimRestartIb info true = some (.ok dst)
    ∧ (translatedInfo info dst).runs = info.runs

theorem drawsSame_iff {info : DrawInfo} (valid : info.Valid)
    (restart : info.primitiveRestart = true) :
  DrawsSame info ↔ info.count ≠ 2 ^ 32 - 1
  := by
  unfold DrawsSame drawVboWithoutPrimRestart
  simp only [if_pos valid.indexSize]
  constructor
  · rintro ⟨fuel, draws, result, -⟩ wraps
    obtain ⟨scanned, ended, ok⟩ := Option.map_eq_some_iff.1 result
    cases scanned with
    | error e => cases ok
    | ok ranges =>
      exact scanIndexes_ne_ok (by omega) fuel 0 0 0 (Nat.zero_le _) [] ranges ended
  · intro bound
    have small : info.count + 1 < 2 ^ 32 := by
      have length := valid.length_lt
      have inside := valid.inside
      omega
    obtain ⟨ranges, ended, runs⟩ := scanIndexes_spec valid (fun _ => rfl) small info.count
      (info.count + 2) 0 0 [] (by omega) (by omega) (by simp)
    use info.count + 2, ranges.map (rangeInfo info)
    constructor
    · rw [List.nil_append] at ended
      rw [ended]
      rfl
    · rw [runs, List.drop_zero, DrawInfo.runs, if_pos restart]

/-- The draw of a new buffer is one of the whole buffer. -/
theorem runs_translatedInfo {info : DrawInfo} {dst : List ℕ} (length : dst.length = info.count) :
  (translatedInfo info dst).runs = runsBetween (marker (dstIndexSize info)) dst
  := by
  change runsBetween (marker (dstIndexSize info)) ((dst.drop 0).take info.count) = _
  rw [List.drop_zero, List.take_of_length_le (Nat.le_of_eq length)]

theorem translatesSame_iff {info : DrawInfo} (valid : info.Valid)
    (restart : info.primitiveRestart = true) :
  TranslatesSame info
    ↔ info.count * dstIndexSize info < 2 ^ 32
      ∧ ∀ v ∈ info.range, v = marker (dstIndexSize info) → v = info.restartIndex
  := by
  have copied : info.mapped.take info.count = info.range := by
    rw [valid.mapped]
    rfl
  have drawn : (translatedInfo info (info.range.map fun v =>
      if v = info.restartIndex then marker (dstIndexSize info) else v)).runs = info.runs
      ↔ ∀ v ∈ info.range, v = marker (dstIndexSize info) → v = info.restartIndex := by
    rw [runs_translatedInfo, DrawInfo.runs, if_pos restart, runsBetween_replace_iff]
    rw [List.length_map, valid.length_range]
  unfold TranslatesSame translatePrimRestartIb
  rw [copied, ← drawn]
  simp only [Bool.not_true, Bool.false_eq_true, if_false]
  split
  case isTrue wraps =>
    have large : ¬ info.count * dstIndexSize info < 2 ^ 32 := by
      intro small
      rw [Nat.mod_eq_of_lt small] at wraps
      exact Nat.lt_irrefl _ wraps
    simp only [reduceCtorEq, false_and, exists_const, large]
  case isFalse fits =>
    have small : info.count * dstIndexSize info < 2 ^ 32 := by
      have bound := Nat.mod_lt (info.count * dstIndexSize info) (Nat.two_pow_pos 32)
      omega
    simp only [Option.some.injEq, Except.ok.injEq, exists_eq_left', small, true_and]

/-- The draws without restart are right, except that they never come when the number of indices is
the largest one; and the translated buffer is right exactly when no index that is not the restart
index is equal to the marker that replaces that. -/
theorem same_runs_iff {info : DrawInfo} (valid : info.Valid)
    (restart : info.primitiveRestart = true) :
  (DrawsSame info ↔ info.count ≠ 2 ^ 32 - 1)
    ∧ (TranslatesSame info
      ↔ info.count * dstIndexSize info < 2 ^ 32
        ∧ ∀ v ∈ info.range, v = marker (dstIndexSize info) → v = info.restartIndex)
  := ⟨drawsSame_iff valid restart, translatesSame_iff valid restart⟩

/-- Bytes with two restart indices side by side and one at the end. -/
def bytes : DrawInfo := ⟨1, [9, 7, 7, 255, 1, 7], 1, 5, true, 7⟩

theorem bytes_valid :
  bytes.Valid
  := ⟨by decide, by decide, by decide, by decide⟩

theorem same_runs_iff_bytes :
  bytes.runs = [[255, 1]] ∧ DrawsSame bytes ∧ TranslatesSame bytes
  := by
  obtain ⟨draws, translates⟩ := same_runs_iff bytes_valid rfl
  exact ⟨by decide, draws.2 (by decide), translates.2 (by decide)⟩

/-- The vertex 65535 is drawn with the restart index 255. -/
def markerDrawn : DrawInfo := ⟨2, [1, 2, 65535, 3, 255, 4], 0, 6, true, 255⟩

/-- In the translated buffer a run is cut at the vertex 65535. -/
theorem markerDrawn_cut :
  markerDrawn.Valid ∧ markerDrawn.primitiveRestart = true
    ∧ markerDrawn.runs = [[1, 2, 65535, 3], [4]]
    ∧ translatePrimRestartIb markerDrawn true = some (.ok [1, 2, 65535, 3, 65535, 4])
    ∧ (translatedInfo markerDrawn [1, 2, 65535, 3, 65535, 4]).runs = [[1, 2], [3], [4]]
    ∧ ¬ TranslatesSame markerDrawn
  := by
  have buffer : translatePrimRestartIb markerDrawn true = some (.ok [1, 2, 65535, 3, 65535, 4]) := by
    rfl
  refine ⟨⟨by decide, by decide, by decide, by decide⟩, rfl, by decide, buffer, by decide, ?_⟩
  rintro ⟨dst, result, same⟩
  rw [buffer] at result
  obtain rfl : [1, 2, 65535, 3, 65535, 4] = dst := by simpa using result
  exact absurd same (by decide)

end Gallium.RestartEmulation
