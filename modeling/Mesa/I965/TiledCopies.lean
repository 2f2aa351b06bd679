import Mesa.I965.TiledMemcpy
import Mathlib.Data.Nat.Bitwise
import Mathlib.Tactic.Ring

/-!
# What is copied to and from tiled textures

A row of a tile is cut at spans, in which the tiled offset runs along with the linear one.  The
moves of a row, of a tile and of the whole texture connect exactly the bytes of their part of the
rectangle with their tiled addresses.
-/

namespace I965

open Copying

section Rows

/-- How the range of a row is cut: the head is within a span, and the middle is whole spans. -/
structure Cut (span x0 x1 x2 x3 : ℕ) : Prop where
  head : x0 ≤ x1
  tail : x2 ≤ x3
  head_lt : ∀ k, x0 + k < x1 → x0 % span + k < span
  middle : ∃ n, x2 = x1 + span * n
  aligned : x1 < x3 → span ∣ x1
  tail_lt : x3 < x2 + span

/-- The moves of a row whose bytes are at the offsets `T`. -/
def rowMoves (T : ℕ → ℕ) (span x0 x1 x2 x3 : ℕ) (tiled linear : ℤ) : List Move :=
  ⟨tiled + T x0, linear + x0, x1 - x0⟩ ::
    (loopValues x1 x2 span).map (fun x => ⟨tiled + T x, linear + x, span⟩) ++
    [⟨tiled + T x2, linear + x2, x3 - x2⟩]

/-- The offsets run along with the bytes of a span. -/
def AlongSpans (T : ℕ → ℕ) (span : ℕ) : Prop :=
  ∀ x k, x % span + k < span → T (x + k) = T x + k

variable {T : ℕ → ℕ} {span x0 x1 x2 x3 : ℕ} {tiled linear : ℤ}

/-- A move within a span connects its bytes with their offsets. -/
theorem mem_pairs_span (along : AlongSpans T span) {x n : ℕ} {p : ℤ × ℤ}
    (within : ∀ k, k < n → x % span + k < span) :
  p ∈ pairs [⟨tiled + T x, linear + x, n⟩] ↔
    ∃ v, x ≤ v ∧ v < x + n ∧ p = (tiled + T v, linear + v)
  := by
  rw [mem_pairs_singleton]
  constructor
  · rintro ⟨k, lt, rfl⟩
    refine ⟨x + k, by omega, by omega, ?_⟩
    rw [along x k (within k lt), Prod.mk.injEq]
    omega
  · rintro ⟨v, le, lt, rfl⟩
    obtain ⟨k, rfl⟩ := Nat.exists_eq_add_of_le le
    refine ⟨k, by omega, ?_⟩
    rw [along x k (within k (by omega)), Prod.mk.injEq]
    omega

theorem mem_pairs_map {α : Type*} {l : List α} {f : α → Move} {p : ℤ × ℤ} :
  p ∈ pairs (l.map f) ↔ ∃ a ∈ l, p ∈ pairs [f a]
  := by
  rw [← List.flatMap_singleton' (l.map f), List.flatMap_map, mem_pairs_flatMap]

/-- A row of whole spans between a head and a tail connects all its bytes. -/
theorem mem_pairs_rowMoves (along : AlongSpans T span) (cut : Cut span x0 x1 x2 x3)
    (pos : 0 < span) {p : ℤ × ℤ} :
  p ∈ pairs (rowMoves T span x0 x1 x2 x3 tiled linear) ↔
    ∃ v, x0 ≤ v ∧ v < x3 ∧ p = (tiled + T v, linear + v)
  := by
  obtain ⟨head, tail, head_lt, ⟨n, rfl⟩, aligned, tail_lt⟩ := cut
  have start : ∀ j, x1 < x3 → (x1 + span * j) % span = 0 := by
    intro j lt
    rw [Nat.add_mul_mod_self_left]
    exact Nat.mod_eq_zero_of_dvd (aligned lt)
  have whole : ∀ j < n,
      p ∈ pairs [⟨tiled + T (x1 + span * j), linear + (x1 + span * j : ℕ), span⟩] ↔
      ∃ v, x1 + span * j ≤ v ∧ v < x1 + span * j + span ∧ p = (tiled + T v, linear + v) := by
    intro j lt
    have : span * 1 ≤ span * n := Nat.mul_le_mul_left _ (by omega)
    apply mem_pairs_span along
    intro k k_lt
    rw [start j (by omega)]
    omega
  rw [rowMoves, List.cons_append, mem_pairs_cons, mem_pairs_append, mem_pairs_map,
    mem_pairs_span along (fun k lt => head_lt k (by omega)),
    mem_pairs_span along (fun k lt => by rw [start n (by omega)]; omega), loopValues_whole _ _ pos]
  constructor
  · rintro (⟨v, le, lt, rfl⟩ | ⟨x, mem, here⟩ | ⟨v, le, lt, rfl⟩)
    · exact ⟨v, le, by omega, rfl⟩
    · obtain ⟨j, lt, rfl⟩ := List.mem_range'.mp mem
      obtain ⟨v, le, lt', rfl⟩ := (whole j lt).mp here
      have : span * (j + 1) ≤ span * n := Nat.mul_le_mul_left _ lt
      rw [Nat.mul_succ] at this
      exact ⟨v, by omega, by omega, rfl⟩
    · exact ⟨v, by omega, by omega, rfl⟩
  · rintro ⟨v, le, lt, rfl⟩
    by_cases inHead : v < x1
    · exact .inl ⟨v, le, by omega, rfl⟩
    right
    by_cases inTail : x1 + span * n ≤ v
    · exact .inr ⟨v, inTail, by omega, rfl⟩
    left
    have j_lt : (v - x1) / span < n := by
      rw [Nat.div_lt_iff_lt_mul pos, Nat.mul_comm]
      omega
    have below := Nat.mul_div_le (v - x1) span
    have above := Nat.lt_mul_div_succ (v - x1) pos
    rw [Nat.mul_succ] at above
    refine ⟨x1 + span * ((v - x1) / span), List.mem_range'.mpr ⟨_, j_lt, rfl⟩, ?_⟩
    exact (whole _ j_lt).mpr ⟨v, by omega, by omega, rfl⟩

/-- The rows of a tile, one after the other.  By induction on how many there are. -/
theorem mem_pairs_tileRows {row : ℕ → ℤ → List Move} {linearPitch : ℤ} {w : ℕ} {p : ℤ × ℤ}
    (n : ℕ) :
  ∀ (y : ℕ) (line : ℤ),
    p ∈ pairs (tileRows row linearPitch (List.range' (y * w) n w) (line + y * linearPitch)) ↔
      ∃ v, y ≤ v ∧ v < y + n ∧ p ∈ pairs (row (v * w) (line + v * linearPitch))
  := by
  induction n with
  | zero =>
    intro y line
    rw [List.range'_zero, tileRows]
    constructor
    · intro mem
      simp at mem
    · rintro ⟨v, le, lt, -⟩
      omega
  | succ n ih =>
    intro y line
    have next : line + y * linearPitch + linearPitch = line + (y + 1 : ℕ) * linearPitch := by
      push_cast
      ring
    rw [List.range'_succ, tileRows, mem_pairs_append, ← Nat.succ_mul, next, ih]
    constructor
    · rintro (mem | ⟨v, le, lt, mem⟩)
      · exact ⟨y, Nat.le_refl y, by omega, mem⟩
      · exact ⟨v, by omega, by omega, mem⟩
    · rintro ⟨v, le, lt, mem⟩
      by_cases first : v = y
      · rw [first] at mem
        exact .inl mem
      · exact .inr ⟨v, by omega, by omega, mem⟩

end Rows

section Swizzling

/-- Exchanging bit 6 leaves the bits below it. -/
theorem xor_bit6 (o : ℕ) :
  o ^^^ 2 ^ 6 = 2 ^ 6 * (o / 2 ^ 6 ^^^ 1) + o % 2 ^ 6
  := by
  rw [← Nat.div_add_mod (o ^^^ 2 ^ 6) (2 ^ 6), Nat.xor_div_two_pow, Nat.xor_mod_two_pow]
  simp

/-- The bits that decide about swizzling are those of the span. -/
theorem testBit_add {o k i : ℕ} (within : o % 2 ^ 6 + k < 2 ^ 6) :
  (o + k).testBit (i + 6) = o.testBit (i + 6)
  := by
  rw [← Nat.testBit_div_two_pow, ← Nat.testBit_div_two_pow]
  congr 1
  omega

theorem xor_bit6_add {o k : ℕ} (within : o % 2 ^ 6 + k < 2 ^ 6) :
  (o + k) ^^^ 2 ^ 6 = (o ^^^ 2 ^ 6) + k
  := by
  have same : (o + k) / 2 ^ 6 = o / 2 ^ 6 := by omega
  have rest : (o + k) % 2 ^ 6 = o % 2 ^ 6 + k := by omega
  rw [xor_bit6, xor_bit6, same, rest, Nat.add_assoc]

theorem swizzled_add (hasSwizzling : Bool) (tiling : Tiling) {o k : ℕ}
    (within : o % 2 ^ 6 + k < 2 ^ 6) :
  tiling.swizzled hasSwizzling (o + k) = tiling.swizzled hasSwizzling o + k
  := by
  have bit9 : (o + k).testBit 9 = o.testBit 9 := testBit_add (i := 3) within
  have bit10 : (o + k).testBit 10 = o.testBit 10 := testBit_add (i := 4) within
  cases tiling <;> simp only [Tiling.swizzled, bit9, bit10, xor_bit6_add within] <;> split <;> rfl

/-- The offset of a byte in a tile runs along with the bytes of a span. -/
theorem alongSpans (hasSwizzling : Bool) (tiling : Tiling) (y : ℕ) :
  AlongSpans (fun x => tiling.swizzled hasSwizzling (tiling.tileOffset x y)) tiling.span
  := by
  intro x k within
  have along : tiling.tileOffset (x + k) y = tiling.tileOffset x y + k := by
    cases tiling <;>
      simp only [Tiling.tileOffset, Tiling.span, xtileSpan, ytileSpan] at within ⊢ <;>
      omega
  dsimp only
  rw [along]
  apply swizzled_add
  cases tiling <;> simp only [Tiling.tileOffset, Tiling.span, xtileSpan, ytileSpan] at within ⊢ <;>
    omega

/-- `swizzle_bit` -/
def swizzleBit (hasSwizzling : Bool) : ℕ :=
  if hasSwizzling then 1 <<< 6 else 0

theorem and_swizzleBit (n : ℕ) (hasSwizzling : Bool) :
  n &&& swizzleBit hasSwizzling = if hasSwizzling ∧ n.testBit 6 then 2 ^ 6 else 0
  := by
  cases hasSwizzling
  case false => simp [swizzleBit]
  case true =>
    rw [swizzleBit, if_pos rfl, Nat.one_shiftLeft, Nat.and_two_pow]
    cases n.testBit 6 <;> simp

/-- Bits from the ninth on do not depend on the position in a row of 512 bytes. -/
theorem testBit_row {o y i : ℕ} (j : ℕ) (row : o / 2 ^ 9 = y) (bit : i = j + 9) :
  o.testBit i = y.testBit j
  := by
  rw [← row, Nat.testBit_div_two_pow, bit]

/-- The offsets that are computed in a row of an X tile. -/
theorem xtiled_offset {hasSwizzling : Bool} {x y : ℕ} (lt : x < xtileWidth) :
  (x + y * xtileWidth) ^^^
      ((((y * xtileWidth) >>> 3) ^^^ ((y * xtileWidth) >>> 4)) &&& swizzleBit hasSwizzling) =
    Tiling.x.swizzled hasSwizzling (Tiling.x.tileOffset x y)
  := by
  rw [xtileWidth] at lt ⊢
  have here : (y * 512 + x) / 2 ^ 9 = y := by omega
  have start : y * 512 / 2 ^ 9 = y := Nat.mul_div_cancel y (by decide)
  have bit6 : ((y * 512) >>> 3 ^^^ (y * 512) >>> 4).testBit 6 = (y.testBit 0 ^^ y.testBit 1) := by
    rw [Nat.testBit_xor, Nat.testBit_shiftRight, Nat.testBit_shiftRight,
      testBit_row 0 start rfl, testBit_row 1 start rfl]
  rw [and_swizzleBit, bit6, Tiling.swizzled, Tiling.tileOffset, testBit_row 0 here rfl,
    testBit_row 1 here rfl, Nat.add_comm x, apply_ite (fun s => (y * 512 + x) ^^^ s), Nat.xor_zero]
  simp only [bne_iff_ne]

/-- The offsets that are computed in a Y tile. -/
theorem ytiled_offset {hasSwizzling : Bool} {x y : ℕ} (lt : y < ytileHeight) :
  (ytiledXo x + y * ytileSpan) ^^^ ((ytiledXo x >>> 3) &&& swizzleBit hasSwizzling) =
    Tiling.y0.swizzled hasSwizzling (Tiling.y0.tileOffset x y)
  := by
  have same : ytiledXo x + y * ytileSpan = Tiling.y0.tileOffset x y := by
    simp only [ytiledXo, ytileSpan, bytesPerColumn, ytileHeight, Tiling.tileOffset]
    omega
  have column : ytiledXo x / 2 ^ 9 = x / 16 := by
    simp only [ytiledXo, ytileSpan, bytesPerColumn, ytileHeight]
    omega
  have here : Tiling.y0.tileOffset x y / 2 ^ 9 = x / 16 := by
    rw [ytileHeight] at lt
    rw [Tiling.tileOffset]
    omega
  rw [same, and_swizzleBit, Nat.testBit_shiftRight, testBit_row 0 column rfl, Tiling.swizzled,
    testBit_row 0 here rfl, apply_ite (fun s => Tiling.y0.tileOffset x y ^^^ s), Nat.xor_zero]

/-- The swizzle bit flips from a column to the next. -/
theorem ytiled_swizzle_succ (hasSwizzling : Bool) (x : ℕ) :
  ((ytiledXo (x + ytileSpan)) >>> 3) &&& swizzleBit hasSwizzling =
    ((ytiledXo x >>> 3) &&& swizzleBit hasSwizzling) ^^^ swizzleBit hasSwizzling
  := by
  have column : ∀ x, ytiledXo x / 2 ^ 9 = x / 16 := by
    intro x
    simp only [ytiledXo, ytileSpan, bytesPerColumn, ytileHeight]
    omega
  have next : (x + ytileSpan) / 16 = x / 16 + 1 := by
    rw [ytileSpan]
    omega
  rw [and_swizzleBit, and_swizzleBit, Nat.testBit_shiftRight, Nat.testBit_shiftRight,
    testBit_row 0 (column _) rfl, testBit_row 0 (column _) rfl, next, Nat.testBit_zero,
    Nat.testBit_zero, swizzleBit]
  cases hasSwizzling
  case false => simp
  case true =>
    by_cases odd : x / 16 % 2 = 1
    · have even : ¬ (x / 16 + 1) % 2 = 1 := by omega
      simp [odd, even]
    · have odd' : (x / 16 + 1) % 2 = 1 := by omega
      simp [odd, odd']

end Swizzling

section Tiles

variable {x0 x1 x2 x3 y0 y1 : ℕ} {tiled linear linearPitch : ℤ} {hasSwizzling : Bool} {p : ℤ × ℤ}

/-- After the loop over the spans, the offset is that of the tail. -/
theorem length_spans {span : ℕ} (cut : Cut span x0 x1 x2 x3) (pos : 0 < span) :
  x1 + span * (loopValues x1 x2 span).length = x2
  := by
  obtain ⟨n, rfl⟩ := cut.middle
  rw [loopValues_whole _ _ pos, List.length_range']

theorem mem_pairs_xtiledRow (cut : Cut xtileSpan x0 x1 x2 x3) (le : x3 ≤ xtileWidth) {y : ℕ} :
  p ∈ pairs (xtiledRow x0 x1 x2 x3 (y * xtileWidth) (swizzleBit hasSwizzling) tiled linear) ↔
    ∃ x, x0 ≤ x ∧ x < x3 ∧
      p = (tiled + Tiling.x.swizzled hasSwizzling (Tiling.x.tileOffset x y), linear + x)
  := by
  have row : xtiledRow x0 x1 x2 x3 (y * xtileWidth) (swizzleBit hasSwizzling) tiled linear =
      rowMoves (fun x => (x + y * xtileWidth) ^^^
        ((((y * xtileWidth) >>> 3) ^^^ ((y * xtileWidth) >>> 4)) &&& swizzleBit hasSwizzling))
        xtileSpan x0 x1 x2 x3 tiled linear := by
    rw [xtiledRow, rowMoves, length_spans cut (by decide)]
  have along : AlongSpans (fun x => (x + y * xtileWidth) ^^^
      ((((y * xtileWidth) >>> 3) ^^^ ((y * xtileWidth) >>> 4)) &&& swizzleBit hasSwizzling))
      xtileSpan := by
    intro x k within
    dsimp only
    rw [and_swizzleBit, Nat.add_right_comm]
    split
    · apply xor_bit6_add
      rw [xtileSpan] at within
      rw [xtileWidth]
      omega
    · rw [Nat.xor_zero, Nat.xor_zero]
  rw [row, mem_pairs_rowMoves along cut (by decide)]
  constructor
  · rintro ⟨x, ge, lt, rfl⟩
    refine ⟨x, ge, lt, ?_⟩
    rw [xtiled_offset (by omega)]
  · rintro ⟨x, ge, lt, rfl⟩
    refine ⟨x, ge, lt, ?_⟩
    rw [xtiled_offset (by omega)]

/-- The spans of a row of a Y tile and its tail.  By induction on the number of spans. -/
theorem ytiledSpans_eq {yo : ℕ} (n : ℕ) :
  ∀ x1, ytiledSpans (x1 + ytileSpan * n) x3 yo (swizzleBit hasSwizzling) tiled linear
      (List.range' x1 n ytileSpan) (ytiledXo x1)
      ((ytiledXo x1 >>> 3) &&& swizzleBit hasSwizzling) =
    (List.range' x1 n ytileSpan).map (fun x =>
      ⟨tiled + ((ytiledXo x + yo) ^^^ ((ytiledXo x >>> 3) &&& swizzleBit hasSwizzling) : ℕ),
        linear + x, ytileSpan⟩) ++
      [⟨tiled + ((ytiledXo (x1 + ytileSpan * n) + yo) ^^^
          ((ytiledXo (x1 + ytileSpan * n) >>> 3) &&& swizzleBit hasSwizzling) : ℕ),
        linear + (x1 + ytileSpan * n : ℕ), x3 - (x1 + ytileSpan * n)⟩]
  := by
  induction n with
  | zero =>
    intro x1
    rfl
  | succ n ih =>
    intro x1
    have column : ytiledXo x1 + bytesPerColumn = ytiledXo (x1 + ytileSpan) := by
      simp only [ytiledXo, bytesPerColumn, ytileSpan, ytileHeight]
      omega
    have stop : x1 + ytileSpan * (n + 1) = x1 + ytileSpan + ytileSpan * n := by
      rw [Nat.mul_succ]
      omega
    rw [List.range'_succ, ytiledSpans, column, ← ytiled_swizzle_succ, stop, ih, List.map_cons,
      List.cons_append]

theorem mem_pairs_ytiledRow (cut : Cut ytileSpan x0 x1 x2 x3) {y : ℕ} (lt : y < ytileHeight) :
  p ∈ pairs (ytiledRow x0 x1 x2 x3 (y * ytileSpan) (swizzleBit hasSwizzling) tiled linear) ↔
    ∃ x, x0 ≤ x ∧ x < x3 ∧
      p = (tiled + Tiling.y0.swizzled hasSwizzling (Tiling.y0.tileOffset x y), linear + x)
  := by
  have row : ytiledRow x0 x1 x2 x3 (y * ytileSpan) (swizzleBit hasSwizzling) tiled linear =
      rowMoves (fun x => Tiling.y0.swizzled hasSwizzling (Tiling.y0.tileOffset x y))
        ytileSpan x0 x1 x2 x3 tiled linear := by
    obtain ⟨n, rfl⟩ := cut.middle
    rw [ytiledRow, rowMoves, loopValues_whole _ _ (by decide), ytiledSpans_eq]
    simp only [ytiled_offset lt, List.cons_append]
  rw [row]
  exact mem_pairs_rowMoves (alongSpans hasSwizzling .y0 y) cut (by decide)

/-- The rows of a tile. -/
theorem loopValues_rows {w : ℕ} (pos : 0 < w) (le : y0 ≤ y1) :
  loopValues (y0 * w) (y1 * w) w = List.range' (y0 * w) (y1 - y0) w
  := by
  have stop : y1 * w = y0 * w + w * (y1 - y0) := by
    rw [Nat.mul_comm w, ← Nat.add_mul, Nat.add_sub_cancel' le]
  rw [stop, loopValues_whole _ _ pos]

theorem mem_pairs_xtiled (cut : Cut xtileSpan x0 x1 x2 x3) (le : x3 ≤ xtileWidth) (le' : y0 ≤ y1) :
  p ∈ pairs (xtiled x0 x1 x2 x3 y0 y1 tiled linear linearPitch (swizzleBit hasSwizzling)) ↔
    ∃ y, y0 ≤ y ∧ y < y1 ∧ ∃ x, x0 ≤ x ∧ x < x3 ∧
      p = (tiled + Tiling.x.swizzled hasSwizzling (Tiling.x.tileOffset x y),
        linear + y * linearPitch + x)
  := by
  rw [xtiled, loopValues_rows (by decide) le', mem_pairs_tileRows, Nat.add_sub_cancel' le']
  simp only [mem_pairs_xtiledRow cut le]

theorem mem_pairs_ytiled (cut : Cut ytileSpan x0 x1 x2 x3) (le : y1 ≤ ytileHeight) (le' : y0 ≤ y1) :
  p ∈ pairs (ytiled x0 x1 x2 x3 y0 y1 tiled linear linearPitch (swizzleBit hasSwizzling)) ↔
    ∃ y, y0 ≤ y ∧ y < y1 ∧ ∃ x, x0 ≤ x ∧ x < x3 ∧
      p = (tiled + Tiling.y0.swizzled hasSwizzling (Tiling.y0.tileOffset x y),
        linear + y * linearPitch + x)
  := by
  rw [ytiled, loopValues_rows (by decide) le', mem_pairs_tileRows, Nat.add_sub_cancel' le']
  constructor
  · rintro ⟨y, ge, lt, mem⟩
    exact ⟨y, ge, lt, (mem_pairs_ytiledRow cut (by omega)).mp mem⟩
  · rintro ⟨y, ge, lt, mem⟩
    exact ⟨y, ge, lt, (mem_pairs_ytiledRow cut (by omega)).mpr mem⟩

/-- A tile, or a part of it, connects all its bytes. -/
theorem mem_pairs_tileCopy {tiling : Tiling} (cut : Cut tiling.span x0 x1 x2 x3)
    (le : x3 ≤ tiling.width) (le' : y0 ≤ y1) (y1_le : y1 ≤ tiling.height) :
  p ∈ pairs (tiling.tileCopy x0 x1 x2 x3 y0 y1 tiled linear linearPitch
      (swizzleBit hasSwizzling)) ↔
    ∃ y, y0 ≤ y ∧ y < y1 ∧ ∃ x, x0 ≤ x ∧ x < x3 ∧
      p = (tiled + tiling.swizzled hasSwizzling (tiling.tileOffset x y),
        linear + y * linearPitch + x)
  := by
  cases tiling with
  | x =>
    rw [Tiling.tileCopy, xtiledFaster]
    split
    case isTrue whole =>
      obtain ⟨rfl, rfl, rfl, rfl⟩ := whole
      exact mem_pairs_xtiled ⟨by decide, by decide, fun k lt => by omega, ⟨8, rfl⟩,
        fun _ => Nat.dvd_zero _, by decide⟩ le le'
    case isFalse => exact mem_pairs_xtiled cut le le'
  | y0 =>
    rw [Tiling.tileCopy, ytiledFaster]
    split
    case isTrue whole =>
      obtain ⟨rfl, rfl, rfl, rfl⟩ := whole
      exact mem_pairs_ytiled ⟨by decide, by decide, fun k lt => by omega, ⟨8, rfl⟩,
        fun _ => Nat.dvd_zero _, by decide⟩ y1_le le'
    case isFalse => exact mem_pairs_ytiled cut y1_le le'

end Tiles

section Textures

theorem Tiling.pos (tiling : Tiling) :
  0 < tiling.width ∧ 0 < tiling.height ∧ tiling.width * tiling.height = 4096
  := by
  cases tiling <;> decide

/-- Rounding up a position in a texture of whole tiles does not leave 32 bits. -/
theorem alignUp_eq {w b bound : ℕ} (pos : 0 < w) (le : b ≤ bound) (dvd : w ∣ bound)
    (small : bound < 2 ^ 32) :
  alignUp b w = (b + w - 1) / w * w
  := by
  rw [alignUp, Nat.mod_eq_of_lt]
  apply Nat.lt_of_le_of_lt _ small
  obtain ⟨q, rfl⟩ := dvd
  rw [Nat.mul_comm w q]
  apply Nat.mul_le_mul_right
  apply Nat.le_of_lt_succ
  rw [Nat.div_lt_iff_lt_mul pos, Nat.succ_mul, Nat.mul_comm q w]
  omega

/-- The tiles that a range meets. -/
theorem mem_tiles {w a b bound v : ℕ} (pos : 0 < w) (le : b ≤ bound) (dvd : w ∣ bound)
    (small : bound < 2 ^ 32) :
  v ∈ loopValues (alignDown a w) (alignUp b w) w ↔ ∃ i, v = i * w ∧ a < i * w + w ∧ i * w < b
  := by
  rw [mem_loopValues pos, alignUp_eq pos le dvd small, alignDown]
  have below : ∀ i, i * w < (b + w - 1) / w * w ↔ i * w < b := by
    intro i
    rw [Nat.mul_lt_mul_right pos, ← Nat.succ_le_iff, Nat.le_div_iff_mul_le pos, Nat.succ_mul]
    omega
  have above : ∀ i, a / w ≤ i ↔ a < i * w + w := by
    intro i
    rw [← Nat.lt_succ_iff, Nat.div_lt_iff_lt_mul pos, Nat.succ_mul]
  constructor
  · rintro ⟨k, rfl, lt⟩
    rw [Nat.mul_comm w k, ← Nat.add_mul] at lt ⊢
    exact ⟨a / w + k, rfl, (above _).mp (Nat.le_add_right _ _), (below _).mp lt⟩
  · rintro ⟨i, rfl, ge, lt⟩
    obtain ⟨k, rfl⟩ := Nat.exists_eq_add_of_le ((above i).mpr ge)
    refine ⟨k, ?_, (below _).mpr lt⟩
    rw [Nat.add_mul, Nat.mul_comm w k]

/-- How a range is cut at the spans, in a tile that begins at a span. -/
theorem cut_range {tiling : Tiling} {xt x0 x3 : ℕ} (start : xt % tiling.span = 0) (le : xt ≤ x0)
    (le' : x0 ≤ x3) :
  let up := (x0 + tiling.span - 1) / tiling.span * tiling.span
  Cut tiling.span (x0 - xt) ((if up > x3 then x3 else up) - xt)
    ((if up > x3 then x3 else x3 / tiling.span * tiling.span) - xt) (x3 - xt)
  := by
  intro up
  by_cases far : up > x3
  case pos =>
    rw [if_pos far, if_pos far]
    have tail : x3 - xt < x3 - xt + tiling.span := by
      cases tiling <;> simp only [Tiling.span, xtileSpan, ytileSpan] <;> omega
    refine ⟨by omega, by omega, ?_, ⟨0, by omega⟩, fun lt => absurd lt (Nat.lt_irrefl _), tail⟩
    cases tiling <;> simp only [up, Tiling.span, xtileSpan, ytileSpan] at far start ⊢ <;> omega
  case neg =>
    rw [if_neg far, if_neg far]
    refine ⟨?_, ?_, ?_, ⟨x3 / tiling.span - (x0 + tiling.span - 1) / tiling.span, ?_⟩,
      fun _ => Nat.dvd_of_mod_eq_zero ?_, ?_⟩
    all_goals
      cases tiling <;> simp only [up, Tiling.span, xtileSpan, ytileSpan] at far start ⊢ <;> omega

/-- The end of a tile is in the texture. -/
theorem tile_end_le {w i b bound : ℕ} (le : b ≤ bound) (dvd : w ∣ bound) (lt : i * w < b) :
  i * w + w ≤ bound
  := by
  obtain ⟨q, rfl⟩ := dvd
  rw [Nat.mul_comm w q] at le ⊢
  rw [← Nat.succ_mul]
  apply Nat.mul_le_mul_right
  exact Nat.lt_of_mul_lt_mul_right (Nat.lt_of_lt_of_le lt le)

variable {tiling : Tiling} {surface : Surface tiling} {r : Rectangle surface}
  {hasSwizzling : Bool} {linearPitch : ℤ} {p : ℤ × ℤ}

/-- The offset of a byte is that of its tile and that in its tile. -/
theorem address_tile (surface : Surface tiling) (hasSwizzling : Bool) {i j x y : ℕ}
    (x_lt : x < tiling.width) (y_lt : y < tiling.height) :
  (tiling.address hasSwizzling surface.pitch (i * tiling.width + x) (j * tiling.height + y) : ℤ) =
    (i * tiling.width : ℕ) * tiling.height + (j * tiling.height : ℕ) * surface.pitch +
      tiling.swizzled hasSwizzling (tiling.tileOffset x y)
  := by
  obtain ⟨width_pos, height_pos, size⟩ := tiling.pos
  obtain ⟨P, pitch⟩ := surface.width_dvd
  have i_eq : (i * tiling.width + x) / tiling.width = i := by
    rw [Nat.mul_comm, Nat.mul_add_div width_pos, Nat.div_eq_of_lt x_lt, Nat.add_zero]
  have j_eq : (j * tiling.height + y) / tiling.height = j := by
    rw [Nat.mul_comm, Nat.mul_add_div height_pos, Nat.div_eq_of_lt y_lt, Nat.add_zero]
  have x_eq : (i * tiling.width + x) % tiling.width = x := by
    rw [Nat.mul_comm, Nat.mul_add_mod, Nat.mod_eq_of_lt x_lt]
  have y_eq : (j * tiling.height + y) % tiling.height = y := by
    rw [Nat.mul_comm, Nat.mul_add_mod, Nat.mod_eq_of_lt y_lt]
  rw [Tiling.address, i_eq, j_eq, x_eq, y_eq, pitch, Nat.mul_div_cancel_left _ width_pos, ← size]
  push_cast
  ring

/-- What is copied in one tile are its bytes of the rectangle. -/
theorem mem_pairs_tileMoves {i j : ℕ} (ge : r.xt1 < i * tiling.width + tiling.width)
    (lt : i * tiling.width < r.xt2) (ge' : r.yt1 < j * tiling.height + tiling.height)
    (lt' : j * tiling.height < r.yt2) :
  p ∈ pairs (tileMoves r.xt1 r.xt2 r.yt1 r.yt2 surface.pitch linearPitch hasSwizzling tiling
      (i * tiling.width) (j * tiling.height)) ↔
    ∃ x y, r.Contains (i * tiling.width + x) (j * tiling.height + y) ∧
      x < tiling.width ∧ y < tiling.height ∧
      p = ((tiling.address hasSwizzling surface.pitch (i * tiling.width + x)
          (j * tiling.height + y) : ℤ),
        (i * tiling.width + x : ℕ) + (j * tiling.height + y : ℕ) * linearPitch)
  := by
  have xEnd := tile_end_le r.xt2_le surface.width_dvd lt
  have yEnd := tile_end_le r.yt2_le surface.height_dvd lt'
  have pitch_lt := surface.pitch_lt
  have rows_lt := surface.rows_lt
  have span_pos : 0 < tiling.span := by cases tiling <;> decide
  have span_dvd : tiling.span ∣ tiling.width := by cases tiling <;> decide
  have x0_le : max r.xt1 (i * tiling.width) ≤ surface.pitch := by
    have := r.xt1_le
    have := r.xt2_le
    omega
  have x_le : max r.xt1 (i * tiling.width) ≤ min r.xt2 (i * tiling.width + tiling.width) := by
    have := r.xt1_le
    omega
  have y_le : max r.yt1 (j * tiling.height) ≤ min r.yt2 (j * tiling.height + tiling.height) := by
    have := r.yt1_le
    omega
  have start : i * tiling.width % tiling.span = 0 :=
    Nat.mod_eq_zero_of_dvd (span_dvd.mul_left i)
  have cut := cut_range start (Nat.le_max_right r.xt1 _) x_le
  rw [tileMoves, Nat.mod_eq_of_lt (show i * tiling.width + tiling.width < 2 ^ 32 by omega),
    Nat.mod_eq_of_lt (show j * tiling.height + tiling.height < 2 ^ 32 by omega)]
  dsimp only at cut ⊢
  rw [alignUp_eq span_pos x0_le (span_dvd.trans surface.width_dvd) pitch_lt, alignDown,
    ← swizzleBit, mem_pairs_tileCopy cut (by omega) (by omega) (by omega)]
  constructor
  · rintro ⟨y, y_ge, y_lt, x, x_ge, x_lt, rfl⟩
    have x_lt' : x < tiling.width := by omega
    have y_lt' : y < tiling.height := by omega
    refine ⟨x, y, ⟨by omega, by omega, by omega, by omega⟩, x_lt', y_lt', ?_⟩
    rw [address_tile surface hasSwizzling x_lt' y_lt', Prod.mk.injEq]
    refine ⟨rfl, ?_⟩
    push_cast
    ring
  · rintro ⟨x, y, ⟨x_ge, x_lt, y_ge, y_lt⟩, x_lt', y_lt', rfl⟩
    refine ⟨y, by omega, by omega, x, by omega, by omega, ?_⟩
    rw [address_tile surface hasSwizzling x_lt' y_lt', Prod.mk.injEq]
    refine ⟨rfl, ?_⟩
    push_cast
    ring

/-- What is copied are the bytes of the rectangle, each with its tiled address. -/
theorem mem_pairs_tiledMoves :
  p ∈ pairs (tiledMoves r.xt1 r.xt2 r.yt1 r.yt2 surface.pitch linearPitch hasSwizzling tiling) ↔
    ∃ x y, r.Contains x y ∧
      p = ((tiling.address hasSwizzling surface.pitch x y : ℤ), x + y * linearPitch)
  := by
  obtain ⟨width_pos, height_pos, -⟩ := tiling.pos
  rw [tiledMoves, mem_pairs_flatMap]
  constructor
  · rintro ⟨_, yt, here⟩
    obtain ⟨_, xt, here'⟩ := mem_pairs_flatMap.mp here
    obtain ⟨j, rfl, ge', lt'⟩ :=
      (mem_tiles height_pos r.yt2_le surface.height_dvd surface.rows_lt).mp yt
    obtain ⟨i, rfl, ge, lt⟩ :=
      (mem_tiles width_pos r.xt2_le surface.width_dvd surface.pitch_lt).mp xt
    obtain ⟨x, y, inside, -, -, rfl⟩ := (mem_pairs_tileMoves ge lt ge' lt').mp here'
    exact ⟨_, _, inside, rfl⟩
  · rintro ⟨x, y, inside, rfl⟩
    have ⟨x_ge, x_lt, y_ge, y_lt⟩ := inside
    have x_eq := Nat.div_add_mod' x tiling.width
    have y_eq := Nat.div_add_mod' y tiling.height
    have x_mod := Nat.mod_lt x width_pos
    have y_mod := Nat.mod_lt y height_pos
    refine ⟨y / tiling.height * tiling.height,
      (mem_tiles height_pos r.yt2_le surface.height_dvd surface.rows_lt).mpr
        ⟨_, rfl, by omega, by omega⟩, ?_⟩
    rw [mem_pairs_flatMap]
    refine ⟨x / tiling.width * tiling.width,
      (mem_tiles width_pos r.xt2_le surface.width_dvd surface.pitch_lt).mpr
        ⟨_, rfl, by omega, by omega⟩, ?_⟩
    rw [mem_pairs_tileMoves (by omega) (by omega) (by omega) (by omega)]
    refine ⟨x % tiling.width, y % tiling.height, ?_, x_mod, y_mod, ?_⟩
    · rw [x_eq, y_eq]
      exact inside
    · rw [x_eq, y_eq]

end Textures

end I965
