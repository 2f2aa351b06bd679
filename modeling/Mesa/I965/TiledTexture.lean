import Mesa.I965.TiledCopies
import Mathlib.Algebra.Order.Ring.Abs
import Mathlib.Tactic.Linarith

/-!
# Tiled textures hold what was copied to them

Different bytes of a texture have different tiled offsets: swizzling permutes the offsets in a
tile.  Thus each byte of a rectangle arrives where the tile layout puts it, and comes back from
there.
-/

namespace I965

open Copying

section Layout

variable {tiling : Tiling} {hasSwizzling : Bool}

/-- Exchanging bit 6 leaves the bits that decide about it. -/
theorem testBit_xor_bit6 {o i : ℕ} (other : i ≠ 6) :
  (o ^^^ 2 ^ 6).testBit i = o.testBit i
  := by
  rw [Nat.testBit_xor, Nat.testBit_two_pow_of_ne (Ne.symm other), Bool.xor_false]

/-- Swizzling twice changes nothing. -/
theorem swizzled_swizzled (o : ℕ) :
  tiling.swizzled hasSwizzling (tiling.swizzled hasSwizzling o) = o
  := by
  cases tiling
  case x =>
    by_cases swizzles : hasSwizzling ∧ o.testBit 9 ≠ o.testBit 10
    · have flipped : Tiling.x.swizzled hasSwizzling o = o ^^^ 2 ^ 6 := if_pos swizzles
      rw [flipped, Tiling.swizzled, testBit_xor_bit6 (by decide), testBit_xor_bit6 (by decide),
        if_pos swizzles, Nat.xor_assoc, Nat.xor_self, Nat.xor_zero]
    · have kept : Tiling.x.swizzled hasSwizzling o = o := if_neg swizzles
      rw [kept, kept]
  case y0 =>
    by_cases swizzles : hasSwizzling ∧ o.testBit 9
    · have flipped : Tiling.y0.swizzled hasSwizzling o = o ^^^ 2 ^ 6 := if_pos swizzles
      rw [flipped, Tiling.swizzled, testBit_xor_bit6 (by decide), if_pos swizzles, Nat.xor_assoc,
        Nat.xor_self, Nat.xor_zero]
    · have kept : Tiling.y0.swizzled hasSwizzling o = o := if_neg swizzles
      rw [kept, kept]

theorem swizzled_injective :
  Function.Injective (tiling.swizzled hasSwizzling)
  := Function.LeftInverse.injective swizzled_swizzled

/-- Swizzling does not leave the tile. -/
theorem swizzled_lt {o : ℕ} (lt : o < 4096) :
  tiling.swizzled hasSwizzling o < 4096
  := by
  have flipped : o ^^^ 2 ^ 6 < 2 ^ 12 := Nat.xor_lt_two_pow lt (by decide)
  cases tiling <;> rw [Tiling.swizzled] <;> split <;> omega

theorem tileOffset_lt {x y : ℕ} (x_lt : x < tiling.width) (y_lt : y < tiling.height) :
  tiling.tileOffset x y < 4096
  := by
  cases tiling <;> simp only [Tiling.tileOffset, Tiling.width, Tiling.height, xtileWidth,
    xtileHeight, ytileWidth, ytileHeight] at * <;> omega

theorem tileOffset_inj {x y x' y' : ℕ} (x_lt : x < tiling.width) (y_lt : y < tiling.height)
    (x_lt' : x' < tiling.width) (y_lt' : y' < tiling.height)
    (same : tiling.tileOffset x y = tiling.tileOffset x' y') :
  x = x' ∧ y = y'
  := by
  cases tiling <;> simp only [Tiling.tileOffset, Tiling.width, Tiling.height, xtileWidth,
    xtileHeight, ytileWidth, ytileHeight] at * <;> omega

theorem eq_of_tile {q r q' r' : ℕ} (lt : r < 4096) (lt' : r' < 4096)
    (same : q * 4096 + r = q' * 4096 + r') :
  q = q' ∧ r = r'
  := by
  omega

/-- Different bytes of a texture have different offsets. -/
theorem address_inj (surface : Surface tiling) {x y x' y' : ℕ} (lt : x < surface.pitch)
    (lt' : x' < surface.pitch)
    (same : tiling.address hasSwizzling surface.pitch x y =
      tiling.address hasSwizzling surface.pitch x' y') :
  x = x' ∧ y = y'
  := by
  obtain ⟨width_pos, height_pos, -⟩ := tiling.pos
  have inTile : ∀ x y, tiling.tileOffset (x % tiling.width) (y % tiling.height) < 4096 := fun x y =>
    tileOffset_lt (Nat.mod_lt x width_pos) (Nat.mod_lt y height_pos)
  have column : ∀ {x}, x < surface.pitch → x / tiling.width < surface.pitch / tiling.width :=
    fun lt => Nat.div_lt_div_of_lt_of_dvd surface.width_dvd lt
  rw [Tiling.address, Tiling.address] at same
  have swizzled := @swizzled_lt tiling hasSwizzling _ (inTile x y)
  have swizzled' := @swizzled_lt tiling hasSwizzling _ (inTile x' y')
  obtain ⟨tile, swizzled_eq⟩ := eq_of_tile swizzled swizzled' same
  have offset := swizzled_injective swizzled_eq
  obtain ⟨x_mod, y_mod⟩ := tileOffset_inj (Nat.mod_lt x width_pos) (Nat.mod_lt y height_pos)
    (Nat.mod_lt x' width_pos) (Nat.mod_lt y' height_pos) offset
  have columns_pos : 0 < surface.pitch / tiling.width :=
    Nat.lt_of_le_of_lt (Nat.zero_le _) (column lt)
  have x_div : x / tiling.width = x' / tiling.width := by
    have := congrArg (· % (surface.pitch / tiling.width)) tile
    simpa only [Nat.mul_add_mod_self_right, Nat.mod_eq_of_lt (column lt),
      Nat.mod_eq_of_lt (column lt')] using this
  have y_div : y / tiling.height = y' / tiling.height := by
    rw [x_div, Nat.add_right_cancel_iff] at tile
    exact Nat.eq_of_mul_eq_mul_right columns_pos tile
  constructor
  · rw [← Nat.div_add_mod x tiling.width, x_div, x_mod, Nat.div_add_mod]
  · rw [← Nat.div_add_mod y tiling.height, y_div, y_mod, Nat.div_add_mod]

end Layout

variable {β : Type*} {tiling : Tiling} {surface : Surface tiling}

/-- The rows of a linear image do not overlap. -/
def Rectangle.RowsApart (r : Rectangle surface) (pitch : ℤ) : Prop :=
  (r.xt2 : ℤ) - r.xt1 ≤ |pitch|

theorem Rectangle.RowsApart.inj {r : Rectangle surface} {pitch : ℤ} (apart : r.RowsApart pitch)
    {x y x' y' : ℕ} (inside : r.Contains x y) (inside' : r.Contains x' y')
    (same : (x + y * pitch : ℤ) = x' + y' * pitch) :
  x = x' ∧ y = y'
  := by
  have y_eq : y = y' := by
    by_contra other
    have far : 1 ≤ |(y : ℤ) - y'| := Int.one_le_abs (by omega)
    have shift : ((y : ℤ) - y') * pitch = x' - x := by linarith
    have wide : |pitch| ≤ |(x' : ℤ) - x| := by
      rw [← shift, abs_mul]
      exact le_mul_of_one_le_left (abs_nonneg pitch) far
    have near : |(x' : ℤ) - x| < r.xt2 - r.xt1 := by
      obtain ⟨ge, lt, -⟩ := inside
      obtain ⟨ge', lt', -⟩ := inside'
      rw [abs_lt]
      omega
    rw [Rectangle.RowsApart] at apart
    omega
  subst y_eq
  exact ⟨by omega, rfl⟩

/-- The linear and the tiled address of the bytes of a rectangle. -/
theorem copied_linearToTiled (r : Rectangle surface) (hasSwizzling : Bool) (srcPitch : ℤ)
    (dst src : ℤ → β) :
  Copied { p | ∃ x y, r.Contains x y ∧
      p = ((tiling.address hasSwizzling surface.pitch x y : ℤ), x + y * srcPitch) } src dst
    (linearToTiled r.xt1 r.xt2 r.yt1 r.yt2 dst src surface.pitch srcPitch hasSwizzling tiling)
  := by
  have addresses := Set.ext fun p =>
    @mem_pairs_tiledMoves tiling surface r hasSwizzling srcPitch p
  rw [linearToTiled]
  exact addresses ▸ copied_copy src dst _

theorem copied_tiledToLinear (r : Rectangle surface) (hasSwizzling : Bool) (dstPitch : ℤ)
    (dst src : ℤ → β) :
  Copied { p | ∃ x y, r.Contains x y ∧
      p = (x + y * dstPitch, (tiling.address hasSwizzling surface.pitch x y : ℤ)) } src dst
    (tiledToLinear r.xt1 r.xt2 r.yt1 r.yt2 dst src dstPitch surface.pitch hasSwizzling tiling)
  := by
  have addresses : pairs ((tiledMoves r.xt1 r.xt2 r.yt1 r.yt2 surface.pitch dstPitch hasSwizzling
      tiling).map Move.swap) = { p | ∃ x y, r.Contains x y ∧
      p = (x + y * dstPitch, (tiling.address hasSwizzling surface.pitch x y : ℤ)) } := by
    ext ⟨a, b⟩
    rw [mem_pairs_swap, mem_pairs_tiledMoves]
    simp only [Prod.mk.injEq, Set.mem_ofPred_eq, @and_comm (b = _)]
  rw [tiledToLinear]
  exact addresses ▸ copied_copy src dst _

/-- Each byte of the rectangle goes to its tiled address and nothing else is written.  From there
it is read, and the rectangle comes back unchanged. -/
theorem tiledToLinear_linearToTiled (r : Rectangle surface) (hasSwizzling : Bool)
    (srcPitch dstPitch : ℤ) (tiled linear linear' : ℤ → β) :
  let address := tiling.address hasSwizzling surface.pitch
  let tiled' := linearToTiled r.xt1 r.xt2 r.yt1 r.yt2 tiled linear surface.pitch srcPitch
    hasSwizzling tiling
  let read := fun tiled => tiledToLinear r.xt1 r.xt2 r.yt1 r.yt2 linear' tiled dstPitch
    surface.pitch hasSwizzling tiling
  (∀ x y, r.Contains x y → tiled' (address x y) = linear (x + y * srcPitch)) ∧
    (∀ a, (∀ x y, r.Contains x y → (address x y : ℤ) ≠ a) → tiled' a = tiled a) ∧
    (∀ a, (∃ x y, r.Contains x y ∧ (x + y * dstPitch : ℤ) = a ∧
        read tiled a = tiled (address x y)) ∨
      ((∀ x y, r.Contains x y → (x + y * dstPitch : ℤ) ≠ a) ∧ read tiled a = linear' a)) ∧
    (r.RowsApart dstPitch → ∀ x y, r.Contains x y →
      read tiled (x + y * dstPitch) = tiled (address x y)) ∧
    (r.RowsApart dstPitch ∨ dstPitch = srcPitch → ∀ x y, r.Contains x y →
      read tiled' (x + y * dstPitch) = linear (x + y * srcPitch))
  := by
  intro address tiled' read
  have written := copied_linearToTiled r hasSwizzling srcPitch tiled linear
  have arrives : ∀ x y, r.Contains x y → tiled' (address x y) = linear (x + y * srcPitch) := by
    intro x y inside
    refine written.apply_eq ⟨x, y, inside, rfl⟩ ?_
    rintro b ⟨x', y', inside', eq⟩
    obtain ⟨same, rfl⟩ := Prod.mk.inj eq
    have lt := inside.2.1
    have lt' := inside'.2.1
    have le := r.xt2_le
    obtain ⟨rfl, rfl⟩ := address_inj surface (by omega) (by omega) (Int.ofNat.inj same)
    rfl
  refine ⟨arrives, ?_, ?_, ?_, ?_⟩
  · intro a outside
    apply written.unchanged
    rintro b ⟨x, y, inside, eq⟩
    exact outside x y inside (Prod.mk.inj eq).1.symm
  · intro a
    rcases copied_tiledToLinear r hasSwizzling dstPitch linear' tiled a with
      ⟨b, ⟨x, y, inside, eq⟩, got⟩ | ⟨outside, got⟩
    · obtain ⟨rfl, rfl⟩ := Prod.mk.inj eq
      exact .inl ⟨x, y, inside, rfl, got⟩
    · refine .inr ⟨?_, got⟩
      rintro x y inside rfl
      exact outside _ ⟨x, y, inside, rfl⟩
  · intro apart x y inside
    apply (copied_tiledToLinear r hasSwizzling dstPitch linear' tiled).apply_eq
    · exact ⟨x, y, inside, rfl⟩
    · rintro b ⟨x', y', inside', eq⟩
      obtain ⟨same, rfl⟩ := Prod.mk.inj eq
      obtain ⟨rfl, rfl⟩ := apart.inj inside inside' same
      rfl
  · intro comes x y inside
    rw [← arrives x y inside]
    apply (copied_tiledToLinear r hasSwizzling dstPitch linear' tiled').apply_eq
    · exact ⟨x, y, inside, rfl⟩
    · rintro b ⟨x', y', inside', eq⟩
      obtain ⟨same, rfl⟩ := Prod.mk.inj eq
      rcases comes with apart | rfl
      · obtain ⟨rfl, rfl⟩ := apart.inj inside inside' same
        rfl
      · exact (arrives x' y' inside').trans ((congrArg linear same).symm.trans
          (arrives x y inside).symm)

end I965
