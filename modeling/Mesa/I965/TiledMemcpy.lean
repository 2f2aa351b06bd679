import Mesa.Data.Copying
import Mathlib.Algebra.Group.Nat.Defs

/-!
# Copies to and from tiled textures

`linear_to_tiled` and `tiled_to_linear` cut a rectangle at the tiles it meets, and each row of a
tile into an unaligned head, whole spans and a tail.  Both make the same calls to `mem_copy`, with
its source and destination exchanged; they are listed as moves, from the tiled texture to the
linear one.  Sizes and positions in a tile are small; those in a texture are 32-bit.
-/

namespace I965

open Copying

/-- The tilings that are copied. -/
inductive Tiling where
  | x
  | y0
deriving DecidableEq, Repr

def xtileWidth : ℕ := 512
def xtileHeight : ℕ := 8
def xtileSpan : ℕ := 64
def ytileWidth : ℕ := 128
def ytileHeight : ℕ := 32
def ytileSpan : ℕ := 16

/-- The width, the height and the span of a tile. -/
def Tiling.width : Tiling → ℕ
  | .x => xtileWidth
  | .y0 => ytileWidth

def Tiling.height : Tiling → ℕ
  | .x => xtileHeight
  | .y0 => ytileHeight

def Tiling.span : Tiling → ℕ
  | .x => xtileSpan
  | .y0 => ytileSpan

/-- One row of an X tile.  Bits 9 and 10 of the offset control swizzling, and only `yo` contributes
to them. -/
def xtiledRow (x0 x1 x2 x3 yo swizzleBit : ℕ) (tiled linear : ℤ) : List Move :=
  let swizzle := ((yo >>> 3) ^^^ (yo >>> 4)) &&& swizzleBit
  let xos := loopValues x1 x2 xtileSpan
  -- where `xo` is when the loop ends
  let xo := x1 + xtileSpan * xos.length
  ⟨tiled + ((x0 + yo) ^^^ swizzle : ℕ), linear + x0, x1 - x0⟩ ::
    xos.map (fun xo => ⟨tiled + ((xo + yo) ^^^ swizzle : ℕ), linear + xo, xtileSpan⟩) ++
    [⟨tiled + ((xo + yo) ^^^ swizzle : ℕ), linear + x2, x3 - x2⟩]

/-- `bytes_per_column`: a Y tile consists of columns as wide as a span. -/
def bytesPerColumn : ℕ := ytileSpan * ytileHeight

/-- The X offset in a Y tile. -/
def ytiledXo (x : ℕ) : ℕ :=
  x % ytileSpan + x / ytileSpan * bytesPerColumn

/-- The whole spans of one row of a Y tile, and its tail.  The swizzle bit flips at each step. -/
def ytiledSpans (x2 x3 yo swizzleBit : ℕ) (tiled linear : ℤ) :
    List ℕ → ℕ → ℕ → List Move
  | [], xo, swizzle => [⟨tiled + ((xo + yo) ^^^ swizzle : ℕ), linear + x2, x3 - x2⟩]
  | x :: xs, xo, swizzle =>
    ⟨tiled + ((xo + yo) ^^^ swizzle : ℕ), linear + x, ytileSpan⟩ ::
      ytiledSpans x2 x3 yo swizzleBit tiled linear xs (xo + bytesPerColumn)
        (swizzle ^^^ swizzleBit)

/-- One row of a Y tile.  Only the X offset contributes to bit 9, which controls swizzling. -/
def ytiledRow (x0 x1 x2 x3 yo swizzleBit : ℕ) (tiled linear : ℤ) : List Move :=
  let xo0 := ytiledXo x0
  let xo1 := ytiledXo x1
  let swizzle0 := (xo0 >>> 3) &&& swizzleBit
  let swizzle1 := (xo1 >>> 3) &&& swizzleBit
  ⟨tiled + ((xo0 + yo) ^^^ swizzle0 : ℕ), linear + x0, x1 - x0⟩ ::
    ytiledSpans x2 x3 yo swizzleBit tiled linear (loopValues x1 x2 ytileSpan) xo1 swizzle1

/-- The rows of a tile, with `yo` running through the given values. -/
def tileRows (row : ℕ → ℤ → List Move) (linearPitch : ℤ) : List ℕ → ℤ → List Move
  | [], _ => []
  | yo :: yos, linear => row yo linear ++ tileRows row linearPitch yos (linear + linearPitch)

/-- `linear_to_xtiled` and `xtiled_to_linear` -/
def xtiled (x0 x1 x2 x3 y0 y1 : ℕ) (tiled linear linearPitch : ℤ) (swizzleBit : ℕ) : List Move :=
  tileRows (fun yo line => xtiledRow x0 x1 x2 x3 yo swizzleBit tiled line) linearPitch
    (loopValues (y0 * xtileWidth) (y1 * xtileWidth) xtileWidth) (linear + y0 * linearPitch)

/-- `linear_to_ytiled` and `ytiled_to_linear` -/
def ytiled (x0 x1 x2 x3 y0 y1 : ℕ) (tiled linear linearPitch : ℤ) (swizzleBit : ℕ) : List Move :=
  tileRows (fun yo line => ytiledRow x0 x1 x2 x3 yo swizzleBit tiled line) linearPitch
    (loopValues (y0 * ytileSpan) (y1 * ytileSpan) ytileSpan) (linear + y0 * linearPitch)

/-- `linear_to_xtiled_faster` and `xtiled_to_linear_faster`, with `memcpy` -/
def xtiledFaster (x0 x1 x2 x3 y0 y1 : ℕ) (tiled linear linearPitch : ℤ) (swizzleBit : ℕ) :
    List Move :=
  if x0 = 0 ∧ x3 = xtileWidth ∧ y0 = 0 ∧ y1 = xtileHeight then
    xtiled 0 0 xtileWidth xtileWidth 0 xtileHeight tiled linear linearPitch swizzleBit
  else
    xtiled x0 x1 x2 x3 y0 y1 tiled linear linearPitch swizzleBit

/-- `linear_to_ytiled_faster` and `ytiled_to_linear_faster`, with `memcpy` -/
def ytiledFaster (x0 x1 x2 x3 y0 y1 : ℕ) (tiled linear linearPitch : ℤ) (swizzleBit : ℕ) :
    List Move :=
  if x0 = 0 ∧ x3 = ytileWidth ∧ y0 = 0 ∧ y1 = ytileHeight then
    ytiled 0 0 ytileWidth ytileWidth 0 ytileHeight tiled linear linearPitch swizzleBit
  else
    ytiled x0 x1 x2 x3 y0 y1 tiled linear linearPitch swizzleBit

/-- `tile_copy` -/
def Tiling.tileCopy : Tiling → ℕ → ℕ → ℕ → ℕ → ℕ → ℕ → ℤ → ℤ → ℤ → ℕ → List Move
  | .x => xtiledFaster
  | .y0 => ytiledFaster

/-- `ALIGN_DOWN` -/
def alignDown (a b : ℕ) : ℕ :=
  a / b * b

/-- `ALIGN_UP`, stored in 32 bits -/
def alignUp (a b : ℕ) : ℕ :=
  (a + b - 1) / b * b % 2 ^ 32

/-- The copy of what is wanted of the tile at `(xt, yt)`.  The range of a row is split such that the
middle interval is the longest part that is aligned to spans. -/
def tileMoves (xt1 xt2 yt1 yt2 : ℕ) (tiledPitch linearPitch : ℤ) (hasSwizzling : Bool)
    (tiling : Tiling) (xt yt : ℕ) : List Move :=
  let x0 := max xt1 xt
  let y0 := max yt1 yt
  let x3 := min xt2 ((xt + tiling.width) % 2 ^ 32)
  let y1 := min yt2 ((yt + tiling.height) % 2 ^ 32)
  let x1 := if alignUp x0 tiling.span > x3 then x3 else alignUp x0 tiling.span
  let x2 := if alignUp x0 tiling.span > x3 then x3 else alignDown x3 tiling.span
  tiling.tileCopy (x0 - xt) (x1 - xt) (x2 - xt) (x3 - xt) (y0 - yt) (y1 - yt)
    (xt * tiling.height + yt * tiledPitch) (xt + yt * linearPitch) linearPitch
    (if hasSwizzling then 1 <<< 6 else 0)

/-- The loop over all tiles to which there is something to copy. -/
def tiledMoves (xt1 xt2 yt1 yt2 : ℕ) (tiledPitch linearPitch : ℤ) (hasSwizzling : Bool)
    (tiling : Tiling) : List Move :=
  let xt0 := alignDown xt1 tiling.width
  let xt3 := alignUp xt2 tiling.width
  let yt0 := alignDown yt1 tiling.height
  let yt3 := alignUp yt2 tiling.height
  (loopValues yt0 yt3 tiling.height).flatMap fun yt =>
    (loopValues xt0 xt3 tiling.width).flatMap fun xt =>
      tileMoves xt1 xt2 yt1 yt2 tiledPitch linearPitch hasSwizzling tiling xt yt

variable {β : Type*}

/-- `linear_to_tiled` -/
def linearToTiled (xt1 xt2 yt1 yt2 : ℕ) (dst src : ℤ → β) (dstPitch : ℕ) (srcPitch : ℤ)
    (hasSwizzling : Bool) (tiling : Tiling) : ℤ → β :=
  copy src (tiledMoves xt1 xt2 yt1 yt2 dstPitch srcPitch hasSwizzling tiling) dst

/-- `tiled_to_linear` -/
def tiledToLinear (xt1 xt2 yt1 yt2 : ℕ) (dst src : ℤ → β) (dstPitch : ℤ) (srcPitch : ℕ)
    (hasSwizzling : Bool) (tiling : Tiling) : ℤ → β :=
  copy src ((tiledMoves xt1 xt2 yt1 yt2 srcPitch dstPitch hasSwizzling tiling).map Move.swap) dst

/-- The offset of a byte in its tile. -/
def Tiling.tileOffset : Tiling → ℕ → ℕ → ℕ
  | .x, column, row => row * 512 + column
  | .y0, column, row => column / 16 * 512 + row * 16 + column % 16

/-- Bit 6 of an offset is exclusive-ored with bits 9 and 10 for X tiling and with bit 9 for Y
tiling. -/
def Tiling.swizzled (hasSwizzling : Bool) : Tiling → ℕ → ℕ
  | .x, o => if hasSwizzling ∧ o.testBit 9 ≠ o.testBit 10 then o ^^^ 2 ^ 6 else o
  | .y0, o => if hasSwizzling ∧ o.testBit 9 then o ^^^ 2 ^ 6 else o

/-- The offset in a tiled texture of the byte at `(x, y)`. -/
def Tiling.address (tiling : Tiling) (hasSwizzling : Bool) (pitch x y : ℕ) : ℕ :=
  (y / tiling.height * (pitch / tiling.width) + x / tiling.width) * 4096 +
    tiling.swizzled hasSwizzling
      (tiling.tileOffset (x % tiling.width) (y % tiling.height))

/-- A tiled texture is made of whole tiles, and its sizes are 32-bit. -/
structure Surface (tiling : Tiling) where
  pitch : ℕ
  rows : ℕ
  width_dvd : tiling.width ∣ pitch
  height_dvd : tiling.height ∣ rows
  pitch_lt : pitch < 2 ^ 32
  rows_lt : rows < 2 ^ 32

/-- The bytes `[xt1, xt2)` of the rows `[yt1, yt2)` of a texture. -/
structure Rectangle {tiling : Tiling} (surface : Surface tiling) where
  xt1 : ℕ
  xt2 : ℕ
  yt1 : ℕ
  yt2 : ℕ
  xt1_le : xt1 ≤ xt2
  yt1_le : yt1 ≤ yt2
  xt2_le : xt2 ≤ surface.pitch
  yt2_le : yt2 ≤ surface.rows

/-- The rectangle contains the byte at `(x, y)`. -/
def Rectangle.Contains {tiling : Tiling} {surface : Surface tiling} (r : Rectangle surface)
    (x y : ℕ) : Prop :=
  r.xt1 ≤ x ∧ x < r.xt2 ∧ r.yt1 ≤ y ∧ y < r.yt2

end I965
