import Mathlib.Data.List.Basic
import Mathlib.Algebra.Group.Nat.Defs

/-!
# Splitting draws in place

The splitting of `vbo_split_inplace.c`: primitives are collected as long as they are within a range
of vertices, or of indices, that is not longer than a limit.  A primitive that is too long is cut
into pieces that share vertices with the next one.

The modes are those that are split without copying vertices.
-/

namespace Vbo

/-- The modes that `split_prim_inplace` accepts. -/
inductive Mode where
  | points
  | lines
  | lineStrip
  | triangles
  | triangleStrip
  | quads
  | quadStrip
  deriving DecidableEq

/-- `split_prim_inplace`: `first` and `incr`. -/
def splitPrimInplace : Mode → ℕ × ℕ
  | .points => (1, 1)
  | .lines => (2, 2)
  | .lineStrip => (2, 1)
  | .triangles => (3, 3)
  | .triangleStrip => (3, 1)
  | .quads => (4, 4)
  | .quadStrip => (4, 2)

/-- `struct _mesa_prim`, what is read or set of it. -/
structure MesaPrim where
  mode : Mode
  indexed : Bool
  begins : Bool
  ends : Bool
  start : ℕ
  count : ℕ
  basevertex : ℤ
  numInstances : ℕ
  baseInstance : ℕ
  drawId : ℕ
  deriving DecidableEq

/-- `struct _mesa_index_buffer`: the number of indices, and the index that it begins with. -/
structure IndexBuffer where
  count : ℕ
  ptr : ℕ

/-- A call of the draw function. -/
structure Draw where
  prims : List MesaPrim
  ib : Option IndexBuffer
  minIndex : ℕ
  maxIndex : ℕ

/-- `struct split_context`, what changes in it, and the draws that it has issued. -/
structure SplitContext where
  minIndex : ℕ
  maxIndex : ℕ
  dstprim : List MesaPrim
  draws : List Draw

/-- `MAX_PRIM`. -/
def maxPrim : ℕ := 32

/-- The empty interval. -/
def noIndex : ℕ := 2 ^ 32 - 1

section Code

variable (ib : Option IndexBuffer) (limit : ℕ)

/-- The draw of `flush_vertex`: where there are indices, the buffer begins with the first one that
is used. -/
def flushedDraw (split : SplitContext) : Draw :=
  match ib with
  | none => ⟨split.dstprim, none, split.minIndex, split.maxIndex⟩
  | some ib =>
    ⟨split.dstprim.map fun prim => { prim with start := prim.start - split.minIndex },
      some ⟨split.maxIndex - split.minIndex + 1, ib.ptr + split.minIndex⟩, split.minIndex,
      split.maxIndex⟩

/-- `flush_vertex`; there is no result where its assertion fails. -/
def flushVertex (split : SplitContext) : Option SplitContext :=
  if split.dstprim.length = 0 then some split
  else if split.maxIndex ≥ split.minIndex then
    some ⟨noIndex, 0, [], split.draws ++ [flushedDraw ib split]⟩
  else none

/-- `next_outprim`, without the primitive. -/
def nextOutprim (split : SplitContext) : Option SplitContext :=
  if split.dstprim.length = maxPrim - 1 then flushVertex ib split else some split

/-- `update_index_bounds`. -/
def updateIndexBounds (split : SplitContext) (prim : MesaPrim) : SplitContext :=
  { split with
    minIndex := min split.minIndex prim.start
    maxIndex := max split.maxIndex (prim.start + prim.count - 1) }

/-- A primitive is put where `next_outprim` points to. -/
def emit (split : SplitContext) (prim : MesaPrim) : Option SplitContext :=
  (nextOutprim ib split).map fun split =>
    updateIndexBounds { split with dstprim := split.dstprim ++ [prim] } prim

/-- `get_max_vertices`. -/
def getMaxVertices (split : SplitContext) (prim : MesaPrim) : ℕ :=
  if (prim.start > split.minIndex ∧ prim.start - split.minIndex ≥ limit) ∨
      (prim.start < split.maxIndex ∧ split.maxIndex - prim.start ≥ limit) then 0
  else min split.minIndex prim.start + limit - prim.start

/-- A piece of a primitive. -/
def piece (prim : MesaPrim) (j nr remaining : ℕ) : MesaPrim where
  mode := prim.mode
  indexed := false
  begins := decide (j = 0) && prim.begins
  ends := decide (nr = remaining) && prim.ends
  start := prim.start + j
  count := nr
  basevertex := 0
  numInstances := prim.numInstances
  baseInstance := prim.baseInstance
  drawId := 0

/-- The number of vertices of the next piece. -/
def pieceCount (mode : Mode) (available remaining : ℕ) : ℕ :=
  let nr := min available remaining
  nr - (nr - (splitPrimInplace mode).1) % (splitPrimInplace mode).2

/-- The loop of `split_prims` that cuts a primitive.  There is no result if it does not end within
the given number of rounds. -/
def cutLoop (prim : MesaPrim) (count : ℕ) : ℕ → ℕ → ℕ → SplitContext → Option SplitContext
  | 0, j, _, split => if j < count then none else some split
  | fuel + 1, j, available, split =>
    if j < count then
      let remaining := count - j
      let nr := pieceCount prim.mode available remaining
      (emit ib split (piece prim j nr remaining)).bind fun split =>
        if nr = remaining then cutLoop prim count fuel (j + nr) available split
        else (flushVertex ib split).bind fun split =>
          cutLoop prim count fuel
            (j + (nr - ((splitPrimInplace prim.mode).1 - (splitPrimInplace prim.mode).2)))
            (getMaxVertices limit split prim) split
    else some split

/-- What is left of the vertices of a primitive when those are taken off that do not make up a whole
one; it is not used where there are fewer than the first one needs. -/
def wholeCount (prim : MesaPrim) : ℕ :=
  prim.count - (prim.count - (splitPrimInplace prim.mode).1) % (splitPrimInplace prim.mode).2

/-- The flush before a primitive that is too far away. -/
def makeRoom (split : SplitContext) (prim : MesaPrim) : Option SplitContext :=
  if getMaxVertices limit split prim < (splitPrimInplace prim.mode).1 then flushVertex ib split
  else some split

/-- One round of the loop of `split_prims`. -/
def splitPrim (split : SplitContext) (prim : MesaPrim) : Option SplitContext :=
  if prim.count < (splitPrimInplace prim.mode).1 then some split
  else (makeRoom ib limit split prim).bind fun split =>
    let available := getMaxVertices limit split prim
    if available ≥ wholeCount prim then emit ib split prim
    else cutLoop ib limit prim (wholeCount prim) (wholeCount prim) 0 available split

/-- `vbo_split_inplace`: the draws that are issued. -/
def vboSplitInplace (prims : List MesaPrim) : Option (List Draw) :=
  ((prims.foldlM (splitPrim ib limit) ⟨noIndex, 0, [], []⟩).bind (flushVertex ib)).map
    SplitContext.draws

end Code

/-! ### What is drawn -/

/-- A point, a line, a triangle or a quad: its vertices in their order, as positions in the vertex
arrays or in the index buffer, and what is added to the indices and drawn how often. -/
structure Primitive where
  vertices : List ℕ
  basevertex : ℤ
  numInstances : ℕ
  baseInstance : ℕ
  deriving DecidableEq

/-- The vertices of a primitive that begins with `s`.  Every other triangle of a strip is turned
around. -/
def vertices (odd : Bool) (s : ℕ) : Mode → List ℕ
  | .points => [s]
  | .lines => [s, s + 1]
  | .lineStrip => [s, s + 1]
  | .triangles => [s, s + 1, s + 2]
  | .triangleStrip => if odd then [s + 1, s, s + 2] else [s, s + 1, s + 2]
  | .quads => [s, s + 1, s + 2, s + 3]
  | .quadStrip => [s, s + 1, s + 3, s + 2]

/-- The number of primitives that a number of vertices makes up. -/
def primCount (mode : Mode) (count : ℕ) : ℕ :=
  if count < (splitPrimInplace mode).1 then 0
  else (count - (splitPrimInplace mode).1) / (splitPrimInplace mode).2 + 1

/-- The primitives that are drawn when the positions begin with an offset. -/
def decompose (offset : ℕ) (prim : MesaPrim) : List Primitive :=
  (List.range (primCount prim.mode prim.count)).map fun i =>
    ⟨vertices (i % 2 = 1) (offset + prim.start + (splitPrimInplace prim.mode).2 * i) prim.mode,
      prim.basevertex, prim.numInstances, prim.baseInstance⟩

/-- The index that a buffer begins with. -/
def offsetOf (ib : Option IndexBuffer) : ℕ := ib.elim 0 IndexBuffer.ptr

/-- The primitives of a draw. -/
def Draw.primitives (d : Draw) : List Primitive := d.prims.flatMap (decompose (offsetOf d.ib))

/-- The primitives of a draw are in a range that is not longer than the limit.  Where there are
indices, the range begins with the first one of the buffer. -/
structure Draw.Within (limit : ℕ) (d : Draw) : Prop where
  span : d.maxIndex - d.minIndex + 1 ≤ limit
  inside : ∀ prim ∈ d.prims,
    d.minIndex ≤ prim.start + d.ib.elim 0 (fun _ => d.minIndex) ∧
      prim.start + d.ib.elim 0 (fun _ => d.minIndex) + prim.count ≤ d.maxIndex + 1

/-- The draws that are issued are within the limit, and draw the primitives of the input in their
order, each of them once. -/
def SplitsFaithfully (ib : Option IndexBuffer) (limit : ℕ) (prims : List MesaPrim) : Prop :=
  ∃ draws, vboSplitInplace ib limit prims = some draws ∧ (∀ d ∈ draws, d.Within limit) ∧
    draws.flatMap Draw.primitives = prims.flatMap (decompose (offsetOf ib))

end Vbo
