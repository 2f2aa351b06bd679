import Mathlib.Data.List.Basic

/-!
# Primitive assembly

The points, lines and triangles that a draw of some vertices stands for, each with its provoking
vertex and its winding, as `draw_decompose_tmp.h` takes a draw apart.  Where primitive restart is
enabled, an index ends one draw and begins the next.
-/

namespace Gallium

/-- The provoking vertex conventions `PV_FIRST` and `PV_LAST`. -/
inductive Pv where
  | first
  | last
deriving DecidableEq

/-- The primitive types. -/
inductive Prim where
  | points
  | lines
  | lineStrip
  | lineLoop
  | triangles
  | triangleFan
  | triangleStrip
  | quads
  | quadStrip
  | polygon
  | linesAdjacency
  | lineStripAdjacency
  | trianglesAdjacency
  | triangleStripAdjacency
deriving DecidableEq

/-- What is drawn.  The first vertex is the provoking one, and the vertices of a triangle follow its
winding; a line with adjacency has the neighbours outside, and a triangle with adjacency has the
neighbour of each edge behind its first vertex. -/
inductive Shape (α : Type*) where
  | point (p : α)
  | line (p q : α)
  | triangle (p q r : α)
  | lineAdjacency (p neighbour q neighbour' : α)
  | triangleAdjacency (p pq q qr r rp : α)
deriving DecidableEq

variable {α : Type*}

namespace Assembly

/-! ### Single primitives -/

/-- A line. -/
def line : Pv → α → α → Shape α
  | .first, a, b => .line a b
  | .last, a, b => .line b a

/-- A triangle. -/
def triangle : Pv → α → α → α → Shape α
  | .first, a, b, c => .triangle a b c
  | .last, a, b, c => .triangle c a b

/-- A quad is a fan around its provoking vertex. -/
def quad : Pv → α → α → α → α → List (Shape α)
  | .first, a, b, c, d => [.triangle a b c, .triangle a c d]
  | .last, a, b, c, d => [.triangle d a b, .triangle d b c]

/-- A line from `b` to `c` with the neighbours `a` and `d`. -/
def lineAdjacency : Pv → α → α → α → α → Shape α
  | .first, a, b, c, d => .lineAdjacency b a c d
  | .last, a, b, c, d => .lineAdjacency c d b a

/-- A triangle with the neighbour of each edge behind its first vertex. -/
def triangleAdjacency : Pv → α → α → α → α → α → α → Shape α
  | .first, a, ab, b, bc, c, ca => .triangleAdjacency a ab b bc c ca
  | .last, a, ab, b, bc, c, ca => .triangleAdjacency c ca a ab b bc

/-- Every second triangle of a strip is turned around, so that its provoking vertex stays. -/
def stripTriangle : Pv → Bool → α → α → α → Shape α
  | pv, false, a, b, c => triangle pv a b c
  | .first, true, a, b, c => triangle .first a c b
  | .last, true, a, b, c => triangle .last b a c

/-- The provoking vertex of a triangle of a fan is not the vertex `a` around which it is. -/
def fanTriangle : Pv → α → α → α → Shape α
  | .first, a, b, c => triangle .first b c a
  | .last, a, b, c => triangle .last a b c

/-- The provoking vertex is the first or the last one of the four vertices in the strip. -/
def stripQuad : Pv → α → α → α → α → List (Shape α)
  | .first, a, b, c, d => quad .first a b d c
  | .last, a, b, c, d => quad .last c a b d

/-- A triangle `a`, `c`, `e` of a strip with the neighbours `before`, `d` and `behind`, which is
turned around like one without neighbours. -/
def stripTriangleAdjacency : Pv → Bool → α → α → α → α → α → α → Shape α
  | pv, false, before, a, c, d, e, behind => triangleAdjacency pv a before c behind e d
  | .first, true, before, a, c, d, e, behind => triangleAdjacency .first a d e behind c before
  | .last, true, before, a, c, d, e, behind => triangleAdjacency .last c before a d e behind

/-! ### Draws without restart -/

variable (pv : Pv)

def lines : List α → List (Shape α)
  | a :: b :: rest => line pv a b :: lines rest
  | _ => []

def lineStrip : List α → List (Shape α)
  | a :: b :: rest => line pv a b :: lineStrip (b :: rest)
  | _ => []

/-- A loop is a strip that goes back to its first vertex. -/
def lineLoop : List α → List (Shape α)
  | a :: b :: rest => lineStrip pv (a :: b :: rest ++ [a])
  | _ => []

def triangles : List α → List (Shape α)
  | a :: b :: c :: rest => triangle pv a b c :: triangles rest
  | _ => []

def triangleStrip : Bool → List α → List (Shape α)
  | odd, a :: b :: c :: rest => stripTriangle pv odd a b c :: triangleStrip (!odd) (b :: c :: rest)
  | _, _ => []

/-- Triangles around one vertex. -/
def fan (f : α → α → α → Shape α) (a : α) : List α → List (Shape α)
  | b :: c :: rest => f a b c :: fan f a (c :: rest)
  | _ => []

def triangleFan : List α → List (Shape α)
  | a :: rest => fan (fanTriangle pv) a rest
  | [] => []

def quads : List α → List (Shape α)
  | a :: b :: c :: d :: rest => quad pv a b c d ++ quads rest
  | _ => []

def quadStrip : List α → List (Shape α)
  | a :: b :: c :: d :: rest => stripQuad pv a b c d ++ quadStrip (c :: d :: rest)
  | _ => []

/-- The provoking vertex of a polygon is always its first one. -/
def polygon : List α → List (Shape α)
  | a :: rest => fan Shape.triangle a rest
  | [] => []

def linesAdjacency : List α → List (Shape α)
  | a :: b :: c :: d :: rest => lineAdjacency pv a b c d :: linesAdjacency rest
  | _ => []

def lineStripAdjacency : List α → List (Shape α)
  | a :: b :: c :: d :: rest => lineAdjacency pv a b c d :: lineStripAdjacency (b :: c :: d :: rest)
  | _ => []

def trianglesAdjacency : List α → List (Shape α)
  | a :: b :: c :: d :: e :: f :: rest =>
    triangleAdjacency pv a b c d e f :: trianglesAdjacency rest
  | _ => []

/-- The triangles of a strip with adjacency have the vertices `a`, `c` and `e`.  The neighbours are
the first vertex of the triangle before, `d`, and the third vertex of the triangle behind, which is
`f` for the last triangle. -/
def triangleStripAdjacency : Bool → α → List α → List (Shape α)
  | odd, before, a :: _ :: c :: d :: e :: f :: rest =>
    let behind := match rest with
      | g :: _ :: _ => g
      | _ => f
    stripTriangleAdjacency pv odd before a c d e behind ::
      triangleStripAdjacency (!odd) a (c :: d :: e :: f :: rest)
  | _, _, _ => []

end Assembly

open Assembly in
/-- The shapes of a draw of the given vertices. -/
def assemble (prim : Prim) (pv : Pv) (l : List α) : List (Shape α) :=
  match prim with
  | .points => l.map .point
  | .lines => lines pv l
  | .lineStrip => lineStrip pv l
  | .lineLoop => lineLoop pv l
  | .triangles => triangles pv l
  | .triangleFan => triangleFan pv l
  | .triangleStrip => triangleStrip pv false l
  | .quads => quads pv l
  | .quadStrip => quadStrip pv l
  | .polygon => polygon l
  | .linesAdjacency => linesAdjacency pv l
  | .lineStripAdjacency => lineStripAdjacency pv l
  | .trianglesAdjacency => trianglesAdjacency pv l
  | .triangleStripAdjacency =>
    match l with
    | a :: b :: rest => triangleStripAdjacency pv false b (a :: b :: rest)
    | _ => []

end Gallium
