import Mesa.Gallium.PrimAssembly

/-!
# Cutting a draw

Where a draw may be cut in two so that the two parts together draw what it draws.  Two parts of a
strip share the vertices that the next primitive begins with, and the cut is at a multiple of a
unit, so that no primitive is torn apart and none is turned around.  The parts of a fan also share
the vertex around which it is.
-/

namespace Gallium

namespace Prim

/-- The primitives with neighbours. -/
def adjacency : Prim → Bool
  | .linesAdjacency | .lineStripAdjacency | .trianglesAdjacency | .triangleStripAdjacency => true
  | _ => false

/-- The primitives around their first vertex. -/
def around : Prim → Bool
  | .triangleFan | .polygon => true
  | _ => false

/-- How many vertices two parts of a draw share, the vertex around which they are apart. -/
def overlap : Prim → ℕ
  | .lineStrip | .triangleFan | .polygon => 1
  | .triangleStrip | .quadStrip => 2
  | _ => 0

/-- A cut is before a vertex whose number this divides. -/
def cutUnit : Prim → ℕ
  | .lines | .triangleStrip | .quadStrip => 2
  | .triangles => 3
  | .quads => 4
  | _ => 1

end Prim

namespace Assembly

variable {α : Type*} (pv : Pv)

theorem lines_append (a b : List α) (even : 2 ∣ a.length) :
  lines pv (a ++ b) = lines pv a ++ lines pv b
  := by
  induction a using lines.induct with
  | case1 x y rest ih =>
    have even' : 2 ∣ rest.length := by
      simp only [List.length_cons] at even
      omega
    simp only [List.cons_append, lines, ih even']
  | case2 l short =>
    match l, short with
    | [], _ => simp [lines]
    | [x], _ => simp at even
    | x :: y :: rest, short => exact (short x y rest rfl).elim

theorem lineStrip_append (a b : List α) (x : α) :
  lineStrip pv (a ++ x :: b) = lineStrip pv (a ++ [x]) ++ lineStrip pv (x :: b)
  := by
  induction a with
  | nil => simp [lineStrip]
  | cons y a ih =>
    cases a with
    | nil => simp [lineStrip]
    | cons z a =>
      simp only [List.cons_append, lineStrip] at ih ⊢
      rw [ih]

theorem triangles_append (a b : List α) (threes : 3 ∣ a.length) :
  triangles pv (a ++ b) = triangles pv a ++ triangles pv b
  := by
  induction a using triangles.induct with
  | case1 x y z rest ih =>
    have threes' : 3 ∣ rest.length := by
      simp only [List.length_cons] at threes
      omega
    simp only [List.cons_append, triangles, ih threes']
  | case2 l short =>
    match l, short with
    | [], _ => simp [triangles]
    | [x], _ => simp at threes
    | [x, y], _ =>
      simp only [List.length_cons, List.length_nil] at threes
      omega
    | x :: y :: z :: rest, short => exact (short x y z rest rfl).elim

/-- After an even number of triangles the next one is not turned around. -/
theorem triangleStrip_append (odd : Bool) (a b : List α) (x y : α) (even : 2 ∣ a.length) :
  triangleStrip pv odd (a ++ x :: y :: b) =
    triangleStrip pv odd (a ++ [x, y]) ++ triangleStrip pv odd (x :: y :: b)
  := by
  induction a using lines.induct with
  | case1 u v rest ih =>
    have even' : 2 ∣ rest.length := by
      simp only [List.length_cons] at even
      omega
    cases rest with
    | nil => simp [triangleStrip]
    | cons w rest =>
      have ih := ih even'
      cases rest with
      | nil => simp at even'
      | cons w' rest =>
        simp only [List.cons_append, triangleStrip, Bool.not_not] at ih ⊢
        rw [ih]
  | case2 l short =>
    match l, short with
    | [], _ => simp [triangleStrip]
    | [u], _ => simp at even
    | u :: v :: rest, short => exact (short u v rest rfl).elim

theorem quads_append (a b : List α) (fours : 4 ∣ a.length) :
  quads pv (a ++ b) = quads pv a ++ quads pv b
  := by
  induction a using quads.induct with
  | case1 x y z w rest ih =>
    have fours' : 4 ∣ rest.length := by
      simp only [List.length_cons] at fours
      omega
    simp only [List.cons_append, quads, ih fours', List.append_assoc]
  | case2 l short =>
    match l, short with
    | [], _ => simp [quads]
    | [x], _ => simp at fours
    | [x, y], _ | [x, y, z], _ =>
      simp only [List.length_cons, List.length_nil] at fours
      omega
    | x :: y :: z :: w :: rest, short => exact (short x y z w rest rfl).elim

theorem quadStrip_append (a b : List α) (x y : α) (even : 2 ∣ a.length) :
  quadStrip pv (a ++ x :: y :: b) = quadStrip pv (a ++ [x, y]) ++ quadStrip pv (x :: y :: b)
  := by
  induction a using lines.induct with
  | case1 u v rest ih =>
    have even' : 2 ∣ rest.length := by
      simp only [List.length_cons] at even
      omega
    have ih := ih even'
    cases rest with
    | nil => simp [quadStrip]
    | cons w rest =>
      cases rest with
      | nil => simp at even'
      | cons w' rest =>
        simp only [List.cons_append, quadStrip, List.append_assoc] at ih ⊢
        rw [ih]
  | case2 l short =>
    match l, short with
    | [], _ => simp [quadStrip]
    | [u], _ => simp at even
    | u :: v :: rest, short => exact (short u v rest rfl).elim

theorem fan_append (f : α → α → α → Shape α) (v : α) (a b : List α) (x : α) :
  fan f v (a ++ x :: b) = fan f v (a ++ [x]) ++ fan f v (x :: b)
  := by
  induction a with
  | nil => simp [fan]
  | cons y a ih =>
    cases a with
    | nil => simp [fan]
    | cons z a =>
      simp only [List.cons_append, fan] at ih ⊢
      rw [ih]

end Assembly

open Assembly

variable {α : Type*} (pv : Pv)

/-- Where a draw that is not around a vertex may be cut. -/
theorem assemble_cut {prim : Prim} (plain : prim.adjacency = false) (strip : prim.around = false)
  (open' : prim ≠ .lineLoop) (a o b : List α) (unit : prim.cutUnit ∣ a.length)
  (overlap : o.length = prim.overlap) :
  assemble prim pv (a ++ o ++ b) = assemble prim pv (a ++ o) ++ assemble prim pv (o ++ b)
  := by
  cases prim with
  | points =>
    obtain rfl := List.eq_nil_of_length_eq_zero overlap
    simp [assemble]
  | lines =>
    obtain rfl := List.eq_nil_of_length_eq_zero overlap
    simpa [assemble] using lines_append pv a b unit
  | lineStrip =>
    obtain ⟨x, rfl⟩ := List.length_eq_one_iff.mp overlap
    simpa [assemble] using lineStrip_append pv a b x
  | lineLoop => exact (open' rfl).elim
  | triangles =>
    obtain rfl := List.eq_nil_of_length_eq_zero overlap
    simpa [assemble] using triangles_append pv a b unit
  | triangleFan => cases strip
  | triangleStrip =>
    obtain ⟨x, y, rfl⟩ := List.length_eq_two.mp overlap
    simpa [assemble] using triangleStrip_append pv false a b x y unit
  | quads =>
    obtain rfl := List.eq_nil_of_length_eq_zero overlap
    simpa [assemble] using quads_append pv a b unit
  | quadStrip =>
    obtain ⟨x, y, rfl⟩ := List.length_eq_two.mp overlap
    simpa [assemble] using quadStrip_append pv a b x y unit
  | polygon => cases strip
  | linesAdjacency | lineStripAdjacency | trianglesAdjacency | triangleStripAdjacency => cases plain

/-- Where a draw around a vertex may be cut. -/
theorem assemble_cut_around {prim : Prim} (around : prim.around = true) (v : α) (a o b : List α)
  (overlap : o.length = prim.overlap) :
  assemble prim pv (v :: (a ++ o ++ b)) =
    assemble prim pv (v :: (a ++ o)) ++ assemble prim pv (v :: (o ++ b))
  := by
  cases prim with
  | triangleFan =>
    obtain ⟨x, rfl⟩ := List.length_eq_one_iff.mp overlap
    simpa [assemble, triangleFan] using fan_append (fanTriangle pv) v a b x
  | polygon =>
    obtain ⟨x, rfl⟩ := List.length_eq_one_iff.mp overlap
    simpa [assemble, polygon] using fan_append Shape.triangle v a b x
  | _ => cases around

end Gallium
