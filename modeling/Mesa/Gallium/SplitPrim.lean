import Mesa.Gallium.PrimCut
import Mathlib.Algebra.Group.Nat.Defs

/-!
# Splitting primitives

`u_split_prim.h` splits a draw of too many vertices in chunks, each of which the driver can draw.
The driver calls `util_split_prim_next` with the vertices for which it has room until it returns
true, and the chunks are emitted through callbacks.
-/

namespace Gallium

/-- `struct util_split_prim` without the callbacks. -/
structure SplitPrim where
  mode : Prim
  start : ℕ
  pStart : ℕ
  pEnd : ℕ
  repeatFirst : Bool
  closeFirst : Bool
  edgeflagOff : Bool
deriving DecidableEq

namespace SplitPrim

/-- A call of one of the two callbacks. -/
inductive Call where
  | emit (start count : ℕ)
  | edge (enabled : Bool)
deriving DecidableEq

/-- The vertices of a range, whose numbers are unsigned. -/
def vertices (start count : ℕ) : List ℕ :=
  (List.range count).map fun i => (start + i) % 2 ^ 32

/-- The vertices that a call emits. -/
def Call.vertices : Call → List ℕ
  | .emit start count => SplitPrim.vertices start count
  | .edge _ => []

/-- `util_split_prim_init`. -/
def init (mode : Prim) (start count : ℕ) : SplitPrim where
  mode := if mode = .lineLoop then .lineStrip else mode
  start := start
  pStart := start
  pEnd := (start + count) % 2 ^ 32
  repeatFirst := false
  closeFirst := decide (mode = .lineLoop)
  edgeflagOff := false

/-- `p_end - p_start`. -/
def left (s : SplitPrim) : ℕ :=
  (s.pEnd + 2 ^ 32 - s.pStart) % 2 ^ 32

/-- What `util_split_prim_next` does first when the first vertex is repeated. -/
def emitFirst (s : SplitPrim) : List Call :=
  if s.repeatFirst then
    .emit s.start 1 :: if s.edgeflagOff then [.edge true] else []
  else
    []

/-- The state after `emitFirst`. -/
def afterFirst (s : SplitPrim) : SplitPrim :=
  { s with edgeflagOff := s.edgeflagOff && !s.repeatFirst }

/-- `max_verts--`. -/
def lower (maxVerts : ℕ) : ℕ :=
  if maxVerts = 0 then 2 ^ 32 - 1 else maxVerts - 1

/-- The last lines of `util_split_prim_next`, after the switch. -/
def emitPart (s : SplitPrim) (calls : List Call) (maxVerts rep : ℕ) :
    List Call × SplitPrim × Bool :=
  (calls ++ [.emit s.pStart maxVerts],
    { s with pStart := (s.pStart + maxVerts + 2 ^ 32 - rep) % 2 ^ 32 }, false)

/-- The switch of `util_split_prim_next`, whose default is an assertion. -/
def emitSome (s : SplitPrim) (calls : List Call) (maxVerts : ℕ) :
    Option (List Call × SplitPrim × Bool) :=
  match s.mode with
  | .lines => some (emitPart s calls (maxVerts - maxVerts % 2) 0)
  | .lineStrip => some (emitPart s calls maxVerts 1)
  | .polygon =>
    let maxVerts := lower maxVerts
    let pStart := (s.pStart + maxVerts) % 2 ^ 32
    some (calls ++ [.emit s.pStart maxVerts, .edge false, .emit pStart 1],
      { s with pStart := pStart, repeatFirst := true, edgeflagOff := true }, false)
  | .triangles => some (emitPart s calls (maxVerts - maxVerts % 3) 0)
  | .triangleStrip => some (emitPart s calls (maxVerts - maxVerts % 2) 2)
  | .triangleFan => some (emitPart { s with repeatFirst := true } calls maxVerts 1)
  | .quads => some (emitPart s calls (maxVerts - maxVerts % 4) 0)
  | .quadStrip => some (emitPart s calls (maxVerts - maxVerts % 2) 2)
  | .points => some (emitPart s calls maxVerts 0)
  | _ => none

/-- `util_split_prim_next`: the calls it makes, the state it leaves and what it returns. -/
def next (s : SplitPrim) (maxVerts : ℕ) : Option (List Call × SplitPrim × Bool) :=
  let calls := emitFirst s
  let maxVerts := if s.repeatFirst then lower maxVerts else maxVerts
  let s := s.afterFirst
  if (s.left + s.closeFirst.toNat) % 2 ^ 32 ≤ maxVerts then
    some (calls ++ .emit s.pStart s.left :: if s.closeFirst then [.emit s.start 1] else [], s, true)
  else
    emitSome s calls maxVerts

/-- The chunks of a run, each a list of vertices.  `maxVerts` has the argument of each call. -/
def run (s : SplitPrim) (maxVerts : ℕ → ℕ) : ℕ → Option (List (List ℕ))
  | 0 => none
  | fuel + 1 => do
    let (calls, s', done) ← next s (maxVerts 0)
    let chunk := calls.flatMap Call.vertices
    if done then
      return [chunk]
    else
      return chunk :: (← run s' (fun i => maxVerts (i + 1)) fuel)

/-- The shapes of a draw, where a loop is a strip and the line that closes it. -/
def shapes (mode : Prim) (pv : Pv) (l : List ℕ) : List (Shape ℕ) :=
  if mode = .lineLoop then assemble .lineStrip pv (l ++ l.take 1) else assemble mode pv l

/-- The calls end, no chunk is too long, and the chunks draw what the draw does. -/
def Splits (mode : Prim) (pv : Pv) (start count : ℕ) (maxVerts : ℕ → ℕ) : Prop :=
  ∃ fuel chunks,
    run (init mode start count) maxVerts fuel = some chunks ∧
    (∀ i (h : i < chunks.length), chunks[i].length ≤ maxVerts i) ∧
    chunks.flatMap (assemble (init mode start count).mode pv) =
      shapes mode pv (vertices start count)

/-- Only for a loop of one vertex the two views of a loop differ. -/
theorem shapes_eq_assemble (mode : Prim) (pv : Pv) (l : List ℕ)
  (long : mode = .lineLoop → l.length ≠ 1) :
  shapes mode pv l = assemble mode pv l
  := by
  unfold shapes
  split
  case isTrue loop =>
    subst loop
    match l, long rfl with
    | [], _ => rfl
    | a :: b :: rest, _ => simp [assemble, Assembly.lineLoop]
  case isFalse => rfl

/-! ### Ranges of vertices -/

@[simp]
theorem length_vertices (start count : ℕ) :
  (vertices start count).length = count
  := by
  simp [vertices]

theorem vertices_add (start a b : ℕ) :
  vertices start (a + b) = vertices start a ++ vertices ((start + a) % 2 ^ 32) b
  := by
  simp only [vertices, List.range_add, List.map_append, List.map_map, Function.comp_def,
    Nat.mod_add_mod, Nat.add_assoc]

theorem vertices_one {start : ℕ} (small : start < 2 ^ 32) :
  vertices start 1 = [start]
  := by
  simpa [vertices] using small

/-! ### What is left -/

/-- The vertices that are left to draw, with the ones that are repeated. -/
def pending (s : SplitPrim) : List ℕ :=
  (if s.repeatFirst then [s.start] else []) ++ vertices s.pStart s.left ++
    if s.closeFirst then [s.start] else []

/-- The states between the calls. -/
structure Ready (s : SplitPrim) : Prop where
  start_lt : s.start < 2 ^ 32
  pStart_lt : s.pStart < 2 ^ 32
  pEnd_lt : s.pEnd < 2 ^ 32
  plain : s.mode.adjacency = false
  isStrip : s.mode ≠ .lineLoop
  repeats : s.repeatFirst → s.mode.around
  first : s.mode.around → s.repeatFirst = false → s.pStart = s.start
  closes : s.closeFirst → s.mode = .lineStrip
  /-- The comparison with the room does not wrap. -/
  left_lt : s.left + s.closeFirst.toNat < 2 ^ 32

/-- `s'` is `s` after `d` vertices of the range. -/
structure Moved (s : SplitPrim) (d : ℕ) (again : Bool) (s' : SplitPrim) : Prop where
  mode : s'.mode = s.mode
  start : s'.start = s.start
  pStart : s'.pStart = (s.pStart + d) % 2 ^ 32
  pEnd : s'.pEnd = s.pEnd
  repeatFirst : s'.repeatFirst = again
  closeFirst : s'.closeFirst = s.closeFirst

section Moved

variable {s s' : SplitPrim} {d : ℕ} {again : Bool}

/-- The vertices that are left behind a cut. -/
theorem Moved.left (moved : s.Moved d again s') (ready : s.Ready) (inside : d ≤ s.left) :
  s'.left = s.left - d
  := by
  have pStart_lt := ready.pStart_lt
  have pEnd_lt := ready.pEnd_lt
  unfold SplitPrim.left at inside ⊢
  rw [moved.pStart, moved.pEnd]
  omega

/-- A cut divides the vertices in those before it, the overlap and those behind it. -/
theorem Moved.vertices (moved : s.Moved d again s') (ready : s.Ready) {rep : ℕ}
  (inside : d + rep ≤ s.left) :
  ∃ o b : List ℕ, o.length = rep ∧
    vertices s.pStart (d + rep) = vertices s.pStart d ++ o ∧
    vertices s.pStart s.left = vertices s.pStart d ++ o ++ b ∧
    vertices s'.pStart s'.left = o ++ b
  := by
  have left' : s'.left = s.left - d := moved.left ready (by omega)
  have parts : SplitPrim.vertices s'.pStart s'.left = SplitPrim.vertices s'.pStart rep ++
      SplitPrim.vertices ((s'.pStart + rep) % 2 ^ 32) (s.left - d - rep) := by
    rw [← vertices_add, left']
    congr 1
    omega
  refine ⟨_, _, length_vertices _ _, ?_, ?_, parts⟩
  · rw [vertices_add, ← moved.pStart]
  · calc SplitPrim.vertices s.pStart s.left
        = SplitPrim.vertices s.pStart (d + s'.left) := by
          rw [left', Nat.add_sub_cancel' (by omega)]
      _ = SplitPrim.vertices s.pStart d ++ SplitPrim.vertices s'.pStart s'.left := by
          rw [vertices_add, ← moved.pStart]
      _ = _ := by rw [parts, List.append_assoc]

theorem Moved.ready (moved : s.Moved d again s') (ready : s.Ready) (inside : d ≤ s.left)
  (around : again = s.mode.around) :
  s'.Ready
  where
  start_lt := moved.start ▸ ready.start_lt
  pStart_lt := moved.pStart ▸ Nat.mod_lt _ (by decide)
  pEnd_lt := moved.pEnd ▸ ready.pEnd_lt
  plain := moved.mode ▸ ready.plain
  isStrip := moved.mode ▸ ready.isStrip
  repeats := fun repeats => by
    rw [moved.mode, ← around, ← moved.repeatFirst]
    exact repeats
  first := fun around' once => by
    rw [moved.mode, ← around, ← moved.repeatFirst, once] at around'
    cases around'
  closes := by
    rw [moved.mode, moved.closeFirst]
    exact ready.closes
  left_lt := by
    have := ready.left_lt
    rw [moved.left ready inside, moved.closeFirst]
    omega

end Moved

theorem length_pending (s : SplitPrim) :
  s.pending.length = s.repeatFirst.toNat + s.left + s.closeFirst.toNat
  := by
  unfold pending
  rw [List.length_append, List.length_append, length_vertices]
  congr 2
  · cases s.repeatFirst <;> rfl
  · cases s.closeFirst <;> rfl

/-! ### One call -/

theorem vertices_emitFirst {s : SplitPrim} (start_lt : s.start < 2 ^ 32) :
  s.emitFirst.flatMap Call.vertices = if s.repeatFirst then [s.start] else []
  := by
  unfold emitFirst
  cases s.repeatFirst <;> cases s.edgeflagOff <;>
    simp [Call.vertices, vertices_one start_lt]

/-- The room that `util_split_prim_next` compares with. -/
def room (s : SplitPrim) (maxVerts : ℕ) : ℕ :=
  if s.repeatFirst then lower maxVerts else maxVerts

theorem room_eq {s : SplitPrim} {maxVerts : ℕ} (four : 4 ≤ maxVerts) (small : maxVerts < 2 ^ 32) :
  s.room maxVerts + s.repeatFirst.toNat = maxVerts
  := by
  unfold room lower
  cases s.repeatFirst
  case false => simp
  case true =>
    simp only [if_true, Bool.toNat_true]
    rw [if_neg (by omega)]
    omega

/-- The last call emits what is left. -/
theorem next_all {s : SplitPrim} (ready : s.Ready) {maxVerts : ℕ} (four : 4 ≤ maxVerts)
  (small : maxVerts < 2 ^ 32) (fits : s.pending.length ≤ maxVerts) :
  ∃ calls s', s.next maxVerts = some (calls, s', true) ∧
    calls.flatMap Call.vertices = s.pending
  := by
  have room := @room_eq s _ four small
  have length := s.length_pending
  have enough : (s.left + s.closeFirst.toNat) % 2 ^ 32 ≤ s.room maxVerts := by
    rw [Nat.mod_eq_of_lt ready.left_lt]
    omega
  have next : s.next maxVerts = some (s.emitFirst ++ Call.emit s.pStart s.left ::
      (if s.closeFirst then [Call.emit s.start 1] else []),
      s.afterFirst, true) := if_pos enough
  refine ⟨_, _, next, ?_⟩
  rw [List.flatMap_append, vertices_emitFirst ready.start_lt, pending, List.append_assoc]
  congr 1
  rw [List.flatMap_cons]
  congr 1
  cases s.closeFirst <;> simp [Call.vertices, vertices_one ready.start_lt]

/-- Another call emits what it has room for. -/
theorem next_more {s : SplitPrim} (ready : s.Ready) {maxVerts : ℕ} (four : 4 ≤ maxVerts)
  (small : maxVerts < 2 ^ 32) (more : maxVerts < s.pending.length) :
  s.next maxVerts = s.afterFirst.emitSome s.emitFirst (s.room maxVerts)
  := by
  have room := @room_eq s _ four small
  have length := s.length_pending
  apply if_neg
  show ¬ (s.left + s.closeFirst.toNat) % 2 ^ 32 ≤ s.room maxVerts
  rw [Nat.mod_eq_of_lt ready.left_lt]
  omega

/-- What a call that does not end the run does to what is left. -/
structure Advances (s : SplitPrim) (maxVerts : ℕ) (calls : List Call) (s' : SplitPrim) : Prop where
  short : (calls.flatMap Call.vertices).length ≤ maxVerts
  ready : s'.Ready
  mode_eq : s'.mode = s.mode
  less : s'.left < s.left
  draws : ∀ pv, assemble s.mode pv s.pending =
    assemble s.mode pv (calls.flatMap Call.vertices) ++ assemble s.mode pv s'.pending

theorem emitPart_eq (s : SplitPrim) (calls : List Call) {n rep : ℕ} (enough : rep ≤ n) :
  ∃ s', emitPart s calls n rep = (calls ++ [.emit s.pStart n], s', false) ∧
    s.Moved (n - rep) s.repeatFirst s'
  := by
  refine ⟨_, rfl, rfl, rfl, ?_, rfl, rfl, rfl⟩
  show (s.pStart + n + 2 ^ 32 - rep) % 2 ^ 32 = _
  omega

/-- The switch rounds the room down to the unit of the mode. -/
theorem emitSome_strip {s : SplitPrim} (plain : s.mode.adjacency = false)
  (isStrip : s.mode ≠ .lineLoop) (strip : s.mode.around = false) (calls : List Call)
  (maxVerts : ℕ) :
  s.emitSome calls maxVerts =
    some (emitPart s calls (maxVerts - maxVerts % s.mode.cutUnit) s.mode.overlap)
  := by
  unfold emitSome
  cases mode : s.mode <;>
    simp_all [Prim.adjacency, Prim.around, Prim.cutUnit, Prim.overlap, Nat.mod_one]

/-- A chunk of a fan ends with the vertex that the next one begins with. -/
theorem emitSome_around {s : SplitPrim} (around : s.mode.around) (calls : List Call)
  {maxVerts : ℕ} (one : 1 ≤ maxVerts) (small : maxVerts < 2 ^ 32) :
  ∃ calls' s', s.emitSome calls maxVerts = some (calls', s', false) ∧
    calls'.flatMap Call.vertices = calls.flatMap Call.vertices ++ vertices s.pStart maxVerts ∧
    s.Moved (maxVerts - 1) true s'
  := by
  unfold emitSome
  cases mode : s.mode with
  | polygon =>
    have lower_eq : lower maxVerts = maxVerts - 1 := if_neg (by omega)
    refine ⟨_, _, rfl, ?_, mode.symm, rfl, by rw [lower_eq], rfl, rfl, rfl⟩
    have whole : vertices s.pStart maxVerts =
        vertices s.pStart (maxVerts - 1) ++ vertices ((s.pStart + (maxVerts - 1)) % 2 ^ 32) 1 := by
      rw [← vertices_add, Nat.sub_add_cancel one]
    simp [Call.vertices, lower_eq, whole]
  | triangleFan =>
    obtain ⟨s', part, moved⟩ := emitPart_eq { s with repeatFirst := true } calls one
    rw [mode] at part
    refine ⟨_, s', congrArg some part, ?_, moved.1, moved.2, moved.3, moved.4, moved.5, moved.6⟩
    simp [Call.vertices]
  | _ => simp [mode, Prim.around] at around

/-- A call on a strip or on separate primitives. -/
theorem next_strip {s : SplitPrim} (ready : s.Ready) (strip : s.mode.around = false)
  {maxVerts : ℕ} (four : 4 ≤ maxVerts) (small : maxVerts < 2 ^ 32)
  (more : maxVerts < s.pending.length) :
  ∃ calls s', s.next maxVerts = some (calls, s', false) ∧ s.Advances maxVerts calls s'
  := by
  have once : s.repeatFirst = false := by
    by_contra again
    have := ready.repeats (by simpa using again)
    simp [strip] at this
  have length := s.length_pending
  rw [once, Bool.toNat_false] at length
  -- the room is rounded down, and at least one primitive fits in it
  obtain ⟨n, hn⟩ : ∃ n, n = maxVerts - maxVerts % s.mode.cutUnit := ⟨_, rfl⟩
  obtain ⟨units, tight⟩ : s.mode.cutUnit ∣ s.mode.overlap ∧
      s.mode.overlap + s.mode.cutUnit ≤ 4 := by
    cases s.mode <;> decide
  have n_dvd : s.mode.cutUnit ∣ n := hn ▸ Nat.dvd_sub_mod maxVerts
  have n_le : n ≤ maxVerts := hn ▸ Nat.sub_le _ _
  have n_gt : s.mode.overlap < n := by
    have unit_pos : 0 < s.mode.cutUnit := by cases s.mode <;> decide
    have := Nat.mod_lt maxVerts unit_pos
    omega
  have n_inside : n ≤ s.left := by
    have := s.closeFirst.toNat_le
    omega
  obtain ⟨s', part, moved⟩ := emitPart_eq s.afterFirst [] (Nat.le_of_lt n_gt)
  replace moved : s.Moved (n - s.mode.overlap) false s' :=
    ⟨moved.1, moved.2, moved.3, moved.4, moved.5.trans once, moved.6⟩
  have next : s.next maxVerts = some ([.emit s.pStart n], s', false) := by
    have first : s.emitFirst = [] := by simp [emitFirst, once]
    have room : s.room maxVerts = maxVerts := by simp [SplitPrim.room, once]
    have switch : s.afterFirst.emitSome [] maxVerts =
        some (emitPart s.afterFirst [] (maxVerts - maxVerts % s.mode.cutUnit) s.mode.overlap) :=
      @emitSome_strip s.afterFirst ready.plain ready.isStrip strip [] maxVerts
    rw [next_more ready four small more, room, first, switch, ← hn]
    exact congrArg some part
  have calls : [Call.emit s.pStart n].flatMap Call.vertices = vertices s.pStart n := by
    simp [Call.vertices]
  obtain ⟨o, b, length_o, chunk, before, behind⟩ :=
    @Moved.vertices s s' _ _ moved ready s.mode.overlap (by omega)
  rw [Nat.sub_add_cancel (Nat.le_of_lt n_gt)] at chunk
  have left' : s'.left = s.left - (n - s.mode.overlap) := moved.left ready (by omega)
  refine ⟨_, s', next, ?_, moved.ready ready (by omega) strip.symm, moved.mode, by omega, ?_⟩
  · rw [calls, length_vertices]
    exact n_le
  · intro pv
    have unit : s.mode.cutUnit ∣ (vertices s.pStart (n - s.mode.overlap)).length := by
      rw [length_vertices]
      exact Nat.dvd_sub n_dvd units
    have pending : s.pending = vertices s.pStart (n - s.mode.overlap) ++ o ++
        (b ++ if s.closeFirst then [s.start] else []) := by
      rw [SplitPrim.pending, before, once]
      simp
    have pending' : s'.pending = o ++ (b ++ if s.closeFirst then [s.start] else []) := by
      rw [SplitPrim.pending, behind, moved.repeatFirst, moved.start, moved.closeFirst]
      simp
    rw [calls, chunk, pending, pending']
    exact assemble_cut pv ready.plain strip ready.isStrip _ _ _ unit length_o

/-- A call on primitives around the first vertex. -/
theorem next_around {s : SplitPrim} (ready : s.Ready) (around : s.mode.around)
  {maxVerts : ℕ} (four : 4 ≤ maxVerts) (small : maxVerts < 2 ^ 32)
  (more : maxVerts < s.pending.length) :
  ∃ calls s', s.next maxVerts = some (calls, s', false) ∧ s.Advances maxVerts calls s'
  := by
  have open' : s.closeFirst = false := by
    by_contra closed
    have := ready.closes (by simpa using closed)
    simp [this, Prim.around] at around
  have overlap : s.mode.overlap = 1 := by
    cases mode : s.mode <;> simp_all [Prim.around, Prim.overlap]
  have length := s.length_pending
  rw [open', Bool.toNat_false, Nat.add_zero] at length
  have room := @room_eq s _ four small
  have once := s.repeatFirst.toNat_le
  obtain ⟨n, hn⟩ : ∃ n, n = s.room maxVerts := ⟨_, rfl⟩
  rw [← hn] at room
  obtain ⟨calls, s', switch, emitted, moved⟩ :=
    @emitSome_around s.afterFirst around s.emitFirst n (by omega) (by omega)
  replace moved : s.Moved (n - 1) true s' :=
    ⟨moved.1, moved.2, moved.3, moved.4, moved.5, moved.6⟩
  replace emitted : calls.flatMap Call.vertices =
      (if s.repeatFirst then [s.start] else []) ++ vertices s.pStart n := by
    rw [emitted, vertices_emitFirst ready.start_lt]
    rfl
  have next : s.next maxVerts = some (calls, s', false) := by
    rw [next_more ready four small more, ← hn, switch]
  obtain ⟨o, b, length_o, chunk, before, behind⟩ :=
    @Moved.vertices s s' _ _ moved ready 1 (by omega)
  rw [Nat.sub_add_cancel (by omega)] at chunk
  have left' : s'.left = s.left - (n - 1) := moved.left ready (by omega)
  refine ⟨calls, s', next, ?_, moved.ready ready (by omega) around.symm, moved.mode, by omega, ?_⟩
  · rw [emitted, List.length_append, length_vertices]
    cases again : s.repeatFirst <;> simp [again] at room ⊢ <;> omega
  · intro pv
    have pending' : s'.pending = s.start :: (o ++ b) := by
      rw [SplitPrim.pending, behind, moved.repeatFirst, moved.start, moved.closeFirst]
      simp [open']
    -- the first chunk begins with the vertex that the others repeat
    obtain ⟨a, whole, emitted⟩ : ∃ a, s.pending = s.start :: (a ++ o ++ b) ∧
        calls.flatMap Call.vertices = s.start :: (a ++ o) := by
      rw [emitted, chunk, SplitPrim.pending, before, open']
      cases again : s.repeatFirst
      case true => exact ⟨vertices s.pStart (n - 1), by simp, by simp⟩
      case false =>
        have pStart := ready.first around again
        obtain ⟨k, hk⟩ : ∃ k, n - 1 = 1 + k := ⟨n - 2, by omega⟩
        rw [hk, vertices_add, vertices_one ready.pStart_lt, pStart]
        exact ⟨vertices ((s.start + 1) % 2 ^ 32) k, by simp, by simp⟩
    rw [whole, emitted, pending']
    exact assemble_cut_around pv around _ _ _ _ (by rw [length_o, overlap])

theorem next_part {s : SplitPrim} (ready : s.Ready) {maxVerts : ℕ} (four : 4 ≤ maxVerts)
  (small : maxVerts < 2 ^ 32) (more : maxVerts < s.pending.length) :
  ∃ calls s', s.next maxVerts = some (calls, s', false) ∧ s.Advances maxVerts calls s'
  := by
  cases around : s.mode.around with
  | true => exact next_around ready around four small more
  | false => exact next_strip ready around four small more

/-! ### All calls -/

theorem run_of_true {s s' : SplitPrim} {maxVerts : ℕ → ℕ} {calls : List Call}
  (next : s.next (maxVerts 0) = some (calls, s', true)) (fuel : ℕ) :
  run s maxVerts (fuel + 1) = some [calls.flatMap Call.vertices]
  := by
  simp only [run, next]
  rfl

theorem run_of_false {s s' : SplitPrim} {maxVerts : ℕ → ℕ} {calls : List Call}
  (next : s.next (maxVerts 0) = some (calls, s', false)) (fuel : ℕ) :
  run s maxVerts (fuel + 1) =
    (run s' (fun i => maxVerts (i + 1)) fuel).map (calls.flatMap Call.vertices :: ·)
  := by
  simp only [run, next]
  show (do
      let rest ← run s' (fun i => maxVerts (i + 1)) fuel
      return calls.flatMap Call.vertices :: rest) = _
  cases run s' (fun i => maxVerts (i + 1)) fuel <;> rfl

/-- The calls end, and the chunks draw what was left.  By induction on what is left. -/
theorem run_spec {s : SplitPrim} (ready : s.Ready) {maxVerts : ℕ → ℕ}
  (rooms : ∀ i, 4 ≤ maxVerts i ∧ maxVerts i < 2 ^ 32) :
  ∃ fuel chunks, run s maxVerts fuel = some chunks ∧
    (∀ i (h : i < chunks.length), chunks[i].length ≤ maxVerts i) ∧
    ∀ pv, chunks.flatMap (assemble s.mode pv) = assemble s.mode pv s.pending
  := by
  induction left : s.left using Nat.strongRecOn generalizing s maxVerts with
  | ind n ih =>
    have four := (rooms 0).1
    have small := (rooms 0).2
    by_cases fits : s.pending.length ≤ maxVerts 0
    · obtain ⟨calls, s', next, emitted⟩ := next_all ready four small fits
      refine ⟨1, [s.pending], by rw [run_of_true next, emitted], ?_, fun pv => by simp⟩
      · intro i h
        obtain rfl : i = 0 := by simpa using h
        exact fits
    · obtain ⟨calls, s', next, advances⟩ := next_part ready four small (by omega)
      obtain ⟨fuel, chunks, rest, short, draws⟩ :=
        @ih s'.left (by rw [← left]; exact advances.less) s' advances.ready
          (fun i => maxVerts (i + 1)) (fun i => rooms (i + 1)) rfl
      refine ⟨fuel + 1, calls.flatMap Call.vertices :: chunks, ?_, ?_, ?_⟩
      · rw [run_of_false next, rest, Option.map_some]
      · intro i h
        cases i with
        | zero => exact advances.short
        | succ i => exact short i (by simpa using h)
      · intro pv
        rw [List.flatMap_cons, advances.draws, ← advances.mode_eq, draws]

theorem length_emit_emit (start count start' count' : ℕ) :
  ([Call.emit start count, .emit start' count'].flatMap Call.vertices).length = count + count'
  := by
  simp [Call.vertices]

section Init

variable {mode : Prim} {start count : ℕ}

theorem left_init (start_lt : start < 2 ^ 32) (count_lt : count < 2 ^ 32) :
  (init mode start count).left = count
  := by
  simp only [left, init]
  omega

theorem ready_init (plain : mode.adjacency = false) (start_lt : start < 2 ^ 32)
  (count_lt : count < 2 ^ 32) (room : ¬ (mode = .lineLoop ∧ count = 2 ^ 32 - 1)) :
  (init mode start count).Ready
  where
  start_lt := start_lt
  pStart_lt := start_lt
  pEnd_lt := Nat.mod_lt _ (by decide)
  plain := by
    show (if mode = .lineLoop then Prim.lineStrip else mode).adjacency = false
    split
    · rfl
    · exact plain
  isStrip := by
    show (if mode = .lineLoop then Prim.lineStrip else mode) ≠ .lineLoop
    split
    case isTrue => decide
    case isFalse strip => exact strip
  repeats := fun repeats => by cases repeats
  first := fun _ _ => rfl
  closes := fun closes => if_pos (of_decide_eq_true closes)
  left_lt := by
    rw [left_init start_lt count_lt]
    show count + (decide (mode = .lineLoop)).toNat < 2 ^ 32
    by_cases loop : mode = .lineLoop <;> simp [loop] at room ⊢ <;> omega

theorem assemble_pending_init (start_lt : start < 2 ^ 32) (count_lt : count < 2 ^ 32) (pv : Pv) :
  assemble (init mode start count).mode pv (init mode start count).pending =
    shapes mode pv (vertices start count)
  := by
  have pending : (init mode start count).pending =
      vertices start count ++ if mode = .lineLoop then [start] else [] := by
    rw [SplitPrim.pending, left_init start_lt count_lt]
    simp [init]
  rw [pending]
  by_cases loop : mode = .lineLoop
  case neg => simp [init, shapes, loop]
  case pos =>
    simp only [init, shapes, loop, if_true]
    cases count with
    | zero => rfl
    | succ count =>
      rw [Nat.add_comm, vertices_add, vertices_one start_lt]
      rfl

end Init

/-- The vertices of the longest loop and the repeated one are `2 ^ 32`, which wraps, and all of them
are in one chunk. -/
theorem longest_loop_whole (pv : Pv) {start count : ℕ} (start_lt : start < 2 ^ 32)
  (longest : count = 2 ^ 32 - 1) {maxVerts : ℕ → ℕ} (small : maxVerts 0 < 2 ^ 32) :
  ¬ Splits .lineLoop pv start count maxVerts
  := by
  rintro ⟨fuel, chunks, result, short, -⟩
  cases fuel with
  | zero => cases result
  | succ fuel =>
    have left := @left_init .lineLoop start count start_lt (by omega)
    have wraps : ((init .lineLoop start count).left + 1) % 2 ^ 32 ≤ maxVerts 0 := by omega
    have next : (init .lineLoop start count).next (maxVerts 0) =
        some ([.emit start (init .lineLoop start count).left, .emit start 1],
          init .lineLoop start count, true) := if_pos wraps
    rw [run_of_true next] at result
    obtain rfl := Option.some.inj result
    have first := short 0 Nat.one_pos
    rw [List.getElem_cons_zero, length_emit_emit, left] at first
    omega

/-- A run splits the draw exactly if it is not the longest loop. -/
theorem splits_iff {mode : Prim} (plain : mode.adjacency = false) (pv : Pv) {start count : ℕ}
  (start_lt : start < 2 ^ 32) (count_lt : count < 2 ^ 32) {maxVerts : ℕ → ℕ}
  (rooms : ∀ i, 4 ≤ maxVerts i ∧ maxVerts i < 2 ^ 32) :
  Splits mode pv start count maxVerts ↔ ¬ (mode = .lineLoop ∧ count = 2 ^ 32 - 1)
  := by
  constructor
  case mpr =>
    intro room
    have ready := ready_init plain start_lt count_lt room
    obtain ⟨fuel, chunks, result, short, draws⟩ := run_spec ready rooms
    exact ⟨fuel, chunks, result, short, by rw [draws, assemble_pending_init start_lt count_lt]⟩
  case mp =>
    rintro splits ⟨rfl, longest⟩
    exact longest_loop_whole pv start_lt longest (rooms 0).2 splits

/-- Twelve vertices of a strip, with room for five. -/
theorem splits_iff_five :
  Splits .triangleStrip .last 7 12 (fun _ => 5) ↔
    ¬ (Prim.triangleStrip = .lineLoop ∧ 12 = 2 ^ 32 - 1)
  := splits_iff rfl .last (by decide) (by decide) (fun _ => by decide)

/-- A chunk of the longest loop is too long. -/
theorem longest_loop_not_split :
  ¬ Splits .lineLoop .last 0 (2 ^ 32 - 1) (fun _ => 4)
  := longest_loop_whole .last (by decide) rfl (by decide)

end SplitPrim

end Gallium
