import Mesa.Nir.ParallelCopySetUp
import Mathlib.Data.Set.BooleanAlgebra
import Mathlib.Order.CompletePartialOrder

/-!
# Parallel copies are resolved

The shell game is described by where each value that is still needed lives, and by which
destinations are still to be filled.  Its movs do what the parallel copy says unless a value that is
wider than a temporary register goes through one, and this happens when the copies rotate such
values.
-/

namespace Nir.FromSsa

/-! ### Rotations of indices -/

/-- Indices that the predecessors rotate, and that are the predecessors of no other index. -/
structure Rotates (start : Shuffle) (C : Set ℕ) : Prop where
  source : ∀ b ∈ C, ∃ a ∈ C, start.pred b = some a
  used : ∀ a ∈ C, ∃ b, start.pred b = some a
  closed : ∀ a ∈ C, ∀ b, start.pred b = some a → b ∈ C

/-- A finite set of numbers that a function covers is closed under it. -/
theorem mem_of_covered {P : Finset ℕ} {f : ℕ → ℕ} (covered : ∀ b ∈ P, ∃ c ∈ P, f c = b) {b : ℕ}
    (hb : b ∈ P) :
  f b ∈ P
  := by
  have sub : P ⊆ P.image f := by
    intro x hx
    obtain ⟨c, hc, rfl⟩ := covered x hx
    apply Finset.mem_image_of_mem f hc
  have eq : P = P.image f := Finset.eq_of_subset_of_card_le sub Finset.card_image_le
  rw [eq]
  apply Finset.mem_image_of_mem f hb

/-! ### The state of the game -/

/-- What holds between the start of the game and a state of it; the values of the lost indices have
been saved in temporary registers. -/
structure Game (numCopies : ℕ) (start s : Shuffle) (lost : Set ℕ) : Prop where
  values : start.values <+: s.values
  nodup : s.values.Nodup
  regAlloc : start.regAlloc ≤ s.regAlloc
  created : ∀ r, Src.reg r ∈ s.values → r.index < s.regAlloc
  pred : ∀ b a, s.pred b = some a → start.pred b = some a
  moved : ∀ a l, s.loc a = some l → l ≠ a → s.pred l = none
  ready : ∀ b ∈ s.ready, (∃ a, s.pred b = some a) ∧ ∀ c a, s.pred c = some a → s.loc a ≠ some b
  nodup_ready : s.ready.Nodup
  tail : ∀ b ∈ s.ready.tail, ∀ c, s.pred c ≠ some b
  waiting : ∀ b a, s.pred b = some a → b ∉ s.ready →
    s.loc b = some b ∧ (∃ c, start.pred c = some b) ∧ ∀ c, start.pred c = some b → s.pred c = some b
  nodup_toDo : s.toDo.Nodup
  toDo : ∀ b ∈ s.toDo, ∃ a, start.pred b = some a
  pending : ∀ b a, s.pred b = some a → b ∈ s.toDo ∨ b ∈ s.ready
  ended : s.toDo = [] → s.ready = []
  room : s.values.length + s.toDo.countP start.chained ≤ numCopies * 2
  rotated : ∀ a ∈ lost, ∃ C, Rotates start C ∧ a ∈ C
  rotating : ∀ C, Rotates start C → Disjoint C lost →
    ∀ b ∈ C, (∃ a, s.pred b = some a) ∧ b ∉ s.ready

/-- A game that starts. -/
theorem Game.start {regAlloc : ℕ} {entries : List Entry} {s : Shuffle}
    (valid : Valid regAlloc entries) (h : Recorded regAlloc (copies entries) s)
    (proper : copies entries ≠ []) :
  Game (copies entries).length s.markReady s.markReady ∅
  := by
  have source {b a : ℕ} (hb : s.pred b = some a) (waiting : b ∉ s.markReady.ready) :
      ∃ c, s.pred c = some b := by
    rw [h.mem_ready, not_and] at waiting
    obtain ⟨l, hl⟩ := Option.ne_none_iff_exists'.mp (waiting ⟨a, hb⟩)
    apply h.source b l hl
  constructor
  case values => apply List.prefix_refl
  case nodup => apply h.nodup
  case regAlloc => apply le_refl
  case created =>
    intro r hr
    obtain ⟨e, he, cases⟩ := h.mem _ hr
    have he := (List.mem_filter.mp he).1
    change r.index < s.regAlloc
    rw [h.regAlloc]
    rcases cases with src | dest
    · apply valid.src e he r src.symm
    · obtain rfl : r = e.dest := by
        simpa using dest
      apply valid.dest e he
  case pred => exact fun _ _ => id
  case moved =>
    intro a l hl ne
    obtain ⟨j, hj⟩ := h.source a l hl
    have := h.located j a hj
    exact absurd (Option.some.inj (hl.symm.trans this)) ne
  case ready =>
    intro b hb
    obtain ⟨pending, free⟩ := h.mem_ready.mp hb
    refine ⟨pending, ?_⟩
    rintro c a hc hl
    have same := Option.some.inj (hl.symm.trans (h.located c a hc))
    rw [same] at free
    cases free.symm.trans (h.located c a hc)
  case nodup_ready => apply h.nodup_ready
  case tail =>
    intro b hb c hc
    obtain ⟨-, free⟩ := h.mem_ready.mp (List.mem_of_mem_tail hb)
    cases free.symm.trans (h.located c b hc)
  case waiting =>
    intro b a hb waiting
    obtain ⟨c, hc⟩ := source hb waiting
    exact ⟨h.located c b hc, ⟨c, hc⟩, fun _ => id⟩
  case nodup_toDo => apply h.toDo_nodup
  case toDo =>
    intro b hb
    apply (h.toDo b).mp hb
  case pending =>
    intro b a hb
    left
    apply (h.toDo b).mpr ⟨a, hb⟩
  case ended =>
    intro empty
    have length := h.toDo_length
    change s.toDo = [] at empty
    rw [empty] at length
    exact absurd (List.length_eq_zero_iff.mp length.symm) proper
  case room => apply h.room
  case rotated => simp
  case rotating =>
    intro C rotates _ b hb
    obtain ⟨a, -, ha⟩ := rotates.source b hb
    obtain ⟨c, hc⟩ := rotates.used b hb
    refine ⟨⟨a, ha⟩, ?_⟩
    rw [h.mem_ready]
    rintro ⟨-, free⟩
    cases free.symm.trans (h.located c b hc)

/-! ### The steps -/

/-- The state when a destination has been filled. -/
def Shuffle.filled (s : Shuffle) (a b : ℕ) (ready : List ℕ) (mov : Mov) : Shuffle :=
  { s with
    loc := Function.update s.loc a (some b)
    pred := Function.update s.pred b none
    ready := if (s.pred a).isSome then a :: ready else ready
    emitted := s.emitted ++ [mov] }

/-- The state when a cycle has been broken. -/
def Shuffle.broken (s : Shuffle) (b : ℕ) (toDo : List ℕ) (mov : Mov) : Shuffle :=
  { s with
    values := s.values ++ [.reg mov.dest]
    loc := Function.update s.loc b (some s.values.length)
    toDo
    ready := [b]
    emitted := s.emitted ++ [mov]
    regAlloc := s.regAlloc + 1 }

theorem fill_eq {s : Shuffle} {a b l : ℕ} {w : Src} {r : Register} (ready : List ℕ)
    (hp : s.pred b = some a) (ne : a ≠ b) (hl : s.loc a = some l) (hw : s.values[l]? = some w)
    (hr : s.values[b]? = some (.reg r)) (shape : r.numComponents ≤ w.numComponents) :
  s.fill b ready = some (s.filled a b ready ⟨w, r⟩)
  := by
  unfold Shuffle.fill Shuffle.filled
  simp only [hp, hl, hw, hr, Shuffle.emitCopy, if_pos shape, Option.bind_eq_bind,
    Option.bind_some, Option.pure_def, Function.update_of_ne ne]
  split <;> rfl

theorem breakCycle_eq {s : Shuffle} {numCopies b : ℕ} {r : Register} (toDo : List ℕ)
    (room : s.values.length < numCopies * 2) (hr : s.values[b]? = some (.reg r))
    (ready : s.ready = []) :
  s.breakCycle numCopies b toDo =
    some (s.broken b toDo ⟨.reg r, copyTemp s.regAlloc r.numComponents⟩)
  := by
  unfold Shuffle.breakCycle Shuffle.broken
  simp only [if_pos room, hr, Shuffle.emitCopy, Option.bind_eq_bind, Option.bind_some,
    Option.pure_def, Src.numComponents, copyTemp, le_refl, ↓reduceIte, ready]

/-- A destination that is filled leaves a game. -/
theorem Game.fill {numCopies : ℕ} {start s : Shuffle} {lost : Set ℕ} {a b : ℕ} {ready : List ℕ}
    (game : Game numCopies start s lost) (ready_eq : s.ready = b :: ready)
    (hp : s.pred b = some a) (ne : a ≠ b) (busy : s.toDo ≠ []) (mov : Mov) :
  Game numCopies start (s.filled a b ready mov) lost
  := by
  have nodup := game.nodup_ready
  rw [ready_eq, List.nodup_cons] at nodup
  have mem : b ∈ s.ready := by
    rw [ready_eq]
    apply List.mem_cons_self
  -- what is still to be filled
  have pred {c x : ℕ} (hc : (s.filled a b ready mov).pred c = some x) :
      c ≠ b ∧ s.pred c = some x := by
    have other : c ≠ b := by
      rintro rfl
      simp [Shuffle.filled] at hc
    exact ⟨other, by simpa [Shuffle.filled, other] using hc⟩
  have pred' {c x : ℕ} (other : c ≠ b) (hc : s.pred c = some x) :
      (s.filled a b ready mov).pred c = some x := by
    simpa [Shuffle.filled, other] using hc
  have loc {x : ℕ} (other : x ≠ a) : (s.filled a b ready mov).loc x = s.loc x := by
    simp [Shuffle.filled, other]
  have ready' {x : ℕ} (hx : x ∈ (s.filled a b ready mov).ready) :
      x ∈ ready ∨ x = a ∧ ∃ y, s.pred a = some y := by
    simp only [Shuffle.filled] at hx
    split at hx
    next some =>
      rcases List.mem_cons.mp hx with rfl | hx
      · exact .inr ⟨rfl, Option.isSome_iff_exists.mp some⟩
      · exact .inl hx
    next => exact .inl hx
  constructor
  case values => apply game.values
  case nodup => apply game.nodup
  case regAlloc => apply game.regAlloc
  case created => apply game.created
  case pred =>
    intro c x hc
    apply game.pred c x (pred hc).2
  case moved =>
    intro x l hl other
    by_cases same : x = a
    · subst same
      obtain rfl : b = l := by
        simpa [Shuffle.filled] using hl
      simp [Shuffle.filled]
    · rw [loc same] at hl
      have old := game.moved x l hl other
      by_cases here : l = b <;> simp [Shuffle.filled, here, old]
  case ready =>
    intro x hx
    rcases ready' hx with old | ⟨rfl, y, hy⟩
    · have other : x ≠ b := by
        rintro rfl
        exact nodup.1 old
      obtain ⟨⟨y, hy⟩, free⟩ := game.ready x (by rw [ready_eq]; apply List.mem_cons_of_mem _ old)
      refine ⟨⟨y, pred' other hy⟩, ?_⟩
      intro c z hc
      by_cases same : z = a
      · subst same
        simpa [Shuffle.filled] using Ne.symm other
      · rw [loc same]
        apply free c z (pred hc).2
    · refine ⟨⟨y, pred' ne hy⟩, ?_⟩
      intro c z hc hz
      by_cases same : z = x
      · subst same
        have moved : b = z := by
          simpa [Shuffle.filled] using hz
        exact ne moved.symm
      · rw [loc same] at hz
        have := game.moved z x hz (Ne.symm same)
        cases this.symm.trans hy
  case nodup_ready =>
    have absent : a ∉ ready := by
      intro here
      apply game.tail a _ b hp
      rw [ready_eq]
      apply here
    simp only [Shuffle.filled]
    split
    · apply List.nodup_cons.mpr ⟨absent, nodup.2⟩
    · apply nodup.2
  case tail =>
    intro x hx c hc
    have old : x ∈ s.ready.tail := by
      rw [ready_eq, List.tail_cons]
      simp only [Shuffle.filled] at hx
      split at hx
      · apply hx
      · apply List.mem_of_mem_tail hx
    apply game.tail x old c (pred hc).2
  case waiting =>
    intro x y hx waiting
    obtain ⟨other, old⟩ := pred hx
    have different : x ≠ a := by
      rintro rfl
      apply waiting
      simp [Shuffle.filled, old]
    have absent : x ∉ s.ready := by
      rw [ready_eq]
      intro old
      rcases List.mem_cons.mp old with rfl | old
      · exact other rfl
      · apply waiting
        simp only [Shuffle.filled]
        split
        · apply List.mem_cons_of_mem _ old
        · apply old
    obtain ⟨located, used, all⟩ := game.waiting x y old absent
    refine ⟨by rw [loc different, located], used, ?_⟩
    intro c hc
    apply pred' _ (all c hc)
    rintro rfl
    cases hp.symm.trans (all c hc)
    exact different rfl
  case nodup_toDo => apply game.nodup_toDo
  case toDo => apply game.toDo
  case pending =>
    intro x y hx
    obtain ⟨other, hx⟩ := pred hx
    rcases game.pending x y hx with here | here
    · exact .inl here
    · right
      rw [ready_eq] at here
      have old := List.mem_of_ne_of_mem other here
      simp only [Shuffle.filled]
      split
      · apply List.mem_cons_of_mem _ old
      · apply old
  case ended => exact fun empty => absurd empty busy
  case room => apply game.room
  case rotated => apply game.rotated
  case rotating =>
    intro C rotates apart x hx
    obtain ⟨⟨y, hy⟩, absent⟩ := game.rotating C rotates apart x hx
    have other : x ≠ b := by
      rintro rfl
      exact absent mem
    refine ⟨⟨y, pred' other hy⟩, ?_⟩
    intro now
    rcases ready' now with old | ⟨rfl, -⟩
    · apply absent
      rw [ready_eq]
      apply List.mem_cons_of_mem _ old
    · have := rotates.closed x hx b (game.pred b x hp)
      exact (game.rotating C rotates apart b this).2 mem

/-- A destination that has been filled is passed over. -/
theorem Game.pop {numCopies : ℕ} {start s : Shuffle} {lost : Set ℕ} {b : ℕ} {toDo : List ℕ}
    (game : Game numCopies start s lost) (toDo_eq : s.toDo = b :: toDo) (ready_eq : s.ready = [])
    (done : s.pred b = none) :
  Game numCopies start { s with toDo } lost
  := by
  have nodup := game.nodup_toDo
  have room := game.room
  rw [toDo_eq] at nodup room
  constructor
  case values => apply game.values
  case nodup => apply game.nodup
  case regAlloc => apply game.regAlloc
  case created => apply game.created
  case pred => apply game.pred
  case moved => apply game.moved
  case ready => apply game.ready
  case nodup_ready => apply game.nodup_ready
  case tail => apply game.tail
  case waiting => apply game.waiting
  case nodup_toDo => apply (List.nodup_cons.mp nodup).2
  case toDo =>
    intro x hx
    apply game.toDo x
    rw [toDo_eq]
    apply List.mem_cons_of_mem _ hx
  case pending =>
    intro x y hx
    rcases game.pending x y hx with here | here
    · left
      rw [toDo_eq] at here
      apply List.mem_of_ne_of_mem _ here
      rintro rfl
      cases done.symm.trans hx
    · exact .inr here
  case ended => exact fun _ => ready_eq
  case room =>
    apply le_trans _ room
    apply Nat.add_le_add_left
    apply List.Sublist.countP_le
    apply List.sublist_cons_self
  case rotated => apply game.rotated
  case rotating => apply game.rotating

/-- When no destination is ready, those that are still to be filled are rotated. -/
theorem Game.rotates {numCopies : ℕ} {start s : Shuffle} {lost : Set ℕ}
    (game : Game numCopies start s lost) (ready_eq : s.ready = []) :
  Rotates start { b | ∃ a, s.pred b = some a }
  := by
  have waiting {b a : ℕ} (hb : s.pred b = some a) := game.waiting b a hb (by simp [ready_eq])
  let P : Finset ℕ := s.toDo.toFinset.filter fun b => (s.pred b).isSome
  have mem_P {b : ℕ} : b ∈ P ↔ ∃ a, s.pred b = some a := by
    rw [Finset.mem_filter, List.mem_toFinset, Option.isSome_iff_exists]
    constructor
    · exact fun h => h.2
    · rintro ⟨a, hb⟩
      refine ⟨?_, a, hb⟩
      rcases game.pending b a hb with here | here
      · apply here
      · simp [ready_eq] at here
  have covered : ∀ b ∈ P, ∃ c ∈ P, (s.pred c).getD 0 = b := by
    intro b hb
    obtain ⟨a, hb⟩ := mem_P.mp hb
    obtain ⟨-, ⟨c, hc⟩, all⟩ := waiting hb
    have hc := all c hc
    exact ⟨c, mem_P.mpr ⟨b, hc⟩, by simp [hc]⟩
  constructor
  · rintro b ⟨a, hb⟩
    have ha := mem_of_covered covered (mem_P.mpr ⟨a, hb⟩)
    rw [hb] at ha
    exact ⟨a, mem_P.mp ha, game.pred b a hb⟩
  · rintro b ⟨a, hb⟩
    apply (waiting hb).2.1
  · rintro b ⟨a, hb⟩ c hc
    exact ⟨b, (waiting hb).2.2 c hc⟩

/-- A destination that is part of a cycle leaves room for its temporary register, and it is not the
last one. -/
theorem Game.room_for {numCopies : ℕ} {start s : Shuffle} {lost : Set ℕ} {a b : ℕ}
    {toDo : List ℕ} (game : Game numCopies start s lost) (toDo_eq : s.toDo = b :: toDo)
    (ready_eq : s.ready = []) (hp : s.pred b = some a) (ne : a ≠ b) :
  toDo ≠ [] ∧ s.values.length + 1 + toDo.countP start.chained ≤ numCopies * 2
  := by
  obtain ⟨x, ⟨y, hx⟩, source⟩ := (game.rotates ready_eq).source b ⟨a, hp⟩
  obtain rfl := Option.some.inj ((game.pred b a hp).symm.trans source)
  constructor
  · rintro rfl
    rcases game.pending a y hx with here | here
    · rw [toDo_eq, List.mem_singleton] at here
      exact ne here
    · simp [ready_eq] at here
  · have chained : start.chained b = true := by
      simp [Shuffle.chained, game.pred b a hp, game.pred a y hx]
    have room := game.room
    rw [toDo_eq, List.countP_cons_of_pos chained] at room
    omega

/-- A cycle that is broken leaves a game. -/
theorem Game.breakCycle {numCopies : ℕ} {start s : Shuffle} {lost : Set ℕ} {a b : ℕ} {toDo : List ℕ}
    (game : Game numCopies start s lost) (toDo_eq : s.toDo = b :: toDo) (ready_eq : s.ready = [])
    (hp : s.pred b = some a) (ne : a ≠ b) (bounded : ∀ x y, s.pred x = some y → x < s.values.length)
    (src : Src) (numComponents : ℕ) :
  Game numCopies start (s.broken b toDo ⟨src, copyTemp s.regAlloc numComponents⟩) (insert b lost)
  := by
  have nodup := game.nodup_toDo
  rw [toDo_eq, List.nodup_cons] at nodup
  obtain ⟨proper, room⟩ := game.room_for toDo_eq ready_eq hp ne
  have waiting {x y : ℕ} (hx : s.pred x = some y) := game.waiting x y hx (by simp [ready_eq])
  have loc {x : ℕ} (other : x ≠ b) :
      (s.broken b toDo ⟨src, copyTemp s.regAlloc numComponents⟩).loc x = s.loc x := by
    simp [Shuffle.broken, other]
  have moved : (s.broken b toDo ⟨src, copyTemp s.regAlloc numComponents⟩).loc b =
      some s.values.length := by
    simp [Shuffle.broken]
  have last : s.pred s.values.length = none := by
    cases h : s.pred s.values.length with
    | none => rfl
    | some y => exact absurd (bounded _ y h) (lt_irrefl _)
  constructor
  case values => apply game.values.trans (List.prefix_append _ _)
  case nodup =>
    simp only [Shuffle.broken, List.nodup_append, List.nodup_singleton, List.mem_singleton,
      true_and, game.nodup]
    rintro v hv w rfl rfl
    exact absurd (game.created _ hv) (lt_irrefl _)
  case regAlloc => apply le_trans game.regAlloc (Nat.le_succ _)
  case created =>
    intro r hr
    rcases List.mem_append.mp hr with old | new
    · apply lt_trans (game.created r old) (Nat.lt_succ_self _)
    · obtain rfl : r = copyTemp s.regAlloc numComponents := by
        simpa using new
      apply Nat.lt_succ_self
  case pred => apply game.pred
  case moved =>
    intro x l hl other
    by_cases same : x = b
    · subst same
      rw [moved] at hl
      obtain rfl := Option.some.inj hl
      apply last
    · rw [loc same] at hl
      apply game.moved x l hl other
  case ready =>
    intro x hx
    obtain rfl : x = b := by
      simpa [Shuffle.broken] using hx
    refine ⟨⟨a, hp⟩, ?_⟩
    intro c y _ hy
    by_cases same : y = x
    · subst same
      rw [moved] at hy
      have := bounded y a hp
      have := Option.some.inj hy
      omega
    · rw [loc same] at hy
      cases (game.moved y x hy (Ne.symm same)).symm.trans hp
  case nodup_ready => apply List.nodup_singleton
  case tail => simp [Shuffle.broken]
  case waiting =>
    intro x y hx waits
    have other : x ≠ b := by
      rintro rfl
      simp [Shuffle.broken] at waits
    rw [loc other]
    apply waiting hx
  case nodup_toDo => apply nodup.2
  case toDo =>
    intro x hx
    apply game.toDo x
    rw [toDo_eq]
    apply List.mem_cons_of_mem _ hx
  case pending =>
    intro x y hx
    rcases game.pending x y hx with here | here
    · rw [toDo_eq] at here
      rcases List.mem_cons.mp here with rfl | here
      · simp [Shuffle.broken]
      · exact .inl here
    · simp [ready_eq] at here
  case ended => exact fun empty => absurd empty proper
  case room =>
    simp only [Shuffle.broken, List.length_append, List.length_singleton]
    apply room
  case rotated =>
    intro x hx
    rcases hx with rfl | old
    · exact ⟨_, game.rotates ready_eq, a, hp⟩
    · apply game.rotated x old
  case rotating =>
    intro C rotates apart x hx
    rw [Set.disjoint_insert_right] at apart
    refine ⟨(game.rotating C rotates apart.2 x hx).1, ?_⟩
    intro here
    obtain rfl : x = b := by
      simpa [Shuffle.broken] using here
    exact apart.1 hx

/-! ### What the registers hold -/

/-- What is known about the values at the start. -/
structure Shaped (start : Shuffle) : Prop where
  nodup : start.values.Nodup
  created : ∀ r, Src.reg r ∈ start.values → r.index < start.regAlloc
  ne : ∀ b a, start.pred b = some a → a ≠ b
  toDo : ∀ b a, start.pred b = some a → b ∈ start.toDo
  pred : ∀ b a, start.pred b = some a → ∃ v r, start.values[a]? = some v ∧
    start.values[b]? = some (.reg r) ∧ v.numComponents = r.numComponents ∧ v.bitSize = r.bitSize

/-- A value that is kept, or only its lower half when it is lost. -/
def Keeps (lost : Set ℕ) (a x y : ℕ) : Prop := (a ∈ lost → y = x % 2 ^ 32) ∧ (a ∉ lost → y = x)

theorem Keeps.le {lost : Set ℕ} {a x y : ℕ} (h : Keeps lost a x y) :
  y ≤ x
  := by
  by_cases mem : a ∈ lost
  · rw [h.1 mem]
    apply Nat.mod_le
  · rw [h.2 mem]

/-- What the movs have done so far. -/
structure Holds (start s : Shuffle) (lost : Set ℕ) (before after : Machine) : Prop where
  held : ∀ b a v, s.pred b = some a → start.values[a]? = some v →
    ∃ l w, s.loc a = some l ∧ s.values[l]? = some w ∧ w.numComponents = v.numComponents ∧
      ∀ c < v.numComponents, Keeps lost a (before.read v c) (after.read w c)
  filled : ∀ b a v r, start.pred b = some a → s.pred b = none → start.values[a]? = some v →
    start.values[b]? = some (.reg r) →
    ∀ c < r.numComponents, Keeps lost a (before.read v c) (after.read (.reg r) c)
  kept : ∀ r : Register, r.index < start.regAlloc →
    (∀ b a, start.pred b = some a → start.values[b]? ≠ some (.reg r)) →
    after.regs r = before.regs r

theorem Holds.start {start : Shuffle}
    (located : ∀ b a, start.pred b = some a → start.loc a = some a) (machine : Machine) :
  Holds start start ∅ machine machine
  := by
  refine ⟨?_, ?_, fun _ _ _ => rfl⟩
  · intro b a v hb hv
    refine ⟨a, v, located b a hb, hv, rfl, ?_⟩
    intro c _
    apply And.intro (fun h => absurd h (Set.notMem_empty a)) (fun _ => rfl)
  · intro b a v r hb hb'
    cases hb.symm.trans hb'

/-- The mov that fills a destination. -/
theorem Holds.fill {numCopies : ℕ} {start s : Shuffle} {lost : Set ℕ} {before after : Machine}
    {a b : ℕ} {v w : Src} {r : Register} {ready : List ℕ}
    (holds : Holds start s lost before after) (shaped : Shaped start)
    (game : Game numCopies start s lost) (ready_eq : s.ready = b :: ready)
    (hp : s.pred b = some a) (hv : start.values[a]? = some v)
    (hr : start.values[b]? = some (.reg r))
    (shape : v.numComponents = r.numComponents) (bitSize : v.bitSize = r.bitSize)
    (kept : ∀ c < v.numComponents, Keeps lost a (before.read v c) (after.read w c)) :
  Holds start (s.filled a b ready ⟨w, r⟩) lost before (Mov.exec after ⟨w, r⟩)
  := by
  have hr' := getElem?_mono game.values hr
  have free := (game.ready b (by rw [ready_eq]; apply List.mem_cons_self)).2
  have ne := shaped.ne b a (game.pred b a hp)
  have pred {c x : ℕ} (hc : (s.filled a b ready ⟨w, r⟩).pred c = some x) : s.pred c = some x := by
    by_cases same : c = b
    · simp [Shuffle.filled, same] at hc
    · simpa [Shuffle.filled, same] using hc
  -- the destination takes all of the value
  have written {c : ℕ} (hc : c < r.numComponents) :
      Keeps lost a (before.read v c) ((Mov.exec after ⟨w, r⟩).read (.reg r) c) := by
    rw [Mov.read_dest after ⟨w, r⟩ hc, Nat.mod_eq_of_lt]
    · apply kept c (by omega)
    · rw [← bitSize]
      apply lt_of_le_of_lt (kept c (by omega)).le (before.read_lt v c)
  constructor
  · intro d x v' hd hv'
    have old := pred hd
    by_cases same : x = a
    · subst same
      obtain rfl := Option.some.inj (hv.symm.trans hv')
      refine ⟨b, .reg r, by simp [Shuffle.filled], hr', shape.symm, ?_⟩
      intro c hc
      apply written (by omega)
    · obtain ⟨l', w', hl', hw', shape', keeps⟩ := holds.held d x v' old hv'
      refine ⟨l', w', by simpa [Shuffle.filled, same] using hl', hw', shape', ?_⟩
      intro c hc
      have other : w' ≠ .reg r := by
        rintro rfl
        obtain rfl := index_inj game.nodup hw' hr'
        exact free d x old hl'
      rw [Mov.read_other after ⟨w, r⟩ other]
      apply keeps c hc
  · intro d x v' r' hd hd' hv' hr'' c hc
    by_cases same : d = b
    · subst same
      obtain rfl := Option.some.inj ((game.pred d a hp).symm.trans hd)
      obtain rfl := Option.some.inj (hv.symm.trans hv')
      obtain rfl : r = r' := by
        simpa using hr.symm.trans hr''
      apply written hc
    · have done : s.pred d = none := by
        simpa [Shuffle.filled, same] using hd'
      have other : Src.reg r' ≠ .reg r := by
        rintro h
        rw [h] at hr''
        exact same (index_inj shaped.nodup hr'' hr)
      rw [Mov.read_other after ⟨w, r⟩ other]
      apply holds.filled d x v' r' hd done hv' hr'' c hc
  · intro r' hr'' untouched
    have other : r' ≠ r := by
      rintro rfl
      exact untouched b a (game.pred b a hp) hr
    rw [Mov.regs_other after ⟨w, r⟩ other]
    apply holds.kept r' hr'' untouched

/-- The mov that breaks a cycle. -/
theorem Holds.breakCycle {numCopies : ℕ} {start s : Shuffle} {lost : Set ℕ}
    {before after : Machine} {a b : ℕ} {r : Register} {toDo : List ℕ}
    (holds : Holds start s lost before after)
    (game : Game numCopies start s lost) (ready_eq : s.ready = []) (hp : s.pred b = some a)
    (hr : start.values[b]? = some (.reg r)) :
  Holds start (s.broken b toDo ⟨.reg r, copyTemp s.regAlloc r.numComponents⟩) (insert b lost)
    before (Mov.exec after ⟨.reg r, copyTemp s.regAlloc r.numComponents⟩)
  := by
  obtain ⟨located, ⟨d, hd⟩, all⟩ := game.waiting b a hp (by simp [ready_eq])
  have hr' := getElem?_mono game.values hr
  have fresh {w : Src} (hw : w ∈ s.values) : w ≠ .reg (copyTemp s.regAlloc r.numComponents) := by
    rintro rfl
    exact absurd (game.created _ hw) (lt_irrefl _)
  constructor
  · intro e x v he hv
    obtain ⟨l, w, hl, hw, shape, keeps⟩ := holds.held e x v he hv
    by_cases same : x = b
    · subst same
      obtain rfl := Option.some.inj (located.symm.trans hl)
      obtain rfl := Option.some.inj (hr'.symm.trans hw)
      obtain rfl := Option.some.inj (hr.symm.trans hv)
      refine ⟨s.values.length, .reg (copyTemp s.regAlloc r.numComponents),
        by simp [Shuffle.broken], by simp [Shuffle.broken], rfl, ?_⟩
      intro c hc
      have read := Mov.read_dest after ⟨.reg r, copyTemp s.regAlloc r.numComponents⟩ (c := c) hc
      refine ⟨fun _ => ?_, fun h => absurd (Set.mem_insert _ _) h⟩
      rw [read]
      by_cases mem : x ∈ lost
      · rw [(keeps c hc).1 mem]
        apply Nat.mod_mod
      · rw [(keeps c hc).2 mem]
        rfl
    · refine ⟨l, w, by simpa [Shuffle.broken, same] using hl,
        getElem?_mono (List.prefix_append _ _) hw, shape, ?_⟩
      intro c hc
      rw [Mov.read_other after _ (fresh (List.mem_of_getElem? hw))]
      have keeps := keeps c hc
      refine ⟨fun h => keeps.1 (Set.mem_of_mem_insert_of_ne h same), fun h => keeps.2 ?_⟩
      exact fun h' => h (Set.mem_insert_of_mem _ h')
  · intro e x v r' he he' hv hr'' c hc
    have other : x ≠ b := by
      rintro rfl
      cases (all e he).symm.trans he'
    have mem : Src.reg r' ∈ s.values := by
      apply List.mem_of_getElem? (getElem?_mono game.values hr'')
    rw [Mov.read_other after _ (fresh mem)]
    have keeps := holds.filled e x v r' he he' hv hr'' c hc
    refine ⟨fun h => keeps.1 (Set.mem_of_mem_insert_of_ne h other), fun h => keeps.2 ?_⟩
    exact fun h' => h (Set.mem_insert_of_mem _ h')
  · intro r' hr'' untouched
    have other : r' ≠ copyTemp s.regAlloc r.numComponents := by
      rintro rfl
      have := game.regAlloc
      simp only [copyTemp] at hr''
      omega
    rw [Mov.regs_other after _ other]
    apply holds.kept r' hr'' untouched

/-! ### The loops -/

/-- A state of a game, with what its movs do. -/
structure Plays (numCopies : ℕ) (start s : Shuffle) (lost : Set ℕ) : Prop where
  game : Game numCopies start s lost
  holds : ∀ machine, Holds start s lost machine (execMovs machine s.emitted)

/-- The destinations that are still to be filled. -/
def Shuffle.unfilled (start s : Shuffle) : Finset ℕ :=
  start.toDo.toFinset.filter fun b => (s.pred b).isSome

/-- How many iterations are left at most. -/
def Shuffle.left (start s : Shuffle) : ℕ := s.toDo.length + (start.unfilled s).card

/-- A destination that is ready is filled. -/
theorem Plays.fill {numCopies : ℕ} {start s : Shuffle} {lost : Set ℕ} {b : ℕ} {ready : List ℕ}
    (plays : Plays numCopies start s lost) (shaped : Shaped start) (ready_eq : s.ready = b :: ready)
    (busy : s.toDo ≠ []) :
  ∃ s', s.fill b ready = some s' ∧ Plays numCopies start s' lost ∧ start.left s' < start.left s
  := by
  obtain ⟨game, holds⟩ := plays
  have mem : b ∈ s.ready := by
    rw [ready_eq]
    apply List.mem_cons_self
  obtain ⟨⟨a, hp⟩, -⟩ := game.ready b mem
  have hp' := game.pred b a hp
  have ne := shaped.ne b a hp'
  obtain ⟨v, r, hv, hr, shape, bitSize⟩ := shaped.pred b a hp'
  obtain ⟨l, w, hl, hw, shape', -⟩ :=
    (holds ⟨fun _ _ => 0, fun _ _ => 0⟩).held b a v hp hv
  have run := fill_eq ready hp ne hl hw (getElem?_mono game.values hr) (by omega)
  refine ⟨_, run, ⟨game.fill ready_eq hp ne busy _, ?_⟩, ?_⟩
  · intro machine
    obtain ⟨l', w', hl', hw', -, kept⟩ := (holds machine).held b a v hp hv
    obtain rfl := Option.some.inj (hl.symm.trans hl')
    obtain rfl := Option.some.inj (hw.symm.trans hw')
    simp only [Shuffle.filled, execMovs_append]
    apply (holds machine).fill shaped game ready_eq hp hv hr shape bitSize kept
  · apply Nat.add_lt_add_left
    apply Finset.card_lt_card
    rw [Finset.ssubset_iff_of_subset]
    · refine ⟨b, ?_, ?_⟩
      · simp [Shuffle.unfilled, shaped.toDo b a hp', hp]
      · rw [Shuffle.unfilled, Finset.mem_filter]
        simp [Shuffle.filled]
    · intro x hx
      obtain ⟨mem, pending⟩ := Finset.mem_filter.mp hx
      apply Finset.mem_filter.mpr ⟨mem, _⟩
      by_cases same : x = b
      · simp [Shuffle.filled, same] at pending
      · simpa [Shuffle.filled, same] using pending

theorem step_next {numCopies : ℕ} {s : Shuffle} {b : ℕ} {toDo : List ℕ} (ready_eq : s.ready = [])
    (toDo_eq : s.toDo = b :: toDo) :
  s.step numCopies =
    if s.pred b = none then some { s with toDo } else s.breakCycle numCopies b toDo
  := by
  cases s
  simp only at ready_eq toDo_eq
  subst ready_eq toDo_eq
  rfl

/-- A destination is taken from those that are to be done. -/
theorem Plays.next {numCopies : ℕ} {start s : Shuffle} {lost : Set ℕ} {b : ℕ} {toDo : List ℕ}
    (plays : Plays numCopies start s lost) (shaped : Shaped start) (ready_eq : s.ready = [])
    (toDo_eq : s.toDo = b :: toDo) :
  ∃ s' lost', s.step numCopies = some s' ∧ Plays numCopies start s' lost' ∧
    start.left s' < start.left s
  := by
  obtain ⟨game, holds⟩ := plays
  rw [step_next ready_eq toDo_eq]
  have shorter {s' : Shuffle} (pred : s'.pred = s.pred) (less : s'.toDo = toDo) :
      start.left s' < start.left s := by
    simp [Shuffle.left, Shuffle.unfilled, pred, less, toDo_eq]
  cases hp : s.pred b with
  | none =>
    rw [if_pos rfl]
    refine ⟨_, lost, rfl, ⟨game.pop toDo_eq ready_eq hp, ?_⟩, shorter rfl rfl⟩
    intro machine
    exact ⟨(holds machine).held, (holds machine).filled, (holds machine).kept⟩
  | some a =>
    have hp' := game.pred b a hp
    have ne := shaped.ne b a hp'
    obtain ⟨v, r, hv, hr, shape, bitSize⟩ := shaped.pred b a hp'
    have hr' := getElem?_mono game.values hr
    obtain ⟨-, room⟩ := game.room_for toDo_eq ready_eq hp ne
    have bounded : ∀ x y, s.pred x = some y → x < s.values.length := by
      intro x y hx
      obtain ⟨-, r', -, hr'', -⟩ := shaped.pred x y (game.pred x y hx)
      exact (List.getElem?_eq_some_iff.mp (getElem?_mono game.values hr'')).1
    have run := breakCycle_eq toDo (by omega : s.values.length < numCopies * 2) hr'
      ready_eq
    rw [if_neg (by simp), run]
    refine ⟨_, insert b lost, rfl, ⟨game.breakCycle toDo_eq ready_eq hp ne bounded _ _, ?_⟩,
      shorter rfl rfl⟩
    intro machine
    simp only [Shuffle.broken, execMovs_append]
    apply (holds machine).breakCycle game ready_eq hp hr

theorem Plays.step {numCopies : ℕ} {start s : Shuffle} {lost : Set ℕ}
    (plays : Plays numCopies start s lost) (shaped : Shaped start) (busy : s.toDo ≠ []) :
  ∃ s' lost', s.step numCopies = some s' ∧ Plays numCopies start s' lost' ∧
    start.left s' < start.left s
  := by
  obtain ⟨d, toDo, toDo_eq⟩ := List.exists_cons_of_ne_nil busy
  cases ready_eq : s.ready with
  | nil => apply plays.next shaped ready_eq toDo_eq
  | cons b ready =>
    obtain ⟨s', run, plays', less⟩ := plays.fill shaped ready_eq busy
    refine ⟨s', lost, ?_, plays', less⟩
    unfold Shuffle.step
    rw [toDo_eq, ready_eq]
    apply run

/-- The loops end, and nothing is left to be filled. -/
theorem Plays.loop {numCopies : ℕ} {start s : Shuffle} {lost : Set ℕ}
    (plays : Plays numCopies start s lost) (shaped : Shaped start) (n : ℕ)
    (enough : start.left s ≤ n) :
  ∃ s' lost', s.loop numCopies n = some s' ∧ Plays numCopies start s' lost' ∧ s'.toDo = []
  := by
  induction n generalizing s lost with
  | zero =>
    have empty : s.toDo = [] := by
      apply List.length_eq_zero_iff.mp
      have := Nat.le_zero.mp enough
      unfold Shuffle.left at this
      omega
    exact ⟨s, lost, by simp [Shuffle.loop, empty], plays, empty⟩
  | succ n ih =>
    by_cases empty : s.toDo = []
    · exact ⟨s, lost, by simp [Shuffle.loop, empty], plays, empty⟩
    · obtain ⟨s₁, lost₁, step, plays₁, less⟩ := plays.step shaped empty
      obtain ⟨s', lost', run, plays', done⟩ := ih plays₁ (by omega)
      refine ⟨s', lost', ?_, plays', done⟩
      rw [Shuffle.loop, if_neg empty, step]
      apply run

/-- The result does not depend on the bound. -/
theorem loop_unique {numCopies n m : ℕ} {s x y : Shuffle} (hx : s.loop numCopies n = some x)
    (hy : s.loop numCopies m = some y) :
  x = y
  := by
  induction n generalizing s m with
  | zero =>
    by_cases empty : s.toDo = []
    · cases m <;> simp_all [Shuffle.loop]
    · simp [Shuffle.loop, empty] at hx
  | succ n ih =>
    by_cases empty : s.toDo = []
    · cases m <;> simp_all [Shuffle.loop]
    · cases m with
      | zero => simp [Shuffle.loop, empty] at hy
      | succ m =>
        rw [Shuffle.loop, if_neg empty] at hx hy
        obtain ⟨z, step, hx⟩ := Option.bind_eq_some_iff.mp hx
        rw [step] at hy
        apply ih hx hy

/-! ### The rotations of a parallel copy -/

/-- Registers whose indices are rotated are rotated. -/
theorem rotation_of_rotates {regAlloc : ℕ} {entries : List Entry} {start : Shuffle}
    (h : Recorded regAlloc (copies entries) start) {C : Set ℕ} (rotates : Rotates start C) :
  Rotation entries { r | ∃ i ∈ C, start.values[i]? = some (.reg r) }
  := by
  constructor
  · rintro r ⟨i, hi, hr⟩
    obtain ⟨a, ha, hp⟩ := rotates.source i hi
    obtain ⟨e, he, at'⟩ := h.pred i a hp
    obtain ⟨a', -, hp'⟩ := rotates.source a ha
    obtain ⟨e', -, at''⟩ := h.pred a a' hp'
    have dest : e.dest = r := by
      simpa using at'.2.symm.trans hr
    have src : e.src = .reg e'.dest := Option.some.inj (at'.1.symm.trans at''.2)
    exact ⟨e, he, dest, e'.dest, ⟨a, ha, at''.2⟩, src⟩
  · rintro r ⟨i, hi, hr⟩
    obtain ⟨b, hp⟩ := rotates.used i hi
    obtain ⟨e, he, at'⟩ := h.pred b i hp
    exact ⟨e, he, Option.some.inj (at'.1.symm.trans hr)⟩
  · rintro e he r ⟨i, hi, hr⟩ src
    obtain ⟨i', j, at', hp⟩ := h.recorded e he
    have source := at'.1
    rw [src] at source
    obtain rfl := index_inj h.nodup source hr
    exact ⟨j, rotates.closed i' hi j hp, at'.2⟩

/-- The indices of rotated registers of one size are rotated. -/
theorem rotates_of_rotation {regAlloc : ℕ} {entries : List Entry} {start : Shuffle}
    (valid : Valid regAlloc entries) (h : Recorded regAlloc (copies entries) start)
    {regs : Set Register} (rotation : Rotation entries regs) (bitSize : ℕ) :
  Rotates start
    { i | ∃ r ∈ regs, r.bitSize = bitSize ∧ start.values[i]? = some (.reg r) }
  := by
  have sizes {e : Entry} (he : e ∈ copies entries) : e.src.bitSize = e.dest.bitSize :=
    valid.bitSize e (List.mem_filter.mp he).1
  constructor
  · rintro i ⟨r, hr, rfl, hi⟩
    obtain ⟨e, he, rfl, r', hr', src⟩ := rotation.source r hr
    obtain ⟨a, j, at', hp⟩ := h.recorded e he
    obtain rfl := index_inj h.nodup at'.2 hi
    have source := at'.1
    rw [src] at source
    have size := sizes he
    rw [src] at size
    exact ⟨a, ⟨r', hr', size, source⟩, hp⟩
  · rintro i ⟨r, hr, -, hi⟩
    obtain ⟨e, he, src⟩ := rotation.used r hr
    obtain ⟨a, j, at', hp⟩ := h.recorded e he
    have source := at'.1
    rw [src] at source
    obtain rfl := index_inj h.nodup source hi
    exact ⟨j, hp⟩
  · rintro i ⟨r, hr, rfl, hi⟩ b hp
    obtain ⟨e, he, at'⟩ := h.pred b i hp
    have src : e.src = .reg r := Option.some.inj (at'.1.symm.trans hi)
    have size := sizes he
    rw [src] at size
    exact ⟨e.dest, rotation.closed e he r hr src, size.symm, at'.2⟩

theorem rotates_markReady {start : Shuffle} {C : Set ℕ} :
  Rotates start.markReady C ↔ Rotates start C
  := by
  constructor
  · exact fun h => ⟨h.source, h.used, h.closed⟩
  · exact fun h => ⟨h.source, h.used, h.closed⟩

theorem shaped_markReady {regAlloc : ℕ} {entries : List Entry} {start : Shuffle}
    (valid : Valid regAlloc entries) (h : Recorded regAlloc (copies entries) start)
    (proper : copies entries ≠ []) :
  Shaped start.markReady
  := by
  refine ⟨h.nodup, (Game.start valid h proper).created, fun _ _ => h.pred_ne, ?_, ?_⟩
  · intro b a hb
    apply (h.toDo b).mpr ⟨a, hb⟩
  · intro b a hb
    obtain ⟨e, he, at'⟩ := h.pred b a hb
    have he := (List.mem_filter.mp he).1
    exact ⟨e.src, e.dest, at'.1, at'.2, valid.numComponents e he, valid.bitSize e he⟩

/-- The end of the game. -/
theorem resolveParallelCopy_plays {regAlloc : ℕ} {entries : List Entry}
    (valid : Valid regAlloc entries) (proper : copies entries ≠ []) :
  ∃ start s lost, Recorded regAlloc (copies entries) start ∧
    Plays (copies entries).length start.markReady s lost ∧ (∀ b, s.pred b = none) ∧
    (∃ bound, resolveParallelCopy regAlloc entries bound = some s.emitted) ∧
    ∀ bound movs, resolveParallelCopy regAlloc entries bound = some movs → movs = s.emitted
  := by
  obtain ⟨start, setUp, h⟩ := setUp_recorded valid
  have holds (machine : Machine) :
      Holds start.markReady start.markReady ∅ machine
        (execMovs machine start.markReady.emitted) := by
    have unemitted : start.markReady.emitted = [] := h.emitted
    have located : ∀ b a, start.markReady.pred b = some a → start.markReady.loc a = some a :=
      h.located
    rw [unemitted]
    apply Holds.start located
  have plays : Plays (copies entries).length start.markReady start.markReady ∅ :=
    ⟨Game.start valid h proper, holds⟩
  obtain ⟨s, lost, run, plays, empty⟩ :=
    plays.loop (shaped_markReady valid h proper) _ (le_refl _)
  have nonzero : (copies entries).length ≠ 0 := by
    simpa using proper
  have resolve (bound : ℕ) : resolveParallelCopy regAlloc entries bound =
      (start.markReady.loop (copies entries).length bound).map Shuffle.emitted := by
    simp only [resolveParallelCopy, if_neg nonzero, setUp, Option.bind_eq_bind, Option.bind_some]
    cases start.markReady.loop (copies entries).length bound <;> rfl
  refine ⟨start, s, lost, h, plays, ?_, ⟨_, by rw [resolve, run]; rfl⟩, ?_⟩
  · intro b
    cases hb : s.pred b with
    | none => rfl
    | some a =>
      rcases plays.game.pending b a hb with here | here
      · simp [empty] at here
      · simp [plays.game.ended empty] at here
  · intro bound movs result
    rw [resolve] at result
    obtain ⟨s', run', rfl⟩ := Option.map_eq_some_iff.mp result
    rw [loop_unique run' run]

/-- The copies do not rotate registers that are wider than a temporary register. -/
def NarrowRotations (entries : List Entry) : Prop :=
  ∀ regs, Rotation entries regs → ∀ r ∈ regs, r.bitSize ≤ 32

/-- A register that is copied to itself is not the destination of a copy. -/
theorem dest_ne_of_self {regAlloc : ℕ} {entries : List Entry} (valid : Valid regAlloc entries)
    {e e' : Entry} (he : e ∈ entries) (self : e.src = .reg e.dest) (he' : e' ∈ copies entries) :
  e'.dest ≠ e.dest
  := by
  obtain ⟨mem, proper⟩ := List.mem_filter.mp he'
  intro same
  obtain rfl := List.inj_on_of_nodup_map valid.nodup mem he same
  simp [self] at proper

/-- The end of a game in which nothing has been lost. -/
theorem copies_of_plays {regAlloc : ℕ} {entries : List Entry} {start s : Shuffle} {lost : Set ℕ}
    (valid : Valid regAlloc entries) (h : Recorded regAlloc (copies entries) start)
    (plays : Plays (copies entries).length start.markReady s lost) (done : ∀ b, s.pred b = none)
    (narrow : ∀ a ∈ lost, ∀ v, start.values[a]? = some v → v.bitSize ≤ 32) (machine : Machine) :
  Copies regAlloc entries machine (execMovs machine s.emitted)
  := by
  have holds := plays.holds machine
  have kept (r : Register) (lt : r.index < regAlloc)
      (other : ∀ e ∈ copies entries, e.dest ≠ r) :
      (execMovs machine s.emitted).regs r = machine.regs r := by
    apply holds.kept r
    · change r.index < start.regAlloc
      rw [h.regAlloc]
      apply lt
    · intro b a hb hr
      obtain ⟨e, he, at'⟩ := h.pred b a hb
      apply other e he
      simpa using at'.2.symm.trans hr
  constructor
  · intro e he c hc
    by_cases self : e.src = .reg e.dest
    · rw [self, Machine.read, Machine.read,
        kept e.dest (valid.dest e he) fun e' he' => dest_ne_of_self valid he self he']
    · have copy : e ∈ copies entries := by
        apply List.mem_filter.mpr ⟨he, _⟩
        simpa using self
      obtain ⟨a, b, at', hp⟩ := h.recorded e copy
      have keeps := holds.filled b a e.src e.dest hp (done b) at'.1 at'.2 c hc
      by_cases mem : a ∈ lost
      · rw [keeps.1 mem, Nat.mod_eq_of_lt]
        apply lt_of_lt_of_le (machine.read_lt e.src c)
        apply Nat.pow_le_pow_right Nat.two_pos (narrow a mem e.src at'.1)
      · apply keeps.2 mem
  · intro r lt absent
    apply kept r lt
    rintro e he rfl
    apply absent (List.mem_map_of_mem (List.mem_filter.mp he).1)

/-- In a rotation of wide registers, a value is lost. -/
theorem not_copies_of_plays {regAlloc : ℕ} {entries : List Entry} {start s : Shuffle}
    {lost : Set ℕ} (valid : Valid regAlloc entries)
    (h : Recorded regAlloc (copies entries) start)
    (plays : Plays (copies entries).length start.markReady s lost) (done : ∀ b, s.pred b = none)
    {regs : Set Register} (rotation : Rotation entries regs) {r : Register} (hr : r ∈ regs)
    (wide : 32 < r.bitSize) :
  ∃ machine, ¬ Copies regAlloc entries machine (execMovs machine s.emitted)
  := by
  have rotates := rotates_markReady.mpr (rotates_of_rotation valid h rotation r.bitSize)
  obtain ⟨e, he, rfl, -⟩ := rotation.source r hr
  obtain ⟨_, i, at', -⟩ := h.recorded e he
  have overlap : ¬ Disjoint { i | ∃ r' ∈ regs, r'.bitSize = e.dest.bitSize ∧
      start.values[i]? = some (.reg r') } lost := by
    intro apart
    obtain ⟨⟨a, hp⟩, -⟩ := plays.game.rotating _ rotates apart i ⟨e.dest, hr, rfl, at'.2⟩
    cases (done i).symm.trans hp
  obtain ⟨j, ⟨r', hr', size, hj⟩, mem⟩ := Set.not_disjoint_iff.mp overlap
  obtain ⟨e', he', src⟩ := rotation.used r' hr'
  obtain ⟨j', b, at'', hp⟩ := h.recorded e' he'
  have source := at''.1
  rw [src] at source
  obtain rfl := index_inj h.nodup source hj
  have entry := (List.mem_filter.mp he').1
  have components := valid.components e' entry
  -- all registers hold the first number that a temporary register cannot hold
  let machine : Machine := ⟨fun _ _ => 0, fun r _ => BitVec.ofNat r.bitSize (2 ^ 32)⟩
  use machine
  intro copies
  have after := (plays.holds machine).filled b j' e'.src e'.dest hp (done b) at''.1 at''.2 0
    components
  have before : machine.read e'.src 0 = 2 ^ 32 := by
    rw [src, Machine.read, BitVec.toNat_ofNat, Nat.mod_eq_of_lt]
    apply Nat.pow_lt_pow_right Nat.one_lt_two
    omega
  have same := (after.1 mem).symm.trans (copies.copied e' entry 0 components)
  rw [before] at same
  simp at same

theorem not_resolves_of_rotation {regAlloc : ℕ} {entries : List Entry}
    (valid : Valid regAlloc entries) {regs : Set Register} (rotation : Rotation entries regs)
    {r : Register} (hr : r ∈ regs) (wide : 32 < r.bitSize) :
  ¬ Resolves regAlloc entries
  := by
  obtain ⟨e, he, -⟩ := rotation.source r hr
  obtain ⟨start, s, lost, h, plays, done, -, unique⟩ :=
    resolveParallelCopy_plays valid (List.ne_nil_of_mem he)
  rintro ⟨bound, movs, run, copied⟩
  obtain ⟨machine, wrong⟩ := not_copies_of_plays valid h plays done rotation hr wide
  rw [unique bound movs run] at copied
  exact wrong (copied machine)

theorem resolves_of_narrow {regAlloc : ℕ} {entries : List Entry} (valid : Valid regAlloc entries)
    (narrow : NarrowRotations entries) :
  Resolves regAlloc entries
  := by
  by_cases proper : copies entries = []
  · have self {e : Entry} (he : e ∈ entries) : e.src = .reg e.dest := by
      by_contra other
      have mem : e ∈ copies entries := List.mem_filter.mpr ⟨he, by simpa using other⟩
      rw [proper] at mem
      cases mem
    refine ⟨0, [], by simp [resolveParallelCopy, proper], ?_⟩
    intro machine
    refine ⟨fun e he c _ => ?_, fun _ _ _ => rfl⟩
    rw [self he]
    rfl
  · obtain ⟨start, s, lost, h, plays, done, ⟨bound, run⟩, -⟩ :=
      resolveParallelCopy_plays valid proper
    refine ⟨bound, s.emitted, run, copies_of_plays valid h plays done ?_⟩
    intro a mem v hv
    obtain ⟨C, rotates, ha⟩ := plays.game.rotated a mem
    have rotates' := rotates_markReady.mp rotates
    obtain ⟨x, -, hx⟩ := rotates'.source a ha
    obtain ⟨e, -, at'⟩ := h.pred a x hx
    obtain rfl := Option.some.inj (at'.2.symm.trans hv)
    apply narrow _ (rotation_of_rotates h rotates') e.dest ⟨a, ha, at'.2⟩

/-- A parallel copy is resolved when and only when it does not rotate registers that are wider than
a temporary register. -/
theorem resolves_iff {regAlloc : ℕ} {entries : List Entry} (valid : Valid regAlloc entries) :
  Resolves regAlloc entries ↔ NarrowRotations entries
  := by
  constructor
  · intro resolves regs rotation r hr
    by_contra wide
    exact not_resolves_of_rotation valid rotation hr (not_le.mp wide) resolves
  · apply resolves_of_narrow valid

/-- Two wide registers are swapped, and one of them is copied to a third one. -/
theorem resolves_iff_swap :
  Resolves 3
    [⟨.reg ⟨1, 2, 64⟩, ⟨0, 2, 64⟩⟩, ⟨.reg ⟨0, 2, 64⟩, ⟨1, 2, 64⟩⟩, ⟨.reg ⟨0, 2, 64⟩, ⟨2, 2, 64⟩⟩]
  := by
  apply (resolves_iff _).mpr
  · intro regs rotation r hr
    exfalso
    -- nothing is copied from the third register, so that it is not rotated
    have third : (⟨2, 2, 64⟩ : Register) ∉ regs := by
      intro mem
      obtain ⟨e, he, src⟩ := rotation.used _ mem
      revert src
      revert e
      decide
    have first : (⟨0, 2, 64⟩ : Register) ∉ regs := by
      intro mem
      apply third
      apply rotation.closed ⟨.reg ⟨0, 2, 64⟩, ⟨2, 2, 64⟩⟩ (by decide) _ mem rfl
    obtain ⟨e, he, rfl, r', hr', src⟩ := rotation.source r hr
    have entries : ∀ e ∈ copies [⟨.reg ⟨1, 2, 64⟩, ⟨0, 2, 64⟩⟩, ⟨.reg ⟨0, 2, 64⟩, ⟨1, 2, 64⟩⟩,
        ⟨.reg ⟨0, 2, 64⟩, ⟨2, 2, 64⟩⟩],
        e = ⟨.reg ⟨1, 2, 64⟩, ⟨0, 2, 64⟩⟩ ∨ e.src = .reg ⟨0, 2, 64⟩ := by
      decide
    rcases entries e he with rfl | zero
    · exact first hr
    · rw [zero] at src
      obtain rfl : (⟨0, 2, 64⟩ : Register) = r' := by
        simpa using src
      exact first hr'
  · refine ⟨by decide, by decide, by decide, by decide, by decide, by simp⟩

/-- Two wide registers are swapped. -/
theorem swap_lost :
  ¬ Resolves 2 [⟨.reg ⟨1, 1, 64⟩, ⟨0, 1, 64⟩⟩, ⟨.reg ⟨0, 1, 64⟩, ⟨1, 1, 64⟩⟩]
  := by
  have valid : Valid 2 [⟨.reg ⟨1, 1, 64⟩, ⟨0, 1, 64⟩⟩, ⟨.reg ⟨0, 1, 64⟩, ⟨1, 1, 64⟩⟩] := by
    refine ⟨by decide, by decide, by decide, by decide, by decide, by simp⟩
  have rotation : Rotation [⟨.reg ⟨1, 1, 64⟩, ⟨0, 1, 64⟩⟩, ⟨.reg ⟨0, 1, 64⟩, ⟨1, 1, 64⟩⟩]
      {⟨0, 1, 64⟩, ⟨1, 1, 64⟩} := by
    constructor
    · rintro r (rfl | rfl)
      · refine ⟨⟨.reg ⟨1, 1, 64⟩, ⟨0, 1, 64⟩⟩, by decide, rfl, ⟨1, 1, 64⟩, by simp, rfl⟩
      · refine ⟨⟨.reg ⟨0, 1, 64⟩, ⟨1, 1, 64⟩⟩, by decide, rfl, ⟨0, 1, 64⟩, by simp, rfl⟩
    · rintro r (rfl | rfl)
      · exact ⟨⟨.reg ⟨0, 1, 64⟩, ⟨1, 1, 64⟩⟩, by decide, rfl⟩
      · exact ⟨⟨.reg ⟨1, 1, 64⟩, ⟨0, 1, 64⟩⟩, by decide, rfl⟩
    · intro e he _ _ _
      have dests : ∀ e ∈ copies [⟨.reg ⟨1, 1, 64⟩, ⟨0, 1, 64⟩⟩, ⟨.reg ⟨0, 1, 64⟩, ⟨1, 1, 64⟩⟩],
          e.dest = ⟨0, 1, 64⟩ ∨ e.dest = ⟨1, 1, 64⟩ := by
        decide
      apply dests e he
  apply not_resolves_of_rotation valid rotation (Set.mem_insert _ _) (by decide)

end Nir.FromSsa
