import Mathlib.Algebra.Order.Group.Int
import Mathlib.Tactic.Common
import Mathlib.Algebra.Group.Nat.Defs

/-!
# Block pools

The block pools of `anv_allocator.c`.  Blocks are handed out on both sides of the center of a buffer
object, which grows when a side is full.  Numbers are `uint32_t`; an assertion that fails ends the
program, so that a function has no result where one of its assertions does not hold.
-/

namespace Anv

/-- `align_u32`, for a power of two `a`. -/
def alignU32 (v a : ℕ) : ℕ := (v + a - 1) % 2 ^ 32 / a * a

/-- The difference of two `uint32_t`. -/
def sub32 (a b : ℕ) : ℕ := (a + 2 ^ 32 - b) % 2 ^ 32

/-- `PAGE_SIZE`. -/
def pageSize : ℕ := 4096

/-- `BLOCK_POOL_MEMFD_SIZE`. -/
def blockPoolMemfdSize : ℕ := 2 ^ 30

/-- `BLOCK_POOL_MEMFD_CENTER`. -/
def blockPoolMemfdCenter : ℕ := blockPoolMemfdSize / 2

/-- `struct anv_block_state`. -/
structure BlockState where
  next : ℕ
  /-- `end` -/
  limit : ℕ
deriving DecidableEq

/-- The sides of the center: blocks come from the front by `anv_block_pool_alloc`, and from the back
by `anv_block_pool_alloc_back`. -/
inductive Side where
  | front | back
deriving DecidableEq

/-- `struct anv_block_pool`: the size of its buffer object, `center_bo_offset`, `state` and
`back_state`. -/
structure BlockPool where
  size : ℕ
  center : ℕ
  front : BlockState
  back : BlockState
deriving DecidableEq

namespace BlockPool

def side (p : BlockPool) : Side → BlockState
  | .front => p.front
  | .back => p.back

def setSide (p : BlockPool) (st : BlockState) : Side → BlockPool
  | .front => { p with front := st }
  | .back => { p with back := st }

/-- The part of the buffer object on one side of the center. -/
def extent (p : BlockPool) : Side → ℕ
  | .front => p.size - p.center
  | .back => p.center

/-! ### Growing -/

/-- `back_used` and `front_used` in `anv_block_pool_grow`. -/
def used (p : BlockPool) (side : Side) : ℕ := alignU32 (p.side side).next pageSize

/-- `back_required` and `front_required`. -/
def required (p : BlockPool) : Side → ℕ
  | .front => max (p.used .front) (sub32 p.size p.center)
  | .back => max (p.used .back) p.center

/-- The loop that doubles the size of the pool.  After 32 rounds the number is zero, and remains so:
the loop does not end any more. -/
def doubleUntil (needed : ℕ) : ℕ → ℕ → Option ℕ
  | 0, _ => none
  | rounds + 1, size =>
    if size < needed then doubleUntil needed rounds (size * 2 % 2 ^ 32) else some size

/-- The new `center_bo_offset`, for a new size. -/
def newCenter (p : BlockPool) (size : ℕ) : ℕ :=
  if p.used .back = 0 then 0
  else
    let center := size * p.used .back / ((p.used .front + p.used .back) % 2 ^ 32) % 2 ^ 32
    let center := center / pageSize * pageSize
    let center := if center < p.back.limit then p.back.limit else center
    if sub32 size center < p.front.limit then sub32 size p.front.limit else center

/-- The assertions of `anv_block_pool_grow` on the new size and center. -/
def GrowAsserts (p : BlockPool) (size : ℕ) : Prop :=
  p.size < size
    ∧ (p.used .back ≠ 0 →
      p.used .back ≤ size * p.used .back / ((p.used .front + p.used .back) % 2 ^ 32) % 2 ^ 32
        / pageSize * pageSize)
    ∧ p.newCenter size % pageSize = 0

/-- The assertions of `anv_block_pool_expand_range`: the pool only grows. -/
def ExpandAsserts (p : BlockPool) (center size : ℕ) : Prop :=
  p.back.limit ≤ center ∧ p.front.limit ≤ sub32 size center

/-- The assertions of `anv_block_pool_expand_range` that the pool is in its memory file. -/
def InMemfd (center size : ℕ) : Prop :=
  center ≤ blockPoolMemfdCenter ∧ sub32 size center ≤ blockPoolMemfdSize - blockPoolMemfdCenter

instance (p : BlockPool) (size : ℕ) : Decidable (p.GrowAsserts size) := by
  unfold GrowAsserts
  infer_instance

instance (p : BlockPool) (center size : ℕ) : Decidable (p.ExpandAsserts center size) := by
  unfold ExpandAsserts
  infer_instance

instance (center size : ℕ) : Decidable (InMemfd center size) := by
  unfold InMemfd
  infer_instance

/-- There is already twice as much room as is used on both sides. -/
def Ample (p : BlockPool) : Prop :=
  p.used .back * 2 % 2 ^ 32 ≤ p.required .back ∧ p.used .front * 2 % 2 ^ 32 ≤ p.required .front

instance (p : BlockPool) : Decidable p.Ample := by
  unfold Ample
  infer_instance

/-- The new size of the pool. -/
def newSize (p : BlockPool) : Option ℕ :=
  doubleUntil ((p.required .back + p.required .front) % 2 ^ 32) 33 (p.size * 2 % 2 ^ 32)

/-- The assertions at the beginning of `anv_block_pool_grow`. -/
def EntryAsserts (p : BlockPool) (side : Side) : Prop :=
  (side = .front ∨ 0 < p.used .back) ∧ 0 < p.size

instance (p : BlockPool) (side : Side) : Decidable (p.EntryAsserts side) := by
  unfold EntryAsserts
  infer_instance

/-- The room on a side, which `anv_block_pool_grow` returns after it has succeeded. -/
def room (p : BlockPool) : Side → ℕ
  | .front => sub32 p.size p.center
  | .back => p.center

/-- The end of `anv_block_pool_grow` after a success, with its assertion. -/
def grown (p : BlockPool) (side : Side) : Option (BlockPool × ℕ) :=
  if side = .back ∧ p.center = 0 then none else some (p, p.room side)

/-- `anv_block_pool_grow`, with the result of the system calls of `anv_block_pool_expand_range`. -/
def grow (p : BlockPool) (side : Side) (expands : Bool) : Option (BlockPool × ℕ) :=
  if p.EntryAsserts side then
    if p.Ample then p.grown side
    else
      match p.newSize with
      | none => none
      | some size =>
        let center := p.newCenter size
        if p.GrowAsserts size ∧ p.ExpandAsserts center size ∧ InMemfd center size then
          if expands then { p with size := size, center := center }.grown side
          else some (p, 0)
        else none
  else none

/-! ### Allocating -/

/-- The loop of `anv_block_pool_alloc_new` around `anv_block_pool_grow`, with the results of the
system calls in each of its rounds: it goes on until there is room up to `next`. -/
def growLoop (side : Side) (next : ℕ) : List Bool → BlockPool → Option (BlockPool × ℕ)
  | [], _ => none
  | expands :: rest, p =>
    match p.grow side expands with
    | none => none
    | some (p, limit) => if limit < next then growLoop side next rest p else some (p, limit)

/-- `anv_block_pool_alloc_new`, when no other thread allocates.  The last branch would wait for
another thread. -/
def allocNew (p : BlockPool) (side : Side) (blockSize : ℕ) (expands : List Bool) :
    Option (BlockPool × ℕ) :=
  let state := p.side side
  let next := state.next + blockSize
  let p := p.setSide { state with next := next } side
  if next ≤ state.limit then some (p, state.next)
  else if state.next ≤ state.limit then
    match growLoop side next expands p with
    | none => none
    | some (p, limit) => some (p.setSide ⟨next, limit⟩ side, state.next)
  else none

/-- `anv_block_pool_alloc`. -/
def alloc (p : BlockPool) (blockSize : ℕ) (expands : List Bool) : Option (BlockPool × ℕ) :=
  p.allocNew .front blockSize expands

/-- `anv_block_pool_alloc_back`. -/
def allocBack (p : BlockPool) (blockSize : ℕ) (expands : List Bool) : Option (BlockPool × ℤ) :=
  (p.allocNew .back blockSize expands).map fun (p, offset) => (p, -((offset : ℤ) + blockSize))

/-- `anv_block_pool_init`, when the system calls succeed; nothing of size zero can be mapped. -/
def init (initialSize : ℕ) : Option BlockPool :=
  if 0 < initialSize ∧ InMemfd 0 initialSize then some ⟨initialSize, 0, ⟨0, 0⟩, ⟨0, 0⟩⟩ else none

/-! ### What growing keeps -/

/-- What was handed out is inside of the pool, on both sides of its center, and there is no room at
the back before a block is allocated there. -/
structure Inv (p : BlockPool) : Prop where
  center_le : p.center ≤ p.size
  extent_le : ∀ side, p.extent side ≤ blockPoolMemfdCenter
  limit_le : ∀ side, (p.side side).limit ≤ p.extent side
  unused : p.back.next = 0 → p.back.limit = 0

theorem Inv.size_le {p : BlockPool} (inv : p.Inv) :
  p.size ≤ blockPoolMemfdSize
  := by
  have front := inv.extent_le .front
  have back := inv.extent_le .back
  have center := inv.center_le
  unfold extent blockPoolMemfdCenter at front back
  unfold blockPoolMemfdSize at *
  dsimp only at front back
  omega

/-- No more than a quarter of what a `uint32_t` can count is in use. -/
def Moderate (p : BlockPool) : Prop := ∀ side, (p.side side).next < 2 ^ 30

theorem sub32_eq {a b : ℕ} (le : b ≤ a) (lt : a < 2 ^ 32) :
  sub32 a b = a - b
  := by
  unfold sub32
  omega

theorem alignU32_pageSize {v : ℕ} (small : v < 2 ^ 30) :
  v ≤ alignU32 v pageSize ∧ alignU32 v pageSize < 2 ^ 30 + pageSize
    ∧ (alignU32 v pageSize = 0 → v = 0)
  := by
  unfold alignU32 pageSize
  omega

theorem doubleUntil_spec {needed rounds size size' : ℕ}
    (done : doubleUntil needed rounds size = some size') (small : size < 2 ^ 32) :
  needed ≤ size' ∧ size' < 2 ^ 32
  := by
  induction rounds generalizing size with
  | zero => cases done
  | succ rounds ih =>
    rw [doubleUntil] at done
    split at done
    · exact ih done (Nat.mod_lt _ (Nat.two_pow_pos 32))
    · obtain rfl := Option.some.inj done
      omega

/-- The new size is enough for what both sides require. -/
theorem Inv.required_le {p : BlockPool} (inv : p.Inv) (moderate : p.Moderate) {size : ℕ}
    (eq : p.newSize = some size) :
  p.required .back + p.required .front ≤ size ∧ size < 2 ^ 32
    ∧ p.back.limit ≤ p.required .back ∧ p.front.limit ≤ p.required .front
  := by
  obtain ⟨enough, small⟩ := doubleUntil_spec eq (Nat.mod_lt _ (Nat.two_pow_pos 32))
  obtain ⟨-, backUsed, -⟩ := alignU32_pageSize (moderate .back)
  obtain ⟨-, frontUsed, -⟩ := alignU32_pageSize (moderate .front)
  have backLimit := inv.limit_le .back
  have frontLimit := inv.limit_le .front
  have sizeLe := inv.size_le
  have centerLe := inv.center_le
  unfold blockPoolMemfdSize at sizeLe
  unfold pageSize at backUsed frontUsed
  simp only [extent, BlockPool.side] at backLimit frontLimit
  have front : p.required .front = max (p.used .front) (p.size - p.center) := by
    rw [required, sub32_eq centerLe (by omega)]
  have back : p.required .back = max (p.used .back) p.center := rfl
  have backUsed' : p.used .back < 2 ^ 30 + 4096 := backUsed
  have frontUsed' : p.used .front < 2 ^ 30 + 4096 := frontUsed
  omega

/-- The assertions of `anv_block_pool_expand_range` that the pool only grows. -/
theorem Inv.expandAsserts {p : BlockPool} (inv : p.Inv) (moderate : p.Moderate) {size : ℕ}
    (eq : p.newSize = some size) :
  p.ExpandAsserts (p.newCenter size) size
  := by
  obtain ⟨enough, small, backLe, frontLe⟩ := inv.required_le moderate eq
  unfold ExpandAsserts newCenter
  split
  case isTrue zero =>
    have unused := inv.unused ((alignU32_pageSize (moderate .back)).2.2 zero)
    rw [sub32_eq (Nat.zero_le _) small]
    omega
  case isFalse =>
    dsimp only
    obtain ⟨-, backUsed, -⟩ := alignU32_pageSize (moderate .back)
    obtain ⟨-, frontUsed, -⟩ := alignU32_pageSize (moderate .front)
    have backUsed' : p.used .back < 2 ^ 30 + pageSize := backUsed
    have frontUsed' : p.used .front < 2 ^ 30 + pageSize := frontUsed
    unfold pageSize at backUsed' frontUsed'
    -- the share of the back is not more than everything
    have share : size * p.used .back / ((p.used .front + p.used .back) % 2 ^ 32) ≤ size := by
      rw [Nat.mod_eq_of_lt (by omega)]
      apply Nat.div_le_of_le_mul
      rw [Nat.mul_comm]
      apply Nat.mul_le_mul_right
      omega
    generalize size * p.used .back / ((p.used .front + p.used .back) % 2 ^ 32) = quotient at *
    have aligned : quotient % 2 ^ 32 / pageSize * pageSize ≤ size :=
      (Nat.div_mul_le_self _ _).trans ((Nat.mod_le _ _).trans share)
    generalize quotient % 2 ^ 32 / pageSize * pageSize = rounded at *
    generalize raised : (if rounded < p.back.limit then p.back.limit else rounded) = center
    have above : p.back.limit ≤ center ∧ center ≤ size := by
      split at raised <;> omega
    rw [sub32_eq above.2 small, sub32_eq (by omega : p.front.limit ≤ size) small]
    split
    · rw [sub32_eq (by omega) small]
      omega
    · rw [sub32_eq above.2 small]
      omega

/-- The pool after it has grown, and the room on the side it has grown for.  The states of both sides
are those from before. -/
theorem Inv.grow {p p' : BlockPool} {side : Side} {expands : Bool} {limit : ℕ} (inv : p.Inv)
    (moderate : p.Moderate) (grown : p.grow side expands = some (p', limit)) :
  p'.Inv ∧ p'.front = p.front ∧ p'.back = p.back ∧ limit ≤ p'.extent side
  := by
  have room : ∀ q : BlockPool, q.Inv → q.grown side = some (p', limit) →
      p' = q ∧ limit ≤ p'.extent side := by
    intro q good eq
    unfold BlockPool.grown at eq
    split at eq
    · cases eq
    · obtain ⟨rfl, rfl⟩ := Prod.mk.inj (Option.some.inj eq)
      refine ⟨rfl, ?_⟩
      have size_le := good.size_le
      unfold blockPoolMemfdSize at size_le
      cases side with
      | front => exact Nat.le_of_eq (sub32_eq good.center_le (by omega))
      | back => exact Nat.le_refl _
  unfold BlockPool.grow at grown
  split at grown
  case isFalse => cases grown
  case isTrue =>
    split at grown
    case isTrue =>
      obtain ⟨rfl, le⟩ := room p inv grown
      exact ⟨inv, rfl, rfl, le⟩
    case isFalse =>
      split at grown
      case h_1 => cases grown
      case h_2 size eq =>
        obtain ⟨-, small, -⟩ := inv.required_le moderate eq
        obtain ⟨backLe, frontLe⟩ := inv.expandAsserts moderate eq
        dsimp only at grown
        split at grown
        case isFalse => cases grown
        case isTrue asserts =>
          obtain ⟨-, -, centerLe, sizeLe⟩ := asserts
          split at grown
          case isFalse =>
            obtain ⟨rfl, rfl⟩ := Prod.mk.inj (Option.some.inj grown)
            exact ⟨inv, rfl, rfl, Nat.zero_le _⟩
          case isTrue =>
            have below : p.newCenter size ≤ size := by
              unfold sub32 blockPoolMemfdCenter blockPoolMemfdSize at *
              omega
            rw [sub32_eq below small] at sizeLe frontLe
            have good : { p with size := size, center := p.newCenter size : BlockPool }.Inv := by
              constructor
              · exact below
              · intro side
                cases side with
                | front => exact sizeLe
                | back => exact centerLe
              · intro side
                cases side with
                | front => exact frontLe
                | back => exact backLe
              · exact inv.unused
            obtain ⟨rfl, le⟩ := room _ good grown
            exact ⟨good, rfl, rfl, le⟩

/-! ### What allocating keeps -/

/-- No allocation is under way: what was handed out is below the limit. -/
def Quiet (p : BlockPool) : Prop := ∀ side, (p.side side).next ≤ (p.side side).limit

theorem inv_init {initialSize : ℕ} {p : BlockPool} (small : initialSize < 2 ^ 32)
    (eq : init initialSize = some p) :
  0 < initialSize ∧ p.Inv ∧ p.Quiet ∧ p.front.next = 0 ∧ p.back.next = 0
  := by
  unfold init at eq
  split at eq
  case isFalse => cases eq
  case isTrue possible =>
    obtain ⟨pos, inMemfd⟩ := possible
    obtain rfl := Option.some.inj eq
    refine ⟨pos, ⟨Nat.zero_le _, ?_, ?_, fun _ => rfl⟩, ?_, rfl, rfl⟩
    · intro side
      cases side with
      | front =>
        have le := inMemfd.2
        rw [sub32_eq (Nat.zero_le _) small] at le
        exact le
      | back => exact Nat.zero_le _
    · intro side
      cases side <;> exact Nat.zero_le _
    · intro side
      cases side <;> exact Nat.le_refl _

/-- The rounds of the loop: the states of both sides stay as they are. -/
theorem Inv.growLoop {p p' : BlockPool} {side : Side} {next limit : ℕ} {expands : List Bool}
    (inv : p.Inv) (moderate : p.Moderate)
    (grown : BlockPool.growLoop side next expands p = some (p', limit)) :
  p'.Inv ∧ p'.front = p.front ∧ p'.back = p.back ∧ limit ≤ p'.extent side ∧ next ≤ limit
  := by
  induction expands generalizing p with
  | nil => cases grown
  | cons first rest ih =>
    rw [BlockPool.growLoop] at grown
    split at grown
    case h_1 => cases grown
    case h_2 p₁ limit₁ eq =>
      obtain ⟨inv₁, front, back, le⟩ := inv.grow moderate eq
      split at grown
      case isTrue =>
        have moderate₁ : p₁.Moderate := by
          intro side
          have here := moderate side
          cases side <;> simp only [BlockPool.side, front, back] at here ⊢ <;> exact here
        obtain ⟨inv₂, front₂, back₂, rest⟩ := ih inv₁ moderate₁ grown
        exact ⟨inv₂, front₂.trans front, back₂.trans back, rest⟩
      case isFalse enough =>
        obtain ⟨rfl, rfl⟩ := Prod.mk.inj (Option.some.inj grown)
        exact ⟨inv₁, front, back, le, Nat.le_of_not_lt enough⟩

theorem side_setSide (p : BlockPool) (st : BlockState) (side : Side) :
  (p.setSide st side).side side = st
  := by
  cases side <;> rfl

theorem extent_setSide (p : BlockPool) (st : BlockState) (side side' : Side) :
  (p.setSide st side).extent side' = p.extent side'
  := by
  cases side <;> cases side' <;> rfl

theorem side_setSide_of_ne (p : BlockPool) (st : BlockState) {side side' : Side} (ne : side' ≠ side) :
  (p.setSide st side).side side' = p.side side'
  := by
  cases side <;> cases side' <;> first | rfl | exact absurd rfl ne

/-- The state of a side is replaced by one with a limit within the pool. -/
theorem Inv.setSide {p : BlockPool} (inv : p.Inv) {st : BlockState} {side : Side}
    (le : st.limit ≤ p.extent side) (pos : 0 < st.next) :
  (p.setSide st side).Inv
  := by
  constructor
  · cases side <;> exact inv.center_le
  · intro side'
    rw [extent_setSide]
    exact inv.extent_le side'
  · intro side'
    rw [extent_setSide]
    by_cases eq : side' = side
    · rw [eq, side_setSide]
      exact le
    · rw [side_setSide_of_ne p st eq]
      exact inv.limit_le side'
  · intro zero
    cases side with
    | front => exact inv.unused zero
    | back => exact absurd zero (Nat.ne_of_gt pos)

/-- A block that was allocated lies right behind what was handed out before on its side. -/
theorem Inv.allocNew {p p' : BlockPool} {side : Side} {blockSize offset : ℕ} {expands : List Bool}
    (inv : p.Inv) (quiet : p.Quiet) (pos : 0 < blockSize) (small : blockSize < 2 ^ 29)
    (allocated : p.allocNew side blockSize expands = some (p', offset)) :
  p'.Inv ∧ p'.Quiet ∧ offset = (p.side side).next ∧ (p'.side side).next = offset + blockSize
    ∧ ∀ side' ≠ side, (p'.side side').next = (p.side side').next
  := by
  unfold BlockPool.allocNew at allocated
  dsimp only at allocated
  have limit := inv.limit_le side
  split at allocated
  case isTrue fits =>
    obtain ⟨rfl, rfl⟩ := Prod.mk.inj (Option.some.inj allocated)
    refine ⟨inv.setSide limit (Nat.add_pos_right _ pos), ?_, rfl, ?_, ?_⟩
    · intro side'
      by_cases eq : side' = side
      · rw [eq, side_setSide]
        exact fits
      · rw [side_setSide_of_ne p _ eq]
        exact quiet side'
    · rw [side_setSide]
    · intro side' ne
      rw [side_setSide_of_ne p _ ne]
  case isFalse =>
    rw [if_pos (quiet side)] at allocated
    split at allocated
    case h_1 => cases allocated
    case h_2 p₁ limit₁ eq =>
      obtain ⟨rfl, rfl⟩ := Prod.mk.inj (Option.some.inj allocated)
      have started : (p.setSide ⟨(p.side side).next + blockSize, (p.side side).limit⟩ side).Inv :=
        inv.setSide limit (Nat.add_pos_right _ pos)
      have moderate : (p.setSide ⟨(p.side side).next + blockSize, (p.side side).limit⟩ side).Moderate
          := by
        intro side'
        have bound := inv.extent_le side'
        have below := quiet side'
        have limit' := inv.limit_le side'
        unfold blockPoolMemfdCenter blockPoolMemfdSize at bound
        by_cases same : side' = side
        · rw [same, side_setSide]
          rw [same] at bound below limit'
          dsimp only
          omega
        · rw [side_setSide_of_ne p _ same]
          omega
      obtain ⟨inv₁, front, back, le, enough⟩ := started.growLoop moderate eq
      have others : ∀ side' ≠ side, p₁.side side' = p.side side' := by
        intro side' ne
        rw [← side_setSide_of_ne p ⟨(p.side side).next + blockSize, (p.side side).limit⟩ ne]
        cases side' with
        | front => exact front
        | back => exact back
      refine ⟨inv₁.setSide le (Nat.add_pos_right _ pos), ?_, rfl, ?_, ?_⟩
      · intro side'
        by_cases same : side' = side
        · rw [same, side_setSide]
          exact enough
        · rw [side_setSide_of_ne p₁ _ same, others side' same]
          exact quiet side'
      · rw [side_setSide]
      · intro side' ne
        rw [side_setSide_of_ne p₁ _ ne, others side' ne]

end BlockPool

end Anv
