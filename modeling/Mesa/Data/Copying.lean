import Mathlib.Data.Set.Lattice

/-!
# Copies of bytes

A list of moves, each of some bytes between two memories, and the pairs of addresses it connects.
Which pairs those are decides what running the moves does, in either direction.  The variable of a
counting loop runs through `loopValues`.
-/

namespace Copying

/-- Some bytes at `near` in one memory and `far` in the other. -/
structure Move where
  near : ℤ
  far : ℤ
  bytes : ℕ
deriving DecidableEq, Repr

/-- The move with its two memories exchanged. -/
def Move.swap (move : Move) : Move :=
  ⟨move.far, move.near, move.bytes⟩

/-- The addresses that are connected by some of the moves. -/
def pairs (moves : List Move) : Set (ℤ × ℤ) :=
  { p | ∃ move ∈ moves, ∃ k : ℕ, k < move.bytes ∧ p = (move.near + k, move.far + k) }

@[simp]
theorem pairs_nil :
  pairs [] = ∅
  := by
  simp [pairs]

theorem mem_pairs_singleton {near far : ℤ} {bytes : ℕ} {p : ℤ × ℤ} :
  p ∈ pairs [⟨near, far, bytes⟩] ↔ ∃ k : ℕ, k < bytes ∧ p = (near + k, far + k)
  := by
  simp [pairs]

theorem mem_pairs_cons {move : Move} {moves : List Move} {p : ℤ × ℤ} :
  p ∈ pairs (move :: moves) ↔ p ∈ pairs [move] ∨ p ∈ pairs moves
  := by
  simp [pairs]

theorem mem_pairs_append {moves moves' : List Move} {p : ℤ × ℤ} :
  p ∈ pairs (moves ++ moves') ↔ p ∈ pairs moves ∨ p ∈ pairs moves'
  := by
  simp only [pairs, List.mem_append, Set.mem_ofPred_eq]
  constructor
  · rintro ⟨move, here | there, rest⟩
    · exact .inl ⟨move, here, rest⟩
    · exact .inr ⟨move, there, rest⟩
  · rintro (⟨move, here, rest⟩ | ⟨move, there, rest⟩)
    · exact ⟨move, .inl here, rest⟩
    · exact ⟨move, .inr there, rest⟩

theorem mem_pairs_flatMap {α : Type*} {l : List α} {f : α → List Move} {p : ℤ × ℤ} :
  p ∈ pairs (l.flatMap f) ↔ ∃ a ∈ l, p ∈ pairs (f a)
  := by
  induction l with
  | nil => simp
  | cons a l ih => rw [List.flatMap_cons, mem_pairs_append, ih]; simp

theorem mem_pairs_swap {moves : List Move} {near far : ℤ} :
  (near, far) ∈ pairs (moves.map Move.swap) ↔ (far, near) ∈ pairs moves
  := by
  simp only [pairs, List.mem_map, Set.mem_ofPred_eq, Prod.mk.injEq]
  constructor
  · rintro ⟨_, ⟨move, mem, rfl⟩, k, lt, eq, eq'⟩
    exact ⟨move, mem, k, lt, eq', eq⟩
  · rintro ⟨move, mem, k, lt, eq, eq'⟩
    exact ⟨_, ⟨move, mem, rfl⟩, k, lt, eq', eq⟩

variable {β : Type*}

/-- `memcpy`: some bytes are copied from `from` in `src`. -/
def memcpy (src : ℤ → β) (move : Move) (dst : ℤ → β) : ℤ → β :=
  fun a => if move.near ≤ a ∧ a < move.near + move.bytes then src (move.far + (a - move.near))
    else dst a

/-- The moves are made one after the other. -/
def copy (src : ℤ → β) (moves : List Move) (dst : ℤ → β) : ℤ → β :=
  moves.foldl (fun dst move => memcpy src move dst) dst

/-- Memory `dst'` is `dst` after bytes were copied between the given addresses, in some order. -/
def Copied (addresses : Set (ℤ × ℤ)) (src dst dst' : ℤ → β) : Prop :=
  ∀ a, (∃ b, (a, b) ∈ addresses ∧ dst' a = src b) ∨
    ((∀ b, (a, b) ∉ addresses) ∧ dst' a = dst a)

theorem copied_memcpy (src dst : ℤ → β) (move : Move) :
  Copied (pairs [move]) src dst (memcpy src move dst)
  := by
  intro a
  rw [memcpy]
  by_cases inside : move.near ≤ a ∧ a < move.near + move.bytes
  · refine .inl ⟨move.far + (a - move.near), ?_, if_pos inside⟩
    refine mem_pairs_singleton.mpr ⟨(a - move.near).toNat, ?_, ?_⟩
    · omega
    · rw [Prod.mk.injEq]
      omega
  · refine .inr ⟨?_, if_neg inside⟩
    intro b mem
    obtain ⟨k, lt, eq⟩ := mem_pairs_singleton.mp mem
    obtain ⟨rfl, -⟩ := Prod.mk.inj eq
    omega

theorem Copied.trans {first second : Set (ℤ × ℤ)} {src dst dst' dst'' : ℤ → β}
    (copied : Copied first src dst dst') (copied' : Copied second src dst' dst'') :
  Copied (first ∪ second) src dst dst''
  := by
  intro a
  rcases copied' a with ⟨b, mem, eq⟩ | ⟨none₂, eq⟩
  · exact .inl ⟨b, .inr mem, eq⟩
  · rcases copied a with ⟨b, mem, eq'⟩ | ⟨none₁, eq'⟩
    · exact .inl ⟨b, .inl mem, eq.trans eq'⟩
    · refine .inr ⟨?_, eq.trans eq'⟩
      rintro b (mem | mem)
      · exact none₁ b mem
      · exact none₂ b mem

/-- Running moves copies between the addresses they connect.  By induction on the moves. -/
theorem copied_copy (src dst : ℤ → β) (moves : List Move) :
  Copied (pairs moves) src dst (copy src moves dst)
  := by
  induction moves generalizing dst with
  | nil => exact fun a => .inr ⟨fun b mem => by simp at mem, rfl⟩
  | cons move moves ih =>
    have all : pairs (move :: moves) = pairs [move] ∪ pairs moves :=
      Set.ext fun _ => mem_pairs_cons
    rw [all]
    exact (copied_memcpy src dst move).trans (ih _)

/-- Where all that may go to an address is the same, it is what arrives there. -/
theorem Copied.apply_eq {addresses : Set (ℤ × ℤ)} {src dst dst' : ℤ → β} {a b : ℤ}
    (copied : Copied addresses src dst dst') (mem : (a, b) ∈ addresses)
    (same : ∀ b', (a, b') ∈ addresses → src b' = src b) :
  dst' a = src b
  := by
  rcases copied a with ⟨b', mem', eq⟩ | ⟨nothing, -⟩
  · rw [eq, same b' mem']
  · exact absurd mem (nothing b)

theorem Copied.unchanged {addresses : Set (ℤ × ℤ)} {src dst dst' : ℤ → β} {a : ℤ}
    (copied : Copied addresses src dst dst') (nothing : ∀ b, (a, b) ∉ addresses) :
  dst' a = dst a
  := by
  rcases copied a with ⟨b, mem, -⟩ | ⟨-, eq⟩
  · exact absurd mem (nothing b)
  · exact eq

/-- The values of a variable that counts from `start` in steps, as long as it is below `stop`. -/
def loopValues (start stop step : ℕ) : List ℕ :=
  List.range' start ((stop - start + (step - 1)) / step) step

theorem mem_loopValues {start stop step v : ℕ} (pos : 0 < step) :
  v ∈ loopValues start stop step ↔ ∃ k, v = start + step * k ∧ v < stop
  := by
  rw [loopValues, List.mem_range']
  constructor
  · rintro ⟨k, lt, rfl⟩
    refine ⟨k, rfl, ?_⟩
    have := (Nat.lt_div_iff_mul_lt pos).mp lt
    rw [Nat.mul_comm] at this
    omega
  · rintro ⟨k, rfl, lt⟩
    refine ⟨k, (Nat.lt_div_iff_mul_lt pos).mpr ?_, rfl⟩
    rw [Nat.mul_comm]
    omega

theorem loopValues_whole (start n : ℕ) {step : ℕ} (pos : 0 < step) :
  loopValues start (start + step * n) step = List.range' start n step
  := by
  rw [loopValues, Nat.add_sub_cancel_left, Nat.mul_add_div pos,
    Nat.div_eq_of_lt (by omega), Nat.add_zero]

end Copying
