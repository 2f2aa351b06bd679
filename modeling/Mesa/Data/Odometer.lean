import Mathlib.Logic.Function.Iterate
import Mathlib.Order.Basic
import Mathlib.Data.Nat.Find
import Mathlib.Tactic.Common

/-!
# Odometers

A state has several digits.  The next state is that with the first digit counted up, if it is valid;
otherwise the first digit is set back to nothing, and the second one is counted up, and so on.  If the
digits can be counted up only so far, then this comes to all valid states.
-/

namespace Odometer

variable {σ : Type}

/-- How a digit is counted up, and how it is set back. -/
structure Digit (σ : Type) where
  up : σ → σ
  reset : σ → σ

/-- The next state, if there is one. -/
def next (valid : σ → Prop) [DecidablePred valid] : List (Digit σ) → σ → Option σ
  | [], _ => none
  | g :: gs, s => if valid (g.up s) then some (g.up s) else next valid gs (g.reset (g.up s))

/-- The states that come one after the other, up to one without a next one. -/
inductive Trace (next : σ → Option σ) : σ → List σ → Prop where
  | last {s : σ} (h : next s = none) : Trace next s [s]
  | step {s t : σ} {l : List σ} (h : next s = some t) (rest : Trace next t l) :
    Trace next s (s :: l)

theorem Trace.mem {next : σ → Option σ} {s : σ} {l : List σ} (h : Trace next s l) :
  s ∈ l
  := by
  cases h with
  | last => exact List.mem_cons_self
  | step => exact List.mem_cons_self

/-- A digit can be counted up from a state only so far, and is set back to this state. -/
structure Counts (valid : σ → Prop) (g : Digit σ) (s : σ) : Prop where
  start : valid s
  down : ∀ k, valid (g.up^[k + 1] s) → valid (g.up^[k] s)
  bounded : ∃ k, ¬valid (g.up^[k] s)
  reset : ∀ k, g.reset (g.up^[k + 1] s) = s

variable {valid : σ → Prop}

/-- The last number that a digit is counted up to. -/
theorem Counts.exists_last {g : Digit σ} {s : σ} (h : Counts valid g s) :
  ∃ m, ∀ k, valid (g.up^[k] s) ↔ k ≤ m
  := by
  classical
  obtain ⟨m, hm⟩ : ∃ m, Nat.find h.bounded = m + 1 := by
    apply Nat.exists_eq_succ_of_ne_zero
    intro hzero
    have hspec := Nat.find_spec h.bounded
    rw [hzero] at hspec
    exact hspec h.start
  have hbad : ¬valid (g.up^[m + 1] s) := by
    rw [← hm]
    exact Nat.find_spec h.bounded
  refine ⟨m, fun k => ⟨?_, ?_⟩⟩
  · intro hk
    by_contra hlt
    apply hbad
    obtain ⟨j, rfl⟩ := Nat.exists_eq_add_of_le (Nat.lt_of_not_le hlt)
    induction j with
    | zero => exact hk
    | succ j ih => exact ih (h.down _ hk) (by omega)
  · intro hle
    have hmin := Nat.find_min h.bounded (show k < Nat.find h.bounded by omega)
    exact not_not.mp hmin

variable [DecidablePred valid]

/-- The states that have been counted up come before those after them. -/
theorem trace_up {g : Digit σ} {gs : List (Digit σ)} {s : σ} {m : ℕ} {l : List σ}
    (hm : ∀ k, valid (g.up^[k] s) ↔ k ≤ m) (h : Trace (next valid (g :: gs)) (g.up^[m] s) l)
    {j : ℕ} (hj : j ≤ m) :
  ∃ l', Trace (next valid (g :: gs)) (g.up^[m - j] s) l' ∧
    ∀ y, y ∈ l' ↔ y ∈ l ∨ ∃ k, m - j ≤ k ∧ k < m ∧ y = g.up^[k] s
  := by
  induction j with
  | zero =>
    refine ⟨l, h, fun y => ⟨Or.inl, ?_⟩⟩
    rintro (hy | ⟨k, hle, hlt, -⟩)
    · exact hy
    · omega
  | succ j ih =>
    obtain ⟨l', htrace, hmem⟩ := ih (by omega)
    have hsucc : g.up (g.up^[m - (j + 1)] s) = g.up^[m - j] s := by
      rw [← Function.iterate_succ_apply' g.up]
      congr 1
      omega
    refine ⟨g.up^[m - (j + 1)] s :: l', Trace.step ?_ htrace, ?_⟩
    · rw [next, hsucc, if_pos ((hm _).mpr (Nat.sub_le m j))]
    · intro y
      rw [List.mem_cons, hmem]
      constructor
      · rintro (rfl | hy | ⟨k, hle, hlt, rfl⟩)
        · exact Or.inr ⟨m - (j + 1), le_rfl, by omega, rfl⟩
        · exact Or.inl hy
        · exact Or.inr ⟨k, by omega, hlt, rfl⟩
      · rintro (hy | ⟨k, hle, hlt, rfl⟩)
        · exact Or.inr (Or.inl hy)
        · rcases hle.eq_or_lt with rfl | hlt'
          · exact Or.inl rfl
          · exact Or.inr (Or.inr ⟨k, by omega, hlt, rfl⟩)

/-- A digit before the others is counted up in each of the states of the others. -/
theorem trace_cons {g : Digit σ} {gs : List (Digit σ)} {s : σ} {l : List σ}
    (h : Trace (next valid gs) s l) (hcounts : ∀ x ∈ l, Counts valid g x) :
  ∃ l', Trace (next valid (g :: gs)) s l' ∧
    ∀ y, y ∈ l' ↔ ∃ x ∈ l, ∃ k, y = g.up^[k] x ∧ valid y
  := by
  -- the carry, after the last number of the first digit
  have hcarry : ∀ x m, Counts valid g x → (∀ k, valid (g.up^[k] x) ↔ k ≤ m) →
      next valid (g :: gs) (g.up^[m] x) = next valid gs x := by
    intro x m hx hm
    have hbad : ¬valid (g.up^[m + 1] x) := by
      rw [hm]
      exact Nat.not_succ_le_self m
    rw [next, ← Function.iterate_succ_apply' g.up, if_neg hbad, hx.reset]
  have hlast : ∀ x m y, (∀ k, valid (g.up^[k] x) ↔ k ≤ m) →
      ((y = g.up^[m] x ∨ ∃ k, m - m ≤ k ∧ k < m ∧ y = g.up^[k] x) ↔
        ∃ k, y = g.up^[k] x ∧ valid y) := by
    intro x m y hm
    constructor
    · rintro (rfl | ⟨k, -, hlt, rfl⟩)
      · exact ⟨m, rfl, (hm m).mpr le_rfl⟩
      · exact ⟨k, rfl, (hm k).mpr hlt.le⟩
    · rintro ⟨k, rfl, hk⟩
      rcases ((hm k).mp hk).eq_or_lt with rfl | hlt
      · exact Or.inl rfl
      · exact Or.inr ⟨k, by omega, hlt, rfl⟩
  induction h with
  | @last s h =>
    have hs := hcounts s List.mem_cons_self
    obtain ⟨m, hm⟩ := hs.exists_last
    have hend : Trace (next valid (g :: gs)) (g.up^[m] s) [g.up^[m] s] := by
      apply Trace.last
      rw [hcarry s m hs hm, h]
    obtain ⟨l', htrace, hmem⟩ := trace_up hm hend (le_refl m)
    rw [Nat.sub_self] at htrace
    refine ⟨l', htrace, fun y => ?_⟩
    rw [hmem, List.mem_singleton, hlast s m y hm]
    constructor
    · rintro ⟨k, hk⟩
      exact ⟨s, List.mem_cons_self, k, hk⟩
    · rintro ⟨x, hx, k, hk⟩
      obtain rfl := List.mem_singleton.mp hx
      exact ⟨k, hk⟩
  | @step s t l h rest ih =>
    have hs := hcounts s List.mem_cons_self
    obtain ⟨m, hm⟩ := hs.exists_last
    obtain ⟨l₁, htrace₁, hmem₁⟩ := ih fun x hx => hcounts x (List.mem_cons_of_mem s hx)
    have hend : Trace (next valid (g :: gs)) (g.up^[m] s) (g.up^[m] s :: l₁) := by
      apply Trace.step _ htrace₁
      rw [hcarry s m hs hm, h]
    obtain ⟨l', htrace, hmem⟩ := trace_up hm hend (le_refl m)
    rw [Nat.sub_self] at htrace
    refine ⟨l', htrace, fun y => ?_⟩
    rw [hmem, List.mem_cons, or_right_comm, hlast s m y hm, hmem₁]
    constructor
    · rintro (⟨k, hk⟩ | ⟨x, hx, k, hk⟩)
      · exact ⟨s, List.mem_cons_self, k, hk⟩
      · exact ⟨x, List.mem_cons_of_mem s hx, k, hk⟩
    · rintro ⟨x, hx, k, hk⟩
      rcases List.mem_cons.mp hx with rfl | hx
      · exact Or.inl ⟨k, hk⟩
      · exact Or.inr ⟨x, hx, k, hk⟩

end Odometer
