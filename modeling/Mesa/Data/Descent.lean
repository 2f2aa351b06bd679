import Mathlib.Data.Multiset.DershowitzManna

/-!
# Termination

Multisets descend when some elements are replaced by smaller ones.  A computation with fuel settles
when all sufficiently large amounts of fuel give one result.
-/

namespace Descent

section Multisets

open Multiset

variable {α : Type} [PartialOrder α]

/-- The multisets are equal, or the first one is below the second one. -/
def Below (M N : Multiset α) : Prop := M = N ∨ IsDershowitzMannaLT M N

theorem lt_cons (a : α) (M : Multiset α) : IsDershowitzMannaLT M (a ::ₘ M) := by
  refine ⟨M, 0, {a}, Multiset.singleton_ne_zero a, (add_zero M).symm, ?_, ?_⟩
  · rw [add_comm, singleton_add]
  · intro y hy
    exact absurd hy (Multiset.notMem_zero y)

theorem lt_add_left {M N : Multiset α} (h : IsDershowitzMannaLT M N) (K : Multiset α) :
  IsDershowitzMannaLT (K + M) (K + N)
  := by
  obtain ⟨X, Y, Z, nonempty, rfl, rfl, smaller⟩ := h
  exact ⟨K + X, Y, Z, nonempty, (add_assoc K X Y).symm, (add_assoc K X Z).symm, smaller⟩

/-- All elements of a part are replaced by smaller ones. -/
theorem lt_of_forall_lt
    (X : Multiset α) {Y Z : Multiset α} {z : α} (mem : z ∈ Z) (smaller : ∀ y ∈ Y, y < z) :
  IsDershowitzMannaLT (X + Y) (X + Z)
  := by
  refine ⟨X, Y, Z, ?_, rfl, rfl, fun y hy => ⟨z, mem, smaller y hy⟩⟩
  rintro rfl
  exact Multiset.notMem_zero z mem

theorem lt_replace {a b : α} (h : a < b) (M : Multiset α) :
  IsDershowitzMannaLT (a ::ₘ M) (b ::ₘ M)
  := by
  have replaced := lt_of_forall_lt M (Y := {a}) (Z := {b}) (Multiset.mem_singleton_self b)
  rw [← Multiset.singleton_add, ← Multiset.singleton_add, add_comm _ M, add_comm _ M]
  apply replaced
  intro y hy
  rw [Multiset.mem_singleton.mp hy]
  exact h

theorem Below.refl (M : Multiset α) : Below M M := .inl rfl

theorem Below.trans_lt {K M N : Multiset α} (h : Below K M) (h' : IsDershowitzMannaLT M N) :
  IsDershowitzMannaLT K N
  := by
  rcases h with rfl | h
  · exact h'
  · exact h.trans h'

theorem Below.cons {M N : Multiset α} (h : Below M N) {a b : α} (le : a ≤ b) :
  Below (a ::ₘ M) (b ::ₘ N)
  := by
  have tail : Below (a ::ₘ M) (a ::ₘ N) := by
    rcases h with rfl | h
    · exact .refl _
    · right
      rw [← Multiset.singleton_add, ← Multiset.singleton_add]
      apply lt_add_left h
  rcases le.eq_or_lt with rfl | lt
  · exact tail
  · exact .inr (tail.trans_lt (lt_replace lt N))

theorem Below.cons_right {M N : Multiset α} (h : Below M N) (b : α) : Below M (b ::ₘ N) :=
  .inr (h.trans_lt (lt_cons b N))

end Multisets

section Fuel

variable {α β : Type}

/-- All sufficiently large amounts of fuel give the same result, and it has a property. -/
def Settles (f : ℕ → Option α) (P : α → Prop) : Prop :=
  ∃ a bound, P a ∧ ∀ n, bound ≤ n → f n = some a

theorem Settles.pure {P : α → Prop} {a : α} (h : P a) : Settles (fun _ => some a) P :=
  ⟨a, 0, h, fun _ _ => rfl⟩

theorem Settles.bind
    {f : ℕ → Option α} {P : α → Prop} {g : ℕ → α → Option β} {Q : β → Prop}
    (first : Settles f P) (next : ∀ a, P a → Settles (fun n => g n a) Q) :
  Settles (fun n => (f n).bind (g n)) Q
  := by
  obtain ⟨a, bound, ha, hf⟩ := first
  obtain ⟨b, bound', hb, hg⟩ := next a ha
  refine ⟨b, max bound bound', hb, ?_⟩
  intro n hn
  simp only [hf n (le_trans (le_max_left _ _) hn), Option.bind_some]
  apply hg n (le_trans (le_max_right _ _) hn)

theorem Settles.imp {f : ℕ → Option α} {P Q : α → Prop} (h : Settles f P) (imp : ∀ a, P a → Q a) :
  Settles f Q
  := by
  obtain ⟨a, bound, ha, hf⟩ := h
  exact ⟨a, bound, imp a ha, hf⟩

end Fuel

end Descent
