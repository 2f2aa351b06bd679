import Mathlib.Data.List.Nodup

/-!
# Lists that are linked through memory

The cells of a list are places in memory, and each holds the place of the next one.  The list ends
with a number that is not a place.
-/

/-- From `head` on, the places that follow each other in memory are those of a list. -/
def Chain {α : Type} (next : α → α) (stop : α) (head : α) : List α → Prop
  | [] => head = stop
  | a :: l => head = a ∧ a ≠ stop ∧ Chain next stop (next a) l

namespace Chain

variable {α : Type} {next next' : α → α} {stop head : α} {l : List α}

/-- Only the cells of a list matter. -/
theorem congr (chain : Chain next stop head l) (same : ∀ a ∈ l, next' a = next a) :
  Chain next' stop head l
  := by
  induction l generalizing head with
  | nil => exact chain
  | cons a l ih =>
    obtain ⟨here, ne, rest⟩ := chain
    refine ⟨here, ne, ?_⟩
    rw [same a List.mem_cons_self]
    exact ih rest fun b mem => same b (List.mem_cons_of_mem a mem)

/-- A list ends at once if its head is not a place. -/
theorem eq_nil_iff (chain : Chain next stop head l) :
  l = [] ↔ head = stop
  := by
  cases l with
  | nil => exact iff_of_true rfl chain
  | cons a l => exact iff_of_false (List.cons_ne_nil a l) (chain.1 ▸ chain.2.1)

/-- The first cell of a list, and the rest of it. -/
theorem exists_cons (chain : Chain next stop head l) (ne : head ≠ stop) :
  ∃ rest, l = head :: rest ∧ Chain next stop (next head) rest
  := by
  cases l with
  | nil => exact absurd chain ne
  | cons a rest =>
    obtain ⟨rfl, -, chain⟩ := chain
    exact ⟨rest, rfl, chain⟩

/-- The cells of a list are places. -/
theorem ne_of_mem (chain : Chain next stop head l) {a : α} (mem : a ∈ l) :
  a ≠ stop
  := by
  induction l generalizing head with
  | nil => cases mem
  | cons b l ih =>
    obtain ⟨-, ne, rest⟩ := chain
    rcases List.mem_cons.1 mem with rfl | mem
    · exact ne
    · exact ih rest mem

/-- A cell is taken out of a list by a change of the head, or of the cell before it. -/
theorem unlink [DecidableEq α] {before after : List α} {a : α}
    (chain : Chain next stop head (before ++ a :: after)) (nodup : (before ++ a :: after).Nodup) :
  match before.getLast? with
  | none => Chain next stop (next a) after
  | some b => Chain (Function.update next b (next a)) stop head (before ++ after)
  := by
  induction before generalizing head with
  | nil =>
    obtain ⟨rfl, -, rest⟩ := chain
    exact rest
  | cons c before ih =>
    obtain ⟨rfl, ne, rest⟩ := chain
    obtain ⟨out, nodup'⟩ := List.nodup_cons.1 nodup
    have inner := ih rest nodup'
    cases last : before.getLast? with
    | none =>
      obtain rfl := List.getLast?_eq_none_iff.1 last
      obtain ⟨-, -, rest'⟩ := rest
      refine ⟨rfl, ne, ?_⟩
      rw [List.getLast_singleton, Function.update_self]
      apply rest'.congr
      intro d mem
      apply Function.update_of_ne
      rintro rfl
      exact out (List.mem_cons_of_mem _ mem)
    | some b =>
      rw [last] at inner
      have inBefore : b ∈ before := List.mem_of_getLast? last
      have eq : (head :: before).getLast? = some b := by
        rw [List.getLast?_cons, last]
        rfl
      rw [eq]
      refine ⟨rfl, ne, ?_⟩
      rw [Function.update_of_ne]
      · exact inner
      · rintro rfl
        exact out (List.mem_append_left _ inBefore)

end Chain
