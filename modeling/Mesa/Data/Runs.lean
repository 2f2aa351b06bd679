import Mathlib.Data.List.Basic

/-!
# Runs between separators

The parts of a list between the occurrences of a separator, without those that are empty.
-/

variable {α : Type*}

/-- The list as a single part, if there is anything in it. -/
def nonemptyPart (l : List α) : List (List α) := if l = [] then [] else [l]

theorem filter_nonempty_singleton (l : List α) :
  [l].filter (· ≠ []) = nonemptyPart l
  := by
  unfold nonemptyPart
  split
  case isTrue empty => simp [empty]
  case isFalse nonempty => simp [nonempty]

variable [DecidableEq α]

/-- The parts between the occurrences of `r` that are not empty. -/
def runsBetween (r : α) (l : List α) : List (List α) := (l.splitOn r).filter (· ≠ [])

/-- Without the separator there is one part at most. -/
theorem runsBetween_of_not_mem {r : α} {l : List α} (h : r ∉ l) :
  runsBetween r l = nonemptyPart l
  := by
  rw [runsBetween, List.splitOn_eq_singleton h]
  exact filter_nonempty_singleton l

/-- The first separator ends the first part. -/
theorem runsBetween_append_cons {r : α} {l : List α} (h : r ∉ l) (rest : List α) :
  runsBetween r (l ++ r :: rest) = nonemptyPart l ++ runsBetween r rest
  := by
  rw [← filter_nonempty_singleton, runsBetween, runsBetween, List.splitOn_append_cons_self,
    List.splitOn_eq_singleton h, List.filter_append]

/-- What is not the separator is in one of the runs, and nothing else is. -/
theorem mem_flatten_runsBetween {r a : α} {l : List α} :
  a ∈ (runsBetween r l).flatten ↔ a ∈ l ∧ a ≠ r
  := by
  have part : ∀ l : List α, a ∈ (nonemptyPart l).flatten ↔ a ∈ l := by
    intro l
    unfold nonemptyPart
    split
    case isTrue empty => simp [empty]
    case isFalse => simp
  induction hn : l.length using Nat.strongRecOn generalizing l with
  | ind n ih =>
    by_cases hr : r ∈ l
    · obtain ⟨s, t, rfl, hs⟩ := List.eq_append_cons_of_mem hr
      rw [List.length_append, List.length_cons] at hn
      have later : a ∈ (runsBetween r t).flatten ↔ a ∈ t ∧ a ≠ r := ih t.length (by omega) rfl
      rw [runsBetween_append_cons hs, List.flatten_append, List.mem_append, part, later, List.mem_append, List.mem_cons]
      constructor
      · rintro (mem | ⟨mem, ne⟩)
        · refine ⟨Or.inl mem, ?_⟩
          rintro rfl
          exact hs mem
        · exact ⟨Or.inr (Or.inr mem), ne⟩
      · rintro ⟨mem | rfl | mem, ne⟩
        · exact Or.inl mem
        · exact absurd rfl ne
        · exact Or.inr ⟨mem, ne⟩
    · rw [runsBetween_of_not_mem hr, part]
      constructor
      · intro mem
        refine ⟨mem, ?_⟩
        rintro rfl
        exact hr mem
      · exact And.left

/-- Another separator in the place of the old one gives the same runs, exactly when it does not occur
otherwise. -/
theorem runsBetween_replace_iff {r m : α} {l : List α} :
  runsBetween m (l.map fun v => if v = r then m else v) = runsBetween r l
    ↔ ∀ v ∈ l, v = m → v = r
  := by
  constructor
  · intro same v mem hm
    by_contra hr
    have inRun := mem_flatten_runsBetween.2 ⟨mem, hr⟩
    rw [← same, mem_flatten_runsBetween] at inRun
    exact inRun.2 hm
  · intro only
    induction hn : l.length using Nat.strongRecOn generalizing l with
    | ind n ih =>
      have keep : ∀ s : List α, (∀ v ∈ s, v ∈ l) → r ∉ s →
          s.map (fun v => if v = r then m else v) = s ∧ m ∉ s := by
        intro s sub hs
        have unchanged : ∀ v ∈ s, (if v = r then m else v) = v := by
          intro v mem
          apply if_neg
          rintro rfl
          exact hs mem
        constructor
        · rw [List.map_congr_left unchanged]
          exact List.map_id' s
        · intro mem
          rw [only m (sub m mem) rfl] at mem
          exact hs mem
      by_cases hr : r ∈ l
      · obtain ⟨s, t, rfl, hs⟩ := List.eq_append_cons_of_mem hr
        rw [List.length_append, List.length_cons] at hn
        obtain ⟨kept, absent⟩ := keep s (fun v mem => List.mem_append_left _ mem) hs
        have later := ih t.length (by omega) (l := t) (by
          intro v mem
          exact only v (List.mem_append_right _ (List.mem_cons_of_mem _ mem))) rfl
        rw [List.map_append, List.map_cons, kept, if_pos rfl, runsBetween_append_cons absent,
          runsBetween_append_cons hs, later]
      · obtain ⟨kept, absent⟩ := keep l (fun v mem => mem) hr
        rw [kept, runsBetween_of_not_mem absent, runsBetween_of_not_mem hr]
