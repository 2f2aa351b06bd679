import Mesa.Flow.Dominance

/-!
# Regions with one way out

A set of vertices that is left to one vertex only, except for a vertex where everything stops.  What
lies in the set and dominates a vertex outside of it also dominates the way out, which dominates
that vertex.
-/

namespace Flow

variable {B : Type*}

/-- The set `R` is left to the vertex `out`, or to `stop`, which has no edges. -/
structure LeftAt (edge : B → B → Prop) (R : Set B) (out stop : B) : Prop where
  leave : ∀ {b c}, edge b c → b ∈ R → c ∉ R → c = out ∨ c = stop
  stop_edge : ∀ c, ¬edge stop c
  out_notMem : out ∉ R

variable {edge : B → B → Prop} {entry : B} {R : Set B} {out stop : B}

/-- A path through the set that is outside of it now has gone through its way out. -/
theorem LeftAt.out_mem (h : LeftAt edge R out stop) {a u : B} {l : List B}
    (hl : Path edge entry u l) (ha : a ∈ l) (hR : a ∈ R) (hu : u ∉ R) (hstop : u ≠ stop) :
  out ∈ l
  := by
  induction hl with
  | entry =>
      rw [List.mem_singleton] at ha
      subst ha
      exact absurd hR hu
  | @step b c l hpath hedge ih =>
      rcases List.mem_cons.mp ha with rfl | hmem
      · exact absurd hR hu
      · by_cases hb : b ∈ R
        · rcases h.leave hedge hb hu with rfl | heq
          · exact List.mem_cons_self
          · exact absurd heq hstop
        · apply List.mem_cons_of_mem
          apply ih hmem hb
          rintro rfl
          exact h.stop_edge c hedge

/-- The way out dominates what is dominated from inside. -/
theorem LeftAt.out_dom (h : LeftAt edge R out stop) {a u : B} (hdom : Dom edge entry a u)
    (hR : a ∈ R) (hu : u ∉ R) (hstop : u ≠ stop) :
  Dom edge entry out u
  := by
  intro l hl
  exact h.out_mem hl (hdom l hl) hR hu hstop

/-- When the way out is reached without a vertex of the set, so is what is reached through the
set. -/
theorem LeftAt.exists_path (h : LeftAt edge R out stop) {a c u : B} {l l' : List B}
    (hl' : Path edge entry out l') (ha' : a ∉ l') (haR : a ∈ R) (hl : Path edge entry u l)
    (hc : c ∈ l) (hR : c ∈ R) (hu : u ∉ R) (hstop : u ≠ stop) :
  ∃ l, Path edge entry u l ∧ a ∉ l
  := by
  induction hl with
  | entry =>
      rw [List.mem_singleton] at hc
      subst hc
      exact absurd hR hu
  | @step b v l hpath hedge ih =>
      rcases List.mem_cons.mp hc with rfl | hmem
      · exact absurd hR hu
      · by_cases hb : b ∈ R
        · rcases h.leave hedge hb hu with rfl | heq
          · exact ⟨l', hl', ha'⟩
          · exact absurd heq hstop
        · obtain ⟨l₁, hl₁, ha₁⟩ := ih hmem hb (by
            rintro rfl
            exact h.stop_edge v hedge)
          refine ⟨v :: l₁, hl₁.step hedge, ?_⟩
          rw [List.mem_cons, not_or]
          refine ⟨?_, ha₁⟩
          rintro rfl
          exact hu haR

/-- What lies inside and dominates a vertex outside that can be reached dominates the way out. -/
theorem LeftAt.dom_out (h : LeftAt edge R out stop) {a u : B} {l : List B}
    (hdom : Dom edge entry a u) (hR : a ∈ R) (hu : u ∉ R) (hstop : u ≠ stop)
    (hl : Path edge entry u l) :
  Dom edge entry a out
  := by
  intro l' hl'
  by_contra ha'
  obtain ⟨l₁, hl₁, ha₁⟩ := h.exists_path hl' ha' hR hl (hdom l hl) hR hu hstop
  exact ha₁ (hdom l₁ hl₁)

/-- A vertex that does not dominate another one, while a third one does, does not dominate some
predecessor of the third one. -/
theorem not_dom_pred {a m u : B} (hm : Dom edge entry m u) (ha : ¬Dom edge entry a u)
    (hne : m ≠ entry) :
  ∃ q, edge q m ∧ ¬Dom edge entry a q
  := by
  unfold Dom at ha
  push Not at ha
  obtain ⟨l, hl, hal⟩ := ha
  obtain ⟨l', hl', hsub⟩ := hl.exists_subset (hm l hl)
  cases hl' with
  | entry => exact absurd rfl hne
  | @step q _ l' hpath hedge =>
      refine ⟨q, hedge, fun hdom => hal ?_⟩
      exact hsub (List.mem_cons_of_mem _ (hdom l' hpath))

/-- What dominates all predecessors dominates. -/
theorem dom_of_preds {a m : B} (hne : m ≠ entry) (h : ∀ q, edge q m → Dom edge entry a q) :
  Dom edge entry a m
  := by
  intro l hl
  cases hl with
  | entry => exact absurd rfl hne
  | step hpath hedge => exact List.mem_cons_of_mem _ (h _ hedge _ hpath)

end Flow
