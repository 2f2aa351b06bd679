import Mesa.Flow.Dominance
import Mathlib.Order.Lattice

/-!
# Dominator trees of ordered graphs

A graph whose vertices are in an order such that every edge goes up in it, or back to a vertex that
dominates the one it leaves.  In such a graph the vertices that dominate a vertex form a chain, and
the strict dominators of a vertex are known from the predecessors that come before it.
-/

namespace Flow

section Paths

variable {B : Type*} {edge : B → B → Prop} {entry : B}

/-- There is a path to a vertex. -/
def Reachable (edge : B → B → Prop) (entry b : B) : Prop := ∃ l, Path edge entry b l

theorem Path.exists_cons {b : B} {l : List B} (h : Path edge entry b l) :
  ∃ m, l = b :: m
  := by
  cases h with
  | entry => use []
  | @step _ _ m _ _ => use m

/-- A vertex on a path cuts a path to it off the end. -/
theorem Path.exists_suffix {a b : B} {l : List B} (h : Path edge entry b l) (ha : a ∈ l) :
  ∃ s m, l = s ++ m ∧ Path edge entry a m
  := by
  induction h with
  | entry =>
      obtain rfl := List.mem_singleton.mp ha
      exact ⟨[], _, rfl, Path.entry⟩
  | @step b c l hpath hedge ih =>
      rcases List.mem_cons.mp ha with rfl | ha
      · exact ⟨[], _, rfl, hpath.step hedge⟩
      · obtain ⟨s, m, rfl, hm⟩ := ih ha
        exact ⟨c :: s, m, rfl, hm⟩

/-- What is left of a path when the end is cut off is a path. -/
theorem Path.of_append {a b : B} {l s m : List B} (h : Path edge entry b l) (hl : l = s ++ a :: m) :
  Path edge entry a (a :: m)
  := by
  induction h generalizing s with
  | entry =>
      obtain ⟨rfl, heq⟩ | ⟨s', -, hnil⟩ := List.cons_eq_append_iff.mp hl
      · obtain ⟨rfl, rfl⟩ := List.cons_eq_cons.mp heq
        exact Path.entry
      · simp at hnil
  | @step b c l hpath hedge ih =>
      obtain ⟨rfl, heq⟩ | ⟨s', rfl, htail⟩ := List.cons_eq_append_iff.mp hl
      · obtain ⟨rfl, rfl⟩ := List.cons_eq_cons.mp heq
        exact hpath.step hedge
      · exact ih htail

/-- The way to a vertex on a path can be replaced by another one. -/
theorem Path.replace {a b : B} {l s m m' : List B} (h : Path edge entry b l) (hl : l = s ++ m)
    (hm : Path edge entry a m) (hm' : Path edge entry a m') :
  Path edge entry b (s ++ m')
  := by
  obtain ⟨k, rfl⟩ := hm.exists_cons
  induction h generalizing s with
  | entry =>
      cases s with
      | nil =>
          obtain rfl : entry = a := (List.cons_eq_cons.mp hl).1
          exact hm'
      | cons c s => simp at hl
  | @step b c l hpath hedge ih =>
      cases s with
      | nil =>
          obtain rfl : c = a := (List.cons_eq_cons.mp hl).1
          exact hm'
      | cons d s =>
          obtain ⟨rfl, htail⟩ := List.cons_eq_cons.mp hl
          exact (ih htail).step hedge

theorem Dom.reachable {a b : B} (h : Dom edge entry a b) (hb : Reachable edge entry b) :
  Reachable edge entry a
  := by
  obtain ⟨l, hl⟩ := hb
  obtain ⟨s, m, -, hm⟩ := hl.exists_suffix (h l hl)
  use m

theorem Reachable.step {b c : B} (hb : Reachable edge entry b) (hedge : edge b c) :
  Reachable edge entry c
  := by
  obtain ⟨l, hl⟩ := hb
  use c :: l
  exact hl.step hedge

/-! ### Immediate dominators -/

/-- The vertex `d` is the last one before `c` on every path to `c`. -/
def ImmDom (edge : B → B → Prop) (entry d c : B) : Prop :=
  d ≠ c ∧ Dom edge entry d c ∧ ∀ a, Dom edge entry a c → a ≠ c → Dom edge entry a d

theorem ImmDom.dom_iff {a c d : B} (h : ImmDom edge entry d c) (hc : Reachable edge entry c) :
  Dom edge entry a d ↔ Dom edge entry a c ∧ a ≠ c
  := by
  obtain ⟨hne, hdom, hall⟩ := h
  constructor
  · intro ha
    refine ⟨ha.trans hdom, ?_⟩
    rintro rfl
    obtain ⟨l, hl⟩ := hc
    exact hne (Dom.antisymm hl ha hdom).symm
  · rintro ⟨ha, hac⟩
    exact hall a ha hac

theorem ImmDom.of_dom_iff {c d : B}
    (h : ∀ a, Dom edge entry a d ↔ Dom edge entry a c ∧ a ≠ c) :
  ImmDom edge entry d c
  := by
  obtain ⟨hdom, hne⟩ := (h d).mp (Dom.refl d)
  refine ⟨hne, hdom, ?_⟩
  intro a ha hac
  exact (h a).mpr ⟨ha, hac⟩

/-- There is at most one immediate dominator. -/
theorem ImmDom.eq {c d e : B} (hd : ImmDom edge entry d c) (he : ImmDom edge entry e c)
    (hc : Reachable edge entry c) :
  d = e
  := by
  obtain ⟨l, hl⟩ := hd.2.1.reachable hc
  apply Dom.antisymm hl
  · exact he.2.2 d hd.2.1 hd.1
  · exact hd.2.2 e he.2.1 he.1

theorem not_immDom_entry (d : B) :
  ¬ImmDom edge entry d entry
  := by
  rintro ⟨hne, hdom, -⟩
  exact hne (List.mem_singleton.mp (hdom [entry] Path.entry))

end Paths

section Ordered

variable {B : Type*} [LinearOrder B] {edge : B → B → Prop} {entry : B}

/-- Every edge goes up, or back to a vertex that dominates, and none goes to the entry. -/
structure Ordered (edge : B → B → Prop) (entry : B) : Prop where
  edges : ∀ {b c}, edge b c → b < c ∨ Dom edge entry c b
  entry : ∀ b, ¬edge b entry

variable (hG : Ordered edge entry)

include hG

/-- A vertex that can be reached can be reached upwards. -/
theorem Ordered.exists_sorted {b : B} {l : List B} (h : Path edge entry b l) :
  ∃ m, Path edge entry b m ∧ m.Pairwise (· > ·)
  := by
  induction h with
  | entry => exact ⟨[entry], Path.entry, List.pairwise_singleton _ _⟩
  | @step b c l hpath hedge ih =>
      obtain ⟨m, hm, hsorted⟩ := ih
      rcases hG.edges hedge with hlt | hdom
      · use c :: m, hm.step hedge
        rw [List.pairwise_cons]
        refine ⟨?_, hsorted⟩
        intro d hd
        obtain ⟨k, rfl⟩ := hm.exists_cons
        rcases List.mem_cons.mp hd with rfl | hd
        · exact hlt
        · exact (List.rel_of_pairwise_cons hsorted hd).trans hlt
      · obtain ⟨s, k, rfl, hk⟩ := hm.exists_suffix (hdom m hm)
        exact ⟨k, hk, (List.pairwise_append.mp hsorted).2.1⟩

theorem Ordered.lt_of_dom {a b : B} (hb : Reachable edge entry b) (h : Dom edge entry a b)
    (hne : a ≠ b) :
  a < b
  := by
  obtain ⟨l, hl⟩ := hb
  obtain ⟨m, hm, hsorted⟩ := hG.exists_sorted hl
  have ha := h m hm
  obtain ⟨k, rfl⟩ := hm.exists_cons
  rcases List.mem_cons.mp ha with rfl | ha
  · exact absurd rfl hne
  · exact List.rel_of_pairwise_cons hsorted ha

theorem Ordered.le_of_dom {a b : B} (hb : Reachable edge entry b) (h : Dom edge entry a b) :
  a ≤ b
  := by
  by_cases hne : a = b
  · exact hne.le
  · exact (hG.lt_of_dom hb h hne).le

/-- The vertices that dominate a vertex form a chain. -/
theorem Ordered.dom_of_le {a a' b : B} (hb : Reachable edge entry b) (h : Dom edge entry a b)
    (h' : Dom edge entry a' b) (hle : a ≤ a') :
  Dom edge entry a a'
  := by
  obtain ⟨l, hl⟩ := hb
  obtain ⟨m, hm, hsorted⟩ := hG.exists_sorted hl
  obtain ⟨s, k, rfl, hk⟩ := hm.exists_suffix (h' m hm)
  obtain ⟨k', rfl⟩ := hk.exists_cons
  -- any path to `a'` goes on to `b` through greater vertices
  intro p hp
  rcases List.mem_append.mp (h _ (hm.replace rfl hk hp)) with hmem | hmem
  · have hlt := (List.pairwise_append.mp hsorted).2.2 a hmem a' List.mem_cons_self
    exact absurd hlt hle.not_gt
  · exact hmem

theorem Ordered.not_dom_of_gt {a b : B} (hb : Reachable edge entry b) (hlt : b < a) :
  ¬Dom edge entry a b
  := by
  intro h
  exact absurd (hG.le_of_dom hb h) hlt.not_ge

/-! ### Predecessors -/

/-- A vertex other than the entry that can be reached has an edge up to it. -/
theorem Ordered.exists_pred {c : B} (hc : Reachable edge entry c) (hne : c ≠ entry) :
  ∃ p, edge p c ∧ p < c ∧ Reachable edge entry p
  := by
  obtain ⟨l, hl⟩ := hc
  obtain ⟨m, hm, hsorted⟩ := hG.exists_sorted hl
  cases hm with
  | entry => exact absurd rfl hne
  | @step p _ k hpath hedge =>
      use p, hedge, List.rel_of_pairwise_cons hsorted hpath.mem
      use k

/-- What strictly dominates a vertex is what dominates its predecessors, of which those that come
after it may be left out. -/
theorem Ordered.dom_iff_forall_pred {P : B → Prop} {a c : B} (hc : Reachable edge entry c)
    (hne : c ≠ entry) (hP : ∀ p, P p → edge p c)
    (hfwd : ∀ p, edge p c → p < c → Reachable edge entry p → P p) :
  (Dom edge entry a c ∧ a ≠ c) ↔ ∀ p, P p → Dom edge entry a p
  := by
  constructor
  · rintro ⟨hdom, hac⟩ p hp
    exact hdom.of_edge hac (hP p hp)
  · intro h
    obtain ⟨p, hedge, hlt, hp⟩ := hG.exists_pred hc hne
    have hap : a ≤ p := hG.le_of_dom hp (h p (hfwd p hedge hlt hp))
    have hac : a ≠ c := (hap.trans_lt hlt).ne
    refine ⟨?_, hac⟩
    -- the first edge to `c` on a path goes up, and comes from a predecessor in `P`
    have hcut : ∀ b l, Path edge entry b l → c ∈ l → a ∈ l := by
      intro b l hl
      induction hl with
      | entry =>
          intro hmem
          exact absurd (List.mem_singleton.mp hmem) hne
      | @step b d l hpath hedge ih =>
          intro hmem
          by_cases hcl : c ∈ l
          · exact List.mem_cons_of_mem _ (ih hcl)
          · obtain rfl : c = d := (List.mem_cons.mp hmem).resolve_right hcl
            have hb : Reachable edge entry b := ⟨l, hpath⟩
            rcases hG.edges hedge with hlt | hback
            · exact List.mem_cons_of_mem _ (h b (hfwd b hedge hlt hb) l hpath)
            · exact absurd (hback l hpath) hcl
    intro l hl
    exact hcut c l hl hl.mem

end Ordered

end Flow
