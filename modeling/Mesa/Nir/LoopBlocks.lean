import Mesa.Flow.Region
import Mesa.Nir.BlockGraph

/-!
# The loops of a function

A loop is known by the index of the block before it and by its body: its blocks are those with
indices between the blocks before and after it, and it is left to the block after it, or to the end
of the function.  Loops are disjoint or nested.
-/

namespace Nir

open Flow

variable {ι κ : Type}

/-- A `nir_loop`: the block before it and its body. -/
structure CfLoop (ι κ : Type) where
  before : ℕ
  body : CfList ι κ

/-- The block after a loop. -/
def CfLoop.after (L : CfLoop ι κ) : ℕ := L.before + 1 + L.body.numBlocks

/-- A block is in a loop when its index is between those of the blocks before and after the loop. -/
def CfLoop.Contains (L : CfLoop ι κ) (b : ℕ) : Prop := L.before < b ∧ b < L.after

instance (L : CfLoop ι κ) (b : ℕ) : Decidable (L.Contains b) :=
  inferInstanceAs (Decidable (_ ∧ _))

/-- A loop is inside another one, with the block after it. -/
def CfLoop.Inside (L L' : CfLoop ι κ) : Prop := L'.before < L.before ∧ L.after < L'.after

namespace CfLoop.Inside

variable {L N : CfLoop ι κ}

theorem contains (hin : L.Inside N) {b : ℕ} (hb : L.Contains b) :
  N.Contains b
  := ⟨hin.1.trans hb.1, hb.2.trans hin.2⟩

theorem contains_after (hin : L.Inside N) :
  N.Contains L.after
  := by
  refine ⟨?_, hin.2⟩
  have hlt := hin.1
  simp only [CfLoop.after]
  omega

end CfLoop.Inside

namespace CfList

/-- The loops in a list, of which the first block has the index `i`. -/
@[simp]
def loops : CfList ι κ → ℕ → List (CfLoop ι κ)
  | .block _, _ => []
  | .nif _ _ t e rest, i =>
      let thenBlock := i + 1
      let elseBlock := thenBlock + t.numBlocks
      let next := elseBlock + e.numBlocks
      t.loops thenBlock ++ e.loops elseBlock ++ rest.loops next
  | .loop _ body rest, i =>
      let header := i + 1
      let next := header + body.numBlocks
      ⟨i, body⟩ :: (body.loops header ++ rest.loops next)

/-- The blocks of a list in their order, each with the innermost loop around it, which is `L` for
the nodes of the list itself. -/
@[simp]
def visits : CfList ι κ → ℕ → CfLoop ι κ → List (ℕ × CfLoop ι κ)
  | .block _, i, L => [(i, L)]
  | .nif _ _ t e rest, i, L =>
      let thenBlock := i + 1
      let elseBlock := thenBlock + t.numBlocks
      let next := elseBlock + e.numBlocks
      (i, L) :: (t.visits thenBlock L ++ e.visits elseBlock L ++ rest.visits next L)
  | .loop _ body rest, i, L =>
      let header := i + 1
      let next := header + body.numBlocks
      (i, L) :: (body.visits header ⟨i, body⟩ ++ rest.visits next L)

/-! ### Where loops are -/

theorem loops_bounds {l : CfList ι κ} {i : ℕ} {N : CfLoop ι κ} (h : N ∈ l.loops i) :
  i ≤ N.before ∧ N.after < i + l.numBlocks
  := by
  induction l generalizing i with
  | block b => exact absurd h List.not_mem_nil
  | nif b c t e rest iht ihe ih =>
      have hrest := rest.numBlocks_pos
      simp only [loops, List.mem_append] at h
      simp only [numBlocks]
      rcases h with (h | h) | h
      · have := iht h
        omega
      · have := ihe h
        omega
      · have := ih h
        omega
  | loop b body rest ihbody ih =>
      have hrest := rest.numBlocks_pos
      simp only [loops, List.mem_cons, List.mem_append] at h
      simp only [numBlocks]
      rcases h with rfl | h | h
      · simp only [CfLoop.after]
        omega
      · have := ihbody h
        omega
      · have := ih h
        omega

/-- The loops in a loop are loops of the list. -/
theorem loops_trans {l : CfList ι κ} {i : ℕ} {L N : CfLoop ι κ} (hL : L ∈ l.loops i)
    (hN : N ∈ L.body.loops (L.before + 1)) :
  N ∈ l.loops i
  := by
  induction l generalizing i with
  | block b => exact absurd hL List.not_mem_nil
  | nif b c t e rest iht ihe ih =>
      simp only [loops, List.mem_append] at hL ⊢
      rcases hL with (h | h) | h
      · exact Or.inl (Or.inl (iht h))
      · exact Or.inl (Or.inr (ihe h))
      · exact Or.inr (ih h)
  | loop b body rest ihbody ih =>
      simp only [loops, List.mem_cons, List.mem_append] at hL ⊢
      rcases hL with rfl | h | h
      · exact Or.inr (Or.inl hN)
      · exact Or.inr (Or.inl (ihbody h))
      · exact Or.inr (Or.inr (ih h))

/-- A loop with the block after it in another loop is inside that loop. -/
theorem loops_inside {l : CfList ι κ} {i : ℕ} {M N : CfLoop ι κ} (hM : M ∈ l.loops i)
    (hN : N ∈ l.loops i) (h : N.Contains M.after) :
  M.Inside N
  := by
  refine ⟨?_, h.2⟩
  obtain ⟨hlo, hhi⟩ := h
  induction l generalizing i with
  | block b => exact absurd hM List.not_mem_nil
  | nif b c t e rest iht ihe ih =>
      simp only [loops, List.mem_append] at hM hN
      rcases hM with (hM | hM) | hM <;> rcases hN with (hN | hN) | hN
      all_goals have hM' := loops_bounds hM
      all_goals have hN' := loops_bounds hN
      all_goals first | exact iht hM hN | exact ihe hM hN | exact ih hM hN | skip
      all_goals simp only [CfLoop.after] at hM' hN' hlo hhi
      all_goals omega
  | loop b body rest ihbody ih =>
      simp only [loops, List.mem_cons, List.mem_append] at hM hN
      rcases hM with rfl | hM | hM <;> rcases hN with rfl | hN | hN
      · exact absurd hhi (Nat.lt_irrefl _)
      · have hN' := loops_bounds hN
        simp only [CfLoop.after] at hN' hlo hhi
        omega
      · have hN' := loops_bounds hN
        simp only [CfLoop.after] at hN' hlo hhi
        omega
      · have hM' := loops_bounds hM
        simp only at hM' ⊢
        omega
      · exact ihbody hM hN
      · have hM' := loops_bounds hM
        have hN' := loops_bounds hN
        omega
      · have hM' := loops_bounds hM
        simp only [CfLoop.after] at hM' hhi ⊢
        omega
      · have hM' := loops_bounds hM
        have hN' := loops_bounds hN
        simp only [CfLoop.after] at hM' hN' hlo hhi
        omega
      · exact ih hM hN

/-- A loop is left to the block after it, or to the end of the function. -/
theorem loop_left {l : CfList ι κ} {i stop : ℕ} {T : Targets} {N : CfLoop ι κ}
    (hN : N ∈ l.loops i) {e : ℕ × ℕ} (he : e ∈ l.edges i T) (hstop : T.ret = stop)
    (h : N.Contains e.1) :
  e.2 = N.after ∨ e.2 = stop ∨ N.Contains e.2
  := by
  obtain ⟨hlo, hhi⟩ := h
  have hlow := (loops_bounds hN).1
  induction l generalizing i T with
  | block b => exact absurd hN List.not_mem_nil
  | nif b c t e' rest iht ihe ih =>
      simp only [edges, List.mem_append] at he
      simp only [loops, List.mem_append] at hN
      rcases he with ((he | he) | he) | he
      · obtain ⟨c, -, rfl⟩ := List.mem_map.mp he
        exact absurd hlo (Nat.not_lt.mpr hlow)
      all_goals have he' := (mem_edges he).1
      all_goals rcases hN with (hN | hN) | hN
      all_goals have hN' := loops_bounds hN
      all_goals first
        | exact iht hN he hstop hN'.1
        | exact ihe hN he hstop hN'.1
        | exact ih hN he hstop hN'.1
        | omega
  | loop b body rest ihbody ih =>
      simp only [edges, List.mem_append] at he
      simp only [loops, List.mem_cons, List.mem_append] at hN
      rcases he with (he | he) | he
      · obtain ⟨c, -, rfl⟩ := List.mem_map.mp he
        exact absurd hlo (Nat.not_lt.mpr hlow)
      · rcases hN with rfl | hN | hN
        · obtain ⟨-, (hfol | hbrk | hcont | hret) | hin⟩ := mem_edges he
          · right
            right
            have hbody := body.numBlocks_pos
            simp only [CfLoop.Contains, CfLoop.after] at hfol ⊢
            omega
          · exact Or.inl hbrk
          · right
            right
            have hbody := body.numBlocks_pos
            simp only [CfLoop.Contains, CfLoop.after] at hcont ⊢
            omega
          · exact Or.inr (Or.inl (hret.trans hstop))
          · right
            right
            simp only [CfLoop.Contains, CfLoop.after]
            omega
        · exact ihbody hN he hstop (loops_bounds hN).1
        · have he' := (mem_edges he).1
          have hN' := loops_bounds hN
          omega
      · have he' := (mem_edges he).1
        rcases hN with rfl | hN | hN
        · simp only [CfLoop.after] at hhi
          omega
        · have hN' := loops_bounds hN
          omega
        · exact ih hN he hstop (loops_bounds hN).1

/-! ### The innermost loop -/

/-- The blocks are visited in their order. -/
theorem visits_fst (l : CfList ι κ) (i : ℕ) (L : CfLoop ι κ) :
  (l.visits i L).map Prod.fst = List.range' i l.numBlocks
  := by
  induction l generalizing i L with
  | block b => rfl
  | nif b c t e rest iht ihe ih =>
      simp only [visits, numBlocks, List.map_cons, List.map_append, iht, ihe, ih]
      rw [List.range'_append_1, Nat.add_assoc (i + 1), List.range'_append_1, Nat.add_assoc 1,
        Nat.add_assoc 1, Nat.add_comm 1, List.range'_succ]
  | loop b body rest ihbody ih =>
      simp only [visits, numBlocks, List.map_cons, List.map_append, ihbody, ih]
      rw [List.range'_append_1, Nat.add_assoc 1, Nat.add_comm 1, List.range'_succ]

theorem visits_bounds {l : CfList ι κ} {i b : ℕ} {L M : CfLoop ι κ} (h : (b, M) ∈ l.visits i L) :
  i ≤ b ∧ b < i + l.numBlocks
  := by
  have hmem := List.mem_map_of_mem (f := Prod.fst) h
  rw [visits_fst, List.mem_range'_1] at hmem
  exact hmem

theorem visits_loop {l : CfList ι κ} {i b : ℕ} {L M : CfLoop ι κ} (h : (b, M) ∈ l.visits i L) :
  M = L ∨ M ∈ l.loops i ∧ M.Contains b
  := by
  induction l generalizing i L with
  | block _ =>
      left
      simpa [visits] using (Prod.mk.inj (List.mem_singleton.mp h)).2
  | nif _ c t e rest iht ihe ih =>
      simp only [visits, List.mem_cons, List.mem_append] at h
      simp only [loops, List.mem_append]
      rcases h with h | (h | h) | h
      · exact Or.inl (Prod.mk.inj h).2
      · exact (iht h).imp_right (fun hM => ⟨Or.inl (Or.inl hM.1), hM.2⟩)
      · exact (ihe h).imp_right (fun hM => ⟨Or.inl (Or.inr hM.1), hM.2⟩)
      · exact (ih h).imp_right (fun hM => ⟨Or.inr hM.1, hM.2⟩)
  | loop _ body rest ihbody ih =>
      simp only [visits, List.mem_cons, List.mem_append] at h
      simp only [loops, List.mem_cons, List.mem_append]
      rcases h with h | h | h
      · exact Or.inl (Prod.mk.inj h).2
      · right
        rcases ihbody h with rfl | hM
        · refine ⟨Or.inl rfl, ?_⟩
          have hb := visits_bounds h
          simp only [CfLoop.Contains, CfLoop.after]
          omega
        · exact ⟨Or.inr (Or.inl hM.1), hM.2⟩
      · exact (ih h).imp_right (fun hM => ⟨Or.inr (Or.inr hM.1), hM.2⟩)

/-- A block that is visited in one loop and is in another one: the first one is inside the other
one. -/
theorem visits_inside {l : CfList ι κ} {i b : ℕ} {L M N : CfLoop ι κ} (h : (b, M) ∈ l.visits i L)
    (hN : N ∈ l.loops i) (hb : N.Contains b) :
  M = N ∨ M.Inside N
  := by
  have hlow := (loops_bounds hN).1
  obtain ⟨hlo, hhi⟩ := hb
  induction l generalizing i L with
  | block _ => exact absurd hN List.not_mem_nil
  | nif _ c t e rest iht ihe ih =>
      simp only [visits, List.mem_cons, List.mem_append] at h
      simp only [loops, List.mem_append] at hN
      rcases h with h | (h | h) | h
      · obtain rfl : b = i := (Prod.mk.inj h).1
        exact absurd hlo (Nat.not_lt.mpr hlow)
      all_goals have hb' := visits_bounds h
      all_goals rcases hN with (hN | hN) | hN
      all_goals have hN' := loops_bounds hN
      all_goals first
        | exact iht h hN hN'.1
        | exact ihe h hN hN'.1
        | exact ih h hN hN'.1
        | omega
  | loop _ body rest ihbody ih =>
      simp only [visits, List.mem_cons, List.mem_append] at h
      simp only [loops, List.mem_cons, List.mem_append] at hN
      rcases h with h | h | h
      · obtain rfl : b = i := (Prod.mk.inj h).1
        exact absurd hlo (Nat.not_lt.mpr hlow)
      · have hb' := visits_bounds h
        rcases hN with rfl | hN | hN
        · rcases visits_loop h with rfl | ⟨hM, -⟩
          · exact Or.inl rfl
          · right
            have hM' := loops_bounds hM
            simp only [CfLoop.Inside]
            refine ⟨by omega, ?_⟩
            rw [CfLoop.after]
            exact hM'.2
        · exact ihbody h hN (loops_bounds hN).1
        · have hN' := loops_bounds hN
          omega
      · have hb' := visits_bounds h
        rcases hN with rfl | hN | hN
        · simp only [CfLoop.after] at hhi
          omega
        · have hN' := loops_bounds hN
          omega
        · exact ih h hN (loops_bounds hN).1

end CfList

/-! ### The loops of a function -/

namespace FunctionImpl

variable {impl : FunctionImpl ι κ}

theorem loop_after_lt {N : CfLoop ι κ} (hN : N ∈ impl.body.loops 0) :
  N.after < impl.numBlocks
  := by
  have h := (CfList.loops_bounds hN).2
  rw [Nat.zero_add] at h
  exact h

/-- A loop is left to the block after it. -/
theorem loop_leftAt {N : CfLoop ι κ} (hN : N ∈ impl.body.loops 0) :
  LeftAt impl.Edge {b | N.Contains b} N.after impl.numBlocks
  := by
  refine ⟨?_, fun c hedge => absurd hedge.lt (Nat.lt_irrefl _), fun h => Nat.lt_irrefl _ h.2⟩
  intro b c hedge hb hc
  rcases CfList.loop_left hN (impl.mem_predecessors.mp hedge) rfl hb with heq | heq | hin
  · exact Or.inl heq
  · exact Or.inr heq
  · exact absurd hin hc

end FunctionImpl

end Nir
