import Mathlib.Data.List.Nodup
import Mesa.Nir.ToLcssa

/-!
# One def leaves a loop

What `convert_loop_exit_for_ssa` does to a function in SSA form when a def of a loop is used outside:
where the instructions are afterwards, which uses there are, and when the new phi makes a valid
function.
-/

namespace Nir

open Flow

namespace Lcssa

variable {ι : Type}

/-! ### Places -/

section Places

variable {L : Loop} {f : Function ι} {d : ℕ}

@[simp] theorem convert_impl (L : Loop) (f : Function ι) (d : ℕ) :
  (convertLoopExitForSsa L f d).impl = f.impl
  := by
  unfold convertLoopExitForSsa
  split <;> rfl

theorem ssaAlloc_le_convert (L : Loop) (f : Function ι) (d : ℕ) :
  f.ssaAlloc ≤ (convertLoopExitForSsa L f d).ssaAlloc
  := by
  unfold convertLoopExitForSsa
  split
  · exact Nat.le_succ _
  · exact Nat.le_refl _

theorem convert_of_not (h : ¬usedOutside L f d = true) :
  convertLoopExitForSsa L f d = f
  := by
  unfold convertLoopExitForSsa
  rw [if_neg h]

@[simp] theorem isPhi_rewriteOutside (L : Loop) (d new b : ℕ) (i : Instr ι) :
  (rewriteOutside L d new b i).isPhi = i.isPhi
  := by
  unfold rewriteOutside
  split <;> simp

@[simp] theorem dests_rewriteOutside (L : Loop) (d new b : ℕ) (i : Instr ι) :
  (rewriteOutside L d new b i).dests = i.dests
  := by
  unfold rewriteOutside
  split <;> simp

/-- The phi that a def gets right after a loop. -/
def exitPhi (L : Loop) (f : Function ι) (d : ℕ) : Instr ι :=
  .phi f.ssaAlloc ((f.impl.predecessors L.after).map (·, d))

/-- Where a place of a function is when the block after the loop has one more instruction. -/
def shift (L : Loop) (p : ℕ × ℕ) : ℕ × ℕ := (p.1, if p.1 = L.after then p.2 + 1 else p.2)

theorem shift_fst (L : Loop) (p : ℕ × ℕ) : (shift L p).1 = p.1 := rfl

theorem shift_lt (L : Loop) {b k k' : ℕ} :
  (shift L (b, k)).2 < (shift L (b, k')).2 ↔ k < k'
  := by
  simp only [shift]
  split_ifs <;> omega

variable (used : usedOutside L f d = true)

include used

theorem convert_ssaAlloc :
  (convertLoopExitForSsa L f d).ssaAlloc = f.ssaAlloc + 1
  := by
  unfold convertLoopExitForSsa
  rw [if_pos used]

theorem convert_cond (b : ℕ) :
  (convertLoopExitForSsa L f d).cond b =
    if f.cond b = some d ∧ ¬L.Contains b then some f.ssaAlloc else f.cond b
  := by
  unfold convertLoopExitForSsa
  rw [if_pos used]

theorem convert_instrs (b : ℕ) :
  (convertLoopExitForSsa L f d).instrs b =
    (if b = L.after then [exitPhi L f d] else []) ++
      (f.instrs b).map (rewriteOutside L d f.ssaAlloc b)
  := by
  unfold convertLoopExitForSsa
  rw [if_pos used]
  rfl

/-- The instructions afterwards are the new phi and those there were. -/
theorem at_convert {p : ℕ × ℕ} {i : Instr ι} :
  (convertLoopExitForSsa L f d).At p i ↔ p = (L.after, 0) ∧ i = exitPhi L f d ∨
    ∃ q j, p = shift L q ∧ f.At q j ∧ i = rewriteOutside L d f.ssaAlloc q.1 j
  := by
  obtain ⟨b, k⟩ := p
  have hold : ∀ k, ((f.instrs b).map (rewriteOutside L d f.ssaAlloc b))[k]? = some i ↔
      ∃ j, f.At (b, k) j ∧ i = rewriteOutside L d f.ssaAlloc b j := by
    intro k
    rw [List.getElem?_map, Option.map_eq_some_iff]
    exact exists_congr fun j => and_congr_right fun _ => eq_comm
  unfold Function.At
  simp only [convert_instrs used]
  by_cases hb : b = L.after
  case pos =>
    rw [if_pos hb, List.singleton_append]
    cases k with
    | zero =>
        rw [List.getElem?_cons_zero, Option.some.injEq]
        constructor
        · rintro rfl
          exact Or.inl ⟨by rw [hb], rfl⟩
        · rintro (⟨-, rfl⟩ | ⟨q, j, hq, -⟩)
          · rfl
          · simp only [shift, Prod.mk.injEq] at hq
            rw [← hq.1, if_pos hb] at hq
            exact absurd hq.2 (Nat.succ_ne_zero _).symm
    | succ k =>
        rw [List.getElem?_cons_succ, hold]
        constructor
        · rintro ⟨j, hj, rfl⟩
          refine Or.inr ⟨(b, k), j, ?_, hj, rfl⟩
          simp only [shift, if_pos hb]
        · rintro (⟨hp, -⟩ | ⟨⟨b', k'⟩, j, hq, hj, rfl⟩)
          · exact absurd (Prod.mk.inj hp).2 (Nat.succ_ne_zero _)
          · simp only [shift, Prod.mk.injEq] at hq
            obtain ⟨rfl, hq⟩ := hq
            rw [if_pos hb] at hq
            obtain rfl := Nat.succ.inj hq
            exact ⟨j, hj, rfl⟩
  case neg =>
    rw [if_neg hb, List.nil_append, hold]
    constructor
    · rintro ⟨j, hj, rfl⟩
      refine Or.inr ⟨(b, k), j, ?_, hj, rfl⟩
      simp only [shift, if_neg hb]
    · rintro (⟨hp, -⟩ | ⟨⟨b', k'⟩, j, hq, hj, rfl⟩)
      · exact absurd (Prod.mk.inj hp).1 hb
      · simp only [shift, Prod.mk.injEq] at hq
        obtain ⟨rfl, hq⟩ := hq
        rw [if_neg hb] at hq
        subst hq
        exact ⟨j, hj, rfl⟩

theorem at_exitPhi :
  (convertLoopExitForSsa L f d).At (L.after, 0) (exitPhi L f d)
  := (at_convert used).mpr (Or.inl ⟨rfl, rfl⟩)

theorem at_shift {q : ℕ × ℕ} {j : Instr ι} (h : f.At q j) :
  (convertLoopExitForSsa L f d).At (shift L q) (rewriteOutside L d f.ssaAlloc q.1 j)
  := (at_convert used).mpr (Or.inr ⟨q, j, rfl, h, rfl⟩)

theorem last_convert (b : ℕ) :
  (convertLoopExitForSsa L f d).last b = shift L (f.last b)
  := by
  have hlen : ((convertLoopExitForSsa L f d).instrs b).length =
      if b = L.after then (f.instrs b).length + 1 else (f.instrs b).length := by
    rw [convert_instrs used, List.length_append, List.length_map]
    split_ifs
    · rw [List.length_singleton, Nat.add_comm]
    · rw [List.length_nil, Nat.zero_add]
  exact Prod.ext rfl hlen

omit used in
theorem before_shift {p q : ℕ × ℕ} :
  (convertLoopExitForSsa L f d).Before (shift L p) (shift L q) ↔ f.Before p q
  := by
  unfold Function.Before Flow.Before
  rw [convert_impl]
  simp only [shift_fst]
  apply or_congr Iff.rfl
  apply and_congr_right
  intro heq
  obtain ⟨b, k⟩ := p
  obtain ⟨b', k'⟩ := q
  obtain rfl : b = b' := heq
  exact shift_lt L

/-- A def afterwards is that of the new phi, or one there was. -/
theorem dest_convert {p : ℕ × ℕ} {i : Instr ι} {x : ℕ}
    (h : (convertLoopExitForSsa L f d).At p i) (hx : x ∈ i.dests) :
  p = (L.after, 0) ∧ x = f.ssaAlloc ∨ ∃ q j, p = shift L q ∧ f.At q j ∧ x ∈ j.dests
  := by
  rcases (at_convert used).mp h with ⟨rfl, rfl⟩ | ⟨q, j, rfl, hq, rfl⟩
  · exact Or.inl ⟨rfl, List.mem_singleton.mp hx⟩
  · rw [dests_rewriteOutside] at hx
    exact Or.inr ⟨q, j, rfl, hq, hx⟩

end Places

/-! ### Uses -/

section Uses

variable {L : Loop} {f : Function ι} {d : ℕ}

theorem usedOutside_iff (h : f.WellFormed) :
  usedOutside L f d = true ↔ f.UsedOutside L d
  := by
  simp only [usedOutside, List.any_eq_true, List.mem_range, Bool.or_eq_true, isOutsideUse,
    decide_eq_true_eq]
  constructor
  · rintro ⟨b, -, ⟨i, hi, hd, hphi, hb⟩ | ⟨hcond, hb⟩⟩
    · obtain ⟨k, hk⟩ := List.getElem?_of_mem hi
      exact ⟨b, i.isPhi, Or.inl ⟨k, i, hk, hd, rfl⟩, hphi, hb⟩
    · exact ⟨b, false, Or.inr ⟨hcond, rfl⟩, fun h => Bool.false_ne_true h.1, hb⟩
  · rintro ⟨b, isPhi, ⟨k, i, hi, hd, rfl⟩ | ⟨hcond, rfl⟩, hphi, hb⟩
    · exact ⟨b, h.block_lt hi, Or.inl ⟨i, List.mem_of_getElem? hi, hd, hphi, hb⟩⟩
    · have hif := (f.isSome_cond b).mp (by rw [hcond]; rfl)
      have hlt := (CfList.ifs_bounds hif).2
      rw [Nat.zero_add] at hlt
      exact ⟨b, hlt, Or.inr ⟨hcond, hb⟩⟩

/-- A use that is rewritten. -/
theorem mem_srcs_rewriteOutside {new b x : ℕ} {i : Instr ι} :
  x ∈ (rewriteOutside L d new b i).srcs ↔
    if i.isPhi ∧ b = L.after ∨ L.Contains b then x ∈ i.srcs
    else x = new ∧ d ∈ i.srcs ∨ x ≠ d ∧ x ∈ i.srcs
  := by
  unfold rewriteOutside
  split
  · exact Iff.rfl
  · exact Instr.mem_srcs_rewriteSrcs

variable (used : usedOutside L f d = true)

include used

/-- The uses of other defs are still there. -/
theorem usedAt_convert {x b : ℕ} {isPhi : Bool} (h : f.UsedAt x b isPhi) (hne : x ≠ d) :
  (convertLoopExitForSsa L f d).UsedAt x b isPhi
  := by
  rcases h with ⟨k, i, hi, hx, rfl⟩ | ⟨hcond, rfl⟩
  · left
    refine ⟨_, _, at_shift used hi, ?_, isPhi_rewriteOutside ..⟩
    rw [mem_srcs_rewriteOutside]
    split
    · exact hx
    · exact Or.inr ⟨hne, hx⟩
  · right
    rw [convert_cond used, if_neg]
    · exact ⟨hcond, rfl⟩
    · rw [hcond]
      exact fun h => hne (Option.some.inj h.1)

/-- The uses of the def that are outside of the loop use the new phi. -/
theorem usedAt_convert_new {b : ℕ} {isPhi : Bool} (h : f.UsedAt d b isPhi)
    (hphi : ¬(isPhi = true ∧ b = L.after)) (hb : ¬L.Contains b) :
  (convertLoopExitForSsa L f d).UsedAt f.ssaAlloc b isPhi
  := by
  rcases h with ⟨k, i, hi, hd, rfl⟩ | ⟨hcond, rfl⟩
  · left
    refine ⟨_, _, at_shift used hi, ?_, isPhi_rewriteOutside ..⟩
    rw [mem_srcs_rewriteOutside, if_neg (not_or.mpr ⟨hphi, hb⟩)]
    exact Or.inl ⟨rfl, hd⟩
  · right
    rw [convert_cond used, if_pos ⟨hcond, hb⟩]
    exact ⟨rfl, rfl⟩

/-- Where the uses afterwards come from. -/
theorem usedAt_of_convert {x b : ℕ} {isPhi : Bool}
    (h : (convertLoopExitForSsa L f d).UsedAt x b isPhi) :
  x = f.ssaAlloc ∧ f.UsedAt d b isPhi ∧ ¬(isPhi = true ∧ b = L.after) ∧ ¬L.Contains b ∨
  f.UsedAt x b isPhi ∧ (x = d → isPhi = true ∧ b = L.after ∨ L.Contains b) ∨
  x = d ∧ b = L.after ∧ isPhi = true
  := by
  rcases h with ⟨k, i, hi, hx, rfl⟩ | ⟨hcond, rfl⟩
  · rcases (at_convert used).mp hi with ⟨hp, rfl⟩ | ⟨⟨b', k'⟩, j, hp, hj, rfl⟩
    · right
      right
      simp only [exitPhi, Instr.srcs, List.map_map, List.mem_map] at hx
      obtain ⟨a, -, rfl⟩ := hx
      exact ⟨rfl, (Prod.mk.inj hp).1, rfl⟩
    · obtain rfl : b = b' := (Prod.mk.inj hp).1
      rw [mem_srcs_rewriteOutside] at hx
      rw [isPhi_rewriteOutside]
      split at hx
      · rename_i hin
        right
        left
        exact ⟨Or.inl ⟨k', j, hj, hx, rfl⟩, fun _ => hin⟩
      · rename_i hout
        rw [not_or] at hout
        rcases hx with ⟨rfl, hd⟩ | ⟨hne, hx⟩
        · left
          exact ⟨rfl, Or.inl ⟨k', j, hj, hd, rfl⟩, hout⟩
        · right
          left
          exact ⟨Or.inl ⟨k', j, hj, hx, rfl⟩, fun heq => absurd heq hne⟩
  · rw [convert_cond used] at hcond
    split at hcond
    · rename_i hin
      left
      exact ⟨(Option.some.inj hcond).symm, Or.inr ⟨hin.1, rfl⟩, fun h => Bool.false_ne_true h.1,
        hin.2⟩
    · rename_i hnot
      right
      left
      refine ⟨Or.inr ⟨hcond, rfl⟩, ?_⟩
      rintro rfl
      right
      by_contra hb
      exact hnot ⟨hcond, hb⟩

end Uses

/-! ### Validity -/

/-- A def that is made at a place in a loop of the function. -/
structure DefIn (f : Function ι) (L : Loop) (d : ℕ) (q : ℕ × ℕ) (j : Instr ι) : Prop where
  loop : L ∈ f.impl.body.loops 0
  def_at : f.At q j
  dest : d ∈ j.dests
  contains : L.Contains q.1

section Valid

variable {L : Loop} {f : Function ι} {d : ℕ} {q₀ : ℕ × ℕ} {j₀ : Instr ι}

theorem WellFormed.cond_lt {b x : ℕ} (h : f.cond b = some x) :
  b < f.impl.numBlocks
  := by
  have hif := (f.isSome_cond b).mp (by rw [h]; rfl)
  have hlt := (CfList.ifs_bounds hif).2
  rw [Nat.zero_add] at hlt
  exact hlt

theorem wellFormed_convert (h : f.WellFormed) (hd : DefIn f L d q₀ j₀) :
  (convertLoopExitForSsa L f d).WellFormed
  := by
  by_cases used : usedOutside L f d = true
  case neg =>
    rw [convert_of_not used]
    exact h
  case pos =>
    have hstill : ∀ {x}, (∃ q j, f.At q j ∧ x ∈ j.dests) →
        ∃ q j, (convertLoopExitForSsa L f d).At q j ∧ x ∈ j.dests := by
      rintro x ⟨q, j, hq, hx⟩
      exact ⟨_, _, at_shift used hq, by rw [dests_rewriteOutside]; exact hx⟩
    have hnew : ∃ q j, (convertLoopExitForSsa L f d).At q j ∧ f.ssaAlloc ∈ j.dests :=
      ⟨_, _, at_exitPhi used, List.mem_singleton_self _⟩
    constructor
    · intro p i hi
      rw [convert_impl]
      rcases (at_convert used).mp hi with ⟨rfl, -⟩ | ⟨q, j, rfl, hq, -⟩
      · exact FunctionImpl.loop_after_lt hd.loop
      · have hlt := h.block_lt hq
        exact hlt
    · intro p i x hi hx
      rw [convert_ssaAlloc used]
      rcases dest_convert used hi hx with ⟨-, rfl⟩ | ⟨q, j, -, hq, hx⟩
      · exact Nat.lt_succ_self _
      · exact (h.dest_lt hq hx).trans (Nat.lt_succ_self _)
    · intro p i hi
      rcases (at_convert used).mp hi with ⟨-, rfl⟩ | ⟨q, j, -, hq, rfl⟩
      · exact List.nodup_singleton _
      · rw [dests_rewriteOutside]
        exact h.dests_nodup hq
    · intro p q i j x hi hj hx hx'
      rcases dest_convert used hi hx with ⟨rfl, rfl⟩ | ⟨p', i', rfl, hp, hx⟩
      · rcases dest_convert used hj hx' with ⟨rfl, -⟩ | ⟨q', j', -, hq, hx'⟩
        · rfl
        · exact absurd (h.dest_lt hq hx') (Nat.lt_irrefl _)
      · rcases dest_convert used hj hx' with ⟨-, rfl⟩ | ⟨q', j', rfl, hq, hx'⟩
        · exact absurd (h.dest_lt hp hx) (Nat.lt_irrefl _)
        · rw [h.unique hp hq hx hx']
    · intro p i x hi hx
      rcases (at_convert used).mp hi with ⟨-, rfl⟩ | ⟨q, j, -, hq, rfl⟩
      · simp only [exitPhi, Instr.srcs, List.map_map, List.mem_map] at hx
        obtain ⟨a, -, rfl⟩ := hx
        exact hstill ⟨q₀, j₀, hd.def_at, hd.dest⟩
      · rw [mem_srcs_rewriteOutside] at hx
        split at hx
        · exact hstill (h.src_defined hq hx)
        · rcases hx with ⟨rfl, -⟩ | ⟨-, hx⟩
          · exact hnew
          · exact hstill (h.src_defined hq hx)
    · intro b x hcond
      rw [convert_cond used] at hcond
      split at hcond
      · rw [← Option.some.inj hcond]
        exact hnew
      · exact hstill (h.cond_defined hcond)
    · intro p dest srcs hi
      rw [convert_impl]
      rcases (at_convert used).mp hi with ⟨rfl, hphi⟩ | ⟨q, j, rfl, hq, hphi⟩
      · obtain ⟨-, rfl⟩ := Instr.phi.inj hphi
        rw [List.map_map]
        exact (List.map_id _).symm ▸ List.Perm.refl _
      · cases j with
        | op o ds ss =>
            unfold rewriteOutside at hphi
            split at hphi <;> cases hphi
        | phi dest' srcs' =>
            have hfst : srcs.map Prod.fst = srcs'.map Prod.fst := by
              unfold rewriteOutside at hphi
              split at hphi
              · rw [(Instr.phi.inj hphi).2]
              · rw [(Instr.phi.inj hphi).2, List.map_map]
                rfl
            have hpreds := h.phi_preds hq
            rw [hfst]
            exact hpreds
    · intro b k i hi hphi k' hlt
      rcases (at_convert used).mp hi with ⟨hp, -⟩ | ⟨⟨b', m⟩, j, hp, hq, rfl⟩
      · rw [(Prod.mk.inj hp).2] at hlt
        exact absurd hlt (Nat.not_lt_zero _)
      · rw [isPhi_rewriteOutside] at hphi
        obtain ⟨rfl, hm⟩ := Prod.mk.inj hp
        -- the place is the one of the new phi, or that of a phi there was
        by_cases hb : b = L.after
        case pos =>
          cases k' with
          | zero =>
              refine ⟨exitPhi L f d, ?_, rfl⟩
              rw [hb]
              exact at_exitPhi used
          | succ k' =>
              simp only [if_pos hb] at hm
              obtain ⟨i', hi', hphi'⟩ := h.phis_first hq hphi k' (by omega)
              have hnext := at_shift used hi'
              simp only [shift, if_pos hb] at hnext
              exact ⟨_, hnext, by rw [isPhi_rewriteOutside]; exact hphi'⟩
        case neg =>
          simp only [if_neg hb] at hm
          obtain ⟨i', hi', hphi'⟩ := h.phis_first hq hphi k' (by omega)
          have hnext := at_shift used hi'
          simp only [shift, if_neg hb] at hnext
          exact ⟨_, hnext, by rw [isPhi_rewriteOutside]; exact hphi'⟩

end Valid

end Lcssa

end Nir
