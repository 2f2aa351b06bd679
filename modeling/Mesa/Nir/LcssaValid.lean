import Mesa.Nir.LcssaStep

/-!
# When the new phi makes a valid function

A def that leaves a loop keeps the function valid when it is made on every way to a block that leaves
the loop: then the new phi comes after it, and what is used outside comes after the new phi.  If it is
not, the new phi has a source that does not come after the def, and no later step mends that.
-/

namespace Nir

open Flow

namespace Lcssa

variable {ι : Type} {L N : Loop} {f : Function ι} {d : ℕ} {q₀ : ℕ × ℕ} {j₀ : Instr ι}

/-! ### Dominance across the loop -/

theorem Function.Before.dom {p q : ℕ × ℕ} (h : f.Before p q) :
  f.impl.Dom p.1 q.1
  := by
  rcases h with ⟨-, hdom⟩ | ⟨heq, -⟩
  · exact hdom
  · rw [heq]
    exact Dom.refl _

/-- What is made in a block comes before the end of the blocks that it dominates. -/
theorem Function.At.before_last {q : ℕ × ℕ} {j : Instr ι} {b : ℕ} (h : f.At q j)
    (hdom : f.impl.Dom q.1 b) :
  f.Before q (f.last b)
  := by
  by_cases heq : q.1 = b
  · right
    refine ⟨heq, ?_⟩
    have hlt := (List.getElem?_eq_some_iff.mp h).1
    rw [heq] at hlt
    exact hlt
  · left
    exact ⟨heq, hdom⟩

/-- A predecessor of a block outside of a loop, other than the one after the loop, is outside. -/
theorem not_contains_pred (hL : L ∈ f.impl.body.loops 0) {b c : ℕ} (hedge : f.impl.Edge b c)
    (hc : ¬L.Contains c) (hne : c ≠ L.after) (hlt : c < f.impl.numBlocks) :
  ¬L.Contains b
  := by
  intro hb
  rcases (FunctionImpl.loop_leftAt hL).leave hedge hb hc with heq | heq
  · exact hne heq
  · exact absurd hlt (by rw [heq]; exact Nat.lt_irrefl _)

namespace DefIn

variable (hd : DefIn f L d q₀ j₀)

include hd

/-- The block after the loop dominates what the def dominates outside. -/
theorem after_dom {b : ℕ} (hdom : f.impl.Dom q₀.1 b) (hb : ¬L.Contains b)
    (hlt : b < f.impl.numBlocks) :
  f.impl.Dom L.after b
  := (FunctionImpl.loop_leftAt hd.loop).out_dom hdom hd.contains hb hlt.ne

/-- A place that comes after the def and is outside of the loop comes after the new phi. -/
theorem phi_before {p : ℕ × ℕ} (hdom : f.impl.Dom q₀.1 p.1)
    (hb : ¬L.Contains p.1) (hlt : p.1 < f.impl.numBlocks) :
  (convertLoopExitForSsa L f d).Before (L.after, 0) (shift L p)
  := by
  have hafter := hd.after_dom hdom hb hlt
  by_cases heq : L.after = p.1
  · right
    refine ⟨heq, ?_⟩
    simp only [shift, if_pos heq.symm]
    exact Nat.succ_pos _
  · left
    refine ⟨heq, ?_⟩
    rw [convert_impl]
    exact hafter

end DefIn

/-! ### A step to a valid function -/

theorem valid_convert (h : f.Valid) (hd : DefIn f L d q₀ j₀)
    (available : f.UsedOutside L d → ∀ b ∈ f.impl.predecessors L.after, f.impl.Dom q₀.1 b) :
  (convertLoopExitForSsa L f d).Valid
  := by
  by_cases used : usedOutside L f d = true
  case neg =>
    rw [convert_of_not used]
    exact h
  case pos =>
    have houtside := (usedOutside_iff h.toWellFormed).mp used
    -- the new phi is the only def of the new index
    have hnew : ∀ {q j}, (convertLoopExitForSsa L f d).At q j → f.ssaAlloc ∈ j.dests →
        q = (L.after, 0) := by
      intro q j hq hx
      rcases dest_convert used hq hx with ⟨hq, -⟩ | ⟨q', j', -, hq', hx⟩
      · exact hq
      · exact absurd (h.dest_lt hq' hx) (Nat.lt_irrefl _)
    have hold : ∀ {q j x}, (convertLoopExitForSsa L f d).At q j → x ∈ j.dests →
        (∃ q j, f.At q j ∧ x ∈ j.dests) → ∃ q' j', q = shift L q' ∧ f.At q' j' ∧ x ∈ j'.dests := by
      rintro q j x hq hx ⟨q', j', hq', hx'⟩
      rcases dest_convert used hq hx with ⟨-, rfl⟩ | hshift
      · exact absurd (h.dest_lt hq' hx') (Nat.lt_irrefl _)
      · exact hshift
    have hfirst : ∀ {q j}, f.At q j → d ∈ j.dests → q = q₀ :=
      fun hq hx => h.unique hq hd.def_at hx hd.dest
    refine ⟨wellFormed_convert h.toWellFormed hd, ?_, ?_, ?_⟩
    · intro p o ds ss x q j hi hx hq hxj
      rcases (at_convert used).mp hi with ⟨-, hop⟩ | ⟨⟨b, k⟩, i, rfl, hi', hop⟩
      · cases hop
      · cases i with
        | phi dest srcs =>
            unfold rewriteOutside at hop
            split at hop <;> cases hop
        | op o' ds' ss' =>
            have hsrcs : x ∈ (rewriteOutside L d f.ssaAlloc b (.op o' ds' ss')).srcs := by
              rw [← hop]
              exact hx
            rw [mem_srcs_rewriteOutside] at hsrcs
            have hbefore : x ∈ ss' → (convertLoopExitForSsa L f d).Before q (shift L (b, k)) := by
              intro hx'
              obtain ⟨q', j', rfl, hq', hx''⟩ := hold hq hxj (h.src_defined hi' hx')
              exact before_shift.mpr (h.src_before hi' hx' hq' hx'')
            split at hsrcs
            · exact hbefore hsrcs
            · rename_i hout
              rcases hsrcs with ⟨rfl, hds⟩ | ⟨-, hx'⟩
              · rw [hnew hq hxj]
                have hdom := (h.src_before hi' hds hd.def_at hd.dest).dom
                exact hd.phi_before hdom (fun hb => hout (Or.inr hb)) (h.block_lt hi')
              · exact hbefore hx'
    · intro p dest srcs src q j hi hsrc hq hx
      rcases (at_convert used).mp hi with ⟨rfl, hphi⟩ | ⟨⟨b, k⟩, i, rfl, hi', hphi⟩
      · -- a source of the new phi
        obtain ⟨-, rfl⟩ := Instr.phi.inj hphi
        obtain ⟨a, ha, rfl⟩ := List.mem_map.mp hsrc
        obtain ⟨q', j', rfl, hq', hx'⟩ := hold hq hx ⟨q₀, j₀, hd.def_at, hd.dest⟩
        obtain rfl := hfirst hq' hx'
        rw [last_convert used, before_shift]
        exact hd.def_at.before_last (available houtside a ha)
      · cases i with
        | op o ds ss =>
            unfold rewriteOutside at hphi
            split at hphi <;> cases hphi
        | phi dest' srcs' =>
            have hbefore : ∀ {src'}, src' ∈ srcs' → src'.2 ∈ j.dests →
                (convertLoopExitForSsa L f d).Before q
                  ((convertLoopExitForSsa L f d).last src'.1) := by
              intro src' hsrc' hx'
              obtain ⟨q', j', rfl, hq', hx''⟩ :=
                hold hq hx' (h.src_defined hi' (List.mem_map_of_mem hsrc'))
              rw [last_convert used, before_shift]
              exact h.phi_before hi' hsrc' hq' hx''
            unfold rewriteOutside at hphi
            split at hphi
            · obtain ⟨-, rfl⟩ := Instr.phi.inj hphi
              exact hbefore hsrc hx
            · rename_i hout
              rw [not_or] at hout
              obtain ⟨-, rfl⟩ := Instr.phi.inj hphi
              obtain ⟨src', hsrc', rfl⟩ := List.mem_map.mp hsrc
              by_cases heq : src'.2 = d
              · -- a source that uses the new phi now
                rw [if_pos heq] at hx
                rw [hnew hq hx, last_convert used]
                have hdom := (h.phi_before hi' hsrc' hd.def_at (by rw [heq]; exact hd.dest)).dom
                have hpred : f.impl.Edge src'.1 b :=
                  (h.phi_preds hi').mem_iff.mp (List.mem_map_of_mem hsrc')
                have hb : b ≠ L.after := fun hb => hout.1 ⟨rfl, hb⟩
                exact hd.phi_before hdom
                  (not_contains_pred hd.loop hpred hout.2 hb (h.block_lt hi')) hpred.lt
              · rw [if_neg heq] at hx
                have hlast := hbefore hsrc' hx
                exact hlast
    · intro b x q j hcond hq hx
      rw [convert_cond used] at hcond
      rw [last_convert used]
      split at hcond
      · rename_i hin
        obtain rfl := Option.some.inj hcond
        rw [hnew hq hx]
        have hdom := (h.cond_before hin.1 hd.def_at hd.dest).dom
        exact hd.phi_before hdom hin.2 (WellFormed.cond_lt hin.1)
      · obtain ⟨q', j', rfl, hq', hx'⟩ := hold hq hx (h.cond_defined hcond)
        exact before_shift.mpr (h.cond_before hcond hq' hx')

/-! ### Defs that are not made on every way out -/

/-- A phi has a source that is not made on every way to the end of its block. -/
def Function.HasEarlySource (f : Function ι) : Prop :=
  ∃ p dest srcs src q j, f.At p (.phi dest srcs) ∧ src ∈ srcs ∧ f.At q j ∧ src.2 ∈ j.dests ∧
    ¬f.impl.Dom q.1 src.1

theorem Function.Valid.not_hasEarlySource (h : f.Valid) :
  ¬f.HasEarlySource
  := by
  rintro ⟨p, dest, srcs, src, q, j, hp, hsrc, hq, hx, hdom⟩
  exact hdom (h.phi_before hp hsrc hq hx).dom

section Exits

variable {loops : List Loop}

/-- A predecessor of the block after a loop is not in a loop inside. -/
theorem not_contains_pred_of_inside (hL : L ∈ f.impl.body.loops 0) (hN : N ∈ f.impl.body.loops 0)
    (hin : L.Inside N) {b : ℕ} (hedge : f.impl.Edge b N.after) :
  ¬L.Contains b
  := by
  have hlt := hin.2
  apply not_contains_pred hL hedge
  · rintro ⟨-, hafter⟩
    omega
  · omega
  · exact FunctionImpl.loop_after_lt hN

/-- What is used outside of a loop is used outside of the loops inside. -/
theorem Function.UsedOutside.inside {x : ℕ} (h : f.UsedOutside N x) (hin : L.Inside N) :
  f.UsedOutside L x
  := by
  obtain ⟨b, isPhi, huse, hphi, hb⟩ := h
  refine ⟨b, isPhi, huse, ?_, fun hc => hb (hin.contains hc)⟩
  rintro ⟨-, rfl⟩
  exact hb hin.contains_after

variable (hd : DefIn f L d q₀ j₀) (hloops : ∀ N ∈ loops, N ∈ f.impl.body.loops 0)
  (innermost : ∀ N ∈ loops, N.Contains q₀.1 → L = N ∨ L.Inside N)

include hd hloops innermost

omit hloops in
/-- A use outside of a loop of a def that was there before the step. -/
theorem usedOutside_of_convert (h : f.WellFormed) (used : usedOutside L f d = true)
    (hN : N ∈ loops) {q : ℕ × ℕ} {j : Instr ι} {x : ℕ} (hq : f.At q j) (hx : x ∈ j.dests)
    (hc : N.Contains q.1) (hout : (convertLoopExitForSsa L f d).UsedOutside N x) :
  f.UsedOutside N x ∧ (x = d → L ≠ N)
  := by
  obtain ⟨b, isPhi, huse, hphi, hb⟩ := hout
  rcases usedAt_of_convert used huse with ⟨rfl, -⟩ | ⟨huse, hkeep⟩ | ⟨rfl, rfl, rfl⟩
  · exact absurd (h.dest_lt hq hx) (Nat.lt_irrefl _)
  · refine ⟨⟨b, isPhi, huse, hphi, hb⟩, ?_⟩
    rintro rfl rfl
    rcases hkeep rfl with hkeep | hkeep
    · exact hphi hkeep
    · exact hb hkeep
  · -- the sources of the new phi are inside the loops around
    obtain rfl := h.unique hq hd.def_at hx hd.dest
    rcases innermost N hN hc with rfl | hin
    · exact absurd ⟨rfl, rfl⟩ hphi
    · exact absurd hin.contains_after hb

omit innermost in
/-- A use of the new phi outside of a loop is one of the def. -/
theorem usedOutside_new (h : f.WellFormed) (used : usedOutside L f d = true)
    (hN : N ∈ loops) (hc : N.Contains L.after)
    (hout : (convertLoopExitForSsa L f d).UsedOutside N f.ssaAlloc) :
  f.UsedOutside N d ∧ L.Inside N
  := by
  have hin : L.Inside N := CfList.loops_inside hd.loop (hloops N hN) hc
  refine ⟨?_, hin⟩
  obtain ⟨b, isPhi, huse, hphi, hb⟩ := hout
  have hfresh : ∀ isPhi, ¬f.UsedAt f.ssaAlloc b isPhi := by
    intro isPhi huse
    have hdef : ∃ q j, f.At q j ∧ f.ssaAlloc ∈ j.dests := by
      rcases huse with ⟨k, i, hi, hx, -⟩ | ⟨hcond, -⟩
      · exact h.src_defined hi hx
      · exact h.cond_defined hcond
    obtain ⟨q, j, hq, hx⟩ := hdef
    exact absurd (h.dest_lt hq hx) (Nat.lt_irrefl _)
  rcases usedAt_of_convert used huse with ⟨-, huse, -⟩ | ⟨huse, -⟩ | ⟨heq, -⟩
  · exact ⟨b, isPhi, huse, hphi, hb⟩
  · exact absurd huse (hfresh isPhi)
  · exact absurd (h.dest_lt hd.def_at (heq ▸ hd.dest)) (Nat.lt_irrefl _)

/-- When the defs are made on every way out, they still are after the step. -/
theorem available_convert (h : f.Valid) (available : f.AvailableAtExits loops) :
  (convertLoopExitForSsa L f d).AvailableAtExits loops
  := by
  by_cases used : usedOutside L f d = true
  case neg =>
    rw [convert_of_not used]
    exact available
  case pos =>
    intro N hN q j x hq hx hc hout b hb
    rw [convert_impl] at hb ⊢
    rcases dest_convert used hq hx with ⟨rfl, rfl⟩ | ⟨q', j', rfl, hq', hx'⟩
    · obtain ⟨hout, hin⟩ := usedOutside_new hd hloops h.toWellFormed used hN hc hout
      have hdom := available N hN q₀ j₀ d hd.def_at hd.dest (hin.contains hd.contains) hout b hb
      exact hd.after_dom hdom (not_contains_pred_of_inside hd.loop (hloops N hN) hin hb)
        (FunctionImpl.Edge.lt hb)
    · have hout' := (usedOutside_of_convert hd innermost h.toWellFormed used hN hq' hx' hc hout).1
      exact available N hN q' j' x hq' hx' hc hout' b hb

omit hloops innermost in
/-- What does not dominate a block outside that the new phi dominates does not dominate a source of
the new phi. -/
theorem hasEarlySource_of_dom (used : usedOutside L f d = true) {b : ℕ}
    (hdom : ¬f.impl.Dom q₀.1 b) (hafter : f.impl.Dom L.after b) :
  (convertLoopExitForSsa L f d).HasEarlySource
  := by
  have hne : L.after ≠ 0 := by
    simp only [CfLoop.after]
    omega
  obtain ⟨a, hedge, ha⟩ := not_dom_pred hafter hdom hne
  refine ⟨_, _, _, (a, d), _, _, at_exitPhi used, List.mem_map_of_mem hedge,
    at_shift used hd.def_at, ?_, ?_⟩
  · rw [dests_rewriteOutside]
    exact hd.dest
  · rw [convert_impl, shift_fst]
    exact ha

omit hloops innermost in
/-- A source that is not made on every way is not mended. -/
theorem hasEarlySource_convert (early : f.HasEarlySource) (h : f.WellFormed) :
  (convertLoopExitForSsa L f d).HasEarlySource
  := by
  by_cases used : usedOutside L f d = true
  case neg =>
    rw [convert_of_not used]
    exact early
  case pos =>
    obtain ⟨⟨b, k⟩, dest, srcs, src, q, j, hp, hsrc, hq, hx, hdom⟩ := early
    have hplace := at_shift used hp
    have hdef := at_shift used hq
    rw [← dests_rewriteOutside L d f.ssaAlloc q.1 j] at hx
    have hdom' : ¬(convertLoopExitForSsa L f d).impl.Dom (shift L q).1 src.1 := by
      rw [convert_impl]
      exact hdom
    unfold rewriteOutside at hplace
    split at hplace
    · exact ⟨_, _, _, src, _, _, hplace, hsrc, hdef, hx, hdom'⟩
    · have hmem := List.mem_map_of_mem
        (f := fun src : ℕ × ℕ => (src.1, if src.2 = d then f.ssaAlloc else src.2)) hsrc
      by_cases heq : src.2 = d
      case neg =>
        rw [if_neg heq] at hmem
        exact ⟨_, _, _, _, _, _, hplace, hmem, hdef, hx, hdom'⟩
      case pos =>
        rw [if_pos heq] at hmem
        rw [dests_rewriteOutside, heq] at hx
        obtain rfl := h.unique hq hd.def_at hx hd.dest
        by_cases hafter : f.impl.Dom L.after src.1
        · exact hasEarlySource_of_dom hd used hdom hafter
        · refine ⟨_, _, _, _, _, _, hplace, hmem, at_exitPhi used, List.mem_singleton_self _, ?_⟩
          rw [convert_impl]
          exact hafter

omit hloops in
/-- When a def is not made on every way out, that is still so after the step, or the new phi has a
source that is not made on every way. -/
theorem not_available_convert (h : f.WellFormed) (not : ¬f.AvailableAtExits loops) :
  ¬(convertLoopExitForSsa L f d).AvailableAtExits loops ∨
    (convertLoopExitForSsa L f d).HasEarlySource
  := by
  by_cases used : usedOutside L f d = true
  case neg =>
    rw [convert_of_not used]
    exact Or.inl not
  case pos =>
    unfold Function.AvailableAtExits at not
    push Not at not
    obtain ⟨N, hN, q, j, x, hq, hx, hc, ⟨b, isPhi, huse, hphi, hb⟩, a, ha, hdom⟩ := not
    by_cases heq : x = d
    case neg =>
      left
      intro available
      apply hdom
      have hnext := available N hN (shift L q) _ x (at_shift used hq)
        (by rw [dests_rewriteOutside]; exact hx) hc
        ⟨b, isPhi, usedAt_convert used huse heq, hphi, hb⟩ a
        (by rw [convert_impl]; exact ha)
      rw [convert_impl] at hnext
      exact hnext
    case pos =>
      subst heq
      obtain rfl := h.unique hq hd.def_at hx hd.dest
      rcases innermost N hN hc with rfl | hin
      · right
        refine ⟨_, _, _, (a, x), _, _, at_exitPhi used, List.mem_map_of_mem ha,
          at_shift used hq, ?_, ?_⟩
        · rw [dests_rewriteOutside]
          exact hx
        · rw [convert_impl]
          exact hdom
      · by_cases hafter : f.impl.Dom L.after a
        · exact Or.inr (hasEarlySource_of_dom hd used hdom hafter)
        · left
          intro available
          apply hafter
          have hb' : ¬L.Contains b := fun hcb => hb (hin.contains hcb)
          have hphi' : ¬(isPhi = true ∧ b = L.after) := by
            rintro ⟨-, rfl⟩
            exact hb hin.contains_after
          have hnext := available N hN (L.after, 0) _ f.ssaAlloc (at_exitPhi used)
            (List.mem_singleton_self _) hin.contains_after
            ⟨b, isPhi, usedAt_convert_new used huse hphi' hb', hphi, hb⟩ a
            (by rw [convert_impl]; exact ha)
          rw [convert_impl] at hnext
          exact hnext

end Exits

end Lcssa

end Nir
