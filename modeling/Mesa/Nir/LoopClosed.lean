import Mathlib.Data.List.Dedup
import Mesa.Nir.LcssaRuns
import Mesa.Nir.LcssaValid

/-!
# Loops that are closed

The defs of a loop and of those inside are converted in the order of their blocks, each for the
innermost loop around it.  A phi that is made on the way is in a block that comes later, so that in
the end no def is used outside of a loop around it.
-/

namespace Nir

open Flow

namespace Lcssa

variable {ι : Type}

/-! ### Steps -/

/-- What the steps keep: the function does the same, and it stays valid if and only if the defs are
made on every way out of the loops. -/
structure Progress (loops : List Loop) (f₀ f : Function ι) : Prop where
  impl : f.impl = f₀.impl
  wellFormed : f.WellFormed
  le : f₀.ssaAlloc ≤ f.ssaAlloc
  runs : SameRuns f₀ f
  valid : f₀.AvailableAtExits loops → f.Valid ∧ f.AvailableAtExits loops
  invalid : ¬f₀.AvailableAtExits loops → ¬f.AvailableAtExits loops ∨ f.HasEarlySource

theorem Progress.refl {loops : List Loop} {f : Function ι} (h : f.Valid) :
  Progress loops f f
  := ⟨rfl, h.toWellFormed, Nat.le_refl _, .refl f, fun available => ⟨h, available⟩, Or.inl⟩

section Steps

variable {loops : List Loop} {L : Loop} {f₀ f : Function ι}

/-- A loop of those that are closed, in which it is the innermost one around a block. -/
structure Innermost (loops : List Loop) (f : Function ι) (b : ℕ) (L : Loop) : Prop where
  mem : L ∈ loops
  loops_mem : ∀ N ∈ loops, N ∈ f.impl.body.loops 0
  contains : L.Contains b
  innermost : ∀ N ∈ loops, N.Contains b → L = N ∨ L.Inside N

theorem Progress.step (hp : Progress loops f₀ f) {d : ℕ} {q : ℕ × ℕ} {j : Instr ι}
    (hL : Innermost loops f q.1 L) (hq : f.At q j) (hx : d ∈ j.dests) :
  Progress loops f₀ (convertLoopExitForSsa L f d)
  := by
  have hd : DefIn f L d q j := ⟨hL.loops_mem L hL.mem, hq, hx, hL.contains⟩
  refine ⟨?_, wellFormed_convert hp.wellFormed hd, hp.le.trans (ssaAlloc_le_convert L f d),
    hp.runs.trans (sameRuns_convert hp.wellFormed hd) hp.le, ?_, ?_⟩
  · rw [convert_impl, hp.impl]
  · intro available
    obtain ⟨hvalid, hexits⟩ := hp.valid available
    refine ⟨valid_convert hvalid hd ?_,
      available_convert hd hL.loops_mem hL.innermost hvalid hexits⟩
    exact hexits L hL.mem q j d hq hx hL.contains
  · intro not
    rcases hp.invalid not with hnot | early
    · exact not_available_convert hd hL.innermost hp.wellFormed hnot
    · exact Or.inr (hasEarlySource_convert hd early hp.wellFormed)

/-- The defs that are made in a block. -/
def blockDests (f : Function ι) (b : ℕ) : List ℕ := (f.instrs b).flatMap Instr.dests

theorem mem_blockDests {b x : ℕ} :
  x ∈ blockDests f b ↔ ∃ k j, f.At (b, k) j ∧ x ∈ j.dests
  := by
  unfold blockDests
  rw [List.mem_flatMap]
  constructor
  · rintro ⟨i, hi, hx⟩
    obtain ⟨k, hk⟩ := List.getElem?_of_mem hi
    exact ⟨k, i, hk, hx⟩
  · rintro ⟨k, i, hk, hx⟩
    exact ⟨i, List.mem_of_getElem? hk, hx⟩

theorem blockDests_lt (h : f.WellFormed) {b x : ℕ} (hx : x ∈ blockDests f b) :
  x < f.ssaAlloc
  := by
  obtain ⟨k, j, hk, hx⟩ := mem_blockDests.mp hx
  exact h.dest_lt hk hx

/-- A step adds defs to the block after the loop only. -/
theorem blockDests_convert (d : ℕ) {c : ℕ} (hc : c ≠ L.after) :
  blockDests (convertLoopExitForSsa L f d) c = blockDests f c
  := by
  by_cases used : usedOutside L f d = true
  case neg => rw [convert_of_not used]
  case pos =>
    unfold blockDests
    rw [convert_instrs used, if_neg hc, List.nil_append, List.flatMap_map]
    simp only [dests_rewriteOutside]

/-- What is not used outside of a loop still is not after a step. -/
theorem not_usedOutside_convert {d x : ℕ} {N : Loop} (hx : x < f.ssaAlloc)
    (not : ¬f.UsedOutside N x) (same : x = d → N = L) :
  ¬(convertLoopExitForSsa L f d).UsedOutside N x
  := by
  by_cases used : usedOutside L f d = true
  case neg =>
    rw [convert_of_not used]
    exact not
  case pos =>
    rintro ⟨b, isPhi, huse, hphi, hb⟩
    rcases usedAt_of_convert used huse with ⟨rfl, -⟩ | ⟨huse, -⟩ | ⟨heq, rfl, rfl⟩
    · exact Nat.lt_irrefl _ hx
    · exact not ⟨b, isPhi, huse, hphi, hb⟩
    · rw [same heq] at hphi
      exact hphi ⟨rfl, rfl⟩

/-- The def that is converted is not used outside any more. -/
theorem not_usedOutside_convert_self (h : f.WellFormed) {d : ℕ} (hd : d < f.ssaAlloc) :
  ¬(convertLoopExitForSsa L f d).UsedOutside L d
  := by
  by_cases used : usedOutside L f d = true
  case neg =>
    rw [convert_of_not used]
    exact fun hout => used ((usedOutside_iff h).mpr hout)
  case pos =>
    rintro ⟨b, isPhi, huse, hphi, hb⟩
    rcases usedAt_of_convert used huse with ⟨rfl, -⟩ | ⟨-, hin⟩ | ⟨-, rfl, rfl⟩
    · exact Nat.lt_irrefl _ hd
    · exact (hin rfl).elim hphi hb
    · exact hphi ⟨rfl, rfl⟩

/-! ### Blocks -/

/-- What the conversion of defs of the block `b` does, from `f` to `f'`. -/
structure Converted (L : Loop) (f f' : Function ι) (ds : List ℕ) : Prop where
  impl : f'.impl = f.impl
  dests : ∀ c, c ≠ L.after → blockDests f' c = blockDests f c
  kept : ∀ x N, x < f.ssaAlloc → ¬f.UsedOutside N x → (x ∈ ds → N = L) → ¬f'.UsedOutside N x
  closed : ∀ d ∈ ds, ¬f'.UsedOutside L d

theorem converted_foldl {b : ℕ} {ds : List ℕ} (hp : Progress loops f₀ f)
    (hL : Innermost loops f b L) (hds : ∀ d ∈ ds, d ∈ blockDests f b) :
  Progress loops f₀ (ds.foldl (convertLoopExitForSsa L) f) ∧
    Converted L f (ds.foldl (convertLoopExitForSsa L) f) ds
  := by
  induction ds generalizing f with
  | nil => exact ⟨hp, rfl, fun _ _ => rfl, fun _ _ _ not _ => not, fun d hd => by cases hd⟩
  | cons d ds ih =>
      have hd := hds d List.mem_cons_self
      have hd_lt := blockDests_lt hp.wellFormed hd
      obtain ⟨k, j, hk, hx⟩ := mem_blockDests.mp hd
      have first := hp.step hL hk hx
      have hL' : Innermost loops (convertLoopExitForSsa L f d) b L := by
        refine ⟨hL.mem, ?_, hL.contains, hL.innermost⟩
        rw [convert_impl]
        exact hL.loops_mem
      have hne : b ≠ L.after := hL.contains.2.ne
      have hds' : ∀ d' ∈ ds, d' ∈ blockDests (convertLoopExitForSsa L f d) b := by
        intro d' hd'
        rw [blockDests_convert d hne]
        exact hds d' (List.mem_cons_of_mem _ hd')
      obtain ⟨progress, himpl, hdests, hkept, hclosed⟩ := ih first hL' hds'
      have hle := ssaAlloc_le_convert L f d
      rw [List.foldl_cons]
      refine ⟨progress, himpl.trans (convert_impl L f d), ?_, ?_, ?_⟩
      · intro c hc
        rw [hdests c hc, blockDests_convert d hc]
      · intro x N hx not same
        apply hkept x N (hx.trans_le hle)
        · exact not_usedOutside_convert hx not fun heq => same (heq ▸ List.mem_cons_self)
        · exact fun hmem => same (List.mem_cons_of_mem _ hmem)
      · intro d' hd'
        rcases List.mem_cons.mp hd' with rfl | hd'
        · apply hkept d' L (hd_lt.trans_le hle)
          · exact not_usedOutside_convert_self hp.wellFormed hd_lt
          · exact fun _ => rfl
        · exact hclosed d' hd'

theorem converted_block {b : ℕ} (hp : Progress loops f₀ f) (hL : Innermost loops f b L) :
  Progress loops f₀ (convertBlock L f b) ∧ Converted L f (convertBlock L f b) (blockDests f b)
  := converted_foldl hp hL fun _ hd => hd

/-! ### The walk -/

/-- What the conversion of some blocks does, in the order of their indices. -/
structure Walked (f f' : Function ι) (vs : List (ℕ × Loop)) : Prop where
  dests : ∀ c, (∀ v ∈ vs, c < v.1) → blockDests f' c = blockDests f c
  kept : ∀ c x N, (∀ v ∈ vs, c < v.1) → x ∈ blockDests f c → ¬f.UsedOutside N x →
    ¬f'.UsedOutside N x
  closed : ∀ v ∈ vs, ∀ x ∈ blockDests f' v.1, ¬f'.UsedOutside v.2 x

theorem walked_foldl {vs : List (ℕ × Loop)} (hp : Progress loops f₀ f)
    (hvs : ∀ v ∈ vs, Innermost loops f v.1 v.2) (sorted : (vs.map Prod.fst).Pairwise (· < ·)) :
  Progress loops f₀ (vs.foldl (fun f v => convertBlock v.2 f v.1) f) ∧
    Walked f (vs.foldl (fun f v => convertBlock v.2 f v.1) f) vs
  := by
  induction vs generalizing f with
  | nil => exact ⟨hp, fun _ _ => rfl, fun _ _ _ _ _ not => not, fun v hv => by cases hv⟩
  | cons v vs ih =>
      have hv := hvs v List.mem_cons_self
      rw [List.map_cons, List.pairwise_cons] at sorted
      obtain ⟨progress, himpl, hdests, hkept, hclosed⟩ := converted_block hp hv
      have hnext : ∀ v' ∈ vs, Innermost loops (convertBlock v.2 f v.1) v'.1 v'.2 := by
        intro v' hv'
        have hin := hvs v' (List.mem_cons_of_mem _ hv')
        refine ⟨hin.mem, ?_, hin.contains, hin.innermost⟩
        rw [himpl]
        exact hin.loops_mem
      obtain ⟨progress', hdests', hkept', hclosed'⟩ := ih progress hnext sorted.2
      have hlater : ∀ v' ∈ vs, v.1 < v'.1 := fun v' hv' =>
        sorted.1 v'.1 (List.mem_map_of_mem hv')
      have hsame : ∀ c, c ≤ v.1 → blockDests (convertBlock v.2 f v.1) c = blockDests f c :=
        fun c hc => hdests c (hc.trans_lt hv.contains.2).ne
      rw [List.foldl_cons]
      refine ⟨progress', ?_, ?_, ?_⟩
      · intro c hc
        have hcv := hc v List.mem_cons_self
        rw [hdests' c fun v' hv' => hc v' (List.mem_cons_of_mem _ hv'), hsame c hcv.le]
      · intro c x N hc hx not
        have hcv := hc v List.mem_cons_self
        apply hkept' c x N fun v' hv' => hc v' (List.mem_cons_of_mem _ hv')
        · rw [hsame c hcv.le]
          exact hx
        · apply hkept x N (blockDests_lt hp.wellFormed hx) not
          -- the def is not made in this block
          intro hmem
          obtain ⟨k, j, hk, hxj⟩ := mem_blockDests.mp hx
          obtain ⟨k', j', hk', hxj'⟩ := mem_blockDests.mp hmem
          have heq := (Prod.mk.inj (hp.wellFormed.unique hk hk' hxj hxj')).1
          exact absurd hcv (by rw [heq]; exact Nat.lt_irrefl _)
      · intro v' hv' x hx
        rcases List.mem_cons.mp hv' with rfl | hv'
        · rw [hdests' v'.1 hlater] at hx
          apply hkept' v'.1 x v'.2 hlater hx
          rw [hsame v'.1 (Nat.le_refl _)] at hx
          exact hclosed x hx
        · exact hclosed' v' hv' x hx

end Steps

/-! ### Loops -/

section Loops

variable {L : Loop} {f : Function ι}

/-- A loop and the loops inside. -/
def loopsOf (L : Loop) : List Loop := L :: L.body.loops (L.before + 1)

theorem loopsOf_inside {N : Loop} (hN : N ∈ L.body.loops (L.before + 1)) :
  N.Inside L
  := by
  have hbounds := CfList.loops_bounds hN
  refine ⟨hbounds.1, ?_⟩
  rw [CfLoop.after]
  exact hbounds.2

theorem loopsOf_mem (hL : L ∈ f.impl.body.loops 0) {N : Loop} (hN : N ∈ loopsOf L) :
  N ∈ f.impl.body.loops 0
  := by
  rcases List.mem_cons.mp hN with rfl | hN
  · exact hL
  · exact CfList.loops_trans hL hN

/-- Every block in the loop is visited in the innermost loop around it. -/
theorem innermost_of_visit (hL : L ∈ f.impl.body.loops 0) {v : ℕ × Loop}
    (hv : v ∈ L.body.visits (L.before + 1) L) :
  Innermost (loopsOf L) f v.1 v.2
  := by
  obtain ⟨b, M⟩ := v
  have hb := CfList.visits_bounds hv
  have hin : L.Contains b := ⟨hb.1, hb.2⟩
  have hM := CfList.visits_loop hv
  refine ⟨?_, fun N hN => loopsOf_mem hL hN, ?_, ?_⟩
  · rcases hM with rfl | ⟨hM, -⟩
    · exact List.mem_cons_self
    · exact List.mem_cons_of_mem _ hM
  · rcases hM with rfl | ⟨-, hc⟩
    · exact hin
    · exact hc
  · intro N hN hc
    rcases List.mem_cons.mp hN with rfl | hN
    · exact hM.imp_right fun hM => loopsOf_inside hM.1
    · exact CfList.visits_inside hv hN hc

theorem exists_visit {b : ℕ} (hb : L.Contains b) :
  ∃ M, (b, M) ∈ L.body.visits (L.before + 1) L
  := by
  have hmem : b ∈ (L.body.visits (L.before + 1) L).map Prod.fst := by
    rw [CfList.visits_fst, List.mem_range'_1]
    exact hb
  obtain ⟨⟨b', M⟩, hv, rfl⟩ := List.mem_map.mp hmem
  exact ⟨M, hv⟩

/-- The conversion of a loop closes it and the loops inside, and the function does the same
afterwards. -/
theorem nirConvertLoopToLcssa_spec (h : f.Valid) (hL : L ∈ f.impl.body.loops 0) :
  Progress (loopsOf L) f (nirConvertLoopToLcssa L f) ∧
    (nirConvertLoopToLcssa L f).Closed (loopsOf L)
  := by
  have sorted : ((L.body.visits (L.before + 1) L).map Prod.fst).Pairwise (· < ·) := by
    rw [CfList.visits_fst]
    exact List.pairwise_lt_range'
  have walked := walked_foldl (Progress.refl h) (fun v hv => innermost_of_visit hL hv) sorted
  rw [← convertToLcssa_eq] at walked
  obtain ⟨progress, -, -, hclosed⟩ := walked
  refine ⟨progress, ?_⟩
  intro N hN q j x hq hx hc hout
  have hb : L.Contains q.1 := by
    rcases List.mem_cons.mp hN with rfl | hN
    · exact hc
    · exact (loopsOf_inside hN).contains hc
  obtain ⟨M, hv⟩ := exists_visit hb
  apply hclosed (q.1, M) hv x (mem_blockDests.mpr ⟨q.2, j, hq, hx⟩)
  rcases (innermost_of_visit hL hv).innermost N hN hc with rfl | hin
  · exact hout
  · exact hout.inside hin

theorem Function.Closed.available {loops : List Loop} (h : f.Closed loops) :
  f.AvailableAtExits loops
  := fun N hN q j x hq hx hc hout => absurd hout (h N hN q j x hq hx hc)

/-- The conversion of a loop leaves a valid function that computes the same values, in which the
loop and those inside are closed, exactly when every def that is used outside of one of these loops
is made on every way to a block that leaves that loop. -/
theorem nirConvertLoopToLcssa_valid_iff (h : f.Valid) (hL : L ∈ f.impl.body.loops 0) :
  ((nirConvertLoopToLcssa L f).Valid ∧ SameRuns f (nirConvertLoopToLcssa L f) ∧
      (nirConvertLoopToLcssa L f).Closed (loopsOf L)) ↔
    f.AvailableAtExits (loopsOf L)
  := by
  obtain ⟨progress, hclosed⟩ := nirConvertLoopToLcssa_spec h hL
  constructor
  · rintro ⟨hvalid, -, -⟩
    by_contra not
    rcases progress.invalid not with hnot | early
    · exact hnot hclosed.available
    · exact hvalid.not_hasEarlySource early
  · intro available
    exact ⟨(progress.valid available).1, progress.runs, hclosed⟩

/-- What is used in blocks that can be reached is made on every way out. -/
theorem availableAtExits_of_reachable (h : f.Valid)
    (reachable : ∀ b < f.impl.numBlocks, f.impl.Reachable b) (hL : L ∈ f.impl.body.loops 0) :
  f.AvailableAtExits (loopsOf L)
  := by
  rintro N hN q j x hq hx hc ⟨b, isPhi, huse, hphi, hb⟩ a ha
  have hloop := loopsOf_mem hL hN
  have hleft := FunctionImpl.loop_leftAt hloop
  -- the use is at the end of a block outside, or before
  obtain ⟨u, hdom, hu, hlt⟩ : ∃ u, f.impl.Dom q.1 u ∧ ¬N.Contains u ∧ u < f.impl.numBlocks := by
    rcases huse with ⟨k, i, hi, hsrc, rfl⟩ | ⟨hcond, rfl⟩
    · cases i with
      | op o ds ss => exact ⟨b, (h.src_before hi hsrc hq hx).dom, hb, h.block_lt hi⟩
      | phi dest srcs =>
          obtain ⟨src, hmem, rfl⟩ := List.mem_map.mp hsrc
          have hedge : f.impl.Edge src.1 b :=
            (h.phi_preds hi).mem_iff.mp (List.mem_map_of_mem hmem)
          exact ⟨src.1, (h.phi_before hi hmem hq hx).dom,
            not_contains_pred hloop hedge hb (fun heq => hphi ⟨rfl, heq⟩) (h.block_lt hi),
            hedge.lt⟩
    · exact ⟨b, (h.cond_before hcond hq hx).dom, hb, WellFormed.cond_lt hcond⟩
  obtain ⟨l, hl⟩ := reachable u hlt
  have hout : f.impl.Dom q.1 N.after := hleft.dom_out hdom hc hu hlt.ne hl
  have hne : q.1 ≠ N.after := hc.2.ne
  exact hout.of_edge hne ha

end Loops

/-! ### A def that is not made on every way out -/

/-- The predecessors of the blocks of a body. -/
def implOf (body : CfList Unit Unit) : FunctionImpl Unit Unit where
  body := body
  predecessors c := (((body.edges 0 ⟨body.numBlocks, body.numBlocks, body.numBlocks,
    body.numBlocks⟩).filter (·.2 = c)).map Prod.fst).dedup
  nodup c := List.nodup_dedup _
  mem_predecessors := by
    intro p c
    rw [List.mem_dedup, List.mem_map]
    constructor
    · rintro ⟨⟨a, b⟩, h, rfl⟩
      obtain ⟨hmem, heq⟩ := List.mem_filter.mp h
      rw [← of_decide_eq_true heq]
      exact hmem
    · exact fun h => ⟨(p, c), List.mem_filter.mpr ⟨h, decide_eq_true rfl⟩, rfl⟩

/-- A loop that is left where a condition holds, and after it a return with unreachable blocks
behind. -/
def exitLoop : CfLoop Unit Unit where
  before := 0
  body := .nif {} () (.block { jump := some .brk }) (.block {}) (.block {})

/-- The condition of the loop is made before it; the def `1` is made in the block `a` and used in
the block `u`. -/
def exitFunction (a u : ℕ) : Function Unit where
  impl := implOf (.loop {} exitLoop.body (.loop { jump := some .ret } (.block {}) (.block {})))
  instrs b :=
    if b = 0 then [.op () [0] []] else if b = a then [.op () [1] []]
    else if b = u then [.op () [] [1]] else []
  cond b := if b = 1 then some 0 else none
  ssaAlloc := 2
  isSome_cond b := by
    split_ifs with h
    · simp [h, implOf, exitLoop, CfList.ifs]
    · simp [h, implOf, exitLoop, CfList.ifs]

section Exit

variable {a u : ℕ}

theorem exitFunction_at (ha : 0 < a) (hu : 0 < u) (hne : u ≠ a) {p : ℕ × ℕ} {i : Instr Unit} :
  (exitFunction a u).At p i ↔ p = (0, 0) ∧ i = .op () [0] [] ∨ p = (a, 0) ∧ i = .op () [1] [] ∨
    p = (u, 0) ∧ i = .op () [] [1]
  := by
  obtain ⟨b, k⟩ := p
  have single : ∀ x : Instr Unit, [x][k]? = some i ↔ k = 0 ∧ i = x := by
    intro x
    cases k with
    | zero => simp [eq_comm]
    | succ k => simp
  simp only [Function.At, exitFunction, Prod.mk.injEq]
  split_ifs with h0 h1 h2
  · simp [single, h0, ha.ne, hu.ne]
  · simp [single, h1, ha.ne', hne.symm]
  · simp [single, h2, hu.ne', hne]
  · simp [h0, h1, h2]

theorem exitFunction_valid (ha : 0 < a) (hu : 0 < u) (hne : u ≠ a) (ha' : a < 8) (hu' : u < 8)
    (hdom : (exitFunction a u).impl.Dom a u) :
  (exitFunction a u).Valid
  := by
  have hat := fun {p i} => exitFunction_at (p := p) (i := i) ha hu hne
  have hentry : ∀ b l, Path (exitFunction a u).impl.Edge 0 b l → 0 ∈ l := by
    intro b l hl
    induction hl with
    | entry => exact List.mem_cons_self
    | step _ _ ih => exact List.mem_cons_of_mem _ ih
  constructor
  · constructor
    · intro p i hi
      have hnum : (exitFunction a u).impl.numBlocks = 8 := rfl
      rcases hat.mp hi with ⟨rfl, -⟩ | ⟨rfl, -⟩ | ⟨rfl, -⟩ <;> rw [hnum] <;> omega
    · intro p i x hi hx
      rcases hat.mp hi with ⟨-, rfl⟩ | ⟨-, rfl⟩ | ⟨-, rfl⟩ <;>
        simp_all [Instr.dests, exitFunction]
    · intro p i hi
      rcases hat.mp hi with ⟨-, rfl⟩ | ⟨-, rfl⟩ | ⟨-, rfl⟩ <;> simp [Instr.dests]
    · intro p q i j x hi hj hx hx'
      rcases hat.mp hi with ⟨rfl, rfl⟩ | ⟨rfl, rfl⟩ | ⟨rfl, rfl⟩ <;>
        rcases hat.mp hj with ⟨rfl, rfl⟩ | ⟨rfl, rfl⟩ | ⟨rfl, rfl⟩ <;>
        simp_all [Instr.dests]
    · intro p i x hi hx
      refine ⟨(a, 0), _, hat.mpr (Or.inr (Or.inl ⟨rfl, rfl⟩)), ?_⟩
      rcases hat.mp hi with ⟨-, rfl⟩ | ⟨-, rfl⟩ | ⟨-, rfl⟩ <;> simp_all [Instr.srcs, Instr.dests]
    · intro b x hcond
      refine ⟨(0, 0), _, hat.mpr (Or.inl ⟨rfl, rfl⟩), ?_⟩
      simp only [exitFunction] at hcond
      split_ifs at hcond
      simp [Instr.dests, ← Option.some.inj hcond]
    · intro p dest srcs hi
      rcases hat.mp hi with ⟨-, h⟩ | ⟨-, h⟩ | ⟨-, h⟩ <;> cases h
    · intro b k i hi hphi
      rcases hat.mp hi with ⟨-, rfl⟩ | ⟨-, rfl⟩ | ⟨-, rfl⟩ <;> cases hphi
  · intro p o ds ss x q j hi hx hq hxj
    -- the only source is the one in the block `u`
    rcases hat.mp hi with ⟨-, h⟩ | ⟨-, h⟩ | ⟨rfl, h⟩
    · obtain ⟨-, -, rfl⟩ := Instr.op.inj h
      cases hx
    · obtain ⟨-, -, rfl⟩ := Instr.op.inj h
      cases hx
    · obtain ⟨-, -, rfl⟩ := Instr.op.inj h
      rw [List.mem_singleton.mp hx] at hxj
      rcases hat.mp hq with ⟨-, rfl⟩ | ⟨rfl, -⟩ | ⟨-, rfl⟩
      · simp [Instr.dests] at hxj
      · exact Or.inl ⟨hne.symm, hdom⟩
      · simp [Instr.dests] at hxj
  · intro p dest srcs src q j hi
    rcases hat.mp hi with ⟨-, h⟩ | ⟨-, h⟩ | ⟨-, h⟩ <;> cases h
  · intro b x q j hcond hq hx
    simp only [exitFunction] at hcond
    split_ifs at hcond with hb
    rw [← Option.some.inj hcond] at hx
    rcases hat.mp hq with ⟨rfl, -⟩ | ⟨-, rfl⟩ | ⟨-, rfl⟩
    · left
      refine ⟨by rw [hb]; exact Nat.zero_ne_one, hentry b⟩
    · simp [Instr.dests] at hx
    · simp [Instr.dests] at hx

theorem exitLoop_mem : exitLoop ∈ (exitFunction a u).impl.body.loops 0 := List.mem_cons_self

end Exit

/-- A def that is made where the loop starts, and used right after it. -/
theorem nirConvertLoopToLcssa_valid_iff_exit :
  ((nirConvertLoopToLcssa exitLoop (exitFunction 1 5)).Valid ∧
      SameRuns (exitFunction 1 5) (nirConvertLoopToLcssa exitLoop (exitFunction 1 5)) ∧
      (nirConvertLoopToLcssa exitLoop (exitFunction 1 5)).Closed (loopsOf exitLoop)) ↔
    (exitFunction 1 5).AvailableAtExits (loopsOf exitLoop)
  := by
  have hdom : (exitFunction 1 5).impl.Dom 1 5 := by
    apply dom_of_preds (by decide)
    intro q hq
    have heq : q ∈ [2] := hq
    rw [List.mem_singleton.mp heq]
    apply dom_of_preds (by decide)
    intro q hq
    have heq : q ∈ [1] := hq
    rw [List.mem_singleton.mp heq]
    exact Dom.refl 1
  exact nirConvertLoopToLcssa_valid_iff
    (exitFunction_valid (by decide) (by decide) (by decide) (by decide) (by decide) hdom)
    exitLoop_mem

/-- A def that is made where the loop goes on, and used in an unreachable block. -/
theorem nirConvertLoopToLcssa_unreachable :
  (exitFunction 4 7).Valid ∧ exitLoop ∈ (exitFunction 4 7).impl.body.loops 0 ∧
    ¬((nirConvertLoopToLcssa exitLoop (exitFunction 4 7)).Valid ∧
      SameRuns (exitFunction 4 7) (nirConvertLoopToLcssa exitLoop (exitFunction 4 7)) ∧
      (nirConvertLoopToLcssa exitLoop (exitFunction 4 7)).Closed (loopsOf exitLoop))
  := by
  have hdom : (exitFunction 4 7).impl.Dom 4 7 := by
    apply dom_of_preds (by decide)
    intro q hq
    have heq : q ∈ ([] : List ℕ) := hq
    cases heq
  have hvalid : (exitFunction 4 7).Valid :=
    exitFunction_valid (by decide) (by decide) (by decide) (by decide) (by decide) hdom
  refine ⟨hvalid, exitLoop_mem, ?_⟩
  rintro ⟨hvalid', -, -⟩
  obtain ⟨progress, hclosed⟩ := nirConvertLoopToLcssa_spec hvalid (exitLoop_mem (a := 4) (u := 7))
  have hnot : ¬(exitFunction 4 7).AvailableAtExits (loopsOf exitLoop) := by
    intro available
    have hdom' : (exitFunction 4 7).impl.Dom 4 2 := by
      refine available exitLoop List.mem_cons_self (4, 0) (.op () [1] []) 1 rfl
        (List.mem_singleton_self 1) (by decide) ⟨7, false, ?_, ?_, by decide⟩ 2 ?_
      · exact Or.inl ⟨0, .op () [] [1], rfl, List.mem_singleton_self 1, rfl⟩
      · exact fun h => Bool.false_ne_true h.1
      · exact List.mem_singleton_self 2
    have hpath : Path (exitFunction 4 7).impl.Edge 0 2 [2, 1, 0] := by
      refine (Path.entry.step (c := 1) ?_).step (c := 2) ?_
      · change 0 ∈ [0, 4]
        exact List.mem_cons_self
      · exact List.mem_singleton_self 1
    exact absurd (hdom' _ hpath) (by decide)
  rcases progress.invalid hnot with hnot' | early
  · exact hnot' hclosed.available
  · exact hvalid'.not_hasEarlySource early

end Lcssa

end Nir
