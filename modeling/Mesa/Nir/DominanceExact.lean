import Mesa.Flow.PhiPlacement
import Mesa.Nir.Dominance

/-!
# The dominance tree is exact

The first pass finds the immediate dominators of all blocks that can be reached, the second one
changes nothing, and the frontiers and the indices of the walk are those of the dominance relation.
-/

namespace Nir

open Flow

variable {ι κ : Type} {impl : FunctionImpl ι κ}

theorem joinIdom_of_not {fuel p : ℕ} {immDom : ℕ → Option ℕ} {r : Option ℕ}
    (h : ¬(immDom p).isSome) :
  joinIdom fuel immDom r p = some r
  := if_neg h

theorem joinIdom_none {fuel p : ℕ} {immDom : ℕ → Option ℕ} (h : (immDom p).isSome) :
  joinIdom fuel immDom none p = some (some p)
  := if_pos h

theorem joinIdom_some {fuel p d : ℕ} {immDom : ℕ → Option ℕ} (h : (immDom p).isSome) :
  joinIdom fuel immDom (some d) p = (intersect immDom fuel p d).map some
  := by
  simp [joinIdom, h, Option.map_eq_bind]

namespace FunctionImpl

/-! ### Immediate dominators -/

/-- What the immediate dominators are before and after every step: the start block has itself, the
other ones have the true one or none, and from a block that has one the way up ends at the start
block. -/
structure IdomSound (impl : FunctionImpl ι κ) (immDom : ℕ → Option ℕ) : Prop where
  start : immDom 0 = some 0
  immDom : ∀ {b d}, b ≠ 0 → b < impl.numBlocks → immDom b = some d →
    impl.Reachable b ∧ ImmDom impl.Edge 0 d b ∧ (immDom d).isSome

/-- The blocks before `m` have their immediate dominators. -/
def IdomComplete (impl : FunctionImpl ι κ) (immDom : ℕ → Option ℕ) (m : ℕ) : Prop :=
  ∀ b, b < m → b < impl.numBlocks → impl.Reachable b → (immDom b).isSome

namespace IdomSound

variable {immDom : ℕ → Option ℕ} (h : IdomSound impl immDom)

include h

theorem reachable {b : ℕ} (hbn : b < impl.numBlocks) (hb : (immDom b).isSome) :
  impl.Reachable b
  := by
  by_cases hzero : b = 0
  · rw [hzero]
    exact reachable_zero
  · obtain ⟨d, hd⟩ := Option.isSome_iff_exists.mp hb
    exact (h.immDom hzero hbn hd).1

/-- The immediate dominator of a block other than the start block. -/
theorem exists_immDom {b : ℕ} (hbn : b < impl.numBlocks) (hb : (immDom b).isSome)
    (hzero : b ≠ 0) :
  ∃ d, immDom b = some d ∧ (immDom d).isSome ∧ d < b ∧
    ∀ a, impl.Dom a d ↔ impl.Dom a b ∧ a ≠ b
  := by
  obtain ⟨d, hd⟩ := Option.isSome_iff_exists.mp hb
  obtain ⟨hreach, himm, hsome⟩ := h.immDom hzero hbn hd
  refine ⟨d, hd, hsome, ?_, ?_⟩
  · exact impl.ordered.lt_of_dom hreach himm.2.1 himm.1
  · intro a
    exact himm.dom_iff hreach

/-- Going up to `b2` loses no dominator of it. -/
theorem climb {fuel b1 b2 : ℕ} (hn : b1 < impl.numBlocks) (hb1 : (immDom b1).isSome)
    (hb2 : impl.Reachable b2) (hfuel : b1 < fuel) :
  ∃ b, Nir.climb immDom fuel b1 b2 = some b ∧ (immDom b).isSome ∧ b ≤ b2 ∧ b ≤ b1 ∧
    ∀ a, (impl.Dom a b1 ∧ impl.Dom a b2) ↔ (impl.Dom a b ∧ impl.Dom a b2)
  := by
  induction fuel generalizing b1 with
  | zero => omega
  | succ fuel ih =>
      unfold Nir.climb
      split_ifs with hgt
      · obtain ⟨d, hd, hsome, hlt, hdom⟩ := h.exists_immDom hn hb1 (by omega)
        obtain ⟨b, hb, hbsome, hle, hle', hiff⟩ := ih (by omega) hsome (by omega)
        refine ⟨b, by rw [hd]; exact hb, hbsome, hle, by omega, ?_⟩
        intro a
        rw [← hiff a, hdom a]
        constructor
        · rintro ⟨ha1, ha2⟩
          refine ⟨⟨ha1, ?_⟩, ha2⟩
          rintro rfl
          exact impl.ordered.not_dom_of_gt hb2 hgt ha2
        · rintro ⟨⟨ha1, -⟩, ha2⟩
          exact ⟨ha1, ha2⟩
      · exact ⟨b1, rfl, hb1, by omega, Nat.le_refl b1, fun a => Iff.rfl⟩

/-- The common dominators of two blocks are the dominators of one block. -/
theorem intersect {fuel b1 b2 : ℕ} (hn1 : b1 < impl.numBlocks) (hn2 : b2 < impl.numBlocks)
    (hb1 : (immDom b1).isSome) (hb2 : (immDom b2).isSome) (hfuel : b1 + b2 + 1 < fuel) :
  ∃ d, Nir.intersect immDom fuel b1 b2 = some d ∧ (immDom d).isSome ∧
    ∀ a, impl.Dom a d ↔ impl.Dom a b1 ∧ impl.Dom a b2
  := by
  induction fuel generalizing b1 b2 with
  | zero => omega
  | succ fuel ih =>
      unfold Nir.intersect
      split_ifs with heq
      · subst heq
        exact ⟨b1, rfl, hb1, fun a => (and_self_iff).symm⟩
      · obtain ⟨b1', hb1', hsome1, hle, hle1, hiff1⟩ :=
          h.climb hn1 hb1 (h.reachable hn2 hb2) (show b1 < fuel by omega)
        obtain ⟨b2', hb2', hsome2, hle', hle2, hiff2⟩ :=
          h.climb hn2 hb2 (h.reachable (by omega) hsome1) (show b2 < fuel by omega)
        obtain ⟨d, hd, hsome, hiff⟩ := ih (by omega) (by omega) hsome1 hsome2 (by omega)
        refine ⟨d, by simp [hb1', hb2', hd], hsome, ?_⟩
        intro a
        calc
          impl.Dom a d ↔ impl.Dom a b1' ∧ impl.Dom a b2' := hiff a
          _ ↔ impl.Dom a b2 ∧ impl.Dom a b1' := by rw [and_comm, ← hiff2 a]
          _ ↔ impl.Dom a b1 ∧ impl.Dom a b2 := by rw [and_comm, ← hiff1 a]

/-- More predecessors are joined to a block. -/
theorem foldlM_joinIdom {fuel d : ℕ} {preds : List ℕ} (hd : (immDom d).isSome)
    (hdn : d < impl.numBlocks) (hn : ∀ p ∈ preds, p < impl.numBlocks)
    (hfuel : 2 * impl.numBlocks < fuel) :
  ∃ d', preds.foldlM (joinIdom fuel immDom) (some d) = some (some d') ∧ (immDom d').isSome ∧
    ∀ a, impl.Dom a d' ↔ impl.Dom a d ∧ ∀ p ∈ preds, (immDom p).isSome → impl.Dom a p
  := by
  induction preds generalizing d with
  | nil => exact ⟨d, rfl, hd, by simp⟩
  | cons p preds ih =>
      have hp : p < impl.numBlocks := hn p List.mem_cons_self
      have htail : ∀ q ∈ preds, q < impl.numBlocks := fun q hq => hn q (List.mem_cons_of_mem _ hq)
      rw [List.foldlM_cons]
      by_cases hsome : (immDom p).isSome
      · obtain ⟨e, he, hesome, hiff⟩ := h.intersect hp hdn hsome hd (show p + d + 1 < fuel by omega)
        have hen : e < impl.numBlocks := by
          have hdom : impl.Dom e p := ((hiff e).mp (Flow.Dom.refl e)).1
          exact (impl.ordered.le_of_dom (h.reachable hp hsome) hdom).trans_lt hp
        obtain ⟨d', hd', hsome', hiff'⟩ := ih hesome hen htail
        refine ⟨d', ?_, hsome', ?_⟩
        · simpa [joinIdom_some hsome, he] using hd'
        · intro a
          rw [hiff' a, hiff a]
          simp only [List.forall_mem_cons]
          tauto
      · obtain ⟨d', hd', hsome', hiff'⟩ := ih hd hdn htail
        refine ⟨d', by simpa [joinIdom_of_not hsome] using hd', hsome', ?_⟩
        intro a
        rw [hiff' a]
        simp only [List.forall_mem_cons]
        tauto

/-- The predecessors that have an immediate dominator are joined. -/
theorem foldlM_joinIdom_none {fuel : ℕ} {preds : List ℕ} (hn : ∀ p ∈ preds, p < impl.numBlocks)
    (hfuel : 2 * impl.numBlocks < fuel) :
  ∃ r, preds.foldlM (joinIdom fuel immDom) none = some r ∧
    (r = none → ∀ p ∈ preds, immDom p = none) ∧
    ∀ d, r = some d → (immDom d).isSome ∧ (∃ p ∈ preds, (immDom p).isSome) ∧
      ∀ a, impl.Dom a d ↔ ∀ p ∈ preds, (immDom p).isSome → impl.Dom a p
  := by
  induction preds with
  | nil => exact ⟨none, rfl, by simp⟩
  | cons p preds ih =>
      have hp : p < impl.numBlocks := hn p List.mem_cons_self
      have htail : ∀ q ∈ preds, q < impl.numBlocks := fun q hq => hn q (List.mem_cons_of_mem _ hq)
      rw [List.foldlM_cons]
      by_cases hsome : (immDom p).isSome
      · obtain ⟨d', hd', hsome', hiff'⟩ := h.foldlM_joinIdom hsome hp htail hfuel
        refine ⟨some d', by simpa [joinIdom_none hsome] using hd', by simp, ?_⟩
        rintro d ⟨⟩
        refine ⟨hsome', ⟨p, List.mem_cons_self, hsome⟩, ?_⟩
        intro a
        rw [hiff' a]
        simp only [List.forall_mem_cons]
        tauto
      · obtain ⟨r, hr, hnone, hall⟩ := ih htail
        refine ⟨r, by simpa [joinIdom_of_not hsome] using hr, ?_, ?_⟩
        · intro heq
          rw [List.forall_mem_cons]
          exact ⟨by simpa using hsome, hnone heq⟩
        · intro d hd
          obtain ⟨hdsome, ⟨q, hq, hqsome⟩, hiff⟩ := hall d hd
          refine ⟨hdsome, ⟨q, List.mem_cons_of_mem _ hq, hqsome⟩, ?_⟩
          intro a
          rw [hiff a]
          simp only [List.forall_mem_cons]
          tauto

/-- If the blocks before `c` are done, the predecessors of `c` give its immediate dominator. -/
theorem newIdom {fuel c : ℕ} (hdone : IdomComplete impl immDom c) (hc : c ≠ 0)
    (hfuel : 2 * impl.numBlocks < fuel) :
  ∃ r, (impl.predecessors c).foldlM (joinIdom fuel immDom) none = some r ∧
    (r = none → ¬impl.Reachable c) ∧
    ∀ d, r = some d → impl.Reachable c ∧ ImmDom impl.Edge 0 d c ∧ (immDom d).isSome
  := by
  have hlt : ∀ p ∈ impl.predecessors c, p < impl.numBlocks := fun p hp => Edge.lt hp
  obtain ⟨r, hr, hnone, hall⟩ := h.foldlM_joinIdom_none hlt hfuel
  refine ⟨r, hr, ?_, ?_⟩
  · intro heq hreach
    obtain ⟨p, hedge, hpc, hp⟩ := impl.ordered.exists_pred hreach hc
    have hsome := hdone p hpc (hlt p hedge) hp
    rw [hnone heq p hedge] at hsome
    exact absurd hsome (by simp)
  · intro d hd
    obtain ⟨hsome, ⟨p, hp, hpsome⟩, hiff⟩ := hall d hd
    have hreach : impl.Reachable c := (h.reachable (hlt p hp) hpsome).step hp
    refine ⟨hreach, ?_, hsome⟩
    apply ImmDom.of_dom_iff
    intro a
    -- the predecessors that are not done yet come after `c`
    have hpred := impl.ordered.dom_iff_forall_pred (a := a)
      (P := fun p => impl.Edge p c ∧ (immDom p).isSome) hreach hc (fun p hp => hp.1)
      (fun p hedge hpc hp => ⟨hedge, hdone p hpc (hlt p hedge) hp⟩)
    rw [hpred, show Flow.Dom impl.Edge 0 a d ↔ _ from hiff a]
    constructor
    · rintro hall p ⟨hedge, hp⟩
      exact hall p hedge hp
    · intro hall p hedge hp
      exact hall p ⟨hedge, hp⟩

theorem update {c d : ℕ} (hc : c ≠ 0) (hreach : impl.Reachable c) (himm : ImmDom impl.Edge 0 d c)
    (hsome : (immDom d).isSome) :
  IdomSound impl (Function.update immDom c (some d))
  := by
  have hkeep : ∀ e, (immDom e).isSome → (Function.update immDom c (some d) e).isSome := by
    intro e he
    by_cases hec : e = c
    · simp [hec]
    · rwa [Function.update_of_ne hec]
  constructor
  · rw [Function.update_of_ne (Ne.symm hc)]
    exact h.start
  · intro b e hb hbn he
    by_cases hbc : b = c
    · subst hbc
      rw [Function.update_self] at he
      cases he
      exact ⟨hreach, himm, hkeep d hsome⟩
    · rw [Function.update_of_ne hbc] at he
      obtain ⟨hreach', himm', hsome'⟩ := h.immDom hb hbn he
      exact ⟨hreach', himm', hkeep e hsome'⟩

/-- What `calc_dominance` does to a block if those before it are done. -/
theorem calcDominance {fuel c : ℕ} (progress : Bool) (hdone : IdomComplete impl immDom c)
    (hc : c ≠ 0) (hcn : c < impl.numBlocks) (hfuel : 2 * impl.numBlocks < fuel) :
  ∃ r, impl.calcDominance fuel (immDom, progress) c = some r ∧
    IdomSound impl r.1 ∧ IdomComplete impl r.1 (c + 1) ∧
    (IdomComplete impl immDom impl.numBlocks → r = (immDom, progress)) ∧
    ∀ b, b ≠ c → r.1 b = immDom b
  := by
  obtain ⟨newIdom, hnew, hnone, hsome⟩ := h.newIdom hdone hc hfuel
  by_cases hsame : immDom c = newIdom
  · refine ⟨(immDom, progress), by simp [FunctionImpl.calcDominance, hnew, hsame], h, ?_, ?_, fun _ _ => rfl⟩
    · intro b hb hbn hreach
      rcases Nat.lt_succ_iff_lt_or_eq.mp hb with hlt | rfl
      · exact hdone b hlt hbn hreach
      · simp only [hsame, Option.isSome_iff_ne_none]
        intro heq
        exact hnone heq hreach
    · intro _
      rfl
  · refine ⟨(Function.update immDom c newIdom, true), ?_, ?_, ?_, ?_, ?_⟩
    · simp [FunctionImpl.calcDominance, hnew, hsame]
    · cases newIdom with
      | none =>
          -- a block that cannot be reached has had none before
          have hno : immDom c = none := by
            by_contra hne
            exact hnone rfl (h.reachable hcn (Option.isSome_iff_ne_none.mpr hne))
          exact absurd hno hsame
      | some d =>
          obtain ⟨hreach, himm, hd⟩ := hsome d rfl
          exact h.update hc hreach himm hd
    · intro b hb hbn hreach
      by_cases hbc : b = c
      · subst hbc
        simp only [Function.update_self, Option.isSome_iff_ne_none]
        intro heq
        exact hnone heq hreach
      · simp only [Function.update_of_ne hbc]
        exact hdone b (by omega) hbn hreach
    · intro hall
      exfalso
      apply hsame
      cases newIdom with
      | none =>
          by_contra hne
          exact hnone rfl (h.reachable hcn (Option.isSome_iff_ne_none.mpr hne))
      | some d =>
          obtain ⟨hreach, himm, -⟩ := hsome d rfl
          obtain ⟨e, he⟩ := Option.isSome_iff_exists.mp (hall c hcn hcn hreach)
          rw [he, (h.immDom hc hcn he).2.1.eq himm hreach]
    · intro b hb
      exact Function.update_of_ne hb _ _

/-- What the blocks from `c` on do to what is done before `c`. -/
theorem foldlM_calcDominance {fuel c k : ℕ} (progress : Bool) (hdone : IdomComplete impl immDom c)
    (hc : c ≠ 0) (hk : c + k = impl.numBlocks) (hfuel : 2 * impl.numBlocks < fuel) :
  ∃ r, (List.range' c k).foldlM (impl.calcDominance fuel) (immDom, progress) = some r ∧
    IdomSound impl r.1 ∧ IdomComplete impl r.1 impl.numBlocks ∧
    (IdomComplete impl immDom impl.numBlocks → r = (immDom, progress)) ∧
    ∀ b, impl.numBlocks ≤ b → r.1 b = immDom b
  := by
  induction k generalizing immDom c progress with
  | zero =>
      obtain rfl : c = impl.numBlocks := hk
      exact ⟨(immDom, progress), rfl, h, hdone, fun _ => rfl, fun _ _ => rfl⟩
  | succ k ih =>
      obtain ⟨r, hr, hsound, hdone', hsame, hother⟩ :=
        h.calcDominance progress hdone hc (by omega) hfuel
      obtain ⟨r', hr', hsound', hall, hsame', hother'⟩ :=
        ih hsound r.2 hdone' (Nat.succ_ne_zero c) (by omega)
      refine ⟨r', ?_, hsound', hall, ?_, ?_⟩
      · rw [List.range'_succ, List.foldlM_cons, hr]
        exact hr'
      · intro hcompl
        have heq := hsame hcompl
        rw [heq] at hsame'
        exact hsame' hcompl
      · intro b hb
        rw [hother' b hb, hother b (by omega)]

/-- The passes end with the immediate dominators of all blocks that can be reached. -/
theorem calcPasses {fuel n : ℕ} (hn : 2 ≤ n) (hfuel : 2 * impl.numBlocks < fuel) :
  ∃ immDom', impl.calcPasses fuel n immDom = some immDom' ∧ IdomSound impl immDom' ∧
    IdomComplete impl immDom' impl.numBlocks ∧ ∀ b, impl.numBlocks ≤ b → immDom' b = immDom b
  := by
  have hdone : IdomComplete impl immDom 1 := by
    intro b hb _ _
    obtain rfl : b = 0 := by omega
    simp [h.start]
  have hnum : 1 + (impl.numBlocks - 1) = impl.numBlocks := by
    have hpos : 0 < impl.numBlocks := impl.body.numBlocks_pos
    omega
  obtain ⟨n, rfl⟩ : ∃ m, n = m + 2 := ⟨n - 2, by omega⟩
  obtain ⟨r, hr, hsound, hall, -, hother⟩ :=
    h.foldlM_calcDominance false hdone (by simp) hnum hfuel
  unfold FunctionImpl.calcPasses
  simp only [otherBlocks, hr, Option.bind_eq_bind, Option.bind_some]
  split_ifs
  · -- the second pass changes nothing
    obtain ⟨r', hr', -, -, hsame, -⟩ := hsound.foldlM_calcDominance false
      (fun b hb hbn => hall b hbn hbn) (by simp) hnum hfuel
    rw [hsame hall] at hr'
    refine ⟨r.1, ?_, hsound, hall, hother⟩
    simp [FunctionImpl.calcPasses, otherBlocks, hr']
  · exact ⟨r.1, rfl, hsound, hall, hother⟩

end IdomSound

/-! ### Dominance frontiers -/

/-- The block `x` is in the dominance frontier of `b`. -/
def InFrontier (impl : FunctionImpl ι κ) (b x : ℕ) : Prop := Flow.InFrontier impl.Edge 0 b x

/-- A block with one predecessor is in no frontier. -/
theorem not_inFrontier_of_length_le {b x : ℕ} (hlen : (impl.predecessors x).length ≤ 1) :
  ¬InFrontier impl b x
  := by
  intro h
  have hreach : impl.Reachable x := Flow.InFrontier.reachable h
  obtain ⟨⟨p, hedge, -, hdom⟩, hnot⟩ := h
  apply hnot
  have hne : x ≠ 0 := hedge.pos.ne'
  apply (impl.ordered.dom_iff_forall_pred (P := (impl.Edge · x)) hreach hne (fun _ hq => hq)
    (fun _ hq _ _ => hq)).mpr
  intro q hq
  have hone : (impl.predecessors x).length = 1 := le_antisymm hlen (List.length_pos_of_mem hedge)
  obtain ⟨r, hr⟩ := List.length_eq_one_iff.mp hone
  have hpr : p = r := by simpa [Edge, hr] using hedge
  have hqr : q = r := by simpa [Edge, hr] using hq
  rw [hqr, ← hpr]
  exact hdom

/-- Steps that change nothing. -/
theorem foldlM_of_forall_eq_some {σ α : Type} {f : σ → α → Option σ} {s : σ} {l : List α}
    (h : ∀ a ∈ l, f s a = some s) :
  l.foldlM f s = some s
  := by
  induction l with
  | nil => rfl
  | cons a l ih =>
      rw [List.foldlM_cons, h a List.mem_cons_self]
      exact ih (fun b hb => h b (List.mem_cons_of_mem _ hb))

namespace IdomSound

variable {immDom : ℕ → Option ℕ} (h : IdomSound impl immDom)

include h

/-- The walk up from `runner` adds the block to the frontiers of the dominators of `runner` that do
not dominate the immediate dominator of the block. -/
theorem walkFrontier {fuel block e runner : ℕ} (front : ℕ → Finset ℕ)
    (he : immDom block = some e) (hn : runner < impl.numBlocks) (hr : (immDom runner).isSome)
    (hdom : impl.Dom e runner)
    (hfuel : runner < fuel) :
  ∃ front', FunctionImpl.walkFrontier immDom block fuel runner front = some front' ∧
    ∀ b x, x ∈ front' b ↔ x ∈ front b ∨ (x = block ∧ impl.Dom b runner ∧ ¬impl.Dom b e)
  := by
  induction fuel generalizing runner front with
  | zero => omega
  | succ fuel ih =>
      unfold FunctionImpl.walkFrontier
      by_cases hstop : runner = e
      · subst hstop
        refine ⟨front, by simp [he], ?_⟩
        intro b x
        tauto
      · have hne : runner ≠ 0 := by
          rintro rfl
          have hzero := hdom [0] Path.entry
          exact hstop (List.mem_singleton.mp hzero).symm
        obtain ⟨d, hd, hsome, hlt, hiff⟩ := h.exists_immDom hn hr hne
        have hed : impl.Dom e d := (hiff e).mpr ⟨hdom, Ne.symm hstop⟩
        obtain ⟨front', hfront, hmem⟩ := ih (Function.update front runner
          (insert block (front runner))) (by omega) hsome hed (by omega)
        refine ⟨front', ?_, ?_⟩
        · simp [he, hstop, hd, hfront]
        · intro b x
          have hself : ¬impl.Dom runner e := by
            intro hre
            obtain ⟨l, hl⟩ := h.reachable hn hr
            exact hstop (Flow.Dom.antisymm hl hre hdom)
          rw [hmem b x, hiff b]
          by_cases hb : b = runner
          · subst hb
            have hrefl : impl.Dom b b := Flow.Dom.refl b
            simp only [Function.update_self, Finset.mem_insert]
            tauto
          · rw [Function.update_of_ne hb]
            tauto

/-- What strictly dominates a block with an immediate dominator. -/
theorem dom_immDom_iff {block e a : ℕ} (hne : block ≠ 0) (hn : block < impl.numBlocks)
    (he : immDom block = some e) :
  impl.Dom a e ↔ impl.Dom a block ∧ a ≠ block
  := by
  obtain ⟨hreach, himm, -⟩ := h.immDom hne hn he
  exact himm.dom_iff hreach

/-- The predecessors of a block are walked up from. -/
theorem foldlM_walkFrontier {fuel block e : ℕ} {preds : List ℕ} (front : ℕ → Finset ℕ)
    (hn : block < impl.numBlocks) (he : immDom block = some e) (hpreds : ∀ p ∈ preds, impl.Edge p block)
    (hfuel : impl.numBlocks ≤ fuel) :
  ∃ front', preds.foldlM
      (fun front runner =>
        if (immDom runner).isNone then some front
        else FunctionImpl.walkFrontier immDom block fuel runner front)
      front = some front' ∧
    ∀ b x, x ∈ front' b ↔ x ∈ front b ∨
      (x = block ∧ (∃ p ∈ preds, (immDom p).isSome ∧ impl.Dom b p) ∧ ¬impl.Dom b e)
  := by
  induction preds generalizing front with
  | nil => exact ⟨front, rfl, by simp⟩
  | cons p preds ih =>
      have hedge : impl.Edge p block := hpreds p List.mem_cons_self
      have htail : ∀ q ∈ preds, impl.Edge q block :=
        fun q hq => hpreds q (List.mem_cons_of_mem _ hq)
      rw [List.foldlM_cons]
      by_cases hp : (immDom p).isSome
      · have hep : impl.Dom e p := by
          obtain ⟨-, himm, -⟩ := h.immDom hedge.pos.ne' hn he
          exact himm.2.1.of_edge himm.1 hedge
        obtain ⟨front₁, hfront₁, hmem₁⟩ :=
          h.walkFrontier front he hedge.lt hp hep (hedge.lt.trans_le hfuel)
        obtain ⟨front₂, hfront₂, hmem₂⟩ := ih front₁ htail
        refine ⟨front₂, ?_, ?_⟩
        · rw [if_neg (by simpa [← Option.isSome_iff_ne_none] using hp), hfront₁]
          exact hfront₂
        · intro b x
          rw [hmem₂, hmem₁]
          simp only [List.exists_mem_cons_iff]
          tauto
      · obtain ⟨front', hfront', hmem⟩ := ih front htail
        refine ⟨front', ?_, ?_⟩
        · rw [if_pos (by simpa using hp)]
          exact hfront'
        · intro b x
          rw [hmem]
          simp only [List.exists_mem_cons_iff]
          tauto

theorem isSome_iff (hall : IdomComplete impl immDom impl.numBlocks) {b : ℕ}
    (hb : b < impl.numBlocks) :
  (immDom b).isSome ↔ impl.Reachable b
  := ⟨h.reachable hb, hall b hb hb⟩

/-- The frontiers a block is in, by the immediate dominator of the block. -/
theorem inFrontier_iff (hall : IdomComplete impl immDom impl.numBlocks) {b block e : ℕ}
    (hne : block ≠ 0) (hn : block < impl.numBlocks) (he : immDom block = some e) :
  InFrontier impl b block ↔
    (∃ p ∈ impl.predecessors block, (immDom p).isSome ∧ impl.Dom b p) ∧ ¬impl.Dom b e
  := by
  unfold InFrontier Flow.InFrontier
  rw [h.dom_immDom_iff hne hn he]
  apply and_congr_left
  intro _
  constructor
  · rintro ⟨p, hedge, hp, hdom⟩
    exact ⟨p, hedge, (h.isSome_iff hall (Edge.lt hedge)).mpr hp, hdom⟩
  · rintro ⟨p, hedge, hp, hdom⟩
    exact ⟨p, hedge, h.reachable (Edge.lt hedge) hp, hdom⟩

/-- `calc_dom_frontier` adds the block to the frontiers that it is in. -/
theorem calcDomFrontier (hall : IdomComplete impl immDom impl.numBlocks) {fuel block : ℕ}
    (front : ℕ → Finset ℕ) (hblock : block < impl.numBlocks) (hfuel : impl.numBlocks ≤ fuel) :
  ∃ front', impl.calcDomFrontier fuel immDom front block = some front' ∧
    ∀ b x, x ∈ front' b ↔ x ∈ front b ∨ (x = block ∧ InFrontier impl b block)
  := by
  unfold FunctionImpl.calcDomFrontier
  split_ifs with hlen
  · obtain ⟨p, hp⟩ := List.exists_mem_of_length_pos (Nat.zero_lt_of_lt hlen)
    have hne : block ≠ 0 := (Edge.pos hp).ne'
    by_cases hreach : impl.Reachable block
    · obtain ⟨e, he⟩ := Option.isSome_iff_exists.mp (hall block hblock hblock hreach)
      obtain ⟨front', hfront, hmem⟩ :=
        h.foldlM_walkFrontier front hblock he (fun p hp => hp) hfuel
      refine ⟨front', hfront, ?_⟩
      intro b x
      rw [hmem, h.inFrontier_iff hall hne hblock he]
    · -- no predecessor can be reached
      refine ⟨front, ?_, ?_⟩
      · apply foldlM_of_forall_eq_some
        intro q hq
        apply if_pos
        by_contra hsome
        have hq' : (immDom q).isSome := by simpa [Option.isSome_iff_ne_none] using hsome
        exact hreach ((h.reachable (Edge.lt hq) hq').step hq)
      · intro b x
        constructor
        · exact Or.inl
        · rintro (hx | ⟨-, hin⟩)
          · exact hx
          · exact absurd (Flow.InFrontier.reachable hin) hreach
  · refine ⟨front, rfl, ?_⟩
    intro b x
    constructor
    · exact Or.inl
    · rintro (hx | ⟨-, hin⟩)
      · exact hx
      · exact absurd hin (not_inFrontier_of_length_le (by omega))

/-- The frontiers after all blocks. -/
theorem foldlM_calcDomFrontier (hall : IdomComplete impl immDom impl.numBlocks) {fuel : ℕ}
    {blocks : List ℕ} (front : ℕ → Finset ℕ) (hblocks : ∀ b ∈ blocks, b < impl.numBlocks)
    (hfuel : impl.numBlocks ≤ fuel) :
  ∃ front', blocks.foldlM (impl.calcDomFrontier fuel immDom) front = some front' ∧
    ∀ b x, x ∈ front' b ↔ x ∈ front b ∨ (x ∈ blocks ∧ InFrontier impl b x)
  := by
  induction blocks generalizing front with
  | nil => exact ⟨front, rfl, by simp⟩
  | cons block blocks ih =>
      obtain ⟨front₁, hfront₁, hmem₁⟩ :=
        h.calcDomFrontier hall front (hblocks block List.mem_cons_self) hfuel
      obtain ⟨front₂, hfront₂, hmem₂⟩ :=
        ih front₁ (fun b hb => hblocks b (List.mem_cons_of_mem _ hb))
      refine ⟨front₂, ?_, ?_⟩
      · rw [List.foldlM_cons, hfront₁]
        exact hfront₂
      · intro b x
        rw [hmem₂, hmem₁, List.mem_cons]
        constructor
        · rintro ((hx | ⟨rfl, hin⟩) | ⟨hx, hin⟩)
          · exact Or.inl hx
          · exact Or.inr ⟨Or.inl rfl, hin⟩
          · exact Or.inr ⟨Or.inr hx, hin⟩
        · rintro (hx | ⟨rfl | hx, hin⟩)
          · exact Or.inl (Or.inl hx)
          · exact Or.inl (Or.inr ⟨rfl, hin⟩)
          · exact Or.inr ⟨hx, hin⟩

end IdomSound

/-! ### The walk of the tree -/

/-- The blocks below `b` in the dominance tree. -/
def Below (impl : FunctionImpl ι κ) (b x : ℕ) : Prop :=
  x < impl.numBlocks ∧ impl.Reachable x ∧ impl.Dom b x

/-- The children of every block are the blocks it is the immediate dominator of. -/
structure ChildrenExact (impl : FunctionImpl ι κ) (children : ℕ → List ℕ) : Prop where
  mem : ∀ {b c}, b < impl.numBlocks →
    (c ∈ children b ↔ c < impl.numBlocks ∧ impl.Reachable c ∧ ImmDom impl.Edge 0 b c)
  nodup : ∀ {b}, b < impl.numBlocks → (children b).Nodup

theorem foldl_addChild (immDom : ℕ → Option ℕ) (blocks : List ℕ) (children : ℕ → List ℕ) (b : ℕ) :
  blocks.foldl (addChild immDom) children b =
    children b ++ blocks.filter (fun c => immDom c = some b)
  := by
  induction blocks generalizing children with
  | nil => simp
  | cons c blocks ih =>
      rw [List.foldl_cons, ih]
      unfold addChild
      cases hc : immDom c with
      | none => simp [hc]
      | some d =>
          by_cases hd : b = d
          · subst hd
            simp [hc]
          · simp [hc, Function.update_of_ne hd, Ne.symm hd]

theorem foldl_update {α : Type} (a : α) (blocks : List ℕ) (f : ℕ → α) (b : ℕ) :
  blocks.foldl (fun f c => Function.update f c a) f b = if b ∈ blocks then a else f b
  := by
  induction blocks generalizing f with
  | nil => simp
  | cons c blocks ih =>
      rw [List.foldl_cons, ih]
      by_cases hb : b = c
      · subst hb
        simp
      · simp [hb]

/-- The children `calc_dom_children` finds once the start block has no immediate dominator. -/
theorem IdomSound.childrenExact {immDom : ℕ → Option ℕ} (h : IdomSound impl immDom)
    (hall : IdomComplete impl immDom impl.numBlocks) {s : DomInfo}
    (hs : s.immDom = Function.update immDom 0 none) :
  ChildrenExact impl (impl.calcDomChildren s).domChildren
  := by
  have heq : ∀ b, b < impl.numBlocks → (impl.calcDomChildren s).domChildren b =
      (List.range impl.numBlocks).filter (fun c => s.immDom c = some b) := by
    intro b hb
    simp only [calcDomChildren, foldl_addChild, foldl_update, List.mem_range, hb, if_true,
      List.nil_append]
  constructor
  · intro b c hb
    rw [heq b hb, List.mem_filter, List.mem_range, decide_eq_true_iff, hs]
    apply and_congr_right
    intro hc
    by_cases hzero : c = 0
    · subst hzero
      have hno : ¬ImmDom impl.Edge 0 b 0 := not_immDom_entry b
      simp [hno]
    · rw [Function.update_of_ne hzero]
      constructor
      · intro hd
        obtain ⟨hreach, himm, -⟩ := h.immDom hzero hc hd
        exact ⟨hreach, himm⟩
      · rintro ⟨hreach, himm⟩
        obtain ⟨d, hd⟩ := Option.isSome_iff_exists.mp (hall c hc hc hreach)
        rw [hd, (h.immDom hzero hc hd).2.1.eq himm hreach]
  · intro b hb
    rw [heq b hb]
    exact List.nodup_range.filter _

/-- A block below another one is below one of its children. -/
theorem exists_child {children : ℕ → List ℕ} {immDom : ℕ → Option ℕ} (h : IdomSound impl immDom)
    (hall : IdomComplete impl immDom impl.numBlocks) (hch : ChildrenExact impl children) {b x : ℕ}
    (hb : b < impl.numBlocks) (hx : Below impl b x) (hne : x ≠ b) :
  ∃ c ∈ children b, Below impl c x
  := by
  induction x using Nat.strong_induction_on with
  | _ x ih =>
      obtain ⟨hxn, hreach, hdom⟩ := hx
      have hzero : x ≠ 0 := by
        rintro rfl
        exact hne (List.mem_singleton.mp (hdom [0] Path.entry)).symm
      obtain ⟨d, hd, -, hlt, hiff⟩ := h.exists_immDom hxn (hall x hxn hxn hreach) hzero
      have himm := (h.immDom hzero hxn hd).2.1
      by_cases hdb : d = b
      · subst hdb
        exact ⟨x, (hch.mem hb).mpr ⟨hxn, hreach, himm⟩, hxn, hreach, Flow.Dom.refl x⟩
      · have hbd : Below impl b d :=
          ⟨hlt.trans hxn, himm.2.1.reachable hreach, (hiff b).mpr ⟨hdom, Ne.symm hne⟩⟩
        obtain ⟨c, hc, -, -, hcd⟩ := ih d hlt hbd hdb
        exact ⟨c, hc, hxn, hreach, hcd.trans himm.2.1⟩

/-- A child is below its parent, and what is below it is not the parent. -/
theorem ChildrenExact.below {children : ℕ → List ℕ} (hch : ChildrenExact impl children)
    {b c x : ℕ} (hb : b < impl.numBlocks) (hc : c ∈ children b) (hx : Below impl c x) :
  Below impl b x ∧ ¬impl.Dom x b ∧ b < c
  := by
  obtain ⟨hcn, hreach, himm⟩ := (hch.mem hb).mp hc
  have hlt : b < c := impl.ordered.lt_of_dom hreach himm.2.1 himm.1
  refine ⟨⟨hx.1, hx.2.1, himm.2.1.trans hx.2.2⟩, ?_, hlt⟩
  intro hxb
  exact impl.ordered.not_dom_of_gt (himm.2.1.reachable hreach) hlt (hx.2.2.trans hxb)

/-- Different children have nothing below them in common. -/
theorem ChildrenExact.disjoint {children : ℕ → List ℕ} (hch : ChildrenExact impl children)
    {b c c' x : ℕ} (hb : b < impl.numBlocks) (hc : c ∈ children b) (hc' : c' ∈ children b)
    (hne : c ≠ c') (hx : impl.Reachable x) (hdom : impl.Dom c x) (hdom' : impl.Dom c' x) :
  False
  := by
  have hno : ∀ d d', d ∈ children b → d' ∈ children b → d ≠ d' → ¬impl.Dom d d' := by
    intro d d' hd hd' hdd hdom
    obtain ⟨hdn, hreach, -⟩ := (hch.mem hb).mp hd
    obtain ⟨-, -, himm⟩ := (hch.mem hb).mp hd'
    exact (hch.below hb hd ⟨hdn, hreach, Flow.Dom.refl d⟩).2.1 (himm.2.2 d hdom hdd)
  rcases le_total c c' with hle | hle
  · exact hno c c' hc hc' hne (impl.ordered.dom_of_le hx hdom hdom' hle)
  · exact hno c' c hc' hc hne.symm (impl.ordered.dom_of_le hx hdom' hdom hle)

/-- What a walk over the blocks `P` does that takes the indices from `i` to `j`. -/
structure Walked (impl : FunctionImpl ι κ) (P : ℕ → Prop) (s s' : DomInfo) (i j : ℕ) : Prop where
  immDom : s'.immDom = s.immDom
  domFrontier : s'.domFrontier = s.domFrontier
  domChildren : s'.domChildren = s.domChildren
  other : ∀ {x}, ¬P x →
    s'.domPreIndex x = s.domPreIndex x ∧ s'.domPostIndex x = s.domPostIndex x
  index : ∀ {x}, P x →
    i ≤ s'.domPreIndex x ∧ s'.domPreIndex x < s'.domPostIndex x ∧ s'.domPostIndex x < j
  dominates : ∀ {a x}, P a → P x → (nirBlockDominates s' a x ↔ impl.Dom a x)

theorem nirBlockDominates_iff {s : DomInfo} {a b : ℕ} :
  nirBlockDominates s a b ↔
    s.domPreIndex a ≤ s.domPreIndex b ∧ s.domPostIndex b ≤ s.domPostIndex a
  := by
  simp [nirBlockDominates]

theorem Walked.refl (s : DomInfo) (i : ℕ) :
  Walked impl (fun _ => False) s s i i
  := ⟨rfl, rfl, rfl, fun _ => ⟨rfl, rfl⟩, fun h => h.elim, fun h => h.elim⟩

/-- Walks over blocks that do not dominate each other follow each other. -/
theorem Walked.trans {P Q : ℕ → Prop} {s s' s'' : DomInfo} {i m j : ℕ}
    (h : Walked impl P s s' i m) (h' : Walked impl Q s' s'' m j) (him : i ≤ m) (hmj : m ≤ j)
    (hPQ : ∀ x, P x → ¬Q x) (hdom : ∀ a x, P a → Q x → ¬impl.Dom a x ∧ ¬impl.Dom x a) :
  Walked impl (fun x => P x ∨ Q x) s s'' i j
  := by
  have hkeep : ∀ x, P x →
      s''.domPreIndex x = s'.domPreIndex x ∧ s''.domPostIndex x = s'.domPostIndex x :=
    fun x hx => h'.other (hPQ x hx)
  -- the indices of `P` come before those of `Q`
  have hP : ∀ x, P x → i ≤ s''.domPreIndex x ∧ s''.domPreIndex x < s''.domPostIndex x ∧
      s''.domPostIndex x < m := by
    intro x hx
    rw [(hkeep x hx).1, (hkeep x hx).2]
    exact h.index hx
  constructor
  · rw [h'.immDom, h.immDom]
  · rw [h'.domFrontier, h.domFrontier]
  · rw [h'.domChildren, h.domChildren]
  · intro x hx
    rw [not_or] at hx
    rw [(h'.other hx.2).1, (h'.other hx.2).2]
    exact h.other hx.1
  · rintro x (hx | hx)
    · have := hP x hx
      omega
    · have := h'.index hx
      omega
  · rintro a x (ha | ha) (hx | hx)
    · rw [← h.dominates ha hx, nirBlockDominates_iff, nirBlockDominates_iff, (hkeep a ha).1,
        (hkeep a ha).2, (hkeep x hx).1, (hkeep x hx).2]
    · rw [nirBlockDominates_iff]
      have := hP a ha
      have := h'.index hx
      have hno := (hdom a x ha hx).1
      constructor
      · omega
      · exact fun hd => absurd hd hno
    · rw [nirBlockDominates_iff]
      have := hP x hx
      have := h'.index ha
      have hno := (hdom x a hx ha).2
      constructor
      · omega
      · exact fun hd => absurd hd hno
    · exact h'.dominates ha hx

/-- A walk over all that is below the children of a block becomes one over what is below it. -/
theorem Walked.node {P : ℕ → Prop} {s s' : DomInfo} {b i j : ℕ} (hb : Below impl b b)
    (h : Walked impl P { s with domPreIndex := Function.update s.domPreIndex b i } s' (i + 1) j)
    (hij : i + 1 ≤ j) (hP : ∀ x, P x ↔ Below impl b x ∧ x ≠ b) :
  Walked impl (Below impl b) s { s' with domPostIndex := Function.update s'.domPostIndex b j }
    i (j + 1)
  := by
  have hPb : ¬P b := fun hPb => ((hP b).mp hPb).2 rfl
  have hpre : s'.domPreIndex b = i := by
    rw [(h.other hPb).1]
    simp
  have hsplit : ∀ x, Below impl b x → x = b ∨ (P x ∧ x ≠ b) := by
    intro x hx
    by_cases hxb : x = b
    · exact Or.inl hxb
    · exact Or.inr ⟨(hP x).mpr ⟨hx, hxb⟩, hxb⟩
  constructor
  · exact h.immDom
  · exact h.domFrontier
  · exact h.domChildren
  · intro x hx
    have hxb : x ≠ b := by
      rintro rfl
      exact hx hb
    obtain ⟨h1, h2⟩ := h.other (x := x) (fun hPx => hx ((hP x).mp hPx).1)
    simp only [Function.update_of_ne hxb] at h1 ⊢
    exact ⟨h1, h2⟩
  · intro x hx
    rcases hsplit x hx with rfl | ⟨hPx, hxb⟩
    · simp only [hpre, Function.update_self]
      omega
    · have := h.index hPx
      simp only [Function.update_of_ne hxb]
      omega
  · intro a x ha hx
    rw [nirBlockDominates_iff]
    rcases hsplit a ha with rfl | ⟨hPa, hab⟩
    · -- everything is between the indices of `b`
      refine ⟨fun _ => hx.2.2, fun _ => ?_⟩
      rcases hsplit x hx with rfl | ⟨hPx, hxb⟩
      · exact ⟨Nat.le_refl _, Nat.le_refl _⟩
      · have := h.index hPx
        simp only [hpre, Function.update_self, Function.update_of_ne hxb]
        omega
    · rcases hsplit x hx with rfl | ⟨hPx, hxb⟩
      · have := h.index hPa
        simp only [hpre]
        refine ⟨by omega, ?_⟩
        intro hdom
        obtain ⟨l, hl⟩ := ha.2.1
        exact absurd (Flow.Dom.antisymm hl hdom ha.2.2) hab
      · rw [← h.dominates hPa hPx, nirBlockDominates_iff]
        simp only [Function.update_of_ne hab, Function.update_of_ne hxb]

/-- The walks from children of a block follow each other. -/
theorem walked_foldlM {children : ℕ → List ℕ} (hch : ChildrenExact impl children) {fuel b : ℕ}
    (hb : b < impl.numBlocks)
    (hwalk : ∀ c ∈ children b, ∀ s i, s.domChildren = children →
      ∃ s' j, calcDfsIndicies fuel (s, i) c = some (s', j) ∧ i < j ∧
        Walked impl (Below impl c) s s' i j)
    {l : List ℕ} (hnodup : l.Nodup) (hl : ∀ c ∈ l, c ∈ children b) {s : DomInfo} {i : ℕ}
    (hs : s.domChildren = children) :
  ∃ s' j, l.foldlM (calcDfsIndicies fuel) (s, i) = some (s', j) ∧ i ≤ j ∧
    Walked impl (fun x => ∃ c ∈ l, Below impl c x) s s' i j
  := by
  induction l generalizing s i with
  | nil =>
      refine ⟨s, i, rfl, Nat.le_refl i, ?_⟩
      simpa using Walked.refl s i
  | cons c l ih =>
      rw [List.nodup_cons] at hnodup
      have hc : c ∈ children b := hl c List.mem_cons_self
      have htail : ∀ d ∈ l, d ∈ children b := fun d hd => hl d (List.mem_cons_of_mem _ hd)
      have hne : ∀ d ∈ l, c ≠ d := by
        rintro d hd rfl
        exact hnodup.1 hd
      obtain ⟨s₁, m, hs₁, him, hw₁⟩ := hwalk c hc s i hs
      obtain ⟨s₂, j, hs₂, hmj, hw₂⟩ := ih hnodup.2 htail (hw₁.domChildren.trans hs) (i := m)
      refine ⟨s₂, j, ?_, by omega, ?_⟩
      · rw [List.foldlM_cons, hs₁]
        exact hs₂
      · have hw := hw₁.trans hw₂ him.le hmj ?_ ?_
        · simpa only [List.exists_mem_cons_iff] using hw
        · rintro x hx ⟨d, hd, hdx⟩
          exact hch.disjoint hb hc (htail d hd) (hne d hd) hx.2.1 hx.2.2 hdx.2.2
        · rintro a x ha ⟨d, hd, hdx⟩
          constructor
          · intro hdom
            exact hch.disjoint hb hc (htail d hd) (hne d hd) hdx.2.1 (ha.2.2.trans hdom) hdx.2.2
          · intro hdom
            exact hch.disjoint hb hc (htail d hd) (hne d hd) ha.2.1 ha.2.2 (hdx.2.2.trans hdom)

/-- The walk from a block goes over what is below it. -/
theorem walked_calcDfsIndicies {immDom : ℕ → Option ℕ} (h : IdomSound impl immDom)
    (hall : IdomComplete impl immDom impl.numBlocks) {children : ℕ → List ℕ}
    (hch : ChildrenExact impl children) {fuel b i : ℕ} {s : DomInfo} (hs : s.domChildren = children)
    (hb : b < impl.numBlocks) (hreach : impl.Reachable b) (hfuel : impl.numBlocks ≤ fuel + b) :
  ∃ s' j, calcDfsIndicies fuel (s, i) b = some (s', j) ∧ i < j ∧
    Walked impl (Below impl b) s s' i j
  := by
  induction fuel generalizing b i s with
  | zero => omega
  | succ fuel ih =>
      have hwalk : ∀ c ∈ children b, ∀ s i, s.domChildren = children →
          ∃ s' j, calcDfsIndicies fuel (s, i) c = some (s', j) ∧ i < j ∧
            Walked impl (Below impl c) s s' i j := by
        intro c hc s i hs
        obtain ⟨hcn, hcreach, -⟩ := (hch.mem hb).mp hc
        have hlt := (hch.below hb hc ⟨hcn, hcreach, Flow.Dom.refl c⟩).2.2
        exact ih hs hcn hcreach (by omega)
      obtain ⟨s₁, j, hs₁, hij, hw⟩ := walked_foldlM hch hb hwalk (hch.nodup hb) (fun c hc => hc)
        (s := { s with domPreIndex := Function.update s.domPreIndex b i }) (i := i + 1) hs
      refine ⟨_, j + 1, ?_, by omega, hw.node ⟨hb, hreach, Flow.Dom.refl b⟩ hij ?_⟩
      · rw [← hs] at hs₁
        simp only [calcDfsIndicies, hs₁]
        rfl
      · intro x
        constructor
        · rintro ⟨c, hc, hx⟩
          obtain ⟨hbx, hnot, -⟩ := hch.below hb hc hx
          refine ⟨hbx, ?_⟩
          rintro rfl
          exact hnot (Flow.Dom.refl x)
        · rintro ⟨hx, hne⟩
          exact exists_child h hall hch hb hx hne

/-! ### All fields -/

theorem foldl_initBlock_immDom (blocks : List ℕ) (s : DomInfo) (b : ℕ) :
  (blocks.foldl initBlock s).immDom b =
    if b ∈ blocks then (if b = 0 then some b else none) else s.immDom b
  := by
  induction blocks generalizing s with
  | nil => simp
  | cons c blocks ih =>
      rw [List.foldl_cons, ih]
      by_cases hb : b = c
      · subst hb
        simp [initBlock]
      · simp [initBlock, hb]

theorem foldl_initBlock_domFrontier (blocks : List ℕ) (s : DomInfo) (b : ℕ) :
  (blocks.foldl initBlock s).domFrontier b = if b ∈ blocks then ∅ else s.domFrontier b
  := by
  induction blocks generalizing s with
  | nil => simp
  | cons c blocks ih =>
      rw [List.foldl_cons, ih]
      by_cases hb : b = c
      · subst hb
        simp [initBlock]
      · simp [initBlock, hb]

/-- The blocks of the body have the fields that their names promise. -/
structure DomExact (impl : FunctionImpl ι κ) (s : DomInfo) : Prop where
  immDom : ∀ {b}, b < impl.numBlocks → impl.Reachable b →
    ∀ d, s.immDom b = some d ↔ ImmDom impl.Edge 0 d b
  exists_immDom : ∀ {b}, b < impl.numBlocks → impl.Reachable b → b ≠ 0 →
    ∃ d, s.immDom b = some d
  immDom_of_not_reachable : ∀ {b}, b < impl.numBlocks → ¬impl.Reachable b → s.immDom b = none
  dominates : ∀ {a b}, a < impl.numBlocks → b < impl.numBlocks → impl.Reachable a →
    impl.Reachable b → (nirBlockDominates s a b ↔ impl.Dom a b)
  domFrontier : ∀ {b}, b < impl.numBlocks →
    ∀ x, x ∈ s.domFrontier b ↔ x < impl.numBlocks ∧ InFrontier impl b x

theorem numBlocks_pos (impl : FunctionImpl ι κ) :
  0 < impl.numBlocks
  := impl.body.numBlocks_pos

theorem idomSound_init (impl : FunctionImpl ι κ) (s₀ : DomInfo) :
  IdomSound impl ((List.range impl.numBlocks).foldl initBlock s₀).immDom
  := by
  constructor
  · rw [foldl_initBlock_immDom]
    simp [impl.numBlocks_pos]
  · intro b d hb hbn hd
    rw [foldl_initBlock_immDom, if_pos (List.mem_range.mpr hbn), if_neg hb] at hd
    cases hd

/-- With enough fuel, all fields are found, whatever they were before.  The end block keeps the
immediate dominator it had. -/
theorem domExact_calcDominanceImpl (impl : FunctionImpl ι κ) (s₀ : DomInfo) {fuel : ℕ}
    (hfuel : 2 * impl.numBlocks < fuel) :
  ∃ s, impl.calcDominanceImpl fuel s₀ = some s ∧ DomExact impl s ∧
    s.immDom impl.numBlocks = s₀.immDom impl.numBlocks
  := by
  have hpos := impl.numBlocks_pos
  obtain ⟨immDom, himm, hsound, hall, hother⟩ :=
    (idomSound_init impl s₀).calcPasses (show 2 ≤ fuel by omega) hfuel
  obtain ⟨front, hfront, hmem⟩ := hsound.foldlM_calcDomFrontier hall
    ((List.range impl.numBlocks).foldl initBlock s₀).domFrontier
    (fun b hb => List.mem_range.mp hb) (show impl.numBlocks ≤ fuel by omega)
  have hch := hsound.childrenExact hall (s := { (List.range impl.numBlocks).foldl initBlock s₀ with
    immDom := Function.update immDom 0 none, domFrontier := front }) rfl
  obtain ⟨s, j, hs, -, hw⟩ := walked_calcDfsIndicies hsound hall hch (i := 0) rfl hpos
    reachable_zero (show impl.numBlocks ≤ fuel + 0 by omega)
  refine ⟨s, ?_, ?_, ?_⟩
  · simp only [calcDominanceImpl, himm, hfront, Option.bind_eq_bind, Option.bind_some, hs]
  · have hdom : s.immDom = Function.update immDom 0 none := hw.immDom
    have hfr : s.domFrontier = front := hw.domFrontier
    constructor
    · intro b hb hreach d
      rw [hdom]
      by_cases hzero : b = 0
      · subst hzero
        simp [not_immDom_entry]
      · rw [Function.update_of_ne hzero]
        constructor
        · intro hd
          exact (hsound.immDom hzero hb hd).2.1
        · intro hd
          obtain ⟨e, he⟩ := Option.isSome_iff_exists.mp (hall b hb hb hreach)
          rw [he, (hsound.immDom hzero hb he).2.1.eq hd hreach]
    · intro b hb hreach hzero
      rw [hdom, Function.update_of_ne hzero]
      exact Option.isSome_iff_exists.mp (hall b hb hb hreach)
    · intro b hb hreach
      rw [hdom]
      have hzero : b ≠ 0 := by
        rintro rfl
        exact hreach reachable_zero
      rw [Function.update_of_ne hzero, ← Option.not_isSome_iff_eq_none]
      intro hsome
      exact hreach (hsound.reachable hb hsome)
    · intro a b ha hb hra hrb
      have hzero : ∀ x, impl.Dom 0 x := by
        intro x l hl
        induction hl with
        | entry => exact List.mem_singleton_self 0
        | step _ _ ih => exact List.mem_cons_of_mem _ ih
      exact hw.dominates ⟨ha, hra, hzero a⟩ ⟨hb, hrb, hzero b⟩
    · intro b hb x
      rw [hfr, hmem, foldl_initBlock_domFrontier, if_pos (List.mem_range.mpr hb), List.mem_range]
      simp
  · have hdom : s.immDom = Function.update immDom 0 none := hw.immDom
    rw [hdom, Function.update_of_ne hpos.ne', hother _ (Nat.le_refl _), foldl_initBlock_immDom,
      if_neg (by simp)]

/-- The passes of `nir_calc_dominance_impl` end, and for the blocks of the body that can be reached
they give the immediate dominators, a test for dominance, and the dominance frontiers. -/
theorem calcDominanceImpl_exact (impl : FunctionImpl ι κ) (s₀ : DomInfo) :
  ∃ n, ∀ fuel ≥ n, ∃ s, impl.calcDominanceImpl fuel s₀ = some s ∧
    (∀ b, b < impl.numBlocks → impl.Reachable b →
      ∀ d, s.immDom b = some d ↔ ImmDom impl.Edge 0 d b) ∧
    (∀ a b, a < impl.numBlocks → b < impl.numBlocks → impl.Reachable a → impl.Reachable b →
      (nirBlockDominates s a b ↔ impl.Dom a b)) ∧
    (∀ b, b < impl.numBlocks → impl.Reachable b → ∀ x, x ∈ s.domFrontier b ↔
      x < impl.numBlocks ∧ impl.Reachable x ∧
        (∃ p, impl.Edge p x ∧ impl.Reachable p ∧ impl.Dom b p) ∧ ¬(impl.Dom b x ∧ b ≠ x))
  := by
  use 2 * impl.numBlocks + 1
  intro fuel hfuel
  obtain ⟨s, hs, hexact, -⟩ := impl.domExact_calcDominanceImpl s₀ hfuel
  refine ⟨s, hs, ?_, ?_, ?_⟩
  · intro b hb hreach
    exact hexact.immDom hb hreach
  · intro a b ha hb hra hrb
    exact hexact.dominates ha hb hra hrb
  · intro b hb _ x
    rw [hexact.domFrontier hb x]
    apply and_congr_right
    intro _
    constructor
    · intro hin
      exact ⟨Flow.InFrontier.reachable hin, hin⟩
    · exact fun hin => hin.2

/-- A function with one block, from which there is an edge to the end block. -/
def oneBlock : FunctionImpl Unit Unit where
  body := .block {}
  predecessors c := if c = 1 then [0] else []
  nodup c := by
    split_ifs <;> simp
  mem_predecessors := by
    intro p c
    by_cases hc : c = 1 <;>
      simp [hc, CfList.edges, CfList.numBlocks, Block.successors]

/-- The end block can be reached, but it is not among the blocks that get an immediate dominator. -/
theorem endBlock_without_immDom :
  ¬∀ s₀ : DomInfo, s₀.immDom = (fun _ => none) →
    ∃ n, ∀ fuel ≥ n, ∃ s, oneBlock.calcDominanceImpl fuel s₀ = some s ∧
      ∀ b, oneBlock.Reachable b → ∀ d, s.immDom b = some d ↔ ImmDom oneBlock.Edge 0 d b
  := by
  intro h
  obtain ⟨n, hn⟩ :=
    h ⟨fun _ => none, fun _ => ∅, fun _ => [], fun _ => 0, fun _ => 0⟩ rfl
  obtain ⟨s, hs, hall⟩ := hn (n + 3) (by omega)
  have hnum : oneBlock.numBlocks = 1 := rfl
  obtain ⟨s', hs', -, hend⟩ := oneBlock.domExact_calcDominanceImpl
    ⟨fun _ => none, fun _ => ∅, fun _ => [], fun _ => 0, fun _ => 0⟩
    (show 2 * oneBlock.numBlocks < n + 3 by omega)
  obtain rfl : s = s' := Option.some.inj (hs.symm.trans hs')
  have hnone : s.immDom 1 = none := hend
  have hedge : oneBlock.Edge 0 1 := List.mem_singleton_self 0
  have himm : ImmDom oneBlock.Edge 0 0 1 := by
    refine ⟨by simp, ?_, ?_⟩
    · intro l hl
      cases hl with
      | step hpath hb =>
          have hzero := List.mem_singleton.mp hb
          subst hzero
          exact List.mem_cons_of_mem _ hpath.mem
    · intro a ha hne
      have hmem := ha [1, 0] (Path.entry.step hedge)
      have hzero : a = 0 := by simpa [hne] using hmem
      rw [hzero]
      exact Flow.Dom.refl 0
  have hsome := (hall 1 (reachable_zero.step hedge) 0).mpr himm
  rw [hnone] at hsome
  cases hsome

end FunctionImpl

end Nir
