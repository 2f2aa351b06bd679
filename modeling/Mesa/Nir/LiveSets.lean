import Mesa.Nir.Liveness
import Mathlib.Tactic.Ring

/-!
# The live sets hold what is used

The worklist of `nir_live_ssa_defs_impl` gets empty, and then a def is live at the start of a block
just if control can get from there to a use of it before it is defined again.
-/

namespace Nir.Liveness

open Flow.Worklist (Problem State pushHead)
open Flow.Worklist.Problem (SettledAt Settled Closed Within Finite)

namespace Function

variable (F : Function)

/-! ### Indices -/

/-- Defs that are indexed have indices of their own. -/
theorem liveIndex_inj {d e : ℕ} (hd : F.liveIndex d ≠ 0) (h : F.liveIndex d = F.liveIndex e) :
  d = e
  := by
  have he : F.liveIndex e ≠ 0 := h ▸ hd
  unfold liveIndex at hd he h
  split at hd
  next hmem =>
    split at he
    next hmem' =>
      rw [if_pos hmem, if_pos hmem'] at h
      exact (List.idxOf_inj hmem).mp (Nat.succ_injective h)
    next => exact absurd rfl he
  next => exact absurd rfl hd

theorem liveIndex_lt (d : ℕ) :
  F.liveIndex d < F.numSsaDefs
  := by
  unfold liveIndex numSsaDefs
  split
  next hmem =>
    have hlt := List.idxOf_lt_length_of_mem hmem
    omega
  next => omega

variable {F}

/-! ### The sets of one instruction, one block and one edge -/

section Member

variable {d : ℕ} (hd : F.liveIndex d ≠ 0)

include hd

theorem mem_setSrcLive {live : Finset ℕ} {src : Src} :
  F.liveIndex d ∈ F.setSrcLive live src ↔ src = .ssa d ∨ F.liveIndex d ∈ live
  := by
  cases src with
  | reg r =>
      constructor
      · exact Or.inr
      · rintro (h | h)
        · exact absurd h Src.noConfusion
        · exact h
  | ssa e =>
      rw [setSrcLive, Src.ssa.injEq]
      split
      next he =>
        constructor
        · exact Or.inr
        · rintro (rfl | h)
          · exact absurd he hd
          · exact h
      next he =>
        rw [Finset.mem_insert]
        constructor
        · rintro (h | h)
          · exact Or.inl (F.liveIndex_inj hd h).symm
          · exact Or.inr h
        · rintro (rfl | h)
          · exact Or.inl rfl
          · exact Or.inr h

theorem mem_foldl_setSrcLive {live : Finset ℕ} {l : List Src} :
  F.liveIndex d ∈ l.foldl F.setSrcLive live ↔ .ssa d ∈ l ∨ F.liveIndex d ∈ live
  := by
  induction l generalizing live with
  | nil =>
      constructor
      · exact Or.inr
      · rintro (h | h)
        · exact absurd h List.not_mem_nil
        · exact h
  | cons src l ih =>
      rw [List.foldl_cons, ih, mem_setSrcLive hd, List.mem_cons, @eq_comm _ src, or_assoc,
        or_left_comm]

theorem mem_foldl_setSsaDefDead {live : Finset ℕ} {l : List ℕ} :
  F.liveIndex d ∈ l.foldl F.setSsaDefDead live ↔ d ∉ l ∧ F.liveIndex d ∈ live
  := by
  induction l generalizing live with
  | nil =>
      constructor
      · intro h
        exact ⟨List.not_mem_nil, h⟩
      · exact And.right
  | cons e l ih =>
      have hne : F.liveIndex d ≠ F.liveIndex e ↔ d ≠ e := by
        constructor
        · intro h heq
          exact h (congrArg F.liveIndex heq)
        · intro h heq
          exact h (F.liveIndex_inj hd heq)
      rw [List.foldl_cons, ih, setSsaDefDead, Finset.mem_erase, hne, List.mem_cons, not_or]
      tauto

/-- A def is live before an instruction that uses it, and before one that does not define it where
it is live behind it. -/
theorem mem_instrLive {i : Instr} {live : Finset ℕ} :
  F.liveIndex d ∈ F.instrLive i live ↔ .ssa d ∈ i.srcs ∨ d ∉ i.defs ∧ F.liveIndex d ∈ live
  := by
  unfold instrLive
  rw [mem_foldl_setSrcLive hd, mem_foldl_setSsaDefDead hd]

theorem mem_acrossEdge {pred succ : ℕ} {live : Finset ℕ} :
  F.liveIndex d ∈ F.acrossEdge pred succ live
    ↔ (∃ phi ∈ (F.block succ).phis, phi.srcFrom pred = some (.ssa d)) ∨
      (∀ phi ∈ (F.block succ).phis, phi.dest ≠ d) ∧ F.liveIndex d ∈ live
  := by
  unfold acrossEdge
  rw [mem_foldl_setSrcLive hd, mem_foldl_setSsaDefDead hd, List.mem_filterMap, List.mem_map]
  simp only [not_exists, not_and, ne_eq]

end Member

/-- All that gets into a set is an index. -/
theorem mem_setSrcLive_lt {live : Finset ℕ} {src : Src}
  (h : ∀ v ∈ live, v < F.numSsaDefs) :
  ∀ v ∈ F.setSrcLive live src, v < F.numSsaDefs
  := by
  intro v hv
  cases src with
  | reg r => exact h v hv
  | ssa e =>
      rw [setSrcLive] at hv
      split at hv
      next => exact h v hv
      next =>
        rcases Finset.mem_insert.mp hv with rfl | hv
        · exact F.liveIndex_lt e
        · exact h v hv

theorem mem_foldl_setSrcLive_lt {live : Finset ℕ} {l : List Src}
  (h : ∀ v ∈ live, v < F.numSsaDefs) :
  ∀ v ∈ l.foldl F.setSrcLive live, v < F.numSsaDefs
  := by
  induction l generalizing live with
  | nil => exact h
  | cons src l ih => exact ih (mem_setSrcLive_lt h)

theorem mem_foldl_setSsaDefDead_lt {live : Finset ℕ} {l : List ℕ}
  (h : ∀ v ∈ live, v < F.numSsaDefs) :
  ∀ v ∈ l.foldl F.setSsaDefDead live, v < F.numSsaDefs
  := by
  induction l generalizing live with
  | nil => exact h
  | cons e l ih =>
      apply ih
      intro v hv
      exact h v (Finset.mem_of_mem_erase hv)

theorem mem_foldr_instrLive_lt {live : Finset ℕ} {l : List Instr}
  (h : ∀ v ∈ live, v < F.numSsaDefs) :
  ∀ v ∈ l.foldr F.instrLive live, v < F.numSsaDefs
  := by
  induction l with
  | nil => exact h
  | cons i l ih => exact mem_foldl_setSrcLive_lt (mem_foldl_setSsaDefDead_lt ih)

/-! ### Uses by places -/

theorem usedFrom_cons {d b : ℕ} {i : Instr} {rest : List Instr} :
  F.UsedFrom d b (i :: rest) ↔ .ssa d ∈ i.srcs ∨ d ∉ i.defs ∧ F.UsedFrom d b rest
  := by
  constructor
  · intro h
    cases h with
    | here hsrc => exact Or.inl hsrc
    | next hdef hrest => exact Or.inr ⟨hdef, hrest⟩
  · rintro (h | ⟨hdef, hrest⟩)
    · exact UsedFrom.here h
    · exact UsedFrom.next hdef hrest

theorem usedFrom_nil {d b : ℕ} :
  F.UsedFrom d b [] ↔ (F.block b).condition = some (.ssa d) ∨ F.UsedOut d b
  := by
  constructor
  · intro h
    cases h with
    | condition hcond => exact Or.inl hcond
    | phi hc hphi hsrc => exact Or.inr ⟨_, hc, Or.inl ⟨_, hphi, hsrc⟩⟩
    | edge hc hdest huse => exact Or.inr ⟨_, hc, Or.inr ⟨hdest, huse⟩⟩
  · rintro (h | ⟨c, hc, ⟨phi, hphi, hsrc⟩ | ⟨hdest, huse⟩⟩)
    · exact UsedFrom.condition h
    · exact UsedFrom.phi hc hphi hsrc
    · exact UsedFrom.edge hc hdest huse

/-- A def that is live before the rest of a block is used from there, if it is used beyond the
block wherever it is live at its end. -/
theorem usedFrom_of_mem {d : ℕ} (hd : F.liveIndex d ≠ 0) {b : ℕ} {live : Finset ℕ}
  (hout : F.liveIndex d ∈ live → F.UsedOut d b) {rest : List Instr}
  (h : F.liveIndex d ∈ rest.foldr F.instrLive
    ((F.block b).condition.toList.foldl F.setSrcLive live)) :
  F.UsedFrom d b rest
  := by
  induction rest with
  | nil =>
      rw [usedFrom_nil]
      rw [List.foldr_nil, mem_foldl_setSrcLive hd, Option.mem_toList] at h
      rcases h with h | h
      · exact Or.inl h
      · exact Or.inr (hout h)
  | cons i rest ih =>
      rw [usedFrom_cons]
      rw [List.foldr_cons, mem_instrLive hd] at h
      rcases h with h | ⟨hdef, h⟩
      · exact Or.inl h
      · exact Or.inr ⟨hdef, ih h⟩

/-! ### The worklist -/

/-- All blocks are on the first worklist, once. -/
theorem initialWorklist_eq :
  F.initialWorklist = (List.range F.blocks.length).reverse
  := by
  unfold initialWorklist
  induction F.blocks.length with
  | zero => rfl
  | succ n ih =>
      rw [List.range_succ, List.foldl_append, ih, List.foldl_cons, List.foldl_nil, pushHead,
        if_neg, List.reverse_append, List.reverse_singleton, List.singleton_append]
      rw [List.mem_reverse, List.mem_range]
      exact Nat.lt_irrefl n

/-- A block that is not in the list is empty. -/
theorem block_of_le {b : ℕ} (h : F.blocks.length ≤ b) :
  F.block b = ⟨[], [], [], [], none⟩
  := by
  unfold block
  rw [List.getD_eq_getElem?_getD, List.getElem?_eq_none h, Option.getD_none]

/-- An edge leaves a block of the list. -/
theorem lt_of_mem_successors {b c : ℕ} (h : c ∈ (F.block b).successors) :
  b < F.blocks.length
  := by
  by_contra hlt
  rw [block_of_le (Nat.le_of_not_lt hlt)] at h
  exact absurd h List.not_mem_nil

/-- The sets hold indices, and edges come from blocks of the list. -/
theorem finite (hF : F.Valid) :
  Finite F.problem (Finset.range F.blocks.length) (Finset.range F.numSsaDefs)
  := by
  constructor
  · constructor
    · intro b X hX v hv
      rw [Finset.mem_coe, Finset.mem_range]
      apply mem_foldr_instrLive_lt _ v hv
      apply mem_foldl_setSrcLive_lt
      intro u hu
      exact Finset.mem_range.mp (hX u hu)
    · intro b X hX p _ v hv
      rw [Finset.mem_coe, Finset.mem_range]
      apply mem_foldl_setSrcLive_lt _ v hv
      apply mem_foldl_setSsaDefDead_lt
      intro u hu
      exact Finset.mem_range.mp (hX u hu)
  · intro b _ p hp
    rw [Finset.mem_range]
    exact lt_of_mem_successors ((hF.edges p b).mp hp)

/-- The loop ends. -/
theorem liveSsaDefsImpl_worklist (hF : F.Valid) :
  F.liveSsaDefsImpl.worklist = []
  := by
  apply Problem.worklist_iterate (finite hF)
  · constructor
    · intro b v hv
      exact absurd hv (Finset.notMem_empty v)
    · intro b v hv
      exact absurd hv (Finset.notMem_empty v)
  · intro b hb
    rw [Finset.mem_range, ← List.mem_range, ← List.mem_reverse, ← initialWorklist_eq]
    exact hb
  · unfold Problem.potential Problem.init
    simp only [Finset.sdiff_empty, Finset.card_range, Finset.sum_const, nsmul_eq_mul, Nat.cast_id]
    rw [initialWorklist_eq, List.length_reverse, List.length_range]
    exact Nat.le_of_eq (by ring)

/-- The sets of the defs that are used from the start of a block, and beyond it. -/
theorem closed (hF : F.Valid) :
  F.problem.Closed
    (fun b => {v | ∀ d, F.liveIndex d = v → v ≠ 0 → F.UsedFrom d b (F.block b).instrs})
    (fun b => {v | ∀ d, F.liveIndex d = v → v ≠ 0 → F.UsedOut d b})
  := by
  constructor
  · rintro b X hX v hv d rfl hd
    apply usedFrom_of_mem hd _ hv
    intro hmem
    exact hX _ hmem d rfl hd
  · rintro b X hX p hp v hv d rfl hd
    have hmem : F.liveIndex d ∈ F.acrossEdge p b X := hv
    rw [mem_acrossEdge hd] at hmem
    use b, (hF.edges p b).mp hp
    rcases hmem with hphi | ⟨hdest, h⟩
    · exact Or.inl hphi
    · exact Or.inr ⟨hdest, hX _ h d rfl hd⟩

/-- No def is found live that is not used. -/
theorem within (hF : F.Valid) :
  Within
    (fun b => {v | ∀ d, F.liveIndex d = v → v ≠ 0 → F.UsedFrom d b (F.block b).instrs})
    (fun b => {v | ∀ d, F.liveIndex d = v → v ≠ 0 → F.UsedOut d b}) F.liveSsaDefsImpl
  := by
  apply Problem.within_iterate (closed hF)

/-- In the end the sets of all blocks are up to date. -/
theorem settled (hF : F.Valid) (b : ℕ) :
  SettledAt F.problem F.liveSsaDefsImpl b
  := by
  have hall : Settled F.problem F.liveSsaDefsImpl := by
    apply Problem.settled_iterate
    intro c hc
    rw [initialWorklist_eq, List.mem_reverse, List.mem_range, not_lt] at hc
    have hempty := block_of_le hc
    constructor
    · change ∅ = F.blockLive c ∅
      rw [blockLive, hempty]
      rfl
    · intro p hp
      change p ∈ (F.block c).predecessors at hp
      rw [hempty] at hp
      exact absurd hp List.not_mem_nil
  apply hall
  rw [liveSsaDefsImpl_worklist hF]
  exact List.not_mem_nil

/-- A def that is used from a place is found live there. -/
theorem mem_of_usedFrom (hF : F.Valid) {d : ℕ} (hd : F.liveIndex d ≠ 0) {b : ℕ}
  {rest : List Instr} (h : F.UsedFrom d b rest) :
  F.liveIndex d ∈ rest.foldr F.instrLive
    ((F.block b).condition.toList.foldl F.setSrcLive (F.liveSsaDefsImpl.stop b))
  := by
  have hout : ∀ {b c : ℕ}, c ∈ (F.block b).successors →
      F.liveIndex d ∈ F.acrossEdge b c (F.liveSsaDefsImpl.start c) →
      F.liveIndex d ∈ F.liveSsaDefsImpl.stop b := by
    intro b c hc hmem
    exact (settled hF c).across b ((hF.edges b c).mpr hc) hmem
  induction h with
  | here hsrc =>
      rw [List.foldr_cons, mem_instrLive hd]
      exact Or.inl hsrc
  | next hdef _ ih =>
      rw [List.foldr_cons, mem_instrLive hd]
      exact Or.inr ⟨hdef, ih⟩
  | condition hcond =>
      rw [List.foldr_nil, mem_foldl_setSrcLive hd, Option.mem_toList]
      exact Or.inl hcond
  | phi hc hphi hsrc =>
      rw [List.foldr_nil, mem_foldl_setSrcLive hd]
      right
      apply hout hc
      rw [mem_acrossEdge hd]
      exact Or.inl ⟨_, hphi, hsrc⟩
  | @edge b c hc hdest _ ih =>
      rw [List.foldr_nil, mem_foldl_setSrcLive hd]
      right
      apply hout hc
      rw [mem_acrossEdge hd]
      right
      use hdest
      rw [(settled hF c).start]
      exact ih

/-- A def is in the live-out set of a block if and only if it is used beyond it. -/
theorem mem_stop_iff (hF : F.Valid) {d : ℕ} (hd : F.liveIndex d ≠ 0) {b : ℕ} :
  F.liveIndex d ∈ F.liveSsaDefsImpl.stop b ↔ F.UsedOut d b
  := by
  constructor
  · intro h
    exact (within hF).stop b _ h d rfl hd
  · rintro ⟨c, hc, h⟩
    apply (settled hF c).across b ((hF.edges b c).mpr hc)
    change F.liveIndex d ∈ F.acrossEdge b c _
    rw [mem_acrossEdge hd]
    rcases h with hphi | ⟨hdest, huse⟩
    · exact Or.inl hphi
    · right
      use hdest
      rw [(settled hF c).start]
      exact mem_of_usedFrom hF hd huse

/-- A def is in the live-in set of a block if and only if it is used from its start on. -/
theorem mem_start_iff (hF : F.Valid) {d : ℕ} (hd : F.liveIndex d ≠ 0) {b : ℕ} :
  F.liveIndex d ∈ F.liveSsaDefsImpl.start b ↔ F.UsedFrom d b (F.block b).instrs
  := by
  constructor
  · intro h
    exact (within hF).start b _ h d rfl hd
  · intro h
    rw [(settled hF b).start]
    exact mem_of_usedFrom hF hd h

end Function

end Nir.Liveness
