import Mesa.Nir.LiveSets

/-!
# Interference of SSA defs

Indices of defs follow their places.  Two defs are found to interfere just if the earlier one is
used behind the later one, as long as that use is one that `nir_ssa_def_is_live_at` looks at: it does
not look at the condition of the if behind the block of the later def.
-/

namespace Nir.Liveness

namespace Function

variable {F : Function}

/-! ### The order of the places -/

/-- A place comes before another one in the order of the blocks and their instructions. -/
def Precedes (p q : ℕ × ℕ) : Prop := p.1 < q.1 ∨ p.1 = q.1 ∧ p.2 < q.2

theorem precedes_or {p q : ℕ × ℕ} (h : p ≠ q) :
  Precedes p q ∨ Precedes q p
  := by
  unfold Precedes
  have hne : ¬(p.1 = q.1 ∧ p.2 = q.2) := by
    rintro ⟨h₁, h₂⟩
    exact h (Prod.ext h₁ h₂)
  omega

/-- The instructions before a place. -/
def earlier (F : Function) (p : ℕ × ℕ) : List Instr :=
  (F.blocks.take p.1).flatMap Block.all ++ (F.block p.1).all.take p.2

/-- There are instructions in the blocks of the list only. -/
theorem At.getElem? {p : ℕ × ℕ} {i : Instr} (h : F.At p i) :
  F.blocks[p.1]? = some (F.block p.1)
  := by
  cases hb : F.blocks[p.1]? with
  | some block =>
      unfold Function.block
      rw [List.getD_eq_getElem?_getD, hb, Option.getD_some]
  | none =>
      unfold At at h
      rw [block_of_le (List.getElem?_eq_none_iff.mp hb)] at h
      exact absurd h (Option.some_ne_none i).symm

/-- The instructions before a place, the one there, and the ones behind it. -/
theorem At.split {p : ℕ × ℕ} {i : Instr} (h : F.At p i) :
  ∃ later, F.blocks.flatMap Block.all = F.earlier p ++ i :: later
  := by
  obtain ⟨hlt, heq⟩ := List.getElem?_eq_some_iff.mp h.getElem?
  obtain ⟨hlt', heq'⟩ := List.getElem?_eq_some_iff.mp h
  use (F.block p.1).all.drop (p.2 + 1) ++ (F.blocks.drop (p.1 + 1)).flatMap Block.all
  calc F.blocks.flatMap Block.all
      = (F.blocks.take p.1 ++ F.block p.1 :: F.blocks.drop (p.1 + 1)).flatMap Block.all := by
        rw [← heq, ← List.drop_eq_getElem_cons hlt, List.take_append_drop]
    _ = (F.blocks.take p.1).flatMap Block.all ++ ((F.block p.1).all ++
          (F.blocks.drop (p.1 + 1)).flatMap Block.all) := by
        rw [List.flatMap_append, List.flatMap_cons]
    _ = F.earlier p ++ i :: ((F.block p.1).all.drop (p.2 + 1) ++
          (F.blocks.drop (p.1 + 1)).flatMap Block.all) := by
        have hall : (F.block p.1).all
            = (F.block p.1).all.take p.2 ++ i :: (F.block p.1).all.drop (p.2 + 1) := by
          rw [← heq', ← List.drop_eq_getElem_cons hlt', List.take_append_drop]
        unfold earlier
        conv_lhs => rw [hall]
        rw [List.append_assoc, List.append_assoc, List.cons_append]

/-- What is before a place is at a place before it. -/
theorem At.mem_earlier {p q : ℕ × ℕ} {i : Instr} (h : F.At p i) (hpq : Precedes p q) :
  i ∈ F.earlier q
  := by
  unfold earlier
  rw [List.mem_append]
  rcases hpq with hlt | ⟨heq, hlt⟩
  · left
    rw [List.mem_flatMap]
    use F.block p.1
    constructor
    · rw [List.mem_iff_getElem?]
      use p.1
      rw [List.getElem?_take, if_pos hlt, h.getElem?]
    · exact List.mem_of_getElem? h
  · right
    rw [List.mem_iff_getElem?]
    use p.2
    rw [List.getElem?_take, if_pos hlt, ← heq]
    exact h

theorem exists_of_mem_earlier {q : ℕ × ℕ} {i : Instr} (h : i ∈ F.earlier q) :
  ∃ p, Precedes p q ∧ F.At p i
  := by
  unfold earlier at h
  rcases List.mem_append.mp h with h | h
  · obtain ⟨block, hblock, hi⟩ := List.mem_flatMap.mp h
    obtain ⟨b, hb⟩ := List.mem_iff_getElem?.mp hblock
    obtain ⟨k, hk⟩ := List.mem_iff_getElem?.mp hi
    rw [List.getElem?_take] at hb
    split at hb
    next hlt =>
      use (b, k), Or.inl hlt
      unfold At Function.block
      rw [List.getD_eq_getElem?_getD, hb, Option.getD_some]
      exact hk
    next => exact absurd hb (Option.some_ne_none block).symm
  · obtain ⟨k, hk⟩ := List.mem_iff_getElem?.mp h
    rw [List.getElem?_take] at hk
    split at hk
    next hlt => exact ⟨(q.1, k), Or.inr ⟨rfl, hlt⟩, hk⟩
    next => exact absurd hk (Option.some_ne_none i).symm

/-- A function is valid if the edges of its blocks go both ways and no def occurs twice. -/
theorem Valid.of_nodup
  (hedges : ∀ b < F.blocks.length, ∀ c < F.blocks.length,
    b ∈ (F.block c).predecessors ↔ c ∈ (F.block b).successors)
  (hlt : ∀ b < F.blocks.length, ∀ c ∈ (F.block b).predecessors ++ (F.block b).successors,
    c < F.blocks.length)
  (hnodup : ((F.blocks.flatMap Block.all).flatMap Instr.defs).Nodup) :
  F.Valid
  := by
  constructor
  · intro b c
    by_cases hb : b < F.blocks.length
    · by_cases hc : c < F.blocks.length
      · exact hedges b hb c hc
      · constructor
        · intro h
          rw [block_of_le (Nat.le_of_not_lt hc)] at h
          exact absurd h List.not_mem_nil
        · intro h
          exact absurd (hlt b hb c (List.mem_append_right _ h)) hc
    · constructor
      · intro h
        by_cases hc : c < F.blocks.length
        · exact absurd (hlt c hc b (List.mem_append_left _ h)) hb
        · rw [block_of_le (Nat.le_of_not_lt hc)] at h
          exact absurd h List.not_mem_nil
      · intro h
        exact absurd (lt_of_mem_successors h) hb
  · -- of two places of one def the first would be before the second
    have hfirst : ∀ {p q : ℕ × ℕ} {i j : Instr} {d : ℕ}, F.At p i → F.At q j → d ∈ i.defs →
        d ∈ j.defs → ¬Precedes p q := by
      intro p q i j d hi hj hdi hdj hpq
      obtain ⟨later, hsplit⟩ := hj.split
      rw [hsplit, List.flatMap_append, List.flatMap_cons, List.nodup_append] at hnodup
      obtain ⟨-, -, hdisj⟩ := hnodup
      apply hdisj d (List.mem_flatMap.mpr ⟨i, hi.mem_earlier hpq, hdi⟩) d
      · exact List.mem_append_left _ hdj
      · rfl
    intro p q i j d hi hj hdi hdj
    by_contra hne
    rcases precedes_or hne with hpq | hqp
    · exact hfirst hi hj hdi hdj hpq
    · exact hfirst hj hi hdj hdi hqp

/-! ### The order of the indices -/

/-- The place of the instruction of a def. -/
def SsaDef.place (d : SsaDef) : ℕ × ℕ := (d.block, d.instr)

theorem mem_indexed {l : List Instr} {d : ℕ} :
  d ∈ indexed l ↔ ∃ i ∈ l, i.isUndef = false ∧ d ∈ i.defs
  := by
  unfold indexed
  rw [List.mem_flatMap]
  apply exists_congr
  intro i
  apply and_congr_right
  intro _
  cases i.isUndef with
  | false => simp
  | true => simp

/-- A def that is no `ssa_undef` has an index. -/
theorem IsDef.liveIndex_ne_zero {d : SsaDef} (h : F.IsDef d) :
  F.liveIndex d.name ≠ 0
  := by
  obtain ⟨i, hat, hundef, hdef⟩ := h
  obtain ⟨later, hsplit⟩ := At.split hat
  unfold liveIndex
  rw [if_pos]
  · exact Nat.succ_ne_zero _
  · unfold indexedDefs
    rw [mem_indexed]
    have hmem : i ∈ F.blocks.flatMap Block.all := by
      rw [hsplit]
      exact List.mem_append_right _ List.mem_cons_self
    exact ⟨i, hmem, hundef, hdef⟩

/-- The def at the earlier place has the smaller index. -/
theorem liveIndex_lt_of_precedes (hF : F.Valid) {a b : SsaDef} (ha : F.IsDef a) (hb : F.IsDef b)
  (h : Precedes a.place b.place) :
  F.liveIndex a.name < F.liveIndex b.name
  := by
  have hindexa := ha.liveIndex_ne_zero
  have hindexb := hb.liveIndex_ne_zero
  obtain ⟨i, hat, hundef, hdef⟩ := ha
  obtain ⟨j, hat', -, hdef'⟩ := hb
  obtain ⟨later, hsplit⟩ := At.split hat'
  -- the earlier def is among those before the place of the other one, which is not
  have hmem : a.name ∈ indexed (F.earlier b.place) :=
    mem_indexed.mpr ⟨i, At.mem_earlier hat h, hundef, hdef⟩
  have hnot : b.name ∉ indexed (F.earlier b.place) := by
    intro hmem'
    obtain ⟨k, hk, -, hdefk⟩ := mem_indexed.mp hmem'
    obtain ⟨p, hp, hatk⟩ := exists_of_mem_earlier hk
    have heq : p = b.place := hF.unique hatk hat' hdefk hdef'
    unfold Precedes at hp
    rw [heq] at hp
    omega
  have heq : F.indexedDefs = indexed (F.earlier b.place) ++ indexed (j :: later) := by
    unfold indexedDefs
    rw [hsplit]
    exact List.flatMap_append
  have hlt : F.indexedDefs.idxOf a.name < F.indexedDefs.idxOf b.name := by
    rw [heq, List.idxOf_append_of_mem hmem, List.idxOf_append_of_notMem hnot]
    exact Nat.lt_add_right _ (List.idxOf_lt_length_of_mem hmem)
  unfold liveIndex at hindexa hindexb ⊢
  split at hindexa
  next ha' =>
    split at hindexb
    next hb' =>
      rw [if_pos ha', if_pos hb']
      exact Nat.succ_lt_succ hlt
    next => exact absurd rfl hindexb
  next => exact absurd rfl hindexa

/-- The def with the smaller index has the earlier place, if the places are different ones. -/
theorem precedes_of_liveIndex_lt (hF : F.Valid) {a b : SsaDef} (ha : F.IsDef a) (hb : F.IsDef b)
  (hne : a.place ≠ b.place) (h : F.liveIndex a.name < F.liveIndex b.name) :
  Precedes a.place b.place
  := by
  rcases precedes_or hne with hab | hba
  · exact hab
  · exact absurd (liveIndex_lt_of_precedes hF hb ha hba) (Nat.lt_asymm h)

/-! ### Uses behind a place -/

/-- In instructions that do not define `d`, the first use is by one of them or at the end. -/
theorem usedFrom_iff_of_forall {d b : ℕ} {rest : List Instr} (h : ∀ i ∈ rest, d ∉ i.defs) :
  F.UsedFrom d b rest ↔ (∃ i ∈ rest, .ssa d ∈ i.srcs) ∨ F.UsedFrom d b []
  := by
  induction rest with
  | nil => simp
  | cons i rest ih =>
      have hrest := ih (fun j hj => h j (List.mem_cons_of_mem _ hj))
      rw [usedFrom_cons, hrest, List.exists_mem_cons_iff, or_assoc]
      apply or_congr_right
      exact and_iff_right (h i List.mem_cons_self)

/-- The phis behind a place of a block, and its other instructions behind it. -/
theorem drop_all (p : ℕ × ℕ) :
  (F.block p.1).all.drop (p.2 + 1)
    = ((F.block p.1).phis.drop (p.2 + 1)).map Phi.instr ++ F.behind p
  := by
  unfold Block.all behind
  rw [List.drop_append, List.length_map, List.map_drop]

/-- What is behind a place has a later place in the block. -/
theorem exists_of_mem_behind {p : ℕ × ℕ} {i : Instr} (h : i ∈ F.behind p) :
  ∃ k, p.2 < k ∧ F.At (p.1, k) i
  := by
  have hmem : i ∈ (F.block p.1).all.drop (p.2 + 1) := by
    rw [drop_all]
    exact List.mem_append_right _ h
  obtain ⟨m, hm⟩ := List.mem_iff_getElem?.mp hmem
  rw [List.getElem?_drop] at hm
  exact ⟨p.2 + 1 + m, by omega, hm⟩

/-- The def with the smaller index is not defined behind the other one. -/
theorem not_mem_defs_behind (hF : F.Valid) {a b : SsaDef} (ha : F.IsDef a) (hb : F.IsDef b)
  (hne : a.place ≠ b.place) (hlt : F.liveIndex a.name < F.liveIndex b.name) :
  ∀ i ∈ F.behind b.place, a.name ∉ i.defs
  := by
  intro i hi hdef
  obtain ⟨k, hk, hat⟩ := exists_of_mem_behind hi
  have hbefore := precedes_of_liveIndex_lt hF ha hb hne hlt
  obtain ⟨j, hat', -, hdef'⟩ := ha
  have heq : a.place = (b.place.1, k) := hF.unique hat' hat hdef' hdef
  unfold Precedes at hbefore
  rw [heq] at hbefore
  simp only at hbefore
  omega

/-! ### What is found, and what is meant -/

/-- The uses that `nir_ssa_def_is_live_at` finds. -/
theorem ssaDefIsLiveAt_iff (hF : F.Valid) {d : SsaDef} (hd : F.liveIndex d.name ≠ 0)
  {p : ℕ × ℕ} :
  F.ssaDefIsLiveAt F.liveSsaDefsImpl d p = true ↔
    F.UsedOut d.name p.1 ∨
    (F.UsedFrom d.name p.1 (F.block p.1).instrs ∨ d.block = p.1) ∧
      ∃ i ∈ (F.block p.1).all.drop (p.2 + 1), .ssa d.name ∈ i.srcs
  := by
  have hstop := @mem_stop_iff F hF d.name hd p.1
  have hstart := @mem_start_iff F hF d.name hd p.1
  unfold ssaDefIsLiveAt searchForUseAfterInstr
  by_cases hout : F.UsedOut d.name p.1
  · rw [if_pos (hstop.mpr hout)]
    exact iff_of_true rfl (Or.inl hout)
  · rw [if_neg (mt hstop.mp hout), or_iff_right hout, ← hstart]
    by_cases hin : F.liveIndex d.name ∈ F.liveSsaDefsImpl.start p.1 ∨ d.block = p.1
    · rw [if_pos hin, and_iff_right hin, List.any_eq_true]
      simp only [decide_eq_true_eq]
    · rw [if_neg hin]
      exact iff_of_false Bool.false_ne_true (fun h => hin h.1)

/-- The answer for two defs does not depend on their order. -/
theorem ssaDefsInterfere_eq {live : Flow.Worklist.State ℕ ℕ} {a b : SsaDef}
  (hne : a.place ≠ b.place) (ha : F.liveIndex a.name ≠ 0) (hb : F.liveIndex b.name ≠ 0)
  (hlt : F.liveIndex a.name < F.liveIndex b.name) :
  F.ssaDefsInterfere live a b = F.ssaDefIsLiveAt live a b.place ∧
    F.ssaDefsInterfere live b a = F.ssaDefIsLiveAt live a b.place
  := by
  have hplace : ¬(a.block = b.block ∧ a.instr = b.instr) := by
    rintro ⟨h₁, h₂⟩
    exact hne (Prod.ext h₁ h₂)
  have hplace' : ¬(b.block = a.block ∧ b.instr = a.instr) := by
    rintro ⟨h₁, h₂⟩
    exact hplace ⟨h₁.symm, h₂.symm⟩
  have hzero : ¬(F.liveIndex a.name = 0 ∨ F.liveIndex b.name = 0) := not_or.mpr ⟨ha, hb⟩
  have hzero' : ¬(F.liveIndex b.name = 0 ∨ F.liveIndex a.name = 0) := not_or.mpr ⟨hb, ha⟩
  constructor
  · unfold ssaDefsInterfere
    rw [if_neg hplace, if_neg hzero, if_pos hlt]
    rfl
  · unfold ssaDefsInterfere
    rw [if_neg hplace', if_neg hzero', if_neg (Nat.lt_asymm hlt)]
    rfl

/-- The uses of `a` behind `b` that count are among those that are looked at. -/
structure Searched (F : Function) (a b : SsaDef) : Prop where
  /-- If the condition of the if behind the block is `a`, then a later instruction of the block
  takes it as well, or it is used beyond the block. -/
  condition : (F.block b.block).condition = some (.ssa a.name) →
    F.UsedOut a.name b.block ∨
    ∃ i ∈ (F.block b.block).all.drop (b.instr + 1), .ssa a.name ∈ i.srcs
  /-- If `a` and `b` are phis of one block and a phi behind them takes `a` from some predecessor,
  then `a` is used behind the phis: control gets from the block to that predecessor, as long as
  control gets to the predecessor at all. -/
  phis : a.block = b.block →
    (∃ phi ∈ (F.block b.block).phis.drop (b.instr + 1), .ssa a.name ∈ phi.instr.srcs) →
    F.UsedFrom a.name b.block (F.block b.block).instrs

/-- Behind a phi are all instructions of its block. -/
theorem behind_of_mem_phis {p : ℕ × ℕ} {phi : Phi}
  (h : phi ∈ (F.block p.1).phis.drop (p.2 + 1)) :
  F.behind p = (F.block p.1).instrs
  := by
  have hlength := List.length_pos_of_mem h
  rw [List.length_drop] at hlength
  unfold behind
  rw [Nat.sub_eq_zero_of_le (by omega), List.drop_zero]

/-- Instructions that do not define `d` can stand before. -/
theorem usedFrom_append {d b : ℕ} {l rest : List Instr} (hl : ∀ i ∈ l, d ∉ i.defs)
  (h : F.UsedFrom d b rest) :
  F.UsedFrom d b (l ++ rest)
  := by
  induction l with
  | nil => exact h
  | cons i l ih =>
      apply UsedFrom.next (hl i List.mem_cons_self)
      apply ih
      intro j hj
      exact hl j (List.mem_cons_of_mem _ hj)

/-- A def of another block that is used behind a place is used from the start of the block on. -/
theorem usedFrom_instrs (hF : F.Valid) {a : SsaDef} (ha : F.IsDef a) {p : ℕ × ℕ}
  (hne : a.block ≠ p.1) (h : F.UsedFrom a.name p.1 (F.behind p)) :
  F.UsedFrom a.name p.1 (F.block p.1).instrs
  := by
  rw [← List.take_append_drop (p.2 + 1 - (F.block p.1).phis.length) (F.block p.1).instrs]
  apply usedFrom_append _ h
  intro i hi hdef
  have hmem : i ∈ (F.block p.1).all := List.mem_append_right _ (List.mem_of_mem_take hi)
  obtain ⟨k, hk⟩ := List.mem_iff_getElem?.mp hmem
  obtain ⟨j, hat, -, hdef'⟩ := ha
  have heq : a.place = (p.1, k) := hF.unique hat hk hdef' hdef
  exact hne (congrArg Prod.fst heq)

/-- Two defs are found to interfere if and only if the one with the smaller index has a use behind
the other one: this is so just where that use is looked at. -/
theorem ssaDefsInterfere_iff_usedAfter (F : Function) (hF : F.Valid) (a b : SsaDef)
  (ha : F.IsDef a) (hb : F.IsDef b) (hne : a.place ≠ b.place)
  (hlt : F.liveIndex a.name < F.liveIndex b.name) :
  ((F.ssaDefsInterfere F.liveSsaDefsImpl a b = true ↔ F.UsedAfter a b) ∧
    (F.ssaDefsInterfere F.liveSsaDefsImpl b a = true ↔ F.UsedAfter a b)) ↔ F.Searched a b
  := by
  have hindex := ha.liveIndex_ne_zero
  obtain ⟨hab, hba⟩ := @ssaDefsInterfere_eq F F.liveSsaDefsImpl a b hne hindex
    hb.liveIndex_ne_zero hlt
  rw [hab, hba, and_self, ssaDefIsLiveAt_iff hF hindex]
  -- what the claim means by a use behind `b`
  have hused : F.UsedAfter a b ↔ (∃ i ∈ F.behind b.place, .ssa a.name ∈ i.srcs) ∨
      (F.block b.block).condition = some (.ssa a.name) ∨ F.UsedOut a.name b.block := by
    have hiff := @usedFrom_iff_of_forall F a.name b.block _
      (not_mem_defs_behind hF ha hb hne hlt)
    rw [usedFrom_nil] at hiff
    exact hiff
  -- what is found by the search
  have hfound : (∃ i ∈ (F.block b.block).all.drop (b.instr + 1), .ssa a.name ∈ i.srcs) ↔
      (∃ phi ∈ (F.block b.block).phis.drop (b.instr + 1), .ssa a.name ∈ phi.instr.srcs) ∨
      ∃ i ∈ F.behind b.place, .ssa a.name ∈ i.srcs := by
    have hdrop := F.drop_all b.place
    unfold SsaDef.place at hdrop ⊢
    rw [hdrop]
    simp only [List.mem_append, List.mem_map, or_and_right, exists_or, exists_exists_and_eq_and]
  have hscan : F.UsedAfter a b →
      F.UsedFrom a.name b.block (F.block b.block).instrs ∨ a.block = b.block := by
    intro h
    by_cases hblock : a.block = b.block
    · exact Or.inr hblock
    · left
      apply usedFrom_instrs hF ha (p := b.place) hblock h
  have hbehind : (∃ phi ∈ (F.block b.block).phis.drop (b.instr + 1),
      .ssa a.name ∈ phi.instr.srcs) →
      (F.UsedAfter a b ↔ F.UsedFrom a.name b.block (F.block b.block).instrs) := by
    rintro ⟨phi, hphi, -⟩
    have heq : F.behind b.place = (F.block b.block).instrs := behind_of_mem_phis hphi
    unfold UsedAfter
    rw [← heq]
    rfl
  constructor
  · intro h
    constructor
    · intro hcond
      rcases h.mpr (hused.mpr (Or.inr (Or.inl hcond))) with hout | ⟨-, hlater⟩
      · exact Or.inl hout
      · exact Or.inr hlater
    · intro hblock hphi
      apply (hbehind hphi).mp
      apply h.mp
      exact Or.inr ⟨Or.inr hblock, hfound.mpr (Or.inl hphi)⟩
  · intro hsearched
    constructor
    · rintro (hout | ⟨hin, hlater⟩)
      · exact hused.mpr (Or.inr (Or.inr hout))
      · rcases hfound.mp hlater with hphi | hbeh
        · apply (hbehind hphi).mpr
          rcases hin with hin | hblock
          · exact hin
          · exact hsearched.phis hblock hphi
        · exact hused.mpr (Or.inl hbeh)
    · intro h
      rcases hused.mp h with hbeh | hcond | hout
      · exact Or.inr ⟨hscan h, hfound.mpr (Or.inr hbeh)⟩
      · rcases hsearched.condition hcond with hout | hlater
        · exact Or.inl hout
        · exact Or.inr ⟨hscan h, hlater⟩
      · exact Or.inl hout

/-- Two defs, an if on the first one, and a use of the second one in its branch. -/
def conditionFunction : Function :=
  ⟨[⟨[], [⟨false, [0], []⟩, ⟨false, [1], []⟩], [1, 2], [], some (.ssa 0)⟩,
    ⟨[], [⟨false, [], [.ssa 1]⟩], [3], [0], none⟩,
    ⟨[], [], [3], [0], none⟩,
    ⟨[], [], [], [1, 2], none⟩]⟩

theorem conditionFunction_valid :
  conditionFunction.Valid
  := by
  apply Valid.of_nodup
  · decide
  · decide
  · decide

theorem conditionFunction_isDef (d : ℕ) (h : d < 2) :
  conditionFunction.IsDef ⟨d, 0, d⟩
  := by
  have hd : d = 0 ∨ d = 1 := by omega
  rcases hd with rfl | rfl
  · exact ⟨_, rfl, rfl, by decide⟩
  · exact ⟨_, rfl, rfl, by decide⟩

/-- The case of an if whose condition is the first of two defs before it. -/
theorem ssaDefsInterfere_iff_usedAfter_condition :
  ((conditionFunction.ssaDefsInterfere conditionFunction.liveSsaDefsImpl ⟨0, 0, 0⟩ ⟨1, 0, 1⟩ = true
      ↔ conditionFunction.UsedAfter ⟨0, 0, 0⟩ ⟨1, 0, 1⟩) ∧
    (conditionFunction.ssaDefsInterfere conditionFunction.liveSsaDefsImpl ⟨1, 0, 1⟩ ⟨0, 0, 0⟩ = true
      ↔ conditionFunction.UsedAfter ⟨0, 0, 0⟩ ⟨1, 0, 1⟩))
    ↔ conditionFunction.Searched ⟨0, 0, 0⟩ ⟨1, 0, 1⟩
  := by
  apply ssaDefsInterfere_iff_usedAfter conditionFunction conditionFunction_valid
  · exact conditionFunction_isDef 0 (by decide)
  · exact conditionFunction_isDef 1 (by decide)
  · decide
  · decide

/-- The condition of the if is a use behind the second def, which is not found: the two defs are
said not to interfere. -/
theorem condition_not_searched :
  conditionFunction.Valid ∧ conditionFunction.IsDef ⟨0, 0, 0⟩ ∧ conditionFunction.IsDef ⟨1, 0, 1⟩ ∧
    conditionFunction.liveIndex 0 < conditionFunction.liveIndex 1 ∧
    conditionFunction.UsedAfter ⟨0, 0, 0⟩ ⟨1, 0, 1⟩ ∧
    conditionFunction.ssaDefsInterfere conditionFunction.liveSsaDefsImpl ⟨0, 0, 0⟩ ⟨1, 0, 1⟩
      = false
  := by
  use conditionFunction_valid, conditionFunction_isDef 0 (by decide),
    conditionFunction_isDef 1 (by decide), by decide, UsedFrom.condition rfl
  decide

/-! ### The start and the end of a block -/

/-- The worklist gets empty, and then the sets are exact, if the start of a block is behind its phis
and its end is behind the condition of the if that follows it. -/
theorem liveSsaDefsImpl_exact (F : Function) (hF : F.Valid) :
  F.liveSsaDefsImpl.worklist = [] ∧
    ∀ d, F.IsDef d → ∀ b,
      (F.liveIndex d.name ∈ F.liveSsaDefsImpl.start b
        ↔ F.UsedFrom d.name b (F.block b).instrs) ∧
      (F.liveIndex d.name ∈ F.liveSsaDefsImpl.stop b ↔ F.UsedOut d.name b)
  := by
  use liveSsaDefsImpl_worklist hF
  intro d hd b
  have hindex := hd.liveIndex_ne_zero
  constructor
  · apply mem_start_iff hF hindex
  · apply mem_stop_iff hF hindex

/-- The second def is used beyond the first block, and the first one is not. -/
theorem liveSsaDefsImpl_exact_condition :
  conditionFunction.liveSsaDefsImpl.worklist = [] ∧ conditionFunction.UsedOut 1 0 ∧
    ¬conditionFunction.UsedOut 0 0
  := by
  obtain ⟨hempty, hexact⟩ := liveSsaDefsImpl_exact conditionFunction conditionFunction_valid
  use hempty
  constructor
  · apply (hexact ⟨1, 0, 1⟩ (conditionFunction_isDef 1 (by decide)) 0).2.mp
    decide
  · apply mt (hexact ⟨0, 0, 0⟩ (conditionFunction_isDef 0 (by decide)) 0).2.mpr
    decide

/-- The condition of the if is not counted as a use behind the end of the block before it. -/
theorem condition_not_live_out :
  ¬∀ F : Function, F.Valid → ∀ d, F.IsDef d → ∀ b,
    (F.liveIndex d.name ∈ F.liveSsaDefsImpl.start b ↔ F.UsedFrom d.name b (F.block b).instrs) ∧
    (F.liveIndex d.name ∈ F.liveSsaDefsImpl.stop b ↔ F.UsedFrom d.name b [])
  := by
  intro h
  have hout := h conditionFunction conditionFunction_valid ⟨0, 0, 0⟩
    (conditionFunction_isDef 0 (by decide)) 0
  have hlive := hout.2.mpr (UsedFrom.condition rfl)
  exact absurd hlive (by decide)

end Function

end Nir.Liveness
