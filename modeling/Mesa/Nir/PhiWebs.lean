import Mesa.Nir.MergeSets

/-!
# Phi webs

After `isolate_phi_nodes_block` the sources of a phi are defined by parallel copies at the ends of the
predecessors and used by nothing else, and its destination is used by the parallel copy behind the
phis only.  So no two of them interfere, and they can be merged without a check.
-/

namespace Nir.Liveness

namespace Function

/-- The defs of a phi. -/
structure Web where
  dest : SsaDef
  srcs : List SsaDef

/-- The destination and the sources. -/
def Web.defs (web : Web) : List SsaDef := web.dest :: web.srcs

/-- The phi has parallel copies at its sources and its destination. -/
structure Isolated (F : Function) (web : Web) : Prop where
  phi : ∃ phi, (F.block web.dest.block).phis[web.dest.instr]? = some phi ∧
    phi.dest = web.dest.name ∧ phi.srcs = web.srcs.map (fun d => ⟨d.block, .ssa d.name⟩)
  preds : (web.srcs.map SsaDef.block).Nodup
  member : ∀ d ∈ web.defs, F.Member d
  src_copy : ∀ d ∈ web.srcs, (F.block d.block).phis.length ≤ d.instr
  src_use : ∀ d ∈ web.srcs, ∀ p i, F.At p i → .ssa d.name ∈ i.srcs → p = web.dest.place
  src_condition : ∀ d ∈ web.srcs, ∀ b, (F.block b).condition ≠ some (.ssa d.name)
  dest_use : ∀ p i, F.At p i → .ssa web.dest.name ∈ i.srcs →
    p = (web.dest.block, (F.block web.dest.block).phis.length)
  dest_condition : ∀ b, (F.block b).condition ≠ some (.ssa web.dest.name)

variable {F : Function} {web : Web}

/-- The source of a phi for a predecessor is among its sources. -/
theorem mem_of_srcFrom {phi : Phi} {b : ℕ} {src : Src} (h : phi.srcFrom b = some src) :
  ⟨b, src⟩ ∈ phi.srcs
  := by
  unfold Phi.srcFrom at h
  obtain ⟨s, hs, rfl⟩ := Option.map_eq_some_iff.mp h
  have hpred := List.find?_some hs
  rw [decide_eq_true_eq] at hpred
  rw [← hpred]
  exact List.mem_of_find?_eq_some hs

/-- The place of a phi. -/
theorem exists_at_of_mem_phis {b : ℕ} {phi : Phi} (h : phi ∈ (F.block b).phis) :
  ∃ k, (F.block b).phis[k]? = some phi ∧ F.At (b, k) phi.instr
  := by
  obtain ⟨k, hk⟩ := List.mem_iff_getElem?.mp h
  use k, hk
  have hlt := (List.getElem?_eq_some_iff.mp hk).1
  unfold At Block.all
  rw [List.getElem?_append_left (by rw [List.length_map]; exact hlt), List.getElem?_map, hk]
  rfl

/-- The place of an instruction behind the phis. -/
theorem at_of_instrs {b : ℕ} {pre rest : List Instr} {i : Instr}
  (h : (F.block b).instrs = pre ++ i :: rest) :
  F.At (b, (F.block b).phis.length + pre.length) i
  := by
  unfold At Block.all
  rw [List.getElem?_append_right (by rw [List.length_map]; exact Nat.le_add_right _ _),
    List.length_map, Nat.add_sub_cancel_left, h, List.getElem?_append_right (Nat.le_refl _),
    Nat.sub_self]
  rfl

/-- A source is used from places behind its parallel copy in the predecessor only. -/
theorem Isolated.src_usedFrom (hF : F.Valid) (hweb : F.Isolated web) {d : SsaDef}
  (hd : d ∈ web.srcs) {b : ℕ} {rest : List Instr} (h : F.UsedFrom d.name b rest) :
  ∀ pre, (F.block b).instrs = pre ++ rest →
    d.block = b ∧ d.instr < (F.block b).phis.length + pre.length
  := by
  have hmember := hweb.member d (List.mem_cons_of_mem _ hd)
  induction h with
  | @here b i rest hsrc =>
      intro pre hinstrs
      -- a phi is at an earlier place
      have hplace := hweb.src_use d hd _ i (at_of_instrs hinstrs) hsrc
      obtain ⟨phi, hphi, -⟩ := hweb.phi
      have hlt := (List.getElem?_eq_some_iff.mp hphi).1
      simp only [SsaDef.place, Prod.mk.injEq] at hplace
      rw [← hplace.1] at hlt
      omega
  | @next b i rest hdef _ ih =>
      intro pre hinstrs
      obtain ⟨hblock, hlt⟩ := ih (pre ++ [i]) (by rw [hinstrs, List.append_assoc]; rfl)
      use hblock
      rw [List.length_append, List.length_singleton] at hlt
      rcases Nat.lt_or_eq_of_le (Nat.le_of_lt_succ hlt) with hlt | heq
      · exact hlt
      · obtain ⟨j, hat, hdef', -⟩ := hmember.isDef
        have hplace : d.place = (b, (F.block b).phis.length + pre.length) :=
          Prod.ext hblock heq
        rw [hplace] at hat
        obtain rfl : j = i := Option.some.inj (hat.symm.trans (at_of_instrs hinstrs))
        exact absurd hdef' hdef
  | @condition b hcond =>
      intro pre _
      exact absurd hcond (hweb.src_condition d hd b)
  | @phi b c phi hc hphi hsrc =>
      intro pre hinstrs
      obtain ⟨k, hk, hat⟩ := exists_at_of_mem_phis hphi
      have hmem := mem_of_srcFrom hsrc
      have hplace := hweb.src_use d hd _ _ hat (List.mem_map_of_mem hmem)
      obtain ⟨phi', hphi', -, hsrcs⟩ := hweb.phi
      simp only [SsaDef.place, Prod.mk.injEq] at hplace
      rw [← hplace.1, ← hplace.2, hk] at hphi'
      obtain rfl : phi = phi' := Option.some.inj hphi'
      rw [hsrcs] at hmem
      obtain ⟨e, he, heq⟩ := List.mem_map.mp hmem
      simp only [PhiSrc.mk.injEq, Src.ssa.injEq] at heq
      have hsame : e = d :=
        (hweb.member e (List.mem_cons_of_mem _ he)).ext_name hF hmember heq.2
      rw [hsame] at heq
      use heq.1
      obtain ⟨j, hat', -⟩ := hmember.isDef
      have hlt := (List.getElem?_eq_some_iff.mp hat').1
      unfold SsaDef.place Block.all at hlt
      simp only at hlt
      rw [heq.1, List.length_append, List.length_map, hinstrs, List.append_nil] at hlt
      exact hlt
  | @edge b c hc hdest _ ih =>
      intro pre _
      obtain ⟨hblock, hlt⟩ := ih [] rfl
      have hcopy := hweb.src_copy d hd
      rw [hblock] at hcopy
      rw [List.length_nil] at hlt
      omega

/-- A source is not used from the start of a block. -/
theorem Isolated.src_not_usedFrom (hF : F.Valid) (hweb : F.Isolated web) {d : SsaDef}
  (hd : d ∈ web.srcs) (b : ℕ) :
  ¬F.UsedFrom d.name b (F.block b).instrs
  := by
  intro h
  obtain ⟨hblock, hlt⟩ := hweb.src_usedFrom hF hd h [] rfl
  have hcopy := hweb.src_copy d hd
  rw [hblock] at hcopy
  rw [List.length_nil] at hlt
  omega

/-- A source is used beyond the predecessor only. -/
theorem Isolated.src_usedOut (hF : F.Valid) (hweb : F.Isolated web) {d : SsaDef}
  (hd : d ∈ web.srcs) {b : ℕ} (h : F.UsedOut d.name b) :
  d.block = b
  := by
  have huse : F.UsedFrom d.name b [] := usedFrom_nil.mpr (Or.inr h)
  exact (hweb.src_usedFrom hF hd huse (F.block b).instrs (List.append_nil _).symm).1

/-- The destination is used from places in its block only. -/
theorem Isolated.dest_usedFrom (hweb : F.Isolated web) {b : ℕ} {rest : List Instr}
  (h : F.UsedFrom web.dest.name b rest) :
  ∀ pre, (F.block b).instrs = pre ++ rest → b = web.dest.block
  := by
  induction h with
  | here hsrc =>
      intro pre hinstrs
      exact congrArg Prod.fst (hweb.dest_use _ _ (at_of_instrs hinstrs) hsrc)
  | @next b i rest _ _ ih =>
      intro pre hinstrs
      exact ih (pre ++ [i]) (by rw [hinstrs, List.append_assoc]; rfl)
  | condition hcond => exact absurd hcond (hweb.dest_condition _)
  | @phi b c phi _ hphi hsrc =>
      -- a phi is not behind the phis
      obtain ⟨k, hk, hat⟩ := exists_at_of_mem_phis hphi
      have hplace := hweb.dest_use _ _ hat (List.mem_map_of_mem (mem_of_srcFrom hsrc))
      have hlt := (List.getElem?_eq_some_iff.mp hk).1
      simp only [Prod.mk.injEq] at hplace
      rw [hplace.1] at hlt
      omega
  | @edge b c _ hdest _ ih =>
      have hblock := ih [] rfl
      rw [hblock] at hdest
      obtain ⟨phi, hphi, hname, -⟩ := hweb.phi
      exact absurd hname (hdest phi (List.mem_of_getElem? hphi))

/-- The destination is not used beyond a block. -/
theorem Isolated.dest_not_usedOut (hweb : F.Isolated web) (b : ℕ) :
  ¬F.UsedOut web.dest.name b
  := by
  rintro ⟨c, -, ⟨phi, hphi, hsrc⟩ | ⟨hdest, huse⟩⟩
  · obtain ⟨k, hk, hat⟩ := exists_at_of_mem_phis hphi
    have hplace := hweb.dest_use _ _ hat (List.mem_map_of_mem (mem_of_srcFrom hsrc))
    have hlt := (List.getElem?_eq_some_iff.mp hk).1
    simp only [Prod.mk.injEq] at hplace
    rw [hplace.1] at hlt
    omega
  · rw [hweb.dest_usedFrom huse [] rfl] at hdest
    obtain ⟨phi, hphi, hname, -⟩ := hweb.phi
    exact hdest phi (List.mem_of_getElem? hphi) hname

/-- A phi comes before the parallel copy of a source in the same block. -/
theorem Isolated.dest_instr_lt (hweb : F.Isolated web) {d : SsaDef} (hd : d ∈ web.srcs)
  (hblock : d.block = web.dest.block) :
  web.dest.instr < d.instr
  := by
  obtain ⟨phi, hphi, -⟩ := hweb.phi
  have hlt := (List.getElem?_eq_some_iff.mp hphi).1
  have hcopy := hweb.src_copy d hd
  rw [hblock] at hcopy
  omega

/-- A source and a later member of the web do not interfere. -/
theorem Isolated.src_free (hF : F.Valid) (hweb : F.Isolated web) {d e : SsaDef}
  (hd : d ∈ web.srcs) (he : e ∈ web.defs) (horder : F.Ordered d e)
  (hindex : F.liveIndex d.name ≠ 0) :
  F.interfere e d = false
  := by
  rw [Bool.eq_false_iff]
  intro hclash
  -- the later one is in the same block, or the source is used from the start of its block
  have hblock : d.block = e.block := by
    rcases (interfere_iff hF horder hindex).mp hclash with hplace | hout | ⟨hin | heq, -⟩
    · exact congrArg Prod.fst hplace
    · exact hweb.src_usedOut hF hd hout
    · exact absurd hin (hweb.src_not_usedFrom hF hd e.block)
    · exact heq
  rcases List.mem_cons.mp he with rfl | he
  · have hlt := hweb.dest_instr_lt hd hblock
    rcases horder.place hF hindex with hplace | hbefore
    · simp only [SsaDef.place, Prod.mk.injEq] at hplace
      omega
    · simp only [Precedes, SsaDef.place] at hbefore
      omega
  · exact horder.ne (List.inj_on_of_nodup_map hweb.preds hd he hblock)

/-- The destination and a later source do not interfere. -/
theorem Isolated.dest_free (hF : F.Valid) (hweb : F.Isolated web) {d : SsaDef}
  (hd : d ∈ web.srcs) (horder : F.Ordered web.dest d)
  (hindex : F.liveIndex web.dest.name ≠ 0) :
  F.interfere d web.dest = false
  := by
  rw [Bool.eq_false_iff]
  intro hclash
  have hcopy := hweb.src_copy d hd
  rcases (interfere_iff hF horder hindex).mp hclash with hplace | hout | ⟨hin, i, hi, hsrc⟩
  · simp only [SsaDef.place, Prod.mk.injEq] at hplace
    have hlt := hweb.dest_instr_lt hd hplace.1.symm
    omega
  · exact hweb.dest_not_usedOut d.block hout
  · -- the only use is before the parallel copy of the source, or that copy
    obtain ⟨m, hm⟩ := List.mem_iff_getElem?.mp hi
    rw [List.getElem?_drop] at hm
    have hplace := hweb.dest_use (d.block, d.instr + 1 + m) i hm hsrc
    simp only [Prod.mk.injEq] at hplace
    rw [← hplace.1] at hplace
    omega

/-- No two defs of a web interfere. -/
theorem Isolated.free (hF : F.Valid) (hweb : F.Isolated web) {d e : SsaDef}
  (hd : d ∈ web.defs) (he : e ∈ web.defs) (hne : d ≠ e) :
  F.interfere d e = false
  := by
  have hmd := hweb.member d hd
  have hme := hweb.member e he
  by_cases hindex : F.liveIndex d.name = 0 ∨ F.liveIndex e.name = 0
  · exact interfere_of_eq_zero hF hmd hme hne hindex
  · obtain ⟨hindexd, hindexe⟩ := not_or.mp hindex
    have hlater : ∀ {q c : SsaDef}, q ∈ web.defs → c ∈ web.defs → F.Ordered q c →
        F.liveIndex q.name ≠ 0 → F.interfere c q = false := by
      intro q c hq hc horder hindex
      rcases List.mem_cons.mp hq with rfl | hq
      · rcases List.mem_cons.mp hc with rfl | hc
        · exact absurd rfl horder.ne
        · exact hweb.dest_free hF hc horder hindex
      · exact hweb.src_free hF hq hc horder hindex
    rcases Nat.le_total (F.liveIndex d.name) (F.liveIndex e.name) with hle | hle
    · rw [interfere_comm hF hmd hme hne]
      exact hlater hd he ⟨hmd, hme, hle, hne⟩ hindexd
    · exact hlater he hd ⟨hme, hmd, hle, Ne.symm hne⟩ hindexe

end Function

end Nir.Liveness
