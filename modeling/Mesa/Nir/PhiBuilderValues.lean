import Mesa.Nir.PhiBuilderState

/-!
# The values of a phi builder

A builder that is used as it is meant to be gives, for every block, a def that holds the definition
of the value that was executed most recently, on every path to the block.
-/

namespace Nir

open Flow

namespace PhiBuilder

variable {ι κ δ : Type} {F : DomFunction ι κ}

/-! ### Runs -/

/-- The state of a builder after the calls `before`. -/
structure BuilderInv (F : DomFunction ι κ) (calls before : List (Call δ)) (pb : Builder δ) :
    Prop where
  length : pb.values.length = (addedValues before).length
  value : ∀ {v D val}, (addedValues before)[v]? = some D → pb.values[v]? = some val →
    ValueInv F D calls before v (val.phis.map PhiInstr.mark) val ∧
      val.pending F.numBlocks ≤ F.numBlocks
  work : ∀ x, pb.work x ≤ pb.iterCount

/-- The values of one builder are in another one, with more phis. -/
def Grows (pb pb' : Builder δ) : Prop :=
  ∀ (v : ℕ) (val : Value δ), pb.values[v]? = some val →
    ∃ (val' : Value δ) (new : List (PhiInstr δ)),
      pb'.values[v]? = some val' ∧ val'.phis = val.phis ++ new

theorem Grows.refl (pb : Builder δ) :
  Grows pb pb
  := by
  intro v val hval
  exact ⟨val, [], hval, (List.append_nil _).symm⟩

theorem Grows.trans {pb pb' pb'' : Builder δ} (h : Grows pb pb') (h' : Grows pb' pb'') :
  Grows pb pb''
  := by
  intro v val hval
  obtain ⟨val₁, new₁, hval₁, hphis₁⟩ := h v val hval
  obtain ⟨val₂, new₂, hval₂, hphis₂⟩ := h' v val₁ hval₁
  exact ⟨val₂, new₁ ++ new₂, hval₂, by rw [hphis₂, hphis₁, List.append_assoc]⟩

/-- A value that replaces one with fewer phis. -/
theorem grows_set {pb : Builder δ} {v : ℕ} {val val' : Value δ} {new : List (PhiInstr δ)}
    (hval : pb.values[v]? = some val) (hphis : val'.phis = val.phis ++ new) :
  Grows pb { pb with values := pb.values.set v val' }
  := by
  intro w valw hvalw
  by_cases hw : v = w
  · subst hw
    obtain rfl := Option.some.inj (hval.symm.trans hvalw)
    have hlt : v < pb.values.length := (List.getElem?_eq_some_iff.mp hval).choose
    exact ⟨val', new, by simp [hlt], hphis⟩
  · exact ⟨valw, [], by simpa [List.getElem?_set_ne hw] using hvalw, (List.append_nil _).symm⟩

theorem ValueInv.congr {D : Finset ℕ} {calls before before' : List (Call δ)} {v : ℕ}
    {marks : List (SsaDef δ × ℕ)} {val : Value δ} (h : ValueInv F D calls before v marks val)
    (hlast : ∀ b, lastDef before' v b = lastDef before v b) :
  ValueInv F D calls before' v marks val
  := by
  refine ⟨?_, h.needsPhi, h.mark, h.nodup⟩
  intro b hb hreach
  exact (h.slot hb hreach).congr (hlast b)

/-- One value gets a new state, and the other ones have had no call. -/
theorem BuilderInv.set {calls before : List (Call δ)} {pb : Builder δ}
    (h : BuilderInv F calls before pb) {c : Call δ} {v : ℕ} {val' : Value δ}
    (hadded : addedValues (before ++ [c]) = addedValues before)
    (hlast : ∀ w b, w ≠ v → lastDef (before ++ [c]) w b = lastDef before w b)
    (hval' : ∀ D, (addedValues before)[v]? = some D →
      ValueInv F D calls (before ++ [c]) v (val'.phis.map PhiInstr.mark) val' ∧
        val'.pending F.numBlocks ≤ F.numBlocks) :
  BuilderInv F calls (before ++ [c]) { pb with values := pb.values.set v val' }
  := by
  refine ⟨?_, ?_, h.work⟩
  · rw [hadded, List.length_set]
    exact h.length
  · intro w D val hD hval
    rw [hadded] at hD
    by_cases hw : v = w
    · subst hw
      have hlt : v < pb.values.length := by
        rw [h.length]
        exact (List.getElem?_eq_some_iff.mp hD).choose
      have heq : val' = val := by simpa [hlt] using hval
      rw [← heq]
      exact hval' D hD
    · rw [List.getElem?_set_ne hw] at hval
      obtain ⟨hinv, hpend⟩ := h.value hD hval
      exact ⟨hinv.congr (fun b => hlast w b (Ne.symm hw)), hpend⟩

theorem lastDef_append_of_forall_not {calls after : List (Call δ)} {v b : ℕ}
    (h : ∀ d, .setBlockDef v b d ∉ after) :
  lastDef (calls ++ after) v b = lastDef calls v b
  := by
  have hnil : after.filterMap (Call.defOf v b) = [] := by
    rw [List.filterMap_eq_nil_iff]
    intro c hc
    cases c with
    | addValue D => rfl
    | getBlockDef w b' => rfl
    | setBlockDef w b' d =>
        apply if_neg
        rintro ⟨rfl, rfl⟩
        exact h d hc
  unfold lastDef
  rw [List.filterMap_append, hnil, List.append_nil]

theorem lastDef_eq_none {calls : List (Call δ)} {v b : ℕ} (h : ∀ d, .setBlockDef v b d ∉ calls) :
  lastDef calls v b = none
  := by
  have hnil : lastDef ([] ++ calls) v b = lastDef [] v b := lastDef_append_of_forall_not h
  rwa [List.nil_append] at hnil

/-- A definition that is set belongs to a value that has been added. -/
theorem Usage.lt_of_mem (U : Usage F δ) {before after : List (Call δ)}
    (hsplit : U.calls = before ++ after) {v b : ℕ} {d : δ} (h : .setBlockDef v b d ∈ before) :
  v < (addedValues before).length
  := by
  obtain ⟨l₁, l₂, rfl⟩ := List.append_of_mem h
  obtain ⟨D, hD, -, -⟩ := U.set (hsplit.trans (by simp) : U.calls =
    l₁ ++ .setBlockDef v b d :: (l₂ ++ after))
  have hlt : v < (addedValues l₁).length := (List.getElem?_eq_some_iff.mp hD).choose
  unfold addedValues at hlt ⊢
  rw [List.filterMap_append, List.length_append]
  omega

/-- A value is added. -/
theorem call_addValue_spec (U : Usage F δ) {before after : List (Call δ)} {D : Finset ℕ}
    (hsplit : U.calls = before ++ .addValue D :: after) {pb : Builder δ}
    (h : BuilderInv F U.calls before pb) {fuel : ℕ} (hfuel : F.numBlocks < fuel) :
  ∃ pb', pb.call F fuel (.addValue D) = some pb' ∧
    BuilderInv F U.calls (before ++ [.addValue D]) pb' ∧ Grows pb pb'
  := by
  obtain ⟨pb', defs, hadd, hvalues, hwork, hslot, hneeds⟩ := addValue_spec (F := F) h.work D hfuel
  have hadded : addedValues (before ++ [.addValue D]) = addedValues before ++ [D] := by
    simp [addedValues, Call.added]
  have hlast : ∀ w b, lastDef (before ++ [.addValue D]) w b = lastDef before w b := by
    intro w b
    apply lastDef_append_of_forall_not
    simp
  refine ⟨pb', hadd, ⟨?_, ?_, hwork⟩, ?_⟩
  · rw [hvalues, hadded, List.length_append, List.length_append, h.length]
    rfl
  · intro v D' val hD hval
    rw [hadded] at hD
    rw [hvalues] at hval
    rcases Nat.lt_trichotomy v (addedValues before).length with hlt | heq | hgt
    · rw [List.getElem?_append_left hlt] at hD
      rw [List.getElem?_append_left (by rwa [h.length])] at hval
      obtain ⟨hinv, hpend⟩ := h.value hD hval
      exact ⟨hinv.congr (hlast v), hpend⟩
    · subst heq
      rw [List.getElem?_concat_length] at hD
      rw [← h.length, List.getElem?_concat_length] at hval
      obtain rfl := Option.some.inj hD
      obtain rfl := Option.some.inj hval
      have hnone : ∀ b, lastDef (before ++ [.addValue D]) (addedValues before).length b = none := by
        intro b
        rw [hlast]
        apply lastDef_eq_none
        intro d hd
        exact absurd (U.lt_of_mem hsplit hd) (Nat.lt_irrefl _)
      refine ⟨⟨?_, ?_, ?_, List.nodup_nil⟩, ?_⟩
      · intro b hb _
        rcases hslot b with hnull | hphi
        · simp only [hnull]
          refine ⟨hnone b, ?_⟩
          intro hneed
          have hphi := (hneeds b).mpr ⟨hb, hneed⟩
          rw [hnull] at hphi
          cases hphi
        · simp only [hphi]
          exact ⟨hnone b, ((hneeds b).mp hphi).2⟩
      · intro b _ hphi
        exact ((hneeds b).mp hphi).2
      · simp
      · simp only [Value.pending, List.length_nil, Nat.zero_add]
        calc
          _ ≤ (Finset.range F.numBlocks).card := Finset.card_filter_le _ _
          _ = F.numBlocks := Finset.card_range _
    · rw [List.getElem?_eq_none (by simp; omega)] at hD
      cases hD
  · intro v val hval
    refine ⟨val, [], ?_, (List.append_nil _).symm⟩
    have hlt : v < pb.values.length := (List.getElem?_eq_some_iff.mp hval).choose
    rw [hvalues, List.getElem?_append_left hlt]
    exact hval

/-- A definition is set. -/
theorem call_setBlockDef_spec (U : Usage F δ) {before after : List (Call δ)} {v b : ℕ} {d : δ}
    (hsplit : U.calls = before ++ .setBlockDef v b d :: after) {pb : Builder δ}
    (h : BuilderInv F U.calls before pb) (fuel : ℕ) :
  ∃ pb', pb.call F fuel (.setBlockDef v b d) = some pb' ∧
    BuilderInv F U.calls (before ++ [.setBlockDef v b d]) pb' ∧ Grows pb pb'
  := by
  obtain ⟨D, hD, -, -⟩ := U.set hsplit
  have hlt : v < pb.values.length := by
    rw [h.length]
    exact (List.getElem?_eq_some_iff.mp hD).choose
  have hval : pb.values[v]? = some pb.values[v] := List.getElem?_eq_getElem hlt
  obtain ⟨hinv, hpend⟩ := h.value hD hval
  obtain ⟨hinv', hpend'⟩ := setBlockDef_spec hinv b d
  refine ⟨{ pb with values := pb.values.set v (pb.values[v].setBlockDef b (.user d)) }, ?_, ?_, ?_⟩
  · simp [Builder.call, hval]
  · apply h.set
    · simp [addedValues, Call.added]
    · intro w b' hw
      rw [lastDef_append_setBlockDef, if_neg]
      exact fun heq => hw heq.1.symm
    · intro D' hD'
      obtain rfl := Option.some.inj (hD.symm.trans hD')
      exact ⟨hinv', hpend'.trans hpend⟩
  · exact grows_set hval (List.append_nil _).symm

/-- A def is asked for, and it has the value. -/
theorem builder_getBlockDef_spec (U : Usage F δ) {before after : List (Call δ)} {v b : ℕ}
    (hsplit : U.calls = before ++ .getBlockDef v b :: after) {pb : Builder δ}
    (h : BuilderInv F U.calls before pb) {fuel : ℕ} (hfuel : F.numBlocks < fuel) :
  ∃ x pb' D val', pb.getBlockDef F fuel v b = some (x, pb') ∧
    BuilderInv F U.calls (before ++ [.getBlockDef v b]) pb' ∧ Grows pb pb' ∧
    (addedValues before)[v]? = some D ∧ pb'.values[v]? = some val' ∧
    (F.Reachable b → CurDef F D U.calls before v (val'.phis.map PhiInstr.mark) b x)
  := by
  obtain ⟨hv, hb⟩ := U.get hsplit
  obtain ⟨D, hD⟩ : ∃ D, (addedValues before)[v]? = some D := ⟨_, List.getElem?_eq_getElem hv⟩
  have hlt : v < pb.values.length := by rwa [h.length]
  have hval : pb.values[v]? = some pb.values[v] := List.getElem?_eq_getElem hlt
  obtain ⟨hinv, hpend⟩ := h.value hD hval
  have hdone : F.Reachable b → ∀ e, e ≠ b → F.Dom e b →
      lastDef before v e = lastDef U.calls v e := by
    intro hreach e hne hdom
    rw [hsplit]
    symm
    apply lastDef_append_of_forall_not
    intro d hd
    rcases List.mem_cons.mp hd with heq | hd
    · cases heq
    · exact U.ordered hsplit hreach hd hne hdom
  obtain ⟨x, val', new, hget, hphis, hinv', hpend', hcur⟩ := getBlockDef_spec hinv hb hfuel hdone
  rw [← List.map_append, ← hphis] at hinv' hcur
  refine ⟨x, { pb with values := pb.values.set v val' }, D, val', ?_, ?_, ?_, hD, ?_, hcur⟩
  · simp [Builder.getBlockDef, hval, hget]
  · have hlast : ∀ w c, lastDef (before ++ [.getBlockDef v b]) w c = lastDef before w c := by
      intro w c
      apply lastDef_append_of_forall_not
      simp
    apply h.set
    · simp [addedValues, Call.added]
    · intro w c _
      exact hlast w c
    · intro D' hD'
      obtain rfl := Option.some.inj (hD.symm.trans hD')
      exact ⟨hinv'.congr (hlast v), hpend'.trans hpend⟩
  · exact grows_set hval hphis
  · simp [hlt]

/-- A run of calls. -/
theorem run_spec (U : Usage F δ) {before calls after : List (Call δ)}
    (hsplit : U.calls = before ++ (calls ++ after)) {pb : Builder δ}
    (h : BuilderInv F U.calls before pb) {fuel : ℕ} (hfuel : F.numBlocks < fuel) :
  ∃ pb', pb.run F fuel calls = some pb' ∧ BuilderInv F U.calls (before ++ calls) pb' ∧ Grows pb pb'
  := by
  induction calls generalizing before pb with
  | nil => exact ⟨pb, rfl, by rwa [List.append_nil], Grows.refl pb⟩
  | cons c calls ih =>
      obtain ⟨pb₁, hcall, hinv₁, hgrows₁⟩ : ∃ pb', pb.call F fuel c = some pb' ∧
          BuilderInv F U.calls (before ++ [c]) pb' ∧ Grows pb pb' := by
        cases c with
        | addValue D => exact call_addValue_spec U hsplit h hfuel
        | setBlockDef v b d => exact call_setBlockDef_spec U hsplit h fuel
        | getBlockDef v b =>
            obtain ⟨x, pb', -, -, hget, hinv', hgrows, -⟩ := builder_getBlockDef_spec U hsplit h hfuel
            exact ⟨pb', by simp [Builder.call, hget], hinv', hgrows⟩
      obtain ⟨pb₂, hrun, hinv₂, hgrows₂⟩ := ih
        (show U.calls = (before ++ [c]) ++ (calls ++ after) by simpa using hsplit) hinv₁
      refine ⟨pb₂, ?_, by simpa using hinv₂, hgrows₁.trans hgrows₂⟩
      unfold Builder.run
      rw [List.foldlM_cons, hcall]
      exact hrun

/-! ### The phis that are inserted -/

/-- Among the phis that are inserted, those of the value `v` are the ones that have been created. -/
structure ValueDone (F : DomFunction ι κ) (D : Finset ℕ) (calls : List (Call δ)) (v : ℕ)
    (phis : List (PhiInstr δ)) (marks : List (SsaDef δ × ℕ)) : Prop where
  mark : ∀ {x b}, (x, b) ∈ marks → NeedsPhi F D b ∧ ∃ n, x = .phi v n
  nodup : (marks.map Prod.fst).Nodup
  mem : ∀ {x b}, (x, b) ∈ marks → ∃ phi ∈ phis, phi.dest = x ∧ phi.block = b
  phi : ∀ {phi n}, phi ∈ phis → phi.dest = .phi v n →
    (phi.dest, phi.block) ∈ marks ∧ SrcsOk F D calls v marks phi

theorem ValueDone.congr {D : Finset ℕ} {calls : List (Call δ)} {v : ℕ}
    {phis phis' : List (PhiInstr δ)} {marks : List (SsaDef δ × ℕ)}
    (h : ValueDone F D calls v phis marks) (hsub : ∀ phi ∈ phis, phi ∈ phis')
    (hnew : ∀ phi ∈ phis', ∀ n, phi.dest = .phi v n → phi ∈ phis) :
  ValueDone F D calls v phis' marks
  := by
  refine ⟨h.mark, h.nodup, ?_, ?_⟩
  · intro x b hxb
    obtain ⟨phi, hphi, heq⟩ := h.mem hxb
    exact ⟨phi, hsub phi hphi, heq⟩
  · intro phi n hphi hdest
    exact h.phi (hnew phi hphi n hdest) hdest

/-- The values are finished one after the other. -/
theorem foldlM_finish_spec (calls : List (Call δ)) {l : List (Value δ × ℕ)}
    (hnodup : (l.map Prod.snd).Nodup)
    (hl : ∀ val v, (val, v) ∈ l → ∃ D, (addedValues calls)[v]? = some D ∧
      ValueInv F D calls calls v (val.phis.map PhiInstr.mark) val ∧
      val.pending F.numBlocks ≤ F.numBlocks)
    (inserted : List (PhiInstr δ)) {fuel : ℕ} (hfuel : F.numBlocks < fuel) :
  ∃ phis, l.foldlM (fun inserted p => do
      let r ← Value.finish F fuel p.2 fuel (p.1, inserted)
      some r.2) inserted = some (phis ++ inserted) ∧
    (∀ phi ∈ phis, (∃ v n, v ∈ l.map Prod.snd ∧ phi.dest = .phi v n) ∧
      phi.srcs.map Prod.fst = Value.sortedPreds F phi.block) ∧
    ∀ val v D, (val, v) ∈ l → (addedValues calls)[v]? = some D →
      ∃ new, ValueDone F D calls v phis (val.phis.map PhiInstr.mark ++ new)
  := by
  induction l generalizing inserted with
  | nil => exact ⟨[], rfl, by simp, by simp⟩
  | cons p l ih =>
      obtain ⟨val, v⟩ := p
      rw [List.map_cons, List.nodup_cons] at hnodup
      obtain ⟨D, hD, hinv, hpend⟩ := hl val v List.mem_cons_self
      obtain ⟨val', phisv, new, hfin, hinv', hmem, hsrcs⟩ :=
        finish_spec hinv inserted hfuel (hpend.trans_lt hfuel)
      obtain ⟨phis, hfold, hdest, hdone⟩ := ih hnodup.2
        (fun val v hv => hl val v (List.mem_cons_of_mem _ hv)) (phisv ++ inserted)
      have hmark : ∀ phi ∈ phisv,
          (phi.dest, phi.block) ∈ val.phis.map PhiInstr.mark ++ new := by
        intro phi hphi
        rw [List.mem_append]
        exact (hmem _).mp (List.mem_map_of_mem hphi)
      have hdestv : ∀ phi ∈ phisv, ∃ n, phi.dest = .phi v n := by
        intro phi hphi
        obtain ⟨-, -, n, -, hn⟩ := hinv'.mark (hmark phi hphi)
        exact ⟨n, hn⟩
      refine ⟨phis ++ phisv, ?_, ?_, ?_⟩
      · rw [List.foldlM_cons]
        simp only [hfin, Option.bind_eq_bind, Option.bind_some]
        rw [List.append_assoc]
        exact hfold
      · intro phi hphi
        rcases List.mem_append.mp hphi with hphi | hphi
        · obtain ⟨⟨w, n, hw, hn⟩, hpreds⟩ := hdest phi hphi
          exact ⟨⟨w, n, List.mem_cons_of_mem _ hw, hn⟩, hpreds⟩
        · obtain ⟨n, hn⟩ := hdestv phi hphi
          exact ⟨⟨v, n, List.mem_cons_self, hn⟩, (hsrcs phi hphi).preds⟩
      · intro val₂ v₂ D₂ hv₂ hD₂
        rcases List.mem_cons.mp hv₂ with heq | hv₂
        · obtain ⟨rfl, rfl⟩ := Prod.mk.inj heq
          obtain rfl := Option.some.inj (hD.symm.trans hD₂)
          have hthis : ValueDone F D calls v₂ phisv (val₂.phis.map PhiInstr.mark ++ new) := by
            refine ⟨?_, hinv'.nodup, ?_, ?_⟩
            · intro x b hxb
              obtain ⟨-, hneeds, n, -, hn⟩ := hinv'.mark hxb
              exact ⟨hneeds, n, hn⟩
            · intro x b hxb
              obtain ⟨phi, hphi, heq⟩ := List.mem_map.mp ((hmem _).mpr (List.mem_append.mp hxb))
              obtain ⟨h1, h2⟩ := Prod.mk.inj heq
              exact ⟨phi, hphi, h1, h2⟩
            · intro phi n hphi _
              exact ⟨hmark phi hphi, hsrcs phi hphi⟩
          refine ⟨new, hthis.congr (fun phi hphi => List.mem_append_right _ hphi) ?_⟩
          intro phi hphi n hn
          rcases List.mem_append.mp hphi with hphi | hphi
          · obtain ⟨⟨w, m, hw, hm⟩, -⟩ := hdest phi hphi
            rw [hn] at hm
            cases hm
            exact absurd hw hnodup.1
          · exact hphi
        · obtain ⟨new₂, hdone₂⟩ := hdone val₂ v₂ D₂ hv₂ hD₂
          refine ⟨new₂, hdone₂.congr (fun phi hphi => List.mem_append_left _ hphi) ?_⟩
          intro phi hphi n hn
          rcases List.mem_append.mp hphi with hphi | hphi
          · exact hphi
          · obtain ⟨m, hm⟩ := hdestv phi hphi
            rw [hn] at hm
            cases hm
            exact absurd (List.mem_map_of_mem hv₂) hnodup.1

/-! ### Where a def is executed -/

theorem mem_of_lastDef {calls : List (Call δ)} {v b : ℕ} {d : δ} (h : lastDef calls v b = some d) :
  .setBlockDef v b d ∈ calls
  := by
  obtain ⟨c, hc, hd⟩ := List.mem_filterMap.mp (List.mem_of_getLast? h)
  cases c with
  | addValue D => cases hd
  | getBlockDef w b' => cases hd
  | setBlockDef w b' d' =>
      simp only [Call.defOf, Option.ite_none_right_eq_some, Option.some.injEq] at hd
      obtain ⟨⟨rfl, rfl⟩, rfl⟩ := hd
      exact hc

theorem mem_defsIn {calls : List (Call δ)} {b : ℕ} {d : δ} :
  d ∈ defsIn calls b ↔ ∃ v, .setBlockDef v b d ∈ calls
  := by
  unfold defsIn
  rw [List.mem_filterMap]
  constructor
  · rintro ⟨c, hc, hd⟩
    cases c with
    | addValue D => cases hd
    | getBlockDef w b' => cases hd
    | setBlockDef w b' d' =>
        simp only [Call.defIn, Option.ite_none_right_eq_some, Option.some.injEq] at hd
        obtain ⟨rfl, rfl⟩ := hd
        exact ⟨w, hc⟩
  · rintro ⟨v, hv⟩
    exact ⟨_, hv, by simp [Call.defIn]⟩

/-- The definitions of a value are in its blocks. -/
theorem Usage.mem_of_lastDef (U : Usage F δ) {v b : ℕ} {d : δ} {D : Finset ℕ}
    (hD : (addedValues U.calls)[v]? = some D) (h : lastDef U.calls v b = some d) :
  b ∈ D ∧ b < F.numBlocks
  := by
  obtain ⟨l₁, l₂, hsplit⟩ := List.append_of_mem (PhiBuilder.mem_of_lastDef h)
  obtain ⟨D', hD', hb, hbn⟩ := U.set hsplit
  have hlt : v < (addedValues l₁).length := (List.getElem?_eq_some_iff.mp hD').choose
  have hsame : (addedValues U.calls)[v]? = (addedValues l₁)[v]? := by
    rw [hsplit]
    unfold addedValues at hlt ⊢
    rw [List.filterMap_append, List.getElem?_append_left hlt]
  rw [hsame, hD'] at hD
  obtain rfl := Option.some.inj hD
  exact ⟨hb, hbn⟩

/-- A def is executed in no other block than `e`. -/
def OnlyIn (calls : List (Call δ)) (marks : List (SsaDef δ × ℕ)) (x : SsaDef δ) (e : ℕ) : Prop :=
  (∀ b, (x, b) ∈ marks → b = e) ∧ ∀ b d, x = .user d → d ∈ defsIn calls b → b = e

section Home

variable {D : Finset ℕ} {v : ℕ} {marks : List (SsaDef δ × ℕ)} (U : Usage F δ)
  (hD : (addedValues U.calls)[v]? = some D) (hnodup : (marks.map Prod.fst).Nodup)

include hD

theorem onlyIn_user {b : ℕ} {d : δ} (hd : lastDef U.calls v b = some d)
    (hmark : ∀ x b, (x, b) ∈ marks → ∃ n, x = .phi v n) :
  (b ∈ D ∧ b < F.numBlocks) ∧ OnlyIn U.calls marks (.user d) b
  := by
  refine ⟨U.mem_of_lastDef hD hd, ?_, ?_⟩
  · intro b' hb'
    obtain ⟨n, hn⟩ := hmark _ _ hb'
    cases hn
  · rintro b' d' ⟨⟩ hd'
    obtain ⟨w, hw⟩ := mem_defsIn.mp hd'
    exact U.block hw (mem_of_lastDef hd)

include hnodup

/-- A def that has the value at the start of a block is executed in a block that dominates it and
that defines the value or needs a phi, or nowhere; it is no definition of the block itself. -/
theorem EntryDef.home {b : ℕ} {x : SsaDef δ} (h : EntryDef F D U.calls v marks b x)
    (hmark : ∀ x b, (x, b) ∈ marks → ∃ n, x = .phi v n) (hreach : F.Reachable b) :
  (∀ e, OnlyIn U.calls marks x e) ∨ ∃ e, F.Dom e b ∧
    ((e ∈ D ∧ e < F.numBlocks) ∨ NeedsPhi F D e) ∧ OnlyIn U.calls marks x e ∧
    ∀ d, x = .user d → e ≠ b
  := by
  have hup : ∀ {e c b : ℕ}, F.Reachable b → ImmDom F.Edge 0 c b → F.Dom e c → e ≠ b := by
    rintro e c b hb himm hdom rfl
    obtain ⟨l, hl⟩ := hb
    exact himm.1 (Flow.Dom.antisymm hl hdom himm.2.1).symm
  induction h with
  | @phi b n hb hmem =>
      right
      refine ⟨b, Flow.Dom.refl b, Or.inr hb, ⟨?_, ?_⟩, ?_⟩
      · intro b' hb'
        exact (Prod.mk.inj (List.inj_on_of_nodup_map hnodup hb' hmem rfl)).2
      · intro b' d hd
        cases hd
      · intro d hd
        cases hd
  | start hb =>
      left
      intro e
      refine ⟨?_, ?_⟩
      · intro b' hb'
        obtain ⟨n, hn⟩ := hmark _ _ hb'
        cases hn
      · intro b' d hd
        cases hd
  | @up_def b c d hb himm hd =>
      right
      obtain ⟨hdef, honly⟩ := onlyIn_user U hD hd hmark
      refine ⟨c, himm.2.1, Or.inl hdef, honly, ?_⟩
      intro d' _
      exact himm.1
  | @up b c x hb himm _ _ ih =>
      rcases ih (himm.2.1.reachable hreach) with hno | ⟨e, hdom, hdef, honly, -⟩
      · exact Or.inl hno
      · right
        refine ⟨e, hdom.trans himm.2.1, hdef, honly, ?_⟩
        intro d _
        exact hup hreach himm hdom

/-- The same for the current def at the end of a block. -/
theorem CurDef.home {b : ℕ} {x : SsaDef δ} (h : CurDef F D U.calls U.calls v marks b x)
    (hmark : ∀ x b, (x, b) ∈ marks → ∃ n, x = .phi v n) (hreach : F.Reachable b) :
  (∀ e, OnlyIn U.calls marks x e) ∨ ∃ e, F.Dom e b ∧
    ((e ∈ D ∧ e < F.numBlocks) ∨ NeedsPhi F D e) ∧ OnlyIn U.calls marks x e
  := by
  unfold CurDef at h
  split at h
  · next d hd =>
      right
      obtain ⟨hdef, honly⟩ := onlyIn_user U hD hd hmark
      rw [h]
      exact ⟨b, Flow.Dom.refl b, Or.inl hdef, honly⟩
  · rcases h.home U hD hnodup hmark hreach with hno | ⟨e, hdom, hdef, honly, -⟩
    · exact Or.inl hno
    · exact Or.inr ⟨e, hdom, hdef, honly⟩

end Home

/-! ### Execution -/

section Execution

variable [DecidableEq δ]

theorem execDefs_of_forall_ne {visit : ℕ} {ds : List δ} {E : Env δ} {x : SsaDef δ}
    (h : ∀ d ∈ ds, x ≠ .user d) :
  execDefs visit ds E x = E x
  := by
  unfold execDefs
  induction ds generalizing E with
  | nil => rfl
  | cons d ds ih =>
      rw [List.foldl_cons, ih (fun d' hd' => h d' (List.mem_cons_of_mem _ hd')),
        Function.update_of_ne (h d List.mem_cons_self)]

theorem execDefs_of_mem {visit : ℕ} {ds : List δ} {E : Env δ} {d : δ} (h : d ∈ ds) :
  execDefs visit ds E (.user d) = some (visit, d)
  := by
  unfold execDefs
  induction ds generalizing E with
  | nil => exact absurd h List.not_mem_nil
  | cons d' ds ih =>
      rw [List.foldl_cons]
      by_cases hd : d ∈ ds
      · exact ih hd
      · obtain rfl := (List.mem_cons.mp h).resolve_right hd
        have hlast : execDefs visit ds (Function.update E (.user d) (some (visit, d))) (.user d) =
            Function.update E (.user d) (some (visit, d)) (.user d) := by
          apply execDefs_of_forall_ne
          rintro d' hd' heq
          cases heq
          exact hd hd'
        unfold execDefs at hlast
        rw [hlast, Function.update_self]

theorem enter_of_forall_ne {phis : List (PhiInstr δ)} {b : ℕ} {l : List ℕ} {E : Env δ}
    {x : SsaDef δ} (h : ∀ phi ∈ phis, phi.block = b → phi.dest ≠ x) :
  enter phis b l E x = E x
  := by
  have hnone : phis.find? (fun phi => phi.block = b ∧ phi.dest = x) = none := by
    rw [List.find?_eq_none]
    intro phi hphi
    simp only [decide_eq_true_eq, not_and]
    exact h phi hphi
  unfold enter
  rw [hnone]

/-- A phi takes the value of the source for the block that control comes from. -/
theorem enter_of_mem {phis : List (PhiInstr δ)} {b p : ℕ} {l : List ℕ} {E : Env δ} {x : SsaDef δ}
    (h : ∃ phi ∈ phis, phi.dest = x ∧ phi.block = b)
    (hp : ∀ phi ∈ phis, phi.dest = x → phi.block = b → p ∈ phi.srcs.map Prod.fst) :
  ∃ phi y, phi ∈ phis ∧ phi.dest = x ∧ phi.block = b ∧ (p, y) ∈ phi.srcs ∧
    enter phis b (p :: l) E x = E y
  := by
  obtain ⟨phi₀, hphi₀, hx₀, hb₀⟩ := h
  obtain ⟨phi, hphi⟩ : ∃ phi, phis.find? (fun phi => phi.block = b ∧ phi.dest = x) = some phi := by
    rw [← Option.isSome_iff_exists, List.find?_isSome]
    exact ⟨phi₀, hphi₀, by simp [hx₀, hb₀]⟩
  have hmem := List.mem_of_find?_eq_some hphi
  obtain ⟨hb, hx⟩ : phi.block = b ∧ phi.dest = x := by
    simpa using List.find?_some hphi
  obtain ⟨src, hsrc⟩ : ∃ src, phi.srcs.find? (fun src => src.1 = p) = some src := by
    rw [← Option.isSome_iff_exists, List.find?_isSome]
    obtain ⟨src, hsrc, hp⟩ := List.mem_map.mp (hp phi hmem hx hb)
    exact ⟨src, hsrc, by simpa using hp⟩
  have hsrcp : src.1 = p := by simpa using List.find?_some hsrc
  refine ⟨phi, src.2, hmem, hx, hb, ?_, ?_⟩
  · rw [← hsrcp]
    exact List.mem_of_find?_eq_some hsrc
  · unfold enter PhiInstr.srcFrom
    rw [hphi]
    simp only [hsrc, Option.map_some, Option.getD_some]

variable {D : Finset ℕ} {v : ℕ} {marks : List (SsaDef δ × ℕ)} {phis : List (PhiInstr δ)}
  (U : Usage F δ)

/-- A path that neither executes a def nor defines the value. -/
theorem runPath_append {x : SsaDef δ} {s m : List ℕ}
    (hphi : ∀ b ∈ s, ∀ phi ∈ phis, phi.block = b → phi.dest ≠ x)
    (hdef : ∀ b ∈ s, ∀ d ∈ defsIn U.calls b, x ≠ .user d)
    (hlast : ∀ b ∈ s, lastDef U.calls v b = none)
    (h : runPath phis U.calls m x = mostRecent U.calls v m) :
  runPath phis U.calls (s ++ m) x = mostRecent U.calls v (s ++ m)
  := by
  induction s with
  | nil => exact h
  | cons b s ih =>
      have hrest := ih (fun c hc => hphi c (List.mem_cons_of_mem _ hc))
        (fun c hc => hdef c (List.mem_cons_of_mem _ hc))
        (fun c hc => hlast c (List.mem_cons_of_mem _ hc))
      simp only [List.cons_append, runPath, mostRecent, hlast b List.mem_cons_self]
      rw [execDefs_of_forall_ne (hdef b List.mem_cons_self),
        enter_of_forall_ne (hphi b List.mem_cons_self)]
      exact hrest

omit [DecidableEq δ] in
theorem EntryDef.eq_phi_or {b : ℕ} {x : SsaDef δ} (h : EntryDef F D U.calls v marks b x) :
  (∃ n, x = .phi v n) ∨ ∀ w n, x ≠ .phi w n
  := by
  induction h with
  | phi _ _ => exact Or.inl ⟨_, rfl⟩
  | start _ =>
      right
      intro w n h
      cases h
  | up_def _ _ _ =>
      right
      intro w n h
      cases h
  | up _ _ _ _ ih => exact ih

omit [DecidableEq δ] in
/-- In a block where a def is not executed, it is neither a phi nor a definition. -/
theorem not_executed (hdone : ValueDone F D U.calls v phis marks)
    (hdest : ∀ phi ∈ phis, ∃ w n, phi.dest = .phi w n) {x : SsaDef δ} {e b : ℕ}
    (honly : OnlyIn U.calls marks x e) (hb : b ≠ e)
    (hx : (∃ n, x = .phi v n) ∨ ∀ w n, x ≠ .phi w n) :
  (∀ phi ∈ phis, phi.block = b → phi.dest ≠ x) ∧ ∀ d ∈ defsIn U.calls b, x ≠ .user d
  := by
  constructor
  · rintro phi hphi rfl heq
    rcases hx with ⟨n, hn⟩ | hx
    · have hmark := (hdone.phi hphi (heq.trans hn)).1
      rw [heq] at hmark
      exact hb (honly.1 _ hmark)
    · obtain ⟨w, n, hn⟩ := hdest phi hphi
      exact hx w n (heq.symm.trans hn)
  · rintro d hd rfl
    exact hb (honly.2 b d rfl hd)

variable (hD : (addedValues U.calls)[v]? = some D) (hdone : ValueDone F D U.calls v phis marks)
  (hdest : ∀ phi ∈ phis, ∃ w n, phi.dest = .phi w n)

include hD hdone

/-- If a def has the value at the start of a block, the current one has it later in the block. -/
theorem CurDef.value {before : List (Call δ)} (hsub : before ⊆ U.calls) {b : ℕ} {l : List ℕ}
    (hreach : F.Reachable b)
    (hentry : ∀ x, EntryDef F D U.calls v marks b x →
      enter phis b l (runPath phis U.calls l) x = mostRecent U.calls v l)
    {x : SsaDef δ} (h : CurDef F D U.calls before v marks b x) :
  runTo phis U.calls before b l x = mostRecentTo U.calls before v b l
  := by
  unfold CurDef at h
  unfold runTo mostRecentTo
  cases hd : lastDef before v b with
  | some d =>
      simp only [hd] at h
      rw [h]
      exact execDefs_of_mem (mem_defsIn.mpr ⟨v, mem_of_lastDef hd⟩)
  | none =>
      simp only [hd] at h
      simp only
      rw [← hentry x h]
      apply execDefs_of_forall_ne
      rintro d hdb rfl
      obtain ⟨w, hw⟩ := mem_defsIn.mp hdb
      have hmark : ∀ x b, (x, b) ∈ marks → ∃ n, x = .phi v n := fun x b hxb => (hdone.mark hxb).2
      have hdc : d ∈ defsIn U.calls b := mem_defsIn.mpr ⟨w, hsub hw⟩
      rcases h.home U hD hdone.nodup hmark hreach with honly | ⟨e, -, -, honly, hne⟩
      · exact absurd ((honly (b + 1)).2 b d rfl hdc) (Nat.lt_succ_self b).ne
      · exact hne d rfl (honly.2 b d rfl hdc).symm

include hdest

/-- A def that has the value at the start of a block holds what was executed most recently, on every
path to the block. -/
theorem EntryDef.value {b : ℕ} {l : List ℕ} (hpath : Path F.Edge 0 b (b :: l)) {x : SsaDef δ}
    (h : EntryDef F D U.calls v marks b x) :
  enter phis b l (runPath phis U.calls l) x = mostRecent U.calls v l
  := by
  induction hn : l.length using Nat.strong_induction_on generalizing b l x with
  | _ n ih =>
      have hmark : ∀ x b, (x, b) ∈ marks → ∃ n, x = .phi v n := fun x b hxb => (hdone.mark hxb).2
      -- what holds at the ends of the shorter paths
      have hexit : ∀ c m, m.length < l.length → Path F.Edge 0 c (c :: m) →
          ∀ y, CurDef F D U.calls U.calls v marks c y →
            runPath phis U.calls (c :: m) y = mostRecent U.calls v (c :: m) := by
        intro c m hlt hc y hy
        exact hy.value U hD hdone (List.Subset.refl _) ⟨_, hc⟩
          (fun z hz => ih m.length (by omega) hc hz rfl)
      have hup : ∀ c, ¬NeedsPhi F D b → ImmDom F.Edge 0 c b →
          CurDef F D U.calls U.calls v marks c x →
            enter phis b l (runPath phis U.calls l) x = mostRecent U.calls v l := by
        intro c hb himm hcur
        have hentry := hcur.up hb himm
        obtain ⟨s, m, rfl, hs⟩ : ∃ s m, l = s ++ c :: m ∧ c ∉ s := by
          have hcl : c ∈ l := (List.mem_cons.mp (himm.2.1 _ hpath)).resolve_left himm.1
          exact List.eq_append_cons_of_mem hcl
        have hpathc : Path F.Edge 0 c (c :: m) :=
          hpath.of_append (s := b :: s) (List.cons_append ..).symm
        have hbetween := fun y hy => himm.not_mem_between hb hpath hs (y := y) hy
        -- the def is executed in a block above `c`, which is not passed again
        have hno : ∀ y, y ∈ b :: s → (∀ phi ∈ phis, phi.block = y → phi.dest ≠ x) ∧
            ∀ d ∈ defsIn U.calls y, x ≠ .user d := by
          intro y hy
          have hx := hentry.eq_phi_or U
          rcases hcur.home U hD hdone.nodup hmark ⟨_, hpathc⟩ with honly | ⟨e, hdom, hdef, honly⟩
          · exact not_executed U hdone hdest (honly (y + 1)) (Nat.lt_succ_self y).ne hx
          · refine not_executed U hdone hdest honly ?_ hx
            rintro rfl
            rcases List.mem_cons.mp hy with rfl | hy
            · exact himm.1 (Flow.Dom.antisymm hpath hdom himm.2.1).symm
            · rcases hdef with hdef | hdef
              · exact (hbetween y hy).1 hdef
              · exact (hbetween y hy).2 hdef
        have hlast : ∀ y ∈ s, lastDef U.calls v y = none := by
          intro y hy
          by_contra hne
          obtain ⟨d, hd⟩ := Option.ne_none_iff_exists'.mp hne
          exact (hbetween y hy).1 (U.mem_of_lastDef hD hd)
        rw [enter_of_forall_ne (hno b List.mem_cons_self).1]
        apply runPath_append U (fun y hy => (hno y (List.mem_cons_of_mem _ hy)).1)
          (fun y hy => (hno y (List.mem_cons_of_mem _ hy)).2) hlast
        apply hexit c m _ hpathc x hcur
        rw [List.length_append, List.length_cons]
        omega
      cases h with
      | @phi _ k hb hmem =>
          cases hpath with
          | entry =>
              obtain ⟨p, hedge, -⟩ := hb.exists_pred
              exact absurd hedge (F.ordered.entry p)
          | @step p _ _ hpath hedge =>
              obtain ⟨l', rfl⟩ := hpath.exists_cons
              obtain ⟨phi, y, hphi, hx, hblock, hsrc, hval⟩ := enter_of_mem (p := p) (l := l')
                (E := runPath phis U.calls (p :: l')) (hdone.mem hmem) (by
                  intro phi hphi hx hblock
                  rw [(hdone.phi hphi hx).2.preds, mem_sortedPreds, hblock]
                  exact hedge)
              rw [hval]
              apply hexit p l' (Nat.lt_succ_self _) hpath
              exact (hdone.phi hphi hx).2.srcs hsrc ⟨_, hpath⟩
      | @start k hb =>
          cases hpath with
          | entry =>
              apply enter_of_forall_ne
              intro phi hphi _ heq
              obtain ⟨w, m, hm⟩ := hdest phi hphi
              rw [hm] at heq
              cases heq
          | step hpath hedge => exact absurd hedge (F.ordered.entry _)
      | @up_def b c d hb himm hd =>
          apply hup c hb himm
          simp [CurDef, hd]
      | @up b c x hb himm hd h =>
          apply hup c hb himm
          simpa [CurDef, hd] using h

end Execution

/-! ### Results -/

theorem builderInv_create (calls : List (Call δ)) :
  BuilderInv F calls [] create
  := by
  refine ⟨rfl, ?_, fun x => Nat.le_refl 0⟩
  intro v D val hD
  simp [addedValues] at hD

theorem sortedPreds_nodup (b : ℕ) :
  (Value.sortedPreds F b).Nodup
  := (List.mergeSort_perm _ _).nodup_iff.mpr (F.nodup b)

/-- All values are finished. -/
theorem builder_finish_spec {calls : List (Call δ)} {pb : Builder δ}
    (h : BuilderInv F calls calls pb) {fuel : ℕ} (hfuel : F.numBlocks < fuel) :
  ∃ phis, pb.finish F fuel = some phis ∧
    (∀ phi ∈ phis, (∃ v n, phi.dest = .phi v n) ∧
      phi.srcs.map Prod.fst = Value.sortedPreds F phi.block) ∧
    ∀ v val D, pb.values[v]? = some val → (addedValues calls)[v]? = some D →
      ∃ new, ValueDone F D calls v phis (val.phis.map PhiInstr.mark ++ new)
  := by
  obtain ⟨phis, hfold, hdest, hdone⟩ := foldlM_finish_spec (F := F) calls
    (l := pb.values.zipIdx) (by
      rw [List.zipIdx_map_snd]
      exact List.nodup_range') (by
      intro val v hv
      have hval := List.mk_mem_zipIdx_iff_getElem?.mp hv
      have hlt : v < (addedValues calls).length := by
        rw [← h.length]
        exact (List.getElem?_eq_some_iff.mp hval).choose
      have hD : (addedValues calls)[v]? = some (addedValues calls)[v] :=
        List.getElem?_eq_getElem hlt
      exact ⟨_, hD, h.value hD hval⟩) [] hfuel
  rw [List.append_nil] at hfold
  refine ⟨phis, hfold, ?_, ?_⟩
  · intro phi hphi
    obtain ⟨⟨v, n, -, hn⟩, hpreds⟩ := hdest phi hphi
    exact ⟨⟨v, n, hn⟩, hpreds⟩
  · intro v val D hval hD
    exact hdone val v D (List.mk_mem_zipIdx_iff_getElem?.mpr hval) hD

end PhiBuilder

end Nir
