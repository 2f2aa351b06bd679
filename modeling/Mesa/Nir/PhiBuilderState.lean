import Mesa.Nir.PhiBuilderPlacing

/-!
# The state of a phi builder

The array `defs` of a value holds, for the blocks that have an entry, the def that holds the value
there.  This stays so while definitions are set and defs are asked for, and while the phis get their
sources.
-/

namespace Nir

open Flow

namespace PhiBuilder

variable {ι κ δ : Type} (F : DomFunction ι κ)

/-- A def that has the value `v` at the start of a block, where `calls` has all definitions and
`marks` has the phis that have been created with their blocks. -/
inductive EntryDef (D : Finset ℕ) (calls : List (Call δ)) (v : ℕ) (marks : List (SsaDef δ × ℕ)) :
    ℕ → SsaDef δ → Prop where
  /-- A phi of the block. -/
  | phi {b n : ℕ} : NeedsPhi F D b → (.phi v n, b) ∈ marks → EntryDef D calls v marks b (.phi v n)
  /-- Nothing has been defined. -/
  | start {n : ℕ} : ¬NeedsPhi F D 0 → EntryDef D calls v marks 0 (.undef v n)
  /-- The last definition in the immediate dominator. -/
  | up_def {b c : ℕ} {d : δ} : ¬NeedsPhi F D b → ImmDom F.Edge 0 c b → lastDef calls v c = some d →
      EntryDef D calls v marks b (.user d)
  /-- What comes to the immediate dominator, in which nothing is defined. -/
  | up {b c : ℕ} {x : SsaDef δ} : ¬NeedsPhi F D b → ImmDom F.Edge 0 c b →
      lastDef calls v c = none → EntryDef D calls v marks c x → EntryDef D calls v marks b x

/-- A def that has the value in a block after the calls `before`. -/
def CurDef (D : Finset ℕ) (calls before : List (Call δ)) (v : ℕ) (marks : List (SsaDef δ × ℕ))
    (b : ℕ) (x : SsaDef δ) : Prop :=
  match lastDef before v b with
  | some d => x = .user d
  | none => EntryDef F D calls v marks b x

/-- A phi by its name and its block. -/
def PhiInstr.mark (phi : PhiInstr δ) : SsaDef δ × ℕ := (phi.dest, phi.block)

/-- What an entry of the array `defs` may be. -/
def SlotOk (D : Finset ℕ) (calls before : List (Call δ)) (v : ℕ) (marks : List (SsaDef δ × ℕ))
    (b : ℕ) : Slot δ → Prop
  | .null => lastDef before v b = none ∧ ¬NeedsPhi F D b
  | .needsPhi => lastDef before v b = none ∧ NeedsPhi F D b
  | .ssa x => CurDef F D calls before v marks b x

/-- The state of the value `v` after the calls `before`. -/
structure ValueInv (D : Finset ℕ) (calls before : List (Call δ)) (v : ℕ)
    (marks : List (SsaDef δ × ℕ)) (val : Value δ) : Prop where
  slot : ∀ {b}, b < F.numBlocks → F.Reachable b → SlotOk F D calls before v marks b (val.defs b)
  needsPhi : ∀ {b}, b < F.numBlocks → val.defs b = .needsPhi → NeedsPhi F D b
  mark : ∀ {x b}, (x, b) ∈ marks →
    b < F.numBlocks ∧ NeedsPhi F D b ∧ ∃ n, n < val.created ∧ x = .phi v n
  nodup : (marks.map Prod.fst).Nodup

variable {F} {D : Finset ℕ} {calls before : List (Call δ)} {v : ℕ} {marks : List (SsaDef δ × ℕ)}

theorem NeedsPhi.reachable {b : ℕ} (h : NeedsPhi F D b) :
  F.Reachable b
  := by
  obtain ⟨p, hedge, hp⟩ := h.exists_pred
  exact hp.step hedge

theorem EntryDef.mono {new : List (SsaDef δ × ℕ)} {b : ℕ} {x : SsaDef δ}
    (h : EntryDef F D calls v marks b x) :
  EntryDef F D calls v (marks ++ new) b x
  := by
  induction h with
  | phi hb hmem => exact .phi hb (List.mem_append_left _ hmem)
  | start hb => exact .start hb
  | up_def hb himm hd => exact .up_def hb himm hd
  | up hb himm hd _ ih => exact .up hb himm hd ih

theorem CurDef.mono {new : List (SsaDef δ × ℕ)} {b : ℕ} {x : SsaDef δ}
    (h : CurDef F D calls before v marks b x) :
  CurDef F D calls before v (marks ++ new) b x
  := by
  unfold CurDef at h ⊢
  split
  · next d hd => rwa [hd] at h
  · next hd =>
      rw [hd] at h
      exact h.mono

/-- What comes to a block without a phi is what its immediate dominator has at the end. -/
theorem CurDef.up {b c : ℕ} {x : SsaDef δ} (h : CurDef F D calls calls v marks c x)
    (hb : ¬NeedsPhi F D b) (himm : ImmDom F.Edge 0 c b) :
  EntryDef F D calls v marks b x
  := by
  unfold CurDef at h
  split at h
  · next d hd =>
      rw [h]
      exact .up_def hb himm hd
  · next hd => exact .up hb himm hd h

/-! ### Going up the tree -/

/-- The way up from a block to the first one with an entry, if there is one. -/
inductive Climb (immDom : ℕ → Option ℕ) (defs : ℕ → Slot δ) : ℕ → Option ℕ → Prop where
  | stop {c : ℕ} : (defs c).isNull = false → Climb immDom defs c (some c)
  | top {c : ℕ} : (defs c).isNull = true → immDom c = none → Climb immDom defs c none
  | step {c d : ℕ} {r : Option ℕ} : (defs c).isNull = true → immDom c = some d → d < c →
      Climb immDom defs d r → Climb immDom defs c r

theorem Climb.congr {immDom : ℕ → Option ℕ} {defs defs' : ℕ → Slot δ} {c : ℕ} {r : Option ℕ}
    (h : Climb immDom defs c r) (heq : ∀ e, e ≤ c → (defs' e).isNull = (defs e).isNull) :
  Climb immDom defs' c r
  := by
  induction h with
  | @stop c hc => exact .stop ((heq c (Nat.le_refl c)).trans hc)
  | @top c hc himm => exact .top ((heq c (Nat.le_refl c)).trans hc) himm
  | @step c d r hc himm hlt _ ih =>
      refine .step ((heq c (Nat.le_refl c)).trans hc) himm hlt (ih ?_)
      intro e he
      exact heq e (by omega)

/-- A block with an immediate dominator can be reached. -/
theorem reachable_of_immDom {b d : ℕ} (hb : b < F.numBlocks) (h : F.dom.immDom b = some d) :
  F.Reachable b ∧ ImmDom F.Edge 0 d b ∧ d < b
  := by
  have hreach : F.Reachable b := by
    by_contra hno
    rw [F.exact.immDom_of_not_reachable hb hno] at h
    cases h
  have himm := (F.exact.immDom hb hreach d).mp h
  exact ⟨hreach, himm, F.ordered.lt_of_dom hreach himm.2.1 himm.1⟩

/-- The crawl follows the way up. -/
theorem crawl_spec (defs : ℕ → Slot δ) {b fuel : ℕ} (hb : b < F.numBlocks) (hfuel : b + 1 < fuel) :
  ∃ r, Value.crawl F.dom.immDom defs fuel (some b) = some r ∧ Climb F.dom.immDom defs b r
  := by
  induction fuel generalizing b with
  | zero => omega
  | succ fuel ih =>
      unfold Value.crawl
      by_cases hnull : (defs b).isNull
      · rw [if_pos hnull]
        cases himm : F.dom.immDom b with
        | none =>
            obtain ⟨fuel, rfl⟩ := Nat.exists_eq_succ_of_ne_zero (show fuel ≠ 0 by omega)
            exact ⟨none, rfl, .top hnull himm⟩
        | some d =>
            have hlt := (reachable_of_immDom hb himm).2.2
            obtain ⟨r, hr, hclimb⟩ := ih (b := d) (by omega) (by omega)
            exact ⟨r, hr, .step hnull himm hlt hclimb⟩
      · rw [if_neg hnull]
        exact ⟨some b, rfl, .stop (by simpa using hnull)⟩

/-- The def is stored in the blocks on the way up. -/
theorem stash_spec {defs : ℕ → Slot δ} {b fuel : ℕ} {r : Option ℕ} (x : SsaDef δ)
    (hb : b < F.numBlocks) (hclimb : Climb F.dom.immDom defs b r) (hfuel : b + 1 < fuel) :
  ∃ defs', Value.stash F.dom.immDom x fuel (some b) defs = some defs' ∧
    ∀ e, defs' e = defs e ∨ ((defs e).isNull = true ∧ defs' e = .ssa x ∧ e ≤ b ∧
      Climb F.dom.immDom defs e r ∧ (F.Reachable e → F.Reachable b ∧ F.Dom e b))
  := by
  induction fuel generalizing b defs with
  | zero => omega
  | succ fuel ih =>
      unfold Value.stash
      have hself : F.Reachable b → F.Reachable b ∧ F.Dom b b :=
        fun hreach => ⟨hreach, Flow.Dom.refl b⟩
      have hstore : ∀ e, Function.update defs b (.ssa x) e = defs e ∨
          (e = b ∧ Function.update defs b (.ssa x) e = .ssa x) := by
        intro e
        by_cases he : e = b
        · right
          rw [he, Function.update_self]
          exact ⟨rfl, rfl⟩
        · left
          exact Function.update_of_ne he _ _
      cases hclimb with
      | stop hnull => exact ⟨defs, by simp [hnull], fun e => Or.inl rfl⟩
      | top hnull himm =>
          obtain ⟨fuel, rfl⟩ := Nat.exists_eq_succ_of_ne_zero (show fuel ≠ 0 by omega)
          refine ⟨Function.update defs b (.ssa x), by simp [hnull, himm, Value.stash], ?_⟩
          intro e
          rcases hstore e with he | ⟨rfl, he⟩
          · exact Or.inl he
          · exact Or.inr ⟨hnull, he, Nat.le_refl e, .top hnull himm, hself⟩
      | @step _ d _ hnull himm hlt hclimb =>
          obtain ⟨hreach, hdom, -⟩ := reachable_of_immDom hb himm
          have hsame : ∀ e, e ≤ d →
              (Function.update defs b (.ssa x) e).isNull = (defs e).isNull := by
            intro e he
            rw [Function.update_of_ne (by omega)]
          obtain ⟨defs', hstash, hdefs⟩ := ih (b := d) (by omega) (hclimb.congr hsame) (by omega)
          refine ⟨defs', by simp [hnull, himm, hstash], ?_⟩
          intro e
          rcases hdefs e with he | ⟨he, he', hle, hce, hdome⟩
          · rcases hstore e with hes | ⟨rfl, hes⟩
            · exact Or.inl (he.trans hes)
            · exact Or.inr ⟨hnull, he.trans hes, Nat.le_refl e, .step hnull himm hlt hclimb, hself⟩
          · rcases hstore e with hes | ⟨rfl, hes⟩
            · rw [hes] at he
              refine Or.inr ⟨he, he', by omega, hce.congr ?_, ?_⟩
              · intro e' he'
                exact (hsame e' (by omega)).symm
              · intro hre
                exact ⟨hreach, (hdome hre).2.trans hdom.2.1⟩
            · rw [hes] at he
              simp [Slot.isNull] at he

/-- On the way up from a block nothing is defined, so that it has the value of where the way ends. -/
theorem Climb.curDef {val : Value δ} (h : ValueInv F D calls before v marks val) {b c : ℕ}
    {r : Option ℕ} {x : SsaDef δ} (hclimb : Climb F.dom.immDom val.defs c r)
    (hb : b < F.numBlocks) (hreach : F.Reachable b) (hdom : F.Dom c b)
    (hdone : ∀ e, e ≠ b → F.Dom e b → lastDef before v e = lastDef calls v e)
    (hend : ∀ e, r = some e → F.Dom e b → CurDef F D calls before v marks e x)
    (htop : r = none → ∃ n, x = .undef v n) :
  CurDef F D calls before v marks c x
  := by
  have hnull : ∀ {c}, (val.defs c).isNull = true → F.Dom c b → F.Reachable c ∧ c < F.numBlocks ∧
      lastDef before v c = none ∧ ¬NeedsPhi F D c := by
    intro c hc hdom
    have hcreach : F.Reachable c := hdom.reachable hreach
    have hcn : c < F.numBlocks := (F.ordered.le_of_dom hreach hdom).trans_lt hb
    have hslot := h.slot hcn hcreach
    cases hdefs : val.defs c with
    | null =>
        rw [hdefs] at hslot
        exact ⟨hcreach, hcn, hslot⟩
    | needsPhi => simp [hdefs, Slot.isNull] at hc
    | ssa y => simp [hdefs, Slot.isNull] at hc
  induction hclimb with
  | @stop c hc => exact hend c rfl hdom
  | @top c hc himm =>
      obtain ⟨hcreach, hcn, hlast, hno⟩ := hnull hc hdom
      obtain ⟨n, rfl⟩ := htop rfl
      have hzero : c = 0 := by
        by_contra hne
        obtain ⟨d, hd⟩ := F.exact.exists_immDom hcn hcreach hne
        rw [himm] at hd
        cases hd
      subst hzero
      unfold CurDef
      rw [hlast]
      exact .start hno
  | @step c d r hc himm hlt _ ih =>
      obtain ⟨-, hcn, hlast, hno⟩ := hnull hc hdom
      obtain ⟨-, himm, -⟩ := reachable_of_immDom hcn himm
      have hdb : F.Dom d b := himm.2.1.trans hdom
      have hdne : d ≠ b := by
        rintro rfl
        exact himm.1 (Flow.Dom.antisymm hreach.choose_spec himm.2.1 hdom)
      have hcur := ih hdb hend htop
      unfold CurDef at hcur ⊢
      rw [hlast]
      rw [hdone d hdne hdb] at hcur
      exact CurDef.up hcur hno himm

/-! ### Asking for a def -/

/-- Whether an entry is `NEEDS_PHI`. -/
def Slot.isNeedsPhi : Slot δ → Bool
  | .needsPhi => true
  | _ => false

@[simp]
theorem isNeedsPhi_needsPhi :
  (Slot.needsPhi : Slot δ).isNeedsPhi = true
  := rfl

@[simp]
theorem isNeedsPhi_def (x : SsaDef δ) :
  (Slot.ssa x).isNeedsPhi = false
  := rfl

/-- The phis that are in the list, and those that may still be created in the first `n` blocks. -/
def Value.pending (n : ℕ) (val : Value δ) : ℕ :=
  val.phis.length + ((Finset.range n).filter (fun b => (val.defs b).isNeedsPhi)).card

theorem SlotOk.mono {new : List (SsaDef δ × ℕ)} {b : ℕ} {slot : Slot δ}
    (h : SlotOk F D calls before v marks b slot) :
  SlotOk F D calls before v (marks ++ new) b slot
  := by
  cases slot with
  | null => exact h
  | needsPhi => exact h
  | ssa x => exact CurDef.mono h

theorem SlotOk.congr {before' : List (Call δ)} {b : ℕ} {slot : Slot δ}
    (h : SlotOk F D calls before v marks b slot) (hlast : lastDef before' v b = lastDef before v b) :
  SlotOk F D calls before' v marks b slot
  := by
  cases slot with
  | null =>
      refine ⟨hlast.trans h.1, h.2⟩
  | needsPhi =>
      refine ⟨hlast.trans h.1, h.2⟩
  | ssa x =>
      simp only [SlotOk, CurDef] at h ⊢
      rwa [hlast]

/-- Fewer blocks need a phi when one gets a def. -/
theorem card_needsPhi_update_le (n : ℕ) (defs : ℕ → Slot δ) (e : ℕ) (x : SsaDef δ) :
  ((Finset.range n).filter (fun b => (Function.update defs e (.ssa x) b).isNeedsPhi)).card ≤
    ((Finset.range n).filter (fun b => (defs b).isNeedsPhi)).card
  := by
  apply Finset.card_le_card
  intro b hb
  by_cases hbe : b = e
  · simp [hbe] at hb
  · simpa [hbe] using hb

theorem card_needsPhi_update_lt {n : ℕ} {defs : ℕ → Slot δ} {e : ℕ} (x : SsaDef δ) (he : e < n)
    (hneeds : defs e = .needsPhi) :
  ((Finset.range n).filter (fun b => (Function.update defs e (.ssa x) b).isNeedsPhi)).card <
    ((Finset.range n).filter (fun b => (defs b).isNeedsPhi)).card
  := by
  apply Finset.card_lt_card
  rw [Finset.ssubset_iff_of_subset]
  · exact ⟨e, by simp [he, hneeds], by simp⟩
  · intro b hb
    by_cases hbe : b = e
    · simp [hbe] at hb
    · simpa [hbe] using hb

/-- The def of the block where the way up has ended: it has been there, or a phi or an undefined
value is created. -/
theorem defAt_spec {val : Value δ} (h : ValueInv F D calls before v marks val) {r : Option ℕ}
    (hr : ∀ e, r = some e → e < F.numBlocks ∧ (val.defs e).isNull = false) :
  ∃ new : List (PhiInstr δ), (Value.defAt v val r).2.phis = val.phis ++ new ∧
    ValueInv F D calls before v (marks ++ new.map PhiInstr.mark) (Value.defAt v val r).2 ∧
    (∀ e, ((Value.defAt v val r).2.defs e).isNull = (val.defs e).isNull) ∧
    (∀ e, r = some e → F.Reachable e →
      CurDef F D calls before v (marks ++ new.map PhiInstr.mark) e (Value.defAt v val r).1) ∧
    (r = none → ∃ n, (Value.defAt v val r).1 = .undef v n) ∧
    (Value.defAt v val r).2.pending F.numBlocks ≤ val.pending F.numBlocks
  := by
  cases r with
  | none =>
      refine ⟨[], (List.append_nil _).symm, ?_, fun e => rfl, by simp, fun _ => ⟨_, rfl⟩, le_rfl⟩
      rw [List.map_nil, List.append_nil]
      refine ⟨h.slot, h.needsPhi, ?_, h.nodup⟩
      intro x b hxb
      obtain ⟨hb, hneeds, n, hn, hx⟩ := h.mark hxb
      exact ⟨hb, hneeds, n, Nat.lt_succ_of_lt hn, hx⟩
  | some e =>
      obtain ⟨hen, hnull⟩ := hr e rfl
      cases hdefs : val.defs e with
      | null => simp [hdefs, Slot.isNull] at hnull
      | ssa y =>
          have hval : Value.defAt v val (some e) = (y, val) := by simp [Value.defAt, hdefs]
          rw [hval]
          refine ⟨[], (List.append_nil _).symm, ?_, fun e => rfl, ?_, by simp, le_rfl⟩
          · rwa [List.map_nil, List.append_nil]
          · rintro e' ⟨⟩ hreach
            have hslot := h.slot hen hreach
            rw [hdefs] at hslot
            rwa [List.map_nil, List.append_nil]
      | needsPhi =>
          have hneeds : NeedsPhi F D e := h.needsPhi hen hdefs
          have hval : Value.defAt v val (some e) = (.phi v val.created,
              { defs := Function.update val.defs e (.ssa (.phi v val.created))
                phis := val.phis ++ [⟨.phi v val.created, e, []⟩]
                created := val.created + 1 }) := by simp [Value.defAt, hdefs]
          have hmem : (SsaDef.phi v val.created, e) ∈ marks ++ [(SsaDef.phi v val.created, e)] :=
            List.mem_append_right _ (List.mem_singleton_self _)
          have hcur : CurDef F D calls before v (marks ++ [(SsaDef.phi v val.created, e)]) e
              (.phi v val.created) := by
            have hslot := h.slot hen hneeds.reachable
            rw [hdefs] at hslot
            unfold CurDef
            rw [hslot.1]
            exact .phi hneeds hmem
          rw [hval]
          refine ⟨[⟨.phi v val.created, e, []⟩], rfl, ⟨?_, ?_, ?_, ?_⟩, ?_, ?_, by simp, ?_⟩
          · intro b hb hreach
            by_cases hbe : b = e
            · subst hbe
              simp only [Function.update_self]
              exact hcur
            · simp only [Function.update_of_ne hbe]
              exact (h.slot hb hreach).mono
          · intro b hb hphi
            by_cases hbe : b = e
            · rwa [hbe]
            · simp only [Function.update_of_ne hbe] at hphi
              exact h.needsPhi hb hphi
          · intro x b hxb
            rcases List.mem_append.mp hxb with hxb | hxb
            · obtain ⟨hb, hneeds, n, hn, hx⟩ := h.mark hxb
              exact ⟨hb, hneeds, n, Nat.lt_succ_of_lt hn, hx⟩
            · obtain ⟨rfl, rfl⟩ := Prod.mk.inj (List.mem_singleton.mp hxb)
              exact ⟨hen, hneeds, val.created, Nat.lt_succ_self _, rfl⟩
          · rw [List.map_append, List.nodup_append]
            refine ⟨h.nodup, by simp, ?_⟩
            rintro x hx y hy rfl
            obtain ⟨⟨x, b⟩, hxb, rfl⟩ := List.mem_map.mp hx
            obtain ⟨-, -, n, hn, hxn⟩ := h.mark hxb
            have hyn : x = SsaDef.phi v val.created := by simpa [PhiInstr.mark] using hy
            rw [hxn] at hyn
            cases hyn
            exact absurd hn (Nat.lt_irrefl _)
          · intro b
            by_cases hbe : b = e
            · simp [hbe, hdefs, Slot.isNull]
            · simp [hbe]
          · rintro e' ⟨⟩ _
            exact hcur
          · have hlt := card_needsPhi_update_lt (.phi v val.created) hen hdefs
            simp only [Value.pending, List.length_append, List.length_singleton]
            omega

theorem Climb.end_spec {immDom : ℕ → Option ℕ} {defs : ℕ → Slot δ} {c : ℕ} {r : Option ℕ}
    (h : Climb immDom defs c r) {e : ℕ} (he : r = some e) :
  e ≤ c ∧ (defs e).isNull = false
  := by
  induction h with
  | stop hc =>
      cases he
      exact ⟨Nat.le_refl _, hc⟩
  | top _ _ => cases he
  | step _ _ hlt _ ih =>
      obtain ⟨hle, hnull⟩ := ih he
      exact ⟨by omega, hnull⟩

/-- A def that is asked for has the value, if the definitions in the blocks above are done. -/
theorem getBlockDef_spec {val : Value δ} (h : ValueInv F D calls before v marks val) {b fuel : ℕ}
    (hb : b < F.numBlocks) (hfuel : F.numBlocks < fuel)
    (hdone : F.Reachable b → ∀ e, e ≠ b → F.Dom e b → lastDef before v e = lastDef calls v e) :
  ∃ x val' new, val.getBlockDef F fuel v b = some (x, val') ∧
    val'.phis = val.phis ++ new ∧
    ValueInv F D calls before v (marks ++ new.map PhiInstr.mark) val' ∧
    val'.pending F.numBlocks ≤ val.pending F.numBlocks ∧
    (F.Reachable b → CurDef F D calls before v (marks ++ new.map PhiInstr.mark) b x)
  := by
  obtain ⟨r, hcrawl, hclimb⟩ := crawl_spec val.defs hb (show b + 1 < fuel by omega)
  obtain ⟨new, hphis, hinv, hnull, hend, htop, hpend⟩ := defAt_spec h (r := r) (by
    intro e he
    obtain ⟨hle, hn⟩ := hclimb.end_spec he
    exact ⟨by omega, hn⟩)
  have hclimb' := hclimb.congr (fun e _ => hnull e)
  have hcur : ∀ c, F.Reachable b → F.Dom c b → Climb F.dom.immDom (Value.defAt v val r).2.defs c r →
      CurDef F D calls before v (marks ++ new.map PhiInstr.mark) c (Value.defAt v val r).1 := by
    intro c hreach hdom hc
    refine hc.curDef hinv hb hreach hdom (hdone hreach) ?_ htop
    intro e he hdome
    exact hend e he (hdome.reachable hreach)
  obtain ⟨defs', hstash, hdefs⟩ :=
    stash_spec (Value.defAt v val r).1 hb hclimb' (show b + 1 < fuel by omega)
  refine ⟨(Value.defAt v val r).1, { (Value.defAt v val r).2 with defs := defs' }, new, ?_, hphis,
    ⟨?_, ?_, hinv.mark, hinv.nodup⟩, ?_, ?_⟩
  · simp [Value.getBlockDef, hcrawl, hstash]
  · intro c hc hreach
    rcases hdefs c with heq | ⟨-, heq, -, hce, hdom⟩
    · simp only [heq]
      exact hinv.slot hc hreach
    · simp only [heq]
      obtain ⟨hbreach, hcb⟩ := hdom hreach
      exact hcur c hbreach hcb hce
  · intro c hc hneeds
    rcases hdefs c with heq | ⟨-, heq, -, -, -⟩
    · simp only [heq] at hneeds
      exact hinv.needsPhi hc hneeds
    · simp [heq] at hneeds
  · refine le_trans (Nat.add_le_add_left (Finset.card_le_card ?_) _) hpend
    intro c hc
    rcases hdefs c with heq | ⟨-, heq, -, -, -⟩
    · simpa [heq] using hc
    · simp [heq] at hc
  · intro hreach
    exact hcur b hreach (Flow.Dom.refl b) hclimb'

/-- A definition of a value changes its own block only. -/
theorem lastDef_append_setBlockDef (calls : List (Call δ)) (v b w c : ℕ) (d : δ) :
  lastDef (calls ++ [.setBlockDef v b d]) w c =
    if v = w ∧ b = c then some d else lastDef calls w c
  := by
  unfold lastDef
  rw [List.filterMap_append]
  by_cases hwc : v = w ∧ b = c
  · simp [Call.defOf, hwc]
  · simp [Call.defOf, hwc]

/-- A definition is set. -/
theorem setBlockDef_spec {val : Value δ} (h : ValueInv F D calls before v marks val) (b : ℕ) (d : δ) :
  ValueInv F D calls (before ++ [.setBlockDef v b d]) v marks (val.setBlockDef b (.user d)) ∧
    (val.setBlockDef b (.user d)).pending F.numBlocks ≤ val.pending F.numBlocks
  := by
  refine ⟨⟨?_, ?_, h.mark, h.nodup⟩, ?_⟩
  · intro c hc hreach
    by_cases hcb : c = b
    · subst hcb
      simp only [Value.setBlockDef, Function.update_self, SlotOk, CurDef,
        lastDef_append_setBlockDef, and_self, if_true]
    · have hlast : lastDef (before ++ [.setBlockDef v b d]) v c = lastDef before v c := by
        rw [lastDef_append_setBlockDef, if_neg]
        exact fun heq => hcb heq.2.symm
      have hslot := h.slot hc hreach
      simp only [Value.setBlockDef, Function.update_of_ne hcb]
      exact hslot.congr hlast
  · intro c hc hneeds
    by_cases hcb : c = b
    · simp [Value.setBlockDef, hcb] at hneeds
    · simp only [Value.setBlockDef, Function.update_of_ne hcb] at hneeds
      exact h.needsPhi hc hneeds
  · exact Nat.add_le_add_left (card_needsPhi_update_le F.numBlocks val.defs b (.user d)) _

/-! ### Sources of the phis -/

/-- A phi has a source for every predecessor, which has the value at the end of it. -/
structure SrcsOk (F : DomFunction ι κ) (D : Finset ℕ) (calls : List (Call δ)) (v : ℕ)
    (marks : List (SsaDef δ × ℕ)) (phi : PhiInstr δ) : Prop where
  preds : phi.srcs.map Prod.fst = Value.sortedPreds F phi.block
  srcs : ∀ {p x}, (p, x) ∈ phi.srcs → F.Reachable p → CurDef F D calls calls v marks p x

/-- The sources of a phi are found. -/
theorem foldlM_addSrc_spec {val : Value δ} (h : ValueInv F D calls calls v marks val)
    {preds : List ℕ} (hpreds : ∀ p ∈ preds, p < F.numBlocks) (acc : List (ℕ × SsaDef δ)) {fuel : ℕ}
    (hfuel : F.numBlocks < fuel) :
  ∃ srcs val' new, preds.foldlM (Value.addSrc F fuel v) (acc, val) = some (acc ++ srcs, val') ∧
    srcs.map Prod.fst = preds ∧ val'.phis = val.phis ++ new ∧
    ValueInv F D calls calls v (marks ++ new.map PhiInstr.mark) val' ∧
    val'.pending F.numBlocks ≤ val.pending F.numBlocks ∧
    ∀ p x, (p, x) ∈ srcs → F.Reachable p →
      CurDef F D calls calls v (marks ++ new.map PhiInstr.mark) p x
  := by
  induction preds generalizing val marks acc with
  | nil =>
      refine ⟨[], val, [], by simp, rfl, by simp, ?_, le_rfl, by simp⟩
      rwa [List.map_nil, List.append_nil]
  | cons p preds ih =>
      obtain ⟨x, val₁, new₁, hget, hphis₁, hinv₁, hpend₁, hcur₁⟩ :=
        getBlockDef_spec h (hpreds p List.mem_cons_self) hfuel (fun _ _ _ _ => rfl)
      obtain ⟨srcs, val₂, new₂, hfold, hmap, hphis₂, hinv₂, hpend₂, hcur₂⟩ :=
        ih hinv₁ (fun q hq => hpreds q (List.mem_cons_of_mem _ hq)) (acc ++ [(p, x)])
      refine ⟨(p, x) :: srcs, val₂, new₁ ++ new₂, ?_, ?_, ?_, ?_, hpend₂.trans hpend₁, ?_⟩
      · rw [List.foldlM_cons]
        simp only [Value.addSrc, hget, Option.bind_eq_bind, Option.bind_some]
        rw [hfold, List.append_assoc, List.singleton_append]
      · rw [List.map_cons, hmap]
      · rw [hphis₂, hphis₁, List.append_assoc]
      · rwa [List.map_append, ← List.append_assoc]
      · intro q y hqy hreach
        rw [List.map_append, ← List.append_assoc]
        rcases List.mem_cons.mp hqy with heq | hqy
        · obtain ⟨rfl, rfl⟩ := Prod.mk.inj heq
          exact (hcur₁ hreach).mono
        · exact hcur₂ q y hqy hreach

theorem mem_sortedPreds {p b : ℕ} :
  p ∈ Value.sortedPreds F b ↔ F.Edge p b
  := List.mem_mergeSort

/-- All phis get their sources. -/
theorem finish_spec {val : Value δ} (h : ValueInv F D calls calls v marks val)
    (inserted : List (PhiInstr δ)) {fuel n : ℕ} (hfuel : F.numBlocks < fuel)
    (hn : val.pending F.numBlocks < n) :
  ∃ val' phis new, Value.finish F fuel v n (val, inserted) = some (val', phis ++ inserted) ∧
    ValueInv F D calls calls v (marks ++ new) val' ∧
    (∀ m, m ∈ phis.map PhiInstr.mark ↔ m ∈ val.phis.map PhiInstr.mark ∨ m ∈ new) ∧
    ∀ phi ∈ phis, SrcsOk F D calls v (marks ++ new) phi
  := by
  induction n generalizing val marks inserted with
  | zero => omega
  | succ n ih =>
      unfold Value.finish
      cases hphis : val.phis with
      | nil =>
          refine ⟨val, [], [], rfl, ?_, by simp, by simp⟩
          rwa [List.append_nil]
      | cons phi phis =>
          have hpop : ValueInv F D calls calls v marks { val with phis := phis } :=
            ⟨h.slot, h.needsPhi, h.mark, h.nodup⟩
          have hlt : ∀ p ∈ Value.sortedPreds F phi.block, p < F.numBlocks :=
            fun p hp => (mem_sortedPreds.mp hp).lt
          obtain ⟨srcs, val₁, new₁, hfold, hmap, hphis₁, hinv₁, hpend₁, hcur₁⟩ :=
            foldlM_addSrc_spec hpop hlt [] hfuel
          have hpend : val₁.pending F.numBlocks < n := by
            have hone : Value.pending F.numBlocks { val with phis := phis } + 1 =
                val.pending F.numBlocks := by
              simp only [Value.pending, hphis, List.length_cons]
              omega
            omega
          obtain ⟨val₂, phis₂, new₂, hfin, hinv₂, hmem₂, hsrcs₂⟩ :=
            ih hinv₁ ({ phi with srcs := srcs } :: inserted) hpend
          refine ⟨val₂, phis₂ ++ [{ phi with srcs := srcs }], new₁.map PhiInstr.mark ++ new₂, ?_, ?_,
            ?_, ?_⟩
          · simp only [hfold, Option.bind_eq_bind, Option.bind_some, List.nil_append]
            rw [hfin, List.append_assoc, List.singleton_append]
          · rwa [← List.append_assoc]
          · intro m
            have hm := hmem₂ m
            rw [hphis₁] at hm
            simp only [List.map_append, List.mem_append, List.map_cons, List.map_nil,
              List.mem_cons, List.not_mem_nil, or_false, PhiInstr.mark] at hm ⊢
            rw [hm]
            tauto
          · intro phi' hphi'
            rw [← List.append_assoc]
            rcases List.mem_append.mp hphi' with hphi' | hphi'
            · exact hsrcs₂ phi' hphi'
            · rw [List.mem_singleton.mp hphi']
              refine ⟨hmap, ?_⟩
              intro p x hpx hreach
              exact (hcur₁ p x hpx hreach).mono

end PhiBuilder

end Nir
