import Mathlib.Data.Finset.Card
import Mesa.Nir.DominanceExact
import Mesa.Nir.PhiBuilder

/-!
# Placing phis

Adding a value to a phi builder marks the iterated dominance frontier of its definitions.
-/

namespace Nir

open Flow

namespace DomFunction

variable {ι κ : Type} (F : DomFunction ι κ)

theorem exact :
  F.toFunctionImpl.DomExact F.dom
  := by
  obtain ⟨s₀, fuel, hfuel, hdom⟩ := F.valid
  obtain ⟨s, hs, hexact, -⟩ := F.toFunctionImpl.domExact_calcDominanceImpl s₀ hfuel
  rw [hdom] at hs
  obtain rfl := Option.some.inj hs
  exact hexact

/-- The blocks of a dominance frontier. -/
theorem mem_frontier_iff {b x : ℕ} (hb : b < F.numBlocks) :
  x ∈ F.frontier b ↔ x < F.numBlocks ∧ Flow.InFrontier F.Edge 0 b x
  := by
  rw [F.mem_frontier]
  exact F.exact.domFrontier hb x

/-- Nothing is in the dominance frontier of the end block, which has no successors. -/
theorem lt_of_inFrontier {b x : ℕ} (h : Flow.InFrontier F.Edge 0 b x) :
  b < F.numBlocks
  := by
  obtain ⟨⟨p, hedge, hp, hdom⟩, -⟩ := h
  exact (F.ordered.le_of_dom hp hdom).trans_lt hedge.lt

end DomFunction

namespace PhiBuilder

variable {ι κ δ : Type} (F : DomFunction ι κ)

/-- The iterated dominance frontier of blocks that define a value. -/
def NeedsPhi (D : Finset ℕ) (b : ℕ) : Prop :=
  IteratedFrontier F.Edge 0 (fun d => d ∈ D ∧ d < F.numBlocks) b

/-! ### Placing phis -/

/-- What holds while phis are placed, except that the worklist may lack blocks. -/
structure PlaceInv (D : Finset ℕ) (iter : ℕ) (s : Placing δ) : Prop where
  slot : ∀ x, s.defs x = .null ∨ s.defs x = .needsPhi
  sound : ∀ x, s.defs x = .needsPhi → x < F.numBlocks ∧ NeedsPhi F D x
  queue : ∀ x ∈ s.queue, x < F.numBlocks ∧ (x ∈ D ∨ NeedsPhi F D x)
  work : ∀ x, s.work x ≤ iter
  stamped : ∀ x, s.defs x = .needsPhi → s.work x = iter

/-- The frontier of a block has been marked. -/
def Marked (s : Placing δ) (x : ℕ) : Prop :=
  ∀ y ∈ F.frontier x, y ≠ F.numBlocks → s.defs y = .needsPhi

/-- How many blocks may still be taken from the worklist. -/
def Placing.rest (n iter : ℕ) (s : Placing δ) : ℕ :=
  s.queue.length + ((Finset.range n).filter (fun x => s.work x < iter)).card

/-- A block that gets its stamp is one block less without. -/
theorem card_stamp {n iter x : ℕ} {work : ℕ → ℕ} (hx : x < n) (hlt : work x < iter) :
  ((Finset.range n).filter (fun y => Function.update work x iter y < iter)).card + 1 =
    ((Finset.range n).filter (fun y => work y < iter)).card
  := by
  have herase : (Finset.range n).filter (fun y => Function.update work x iter y < iter) =
      ((Finset.range n).filter (fun y => work y < iter)).erase x := by
    ext y
    by_cases hy : y = x
    · subst hy
      simp
    · simp [hy]
  rw [herase]
  exact Finset.card_erase_add_one (by simp [hx, hlt])

variable {F} {D : Finset ℕ} {iter : ℕ}

/-- What one block of a dominance frontier does. -/
theorem pushNext_spec {s : Placing δ} (h : PlaceInv F D iter s) {next : ℕ}
    (hnext : next < F.numBlocks) (hphi : NeedsPhi F D next) :
  let s' := pushNext F.numBlocks iter s next
  PlaceInv F D iter s' ∧ s'.rest F.numBlocks iter = s.rest F.numBlocks iter ∧
    s'.defs next = .needsPhi ∧ (∀ y, s.defs y = .needsPhi → s'.defs y = .needsPhi) ∧
    (∀ y ∈ s.queue, y ∈ s'.queue) ∧ (∀ y, s.work y = iter → s'.work y = iter) ∧
    ∀ y, s'.work y = iter → s.work y = iter ∨ y ∈ s'.queue
  := by
  intro s'
  have hs' : s' = pushNext F.numBlocks iter s next := rfl
  rw [pushNext, if_neg hnext.ne] at hs'
  rcases h.slot next with hnull | hneeds
  · have hmark : ∀ y, s.defs y = .needsPhi →
        Function.update s.defs next .needsPhi y = Slot.needsPhi := by
      intro y hy
      by_cases hyn : y = next
      · rw [hyn, Function.update_self]
      · rwa [Function.update_of_ne hyn]
    have hslot : ∀ y, Function.update s.defs next .needsPhi y = Slot.null ∨
        Function.update s.defs next .needsPhi y = .needsPhi := by
      intro y
      by_cases hyn : y = next
      · right
        rw [hyn, Function.update_self]
      · rw [Function.update_of_ne hyn]
        exact h.slot y
    have hsound : ∀ y, Function.update s.defs next .needsPhi y = Slot.needsPhi →
        y < F.numBlocks ∧ NeedsPhi F D y := by
      intro y hy
      by_cases hyn : y = next
      · rw [hyn]
        exact ⟨hnext, hphi⟩
      · rw [Function.update_of_ne hyn] at hy
        exact h.sound y hy
    rw [hnull] at hs'
    simp only [Slot.isNull, if_true] at hs'
    by_cases hlt : s.work next < iter
    · rw [if_pos hlt] at hs'
      rw [hs']
      refine ⟨⟨hslot, hsound, ?_, ?_, ?_⟩, ?_, Function.update_self .., hmark, ?_, ?_, ?_⟩
      · intro y hy
        rcases List.mem_append.mp hy with hy | hy
        · exact h.queue y hy
        · rw [List.mem_singleton.mp hy]
          exact ⟨hnext, Or.inr hphi⟩
      · intro y
        by_cases hyn : y = next
        · simp [hyn]
        · simpa [hyn] using h.work y
      · intro y hy
        by_cases hyn : y = next
        · simp [hyn]
        · simp only [Function.update_of_ne hyn] at hy ⊢
          exact h.stamped y hy
      · have hcard := card_stamp hnext hlt
        simp only [Placing.rest, List.length_append, List.length_singleton]
        omega
      · intro y hy
        exact List.mem_append_left _ hy
      · intro y hy
        by_cases hyn : y = next
        · simp [hyn]
        · simpa [hyn] using hy
      · intro y hy
        by_cases hyn : y = next
        · right
          simp [hyn]
        · left
          simpa [hyn] using hy
    · have heq : s.work next = iter := by
        have := h.work next
        omega
      rw [if_neg hlt] at hs'
      rw [hs']
      refine ⟨⟨hslot, hsound, h.queue, h.work, ?_⟩, rfl, Function.update_self .., hmark,
        fun y hy => hy, fun y hy => hy, fun y hy => Or.inl hy⟩
      intro y hy
      by_cases hyn : y = next
      · rw [hyn]
        exact heq
      · simp only [Function.update_of_ne hyn] at hy
        exact h.stamped y hy
  · rw [hneeds] at hs'
    simp only [Slot.isNull, Bool.false_eq_true, if_false] at hs'
    rw [hs']
    exact ⟨h, rfl, hneeds, fun y hy => hy, fun y hy => hy, fun y hy => hy,
      fun y hy => Or.inl hy⟩

/-- What the blocks of a dominance frontier do. -/
theorem foldl_pushNext_spec {s : Placing δ} (h : PlaceInv F D iter s) {l : List ℕ}
    (hl : ∀ x ∈ l, x < F.numBlocks ∧ NeedsPhi F D x) :
  let s' := l.foldl (pushNext F.numBlocks iter) s
  PlaceInv F D iter s' ∧ s'.rest F.numBlocks iter = s.rest F.numBlocks iter ∧
    (∀ x ∈ l, s'.defs x = .needsPhi) ∧ (∀ y, s.defs y = .needsPhi → s'.defs y = .needsPhi) ∧
    (∀ y ∈ s.queue, y ∈ s'.queue) ∧ (∀ y, s.work y = iter → s'.work y = iter) ∧
    ∀ y, s'.work y = iter → s.work y = iter ∨ y ∈ s'.queue
  := by
  induction l generalizing s with
  | nil =>
      exact ⟨h, rfl, by simp, fun y hy => hy, fun y hy => hy, fun y hy => hy,
        fun y hy => Or.inl hy⟩
  | cons x l ih =>
      obtain ⟨hx, hphi⟩ := hl x List.mem_cons_self
      obtain ⟨h₁, hrest₁, hx₁, hdefs₁, hqueue₁, hstamp₁, hwork₁⟩ := pushNext_spec h hx hphi
      obtain ⟨h₂, hrest₂, hl₂, hdefs₂, hqueue₂, hstamp₂, hwork₂⟩ :=
        ih h₁ (fun y hy => hl y (List.mem_cons_of_mem _ hy))
      refine ⟨h₂, hrest₂.trans hrest₁, ?_, ?_, ?_, ?_, ?_⟩
      · intro y hy
        rcases List.mem_cons.mp hy with rfl | hy
        · exact hdefs₂ y hx₁
        · exact hl₂ y hy
      · intro y hy
        exact hdefs₂ y (hdefs₁ y hy)
      · intro y hy
        exact hqueue₂ y (hqueue₁ y hy)
      · intro y hy
        exact hstamp₂ y (hstamp₁ y hy)
      · intro y hy
        rcases hwork₂ y hy with hy | hy
        · rcases hwork₁ y hy with hy | hy
          · exact Or.inl hy
          · exact Or.inr (hqueue₂ y hy)
        · exact Or.inr hy

/-- The worklist gets empty, and every block with a stamp has its frontier marked. -/
theorem place_spec {s : Placing δ} (h : PlaceInv F D iter s)
    (hclosed : ∀ x, s.work x = iter → x ∈ s.queue ∨ Marked F s x) {fuel : ℕ}
    (hfuel : s.rest F.numBlocks iter < fuel) :
  ∃ s', Builder.place F iter fuel s = some s' ∧ PlaceInv F D iter s' ∧
    (∀ x, s.work x = iter → s'.work x = iter) ∧ ∀ x, s'.work x = iter → Marked F s' x
  := by
  induction fuel generalizing s with
  | zero => omega
  | succ fuel ih =>
      unfold Builder.place
      cases hq : s.queue with
      | nil =>
          refine ⟨s, rfl, h, fun x hx => hx, ?_⟩
          intro x hx
          rcases hclosed x hx with hmem | hmarked
          · rw [hq] at hmem
            exact absurd hmem List.not_mem_nil
          · exact hmarked
      | cons cur queue =>
          have hcur := h.queue cur (by simp [hq])
          have hpop : PlaceInv F D iter { s with queue := queue } :=
            ⟨h.slot, h.sound, fun x hx => h.queue x (by simp [hq, hx]), h.work, h.stamped⟩
          have hphi : ∀ x ∈ F.frontier cur, x < F.numBlocks ∧ NeedsPhi F D x := by
            intro x hx
            obtain ⟨hxn, hfront⟩ := (F.mem_frontier_iff hcur.1).mp hx
            refine ⟨hxn, ?_⟩
            rcases hcur.2 with hD | hneeds
            · exact IteratedFrontier.of_def ⟨hD, hcur.1⟩ hfront
            · exact IteratedFrontier.of_phi hneeds hfront
          obtain ⟨h', hrest, hfront, hdefs, hqueue, hstamp, hwork⟩ := foldl_pushNext_spec hpop hphi
          obtain ⟨s', hs', hinv, hstamp', hmarked⟩ := ih h' (by
              intro x hx
              rcases hwork x hx with hx | hx
              · rcases hclosed x hx with hmem | hmk
                · rw [hq] at hmem
                  rcases List.mem_cons.mp hmem with rfl | hmem
                  · right
                    intro y hy _
                    exact hfront y hy
                  · left
                    exact hqueue x hmem
                · right
                  intro y hy hne
                  exact hdefs y (hmk y hy hne)
              · exact Or.inl hx) (by
              rw [hrest]
              simp only [Placing.rest, hq, List.length_cons] at hfuel ⊢
              omega)
          refine ⟨s', hs', hinv, ?_, hmarked⟩
          intro x hx
          exact hstamp' x (hstamp x hx)

/-- The blocks that define the value go to the worklist. -/
theorem foldl_pushDef_spec {s : Placing δ} (h : PlaceInv F D iter s) {l : List ℕ}
    (hl : ∀ x ∈ l, x < F.numBlocks ∧ x ∈ D) :
  let s' := l.foldl (pushDef iter) s
  PlaceInv F D iter s' ∧ s'.rest F.numBlocks iter = s.rest F.numBlocks iter ∧
    (∀ x ∈ l, s'.work x = iter) ∧ (∀ x, s.work x = iter → s'.work x = iter) ∧
    (∀ x ∈ s.queue, x ∈ s'.queue) ∧ ∀ x, s'.work x = iter → s.work x = iter ∨ x ∈ s'.queue
  := by
  induction l generalizing s with
  | nil => exact ⟨h, rfl, by simp, fun x hx => hx, fun x hx => hx, fun x hx => Or.inl hx⟩
  | cons i l ih =>
      obtain ⟨hi, hD⟩ := hl i List.mem_cons_self
      have hinv : PlaceInv F D iter (pushDef iter s i) := by
        refine ⟨h.slot, h.sound, ?_, ?_, ?_⟩
        · intro x hx
          simp only [pushDef] at hx
          split_ifs at hx
          · rcases List.mem_append.mp hx with hx | hx
            · exact h.queue x hx
            · rw [List.mem_singleton.mp hx]
              exact ⟨hi, Or.inl hD⟩
          · exact h.queue x hx
        · intro x
          by_cases hx : x = i
          · simp [pushDef, hx]
          · simpa [pushDef, hx] using h.work x
        · intro x hx
          by_cases hxi : x = i
          · simp [pushDef, hxi]
          · simpa [pushDef, hxi] using h.stamped x hx
      have hrest : (pushDef iter s i).rest F.numBlocks iter = s.rest F.numBlocks iter := by
        by_cases hlt : s.work i < iter
        · have hpush : pushDef iter s i =
              ⟨s.defs, Function.update s.work i iter, s.queue ++ [i]⟩ := by simp [pushDef, hlt]
          have hcard := card_stamp hi hlt
          rw [hpush]
          simp only [Placing.rest, List.length_append, List.length_singleton]
          omega
        · have heq : iter = s.work i := by
            have := h.work i
            omega
          have hpush : pushDef iter s i = s := by simp [pushDef, heq]
          rw [hpush]
      have hqueue : ∀ x ∈ s.queue, x ∈ (pushDef iter s i).queue := by
        intro x hx
        simp only [pushDef]
        split_ifs
        · exact List.mem_append_left _ hx
        · exact hx
      have hstamp : ∀ x, s.work x = iter → (pushDef iter s i).work x = iter := by
        intro x hx
        by_cases hxi : x = i
        · simp [pushDef, hxi]
        · simpa [pushDef, hxi] using hx
      obtain ⟨h', hrest', hl', hstamp', hqueue', hwork'⟩ :=
        ih hinv (fun x hx => hl x (List.mem_cons_of_mem _ hx))
      refine ⟨h', hrest'.trans hrest, ?_, ?_, ?_, ?_⟩
      · intro x hx
        rcases List.mem_cons.mp hx with rfl | hx
        · exact hstamp' x (by simp [pushDef])
        · exact hl' x hx
      · intro x hx
        exact hstamp' x (hstamp x hx)
      · intro x hx
        exact hqueue' x (hqueue x hx)
      · intro x hx
        rcases hwork' x hx with hx | hx
        · by_cases hxi : x = i
          · subst hxi
            by_cases hlt : s.work x < iter
            · right
              apply hqueue'
              simp [pushDef, hlt]
            · left
              have := h.work x
              omega
          · left
            simpa [pushDef, hxi] using hx
        · exact Or.inr hx

/-- A value that is added needs phis in the iterated dominance frontier of its definitions. -/
theorem addValue_spec {pb : Builder δ} (hwork : ∀ x, pb.work x ≤ pb.iterCount) (D : Finset ℕ)
    {fuel : ℕ} (hfuel : F.numBlocks < fuel) :
  ∃ pb' defs, pb.addValue F fuel D = some pb' ∧ pb'.values = pb.values ++ [⟨defs, [], 0⟩] ∧
    (∀ x, pb'.work x ≤ pb'.iterCount) ∧ (∀ x, defs x = .null ∨ defs x = .needsPhi) ∧
    ∀ x, defs x = .needsPhi ↔ x < F.numBlocks ∧ NeedsPhi F D x
  := by
  have hinit : PlaceInv (δ := δ) F D (pb.iterCount + 1) ⟨fun _ => .null, pb.work, []⟩ := by
    refine ⟨fun _ => Or.inl rfl, ?_, ?_, ?_, ?_⟩
    · intro x hx
      cases hx
    · intro x hx
      exact absurd hx List.not_mem_nil
    · intro x
      exact Nat.le_succ_of_le (hwork x)
    · intro x hx
      cases hx
  obtain ⟨h, hrest, hl, -, -, hwork'⟩ := foldl_pushDef_spec hinit
    (l := (List.range F.numBlocks).filter (· ∈ D)) (by simp)
  have hclosed : ∀ x, (List.foldl (pushDef (pb.iterCount + 1)) ⟨fun _ => .null, pb.work, []⟩
      ((List.range F.numBlocks).filter (· ∈ D)) : Placing δ).work x = pb.iterCount + 1 → _ :=
    fun x hx => (hwork' x hx).resolve_left (by
      have := hwork x
      simp only
      omega)
  obtain ⟨s, hs, hinv, hstamp, hmarked⟩ := place_spec h (fun x hx => Or.inl (hclosed x hx))
    (show _ < fuel by
      rw [hrest]
      simp only [Placing.rest, List.length_nil, Nat.zero_add]
      calc
        _ ≤ (Finset.range F.numBlocks).card := Finset.card_filter_le _ _
        _ = F.numBlocks := Finset.card_range _
        _ < fuel := hfuel)
  refine ⟨⟨pb.iterCount + 1, s.work, pb.values ++ [⟨s.defs, [], 0⟩]⟩, s.defs, ?_, rfl, hinv.work,
    hinv.slot, ?_⟩
  · simp only [Builder.addValue, Option.bind_eq_bind, hs, Option.bind_some]
  · intro x
    refine ⟨hinv.sound x, ?_⟩
    rintro ⟨hx, hphi⟩
    -- what is in the iterated frontier has been marked from a block with a stamp
    have hmark : ∀ y, NeedsPhi F D y → y < F.numBlocks → s.defs y = .needsPhi := by
      intro y hy
      induction hy with
      | @of_def b y hb hfront =>
          intro hyn
          have hbs := hstamp b (hl b (by simp [hb.1, hb.2]))
          exact hmarked b hbs y ((F.mem_frontier_iff hb.2).mpr ⟨hyn, hfront⟩) hyn.ne
      | @of_phi b y _ hfront ih =>
          intro hyn
          have hb := F.lt_of_inFrontier hfront
          have hbs := hinv.stamped b (ih hb)
          exact hmarked b hbs y ((F.mem_frontier_iff hb).mpr ⟨hyn, hfront⟩) hyn.ne
    exact hmark x hphi hx

end PhiBuilder

end Nir
