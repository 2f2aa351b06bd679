import Mesa.Nir.CsePass
import Mesa.Nir.DominanceExact

/-!
# Common subexpression elimination along the computed dominance tree

The tree that `nir_calc_dominance_impl` leaves in `dom_children` is one along which `nir_opt_cse`
preserves what the function does.
-/

namespace Nir

open Flow (Path Dom)

variable {ι κ : Type}

namespace FunctionImpl

variable {impl : FunctionImpl ι κ}

/-- The children that `nir_calc_dominance_impl` leaves behind. -/
theorem childrenExact_calcDominanceImpl {s₀ s : DomInfo} {fuel : ℕ}
    (hfuel : 2 * impl.numBlocks < fuel) (hs : impl.calcDominanceImpl fuel s₀ = some s) :
  ChildrenExact impl s.domChildren
  := by
  have hpos := impl.numBlocks_pos
  obtain ⟨immDom, himm, hsound, hall, -⟩ :=
    (idomSound_init impl s₀).calcPasses (show 2 ≤ fuel by omega) hfuel
  simp only [calcDominanceImpl, himm, Option.bind_eq_bind, Option.bind_some,
    Option.bind_eq_some_iff] at hs
  obtain ⟨front, -, r, hr, hrs⟩ := hs
  have hch := hsound.childrenExact hall (s := { (List.range impl.numBlocks).foldl initBlock s₀ with
    immDom := Function.update immDom 0 none, domFrontier := front }) rfl
  obtain ⟨s', j, hs', -, hw⟩ := walked_calcDfsIndicies hsound hall hch (i := 0) rfl hpos
    reachable_zero (show impl.numBlocks ≤ fuel + 0 by omega)
  rw [hs'] at hr
  rw [← Option.some.inj hrs, ← Option.some.inj hr, hw.domChildren]
  exact hch

end FunctionImpl

namespace InstrSet

/-- The tree below a block, of blocks whose children are given. -/
def DomTree.ofChildren (children : ℕ → List ℕ) : ℕ → ℕ → DomTree
  | 0, b => .node b []
  | fuel + 1, b => .node b ((children b).map (DomTree.ofChildren children fuel))

section OfChildren

variable {impl : FunctionImpl ι κ} {children : ℕ → List ℕ}

theorem DomTree.root_ofChildren (fuel b : ℕ) :
  (DomTree.ofChildren children fuel b).root = b
  := by
  cases fuel <;> rfl

/-- The tree is one of dominance. -/
theorem dominates_ofChildren (hch : impl.ChildrenExact children) :
  ∀ (fuel : ℕ) {b : ℕ}, b < impl.numBlocks → impl.Reachable b →
    (DomTree.ofChildren children fuel b).Dominates impl.Edge 0
  | 0, _, _, hreach => .node hreach (fun _ h => by cases h) (fun _ h => by cases h)
  | fuel + 1, b, hb, hreach => by
      refine .node hreach ?_ ?_
      · intro t ht
        obtain ⟨c, hc, rfl⟩ := List.mem_map.mp ht
        rw [DomTree.root_ofChildren]
        exact ((hch.mem hb).mp hc).2.2.2.1
      · intro t ht
        obtain ⟨c, hc, rfl⟩ := List.mem_map.mp ht
        obtain ⟨hcn, hcreach, -⟩ := (hch.mem hb).mp hc
        exact dominates_ofChildren hch fuel hcn hcreach

theorem DomTree.mem_blocksOf {x : ℕ} {ts : List DomTree} :
  x ∈ DomTree.blocksOf ts ↔ ∃ t ∈ ts, x ∈ t.blocks
  := by
  induction ts with
  | nil => simp [blocksOf]
  | cons t ts ih => simp [blocksOf, ih]

/-- The tree has the blocks that its root dominates. -/
theorem below_of_mem_ofChildren (hch : impl.ChildrenExact children) :
  ∀ (fuel : ℕ) {b x : ℕ}, b < impl.numBlocks → impl.Reachable b →
    x ∈ (DomTree.ofChildren children fuel b).blocks → FunctionImpl.Below impl b x
  | 0, b, x, hb, hreach, hx => by
      simp only [DomTree.ofChildren, DomTree.blocks, DomTree.blocksOf, List.mem_singleton] at hx
      rw [hx]
      exact ⟨hb, hreach, Dom.refl b⟩
  | fuel + 1, b, x, hb, hreach, hx => by
      rw [DomTree.ofChildren, DomTree.blocks, List.mem_cons, DomTree.mem_blocksOf] at hx
      rcases hx with rfl | ⟨t, ht, hx⟩
      · exact ⟨hb, hreach, Dom.refl x⟩
      · obtain ⟨c, hc, rfl⟩ := List.mem_map.mp ht
        obtain ⟨hcn, hcreach, -⟩ := (hch.mem hb).mp hc
        exact (hch.below hb hc (below_of_mem_ofChildren hch fuel hcn hcreach hx)).1

/-- No block is in the tree twice. -/
theorem nodup_ofChildren (hch : impl.ChildrenExact children) :
  ∀ (fuel : ℕ) {b : ℕ}, b < impl.numBlocks → impl.Reachable b →
    (DomTree.ofChildren children fuel b).blocks.Nodup
  | 0, _, _, _ => by simp [DomTree.ofChildren, DomTree.blocks, DomTree.blocksOf]
  | fuel + 1, b, hb, hreach => by
      have hbelow : ∀ c ∈ children b, ∀ x ∈ (DomTree.ofChildren children fuel c).blocks,
          FunctionImpl.Below impl c x := by
        intro c hc x hx
        obtain ⟨hcn, hcreach, -⟩ := (hch.mem hb).mp hc
        exact below_of_mem_ofChildren hch fuel hcn hcreach hx
      -- the trees of some of the children have different blocks
      have hparts : ∀ cs : List ℕ, cs.Nodup → (∀ c ∈ cs, c ∈ children b) →
          (DomTree.blocksOf (cs.map (DomTree.ofChildren children fuel))).Nodup := by
        intro cs
        induction cs with
        | nil => simp [DomTree.blocksOf]
        | cons c cs ih =>
            intro hnodup hsub
            obtain ⟨hc, hsub⟩ := List.forall_mem_cons.mp hsub
            obtain ⟨hnot, hnodup⟩ := List.nodup_cons.mp hnodup
            obtain ⟨hcn, hcreach, -⟩ := (hch.mem hb).mp hc
            rw [List.map_cons, DomTree.blocksOf, List.nodup_append']
            refine ⟨nodup_ofChildren hch fuel hcn hcreach, ih hnodup hsub, ?_⟩
            intro x hx hx'
            obtain ⟨t, ht, hx'⟩ := DomTree.mem_blocksOf.mp hx'
            obtain ⟨c', hc', rfl⟩ := List.mem_map.mp ht
            obtain ⟨-, hxreach, hdom⟩ := hbelow c hc x hx
            obtain ⟨-, -, hdom'⟩ := hbelow c' (hsub c' hc') x hx'
            apply hch.disjoint hb hc (hsub c' hc') _ hxreach hdom hdom'
            rintro rfl
            exact hnot hc'
      rw [DomTree.ofChildren, DomTree.blocks, List.nodup_cons]
      refine ⟨?_, hparts _ (hch.nodup hb) (fun _ hc => hc)⟩
      intro hmem
      obtain ⟨t, ht, hx⟩ := DomTree.mem_blocksOf.mp hmem
      obtain ⟨c, hc, rfl⟩ := List.mem_map.mp ht
      exact (hch.below hb hc (hbelow c hc b hx)).2.1 (Dom.refl b)

end OfChildren

/-- With the tree that `nir_calc_dominance_impl` computes for the blocks of a function, whatever the
fields of the blocks were before, the pass preserves what the function does. -/
theorem nirOptCseImpl_preserves_computed (impl : FunctionImpl ι κ) {T : Infos} (P : Probing)
  {F : Function} (hedge : F.Edge = impl.Edge) (hentry : F.entry = 0) (hF : F.Ssa T)
  (hu : F.Uniform T) (s₀ : DomInfo) :
  ∃ n, ∀ fuel ≥ n, ∃ s, impl.calcDominanceImpl fuel s₀ = some s ∧
    ∀ F', (nirOptCseImpl T P (DomTree.ofChildren s.domChildren fuel 0) F).2 = F' →
      F'.Ssa T ∧ ∀ {Mem : Type} (M : Meaning T Mem) (init : State Mem) (k : ℕ),
        AgreeOn (F'.Defines T) (F.run M init k) (F'.run M init k)
  := by
  use 2 * impl.numBlocks + 1
  intro fuel hfuel
  obtain ⟨s, hs, -⟩ := impl.domExact_calcDominanceImpl s₀ hfuel
  refine ⟨s, hs, ?_⟩
  rintro F' rfl
  have hch := FunctionImpl.childrenExact_calcDominanceImpl hfuel hs
  have htree := dominates_ofChildren hch fuel impl.numBlocks_pos FunctionImpl.reachable_zero
  rw [← hedge, ← hentry] at htree
  have hnodup := nodup_ofChildren hch fuel impl.numBlocks_pos FunctionImpl.reachable_zero
  rw [hentry] at htree
  have hspec := fun {Mem : Type} (M : Meaning T Mem) =>
    (nirOptCseImpl_spec P (M := M) hF hu (hentry ▸ htree) hnodup).1
  refine ⟨(hspec (constMeaning T (fun _ => 0) (fun _ => 0))).ssa, ?_⟩
  intro Mem M
  exact (hspec M).run

/-- The pass on the function in which a sum is computed twice, after which control leaves. -/
theorem nirOptCseImpl_preserves_computed_twice :
  ∃ n, ∀ fuel ≥ n, ∃ s, FunctionImpl.oneBlock.calcDominanceImpl fuel
      ⟨fun _ => none, fun _ => ∅, fun _ => [], fun _ => 0, fun _ => 0⟩ = some s ∧
    ∀ F', (nirOptCseImpl faddInfos ⟨id, Iff.rfl⟩ (DomTree.ofChildren s.domChildren fuel 0)
        twice).2 = F' →
      F'.Ssa faddInfos ∧ ∀ {Mem : Type} (M : Meaning faddInfos Mem) (init : State Mem) (k : ℕ),
        AgreeOn (F'.Defines faddInfos) (twice.run M init k) (F'.run M init k)
  := by
  refine nirOptCseImpl_preserves_computed FunctionImpl.oneBlock ⟨id, Iff.rfl⟩ ?_ rfl twice_ssa
    twice_uniform _
  funext p c
  rw [eq_iff_iff, twice_edge]
  by_cases hc : c = 1 <;>
    simp [FunctionImpl.Edge, FunctionImpl.oneBlock, hc]

end InstrSet

end Nir
