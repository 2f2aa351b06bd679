import Mesa.Data.Nesting
import Mesa.Flow.Dominance
import Mesa.Nir.Interference

/-!
# Merge sets

The sets of defs of `nir_from_ssa.c` that are to get one register: lists in the order of the
`live_index`, which are merged if one walk over both of them finds no two defs that interfere.
-/

namespace Nir.Liveness

open Data.Nesting (Exposed Nests scan pop meets)

namespace Function

section Model

variable (F : Function) (blockDominates : ℕ → ℕ → Bool)

/-- `nir_ssa_defs_interfere` with the live sets of the function. -/
def interfere (a b : SsaDef) : Bool := F.ssaDefsInterfere F.liveSsaDefsImpl a b

/-- `ssa_def_dominates`, over `nir_block_dominates`: SSA undefs always dominate. -/
def ssaDefDominates (a b : SsaDef) : Bool :=
  if F.liveIndex a.name = 0 then
    true
  else if F.liveIndex b.name < F.liveIndex a.name then
    false
  else if a.block = b.block then
    F.liveIndex a.name ≤ F.liveIndex b.name
  else
    blockDominates a.block b.block

/-- `merge_merge_sets`: the nodes of `b` are inserted before the first node of `a` whose index is
greater. -/
def mergeMergeSets (a b : List SsaDef) : List SsaDef :=
  List.merge a b (fun x y => F.liveIndex x.name ≤ F.liveIndex y.name)

/-- The loop of `merge_sets_interfere`, with the rest of both lists and the stack `dom`.  The
current node is that with the smaller index; what does not dominate it is popped, the top is
compared with it, and it is pushed. -/
def walk : List SsaDef → List SsaDef → List SsaDef → Bool
  | [], [], _ => false
  | [], b :: bn, dom =>
    let dom := dom.dropWhile (fun d => !F.ssaDefDominates blockDominates d b)
    meets F.interfere b dom || walk [] bn (b :: dom)
  | a :: an, [], dom =>
    let dom := dom.dropWhile (fun d => !F.ssaDefDominates blockDominates d a)
    meets F.interfere a dom || walk an [] (a :: dom)
  | a :: an, b :: bn, dom =>
    if F.liveIndex a.name ≤ F.liveIndex b.name then
      let dom := dom.dropWhile (fun d => !F.ssaDefDominates blockDominates d a)
      meets F.interfere a dom || walk an (b :: bn) (a :: dom)
    else
      let dom := dom.dropWhile (fun d => !F.ssaDefDominates blockDominates d b)
      meets F.interfere b dom || walk (a :: an) bn (b :: dom)
termination_by an bn => an.length + bn.length

/-- `merge_sets_interfere`. -/
def mergeSetsInterfere (a b : List SsaDef) : Bool := F.walk blockDominates a b []

/-- A step of control. -/
def Edge (b c : ℕ) : Prop := c ∈ (F.block b).successors

instance (b c : ℕ) : Decidable (F.Edge b c) :=
  inferInstanceAs (Decidable (c ∈ (F.block b).successors))

/-- Control gets to the block. -/
def Reachable (b : ℕ) : Prop := ∃ l, Flow.Path F.Edge 0 b l

/-- What `nir_block_dominates` says of blocks to which control gets. -/
def Dominates : Prop :=
  ∀ b c, F.Reachable b → F.Reachable c →
    (blockDominates b c = true ↔ Flow.Dom F.Edge 0 b c)

/-- A def in a block that control gets to; it is the only one of an `ssa_undef`. -/
structure Member (d : SsaDef) : Prop where
  reachable : F.Reachable d.block
  isDef : ∃ i, F.At d.place i ∧ d.name ∈ i.defs ∧ (i.isUndef = true → i.defs = [d.name])

/-- A list of defs as the coalescing keeps it: sorted by the index, and no two interfere. -/
structure IsMergeSet (l : List SsaDef) : Prop where
  member : ∀ d ∈ l, F.Member d
  nodup : l.Nodup
  sorted : l.Pairwise (fun x y => F.liveIndex x.name ≤ F.liveIndex y.name)
  free : ∀ x ∈ l, ∀ y ∈ l, x ≠ y → F.interfere x y = false

end Model

variable {F : Function} {blockDominates : ℕ → ℕ → Bool}

/-! ### The walk as a walk over the merged list -/

theorem mergeMergeSets_cons {a b : SsaDef} {an bn : List SsaDef} :
  F.mergeMergeSets (a :: an) (b :: bn)
    = if F.liveIndex a.name ≤ F.liveIndex b.name then a :: F.mergeMergeSets an (b :: bn)
      else b :: F.mergeMergeSets (a :: an) bn
  := by
  unfold mergeMergeSets
  rw [List.cons_merge_cons]
  simp only [decide_eq_true_eq]

/-- The walk goes over the list that the two lists are merged to. -/
theorem walk_eq (a b dom : List SsaDef) :
  F.walk blockDominates a b dom
    = scan (F.ssaDefDominates blockDominates) F.interfere (F.mergeMergeSets a b) dom
  := by
  fun_induction F.walk blockDominates a b dom with
  | case1 dom =>
      unfold mergeMergeSets
      rw [List.nil_merge]
      rfl
  | case2 dom b bn dom' ih =>
      unfold mergeMergeSets at ih ⊢
      rw [List.nil_merge] at ih ⊢
      rw [ih]
      rfl
  | case3 dom a an dom' ih =>
      unfold mergeMergeSets at ih ⊢
      rw [List.merge_right] at ih ⊢
      rw [ih]
      rfl
  | case4 dom a an b bn h dom' ih =>
      rw [mergeMergeSets_cons, if_pos h, ih]
      rfl
  | case5 dom a an b bn h dom' ih =>
      rw [mergeMergeSets_cons, if_neg h, ih]
      rfl

theorem mem_mergeMergeSets {a b : List SsaDef} {d : SsaDef} :
  d ∈ F.mergeMergeSets a b ↔ d ∈ a ∨ d ∈ b
  := by
  apply List.mem_merge

theorem mergeMergeSets_sorted {a b : List SsaDef}
  (ha : a.Pairwise (fun x y => F.liveIndex x.name ≤ F.liveIndex y.name))
  (hb : b.Pairwise (fun x y => F.liveIndex x.name ≤ F.liveIndex y.name)) :
  (F.mergeMergeSets a b).Pairwise (fun x y => F.liveIndex x.name ≤ F.liveIndex y.name)
  := by
  have hle : ∀ l : List SsaDef,
      l.Pairwise (fun x y => F.liveIndex x.name ≤ F.liveIndex y.name) ↔
      l.Pairwise (fun x y => decide (F.liveIndex x.name ≤ F.liveIndex y.name) = true) := by
    intro l
    simp only [decide_eq_true_eq]
  rw [hle] at ha hb ⊢
  apply List.pairwise_merge _ _ a b ha hb
  · intro x y z hxy hyz
    rw [decide_eq_true_eq] at hxy hyz ⊢
    exact hxy.trans hyz
  · intro x y
    rw [Bool.or_eq_true, decide_eq_true_eq, decide_eq_true_eq]
    exact Nat.le_total _ _

theorem mergeMergeSets_nodup {a b : List SsaDef} (h : (a ++ b).Nodup) :
  (F.mergeMergeSets a b).Nodup
  := by
  apply (List.Perm.nodup_iff _).mpr h
  apply List.merge_perm_append

/-! ### Members -/

/-- A def with an index other than 0 is no `ssa_undef`. -/
theorem Member.isDef_of_ne_zero (hF : F.Valid) {d : SsaDef} (hd : F.Member d)
  (hindex : F.liveIndex d.name ≠ 0) :
  F.IsDef d
  := by
  obtain ⟨i, hat, hdef, -⟩ := hd.isDef
  have hmem : d.name ∈ F.indexedDefs := by
    by_contra hnot
    unfold liveIndex at hindex
    rw [if_neg hnot] at hindex
    exact hindex rfl
  obtain ⟨j, hj, hundef, hdef'⟩ := mem_indexed.mp hmem
  obtain ⟨block, hblock, hjb⟩ := List.mem_flatMap.mp hj
  obtain ⟨b, hb⟩ := List.mem_iff_getElem?.mp hblock
  obtain ⟨k, hk⟩ := List.mem_iff_getElem?.mp hjb
  have hat' : F.At (b, k) j := by
    unfold At Function.block
    rw [List.getD_eq_getElem?_getD, hb, Option.getD_some]
    exact hk
  have heq : d.place = (b, k) := hF.unique hat hat' hdef hdef'
  rw [← heq] at hat'
  have hij : i = j := Option.some.inj (hat.symm.trans hat')
  subst hij
  exact ⟨i, hat, hundef, hdef⟩

/-- An `ssa_undef` has the index 0. -/
theorem Member.isUndef_of_eq_zero {d : SsaDef} (hd : F.Member d)
  (hindex : F.liveIndex d.name = 0) :
  ∃ i, F.At d.place i ∧ i.defs = [d.name]
  := by
  obtain ⟨i, hat, hdef, hundef⟩ := hd.isDef
  use i, hat
  apply hundef
  cases hcase : i.isUndef with
  | true => rfl
  | false => exact absurd hindex (IsDef.liveIndex_ne_zero ⟨i, hat, hcase, hdef⟩)

/-- Members with the same name are the same. -/
theorem Member.ext_name (hF : F.Valid) {x y : SsaDef} (hx : F.Member x) (hy : F.Member y)
  (h : x.name = y.name) :
  x = y
  := by
  obtain ⟨i, hat, hdef, -⟩ := hx.isDef
  obtain ⟨j, hat', hdef', -⟩ := hy.isDef
  have heq : x.place = y.place := hF.unique hat hat' hdef (h ▸ hdef')
  obtain ⟨name, block, instr⟩ := x
  obtain ⟨name', block', instr'⟩ := y
  obtain ⟨rfl, rfl⟩ := Prod.mk.inj heq
  obtain rfl : name = name' := h
  rfl

/-- The order of two members in a merge set. -/
structure Ordered (F : Function) (q c : SsaDef) : Prop where
  left : F.Member q
  right : F.Member c
  le : F.liveIndex q.name ≤ F.liveIndex c.name
  ne : q ≠ c

/-- The second one has an index if the first one has. -/
theorem Ordered.right_ne_zero {q c : SsaDef} (h : F.Ordered q c) (hq : F.liveIndex q.name ≠ 0) :
  F.liveIndex c.name ≠ 0
  := by
  have hle := h.le
  omega

theorem Ordered.lt (hF : F.Valid) {q c : SsaDef} (h : F.Ordered q c)
  (hq : F.liveIndex q.name ≠ 0) :
  F.liveIndex q.name < F.liveIndex c.name
  := by
  rcases Nat.lt_or_eq_of_le h.le with hlt | heq
  · exact hlt
  · exact absurd (h.left.ext_name hF h.right (F.liveIndex_inj hq heq)) h.ne

/-- Different members of which one is an `ssa_undef` do not interfere. -/
theorem interfere_of_eq_zero (hF : F.Valid) {x y : SsaDef} (hx : F.Member x) (hy : F.Member y)
  (hne : x ≠ y) (hindex : F.liveIndex x.name = 0 ∨ F.liveIndex y.name = 0) :
  F.interfere x y = false
  := by
  have hplace : x.place ≠ y.place := by
    intro heq
    -- an instruction with an `ssa_undef` has no other def
    have hname : x.name = y.name := by
      rcases hindex with hzero | hzero
      · obtain ⟨i, hat, hdefs⟩ := hx.isUndef_of_eq_zero hzero
        obtain ⟨j, hat', hdef', -⟩ := hy.isDef
        rw [heq] at hat
        obtain rfl : i = j := Option.some.inj (hat.symm.trans hat')
        rw [hdefs, List.mem_singleton] at hdef'
        exact hdef'.symm
      · obtain ⟨i, hat, hdefs⟩ := hy.isUndef_of_eq_zero hzero
        obtain ⟨j, hat', hdef', -⟩ := hx.isDef
        rw [← heq] at hat
        obtain rfl : i = j := Option.some.inj (hat.symm.trans hat')
        rw [hdefs, List.mem_singleton] at hdef'
        exact hdef'
    exact hne (hx.ext_name hF hy hname)
  unfold interfere ssaDefsInterfere
  rw [if_neg, if_pos hindex]
  rintro ⟨h₁, h₂⟩
  exact hplace (Prod.ext h₁ h₂)

/-- Interference of members does not depend on their order. -/
theorem interfere_comm (hF : F.Valid) {x y : SsaDef} (hx : F.Member x) (hy : F.Member y)
  (hne : x ≠ y) :
  F.interfere x y = F.interfere y x
  := by
  by_cases hindex : F.liveIndex x.name = 0 ∨ F.liveIndex y.name = 0
  · rw [interfere_of_eq_zero hF hx hy hne hindex,
      interfere_of_eq_zero hF hy hx (Ne.symm hne) hindex.symm]
  · obtain ⟨hx', hy'⟩ := not_or.mp hindex
    by_cases hplace : x.place = y.place
    · obtain ⟨h₁, h₂⟩ := Prod.mk.inj hplace
      unfold interfere ssaDefsInterfere
      rw [if_pos ⟨h₁, h₂⟩, if_pos ⟨h₁.symm, h₂.symm⟩]
    · unfold interfere
      rcases Nat.lt_trichotomy (F.liveIndex x.name) (F.liveIndex y.name) with hlt | heq | hgt
      · obtain ⟨h₁, h₂⟩ := @ssaDefsInterfere_eq F F.liveSsaDefsImpl x y hplace hx' hy' hlt
        rw [h₁, h₂]
      · exact absurd (hx.ext_name hF hy (F.liveIndex_inj hx' heq)) hne
      · obtain ⟨h₁, h₂⟩ := @ssaDefsInterfere_eq F F.liveSsaDefsImpl y x (Ne.symm hplace) hy' hx' hgt
        rw [h₁, h₂]

/-! ### Dominance of members -/

/-- What `ssa_def_dominates` says of members in order. -/
theorem ssaDefDominates_iff (hdom : F.Dominates blockDominates) {q c : SsaDef}
  (h : F.Ordered q c) (hq : F.liveIndex q.name ≠ 0) :
  F.ssaDefDominates blockDominates q c = true ↔ Flow.Dom F.Edge 0 q.block c.block
  := by
  unfold ssaDefDominates
  rw [if_neg hq, if_neg (Nat.not_lt.mpr h.le)]
  by_cases hblock : q.block = c.block
  · rw [if_pos hblock, hblock]
    exact iff_of_true (decide_eq_true h.le) (Flow.Dom.refl _)
  · rw [if_neg hblock]
    exact hdom _ _ h.left.reachable h.right.reachable

/-- The places of members in order. -/
theorem Ordered.place (hF : F.Valid) {q c : SsaDef} (h : F.Ordered q c)
  (hq : F.liveIndex q.name ≠ 0) :
  q.place = c.place ∨ Precedes q.place c.place
  := by
  by_cases hplace : q.place = c.place
  · exact Or.inl hplace
  · right
    have hlt := h.lt hF hq
    apply precedes_of_liveIndex_lt hF _ _ hplace hlt
    · exact h.left.isDef_of_ne_zero hF hq
    · exact h.right.isDef_of_ne_zero hF (h.right_ne_zero hq)

/-- The uses for which the earlier one of two members is said to be live at the later one. -/
theorem interfere_iff (hF : F.Valid) {q c : SsaDef} (h : F.Ordered q c)
  (hq : F.liveIndex q.name ≠ 0) :
  F.interfere c q = true ↔ q.place = c.place ∨ F.UsedOut q.name c.block ∨
    (F.UsedFrom q.name c.block (F.block c.block).instrs ∨ q.block = c.block) ∧
      ∃ i ∈ (F.block c.block).all.drop (c.instr + 1), .ssa q.name ∈ i.srcs
  := by
  by_cases hplace : q.place = c.place
  · obtain ⟨h₁, h₂⟩ := Prod.mk.inj hplace
    apply iff_of_true _ (Or.inl hplace)
    unfold interfere ssaDefsInterfere
    rw [if_pos ⟨h₁.symm, h₂.symm⟩]
  · obtain ⟨-, heq⟩ := @ssaDefsInterfere_eq F F.liveSsaDefsImpl q c hplace hq
      (h.right_ne_zero hq) (h.lt hF hq)
    unfold interfere
    rw [heq, ssaDefIsLiveAt_iff hF hq, or_iff_right hplace]
    rfl

/-- No instruction of another block defines the member. -/
theorem Member.not_mem_defs (hF : F.Valid) {q : SsaDef} (hq : F.Member q) {b : ℕ}
  (hne : q.block ≠ b) :
  ∀ i ∈ (F.block b).all, q.name ∉ i.defs
  := by
  intro i hi hdef
  obtain ⟨k, hk⟩ := List.mem_iff_getElem?.mp hi
  obtain ⟨j, hat, hdef', -⟩ := hq.isDef
  have heq : q.place = (b, k) := hF.unique hat hk hdef' hdef
  exact hne (congrArg Prod.fst heq)

/-- A member of another block that is used beyond a block is used from its start on. -/
theorem Member.usedFrom_of_usedOut (hF : F.Valid) {q : SsaDef} (hq : F.Member q) {b : ℕ}
  (hne : q.block ≠ b) (h : F.UsedOut q.name b) :
  F.UsedFrom q.name b (F.block b).instrs
  := by
  rw [← List.append_nil (F.block b).instrs]
  apply usedFrom_append
  · intro i hi
    exact hq.not_mem_defs hF hne i (List.mem_append_right _ hi)
  · exact usedFrom_nil.mpr (Or.inr h)

/-- A member of another block that is used from the start of a block on is used beyond the blocks
before it. -/
theorem Member.usedOut_of_edge (hF : F.Valid) {q : SsaDef} (hq : F.Member q) {b c : ℕ}
  (hne : q.block ≠ c) (hedge : F.Edge b c) (h : F.UsedFrom q.name c (F.block c).instrs) :
  F.UsedOut q.name b
  := by
  use c, hedge
  right
  constructor
  · intro phi hphi heq
    have hmem : phi.instr ∈ (F.block c).all :=
      List.mem_append_left _ (List.mem_map_of_mem hphi)
    apply hq.not_mem_defs hF hne _ hmem
    rw [← heq]
    exact List.mem_singleton_self _
  · exact h

/-- A member that is used from the start of a block on is used beyond each block that dominates
that one and that is dominated by the block of the member. -/
theorem Member.usedOut_of_dom (hF : F.Valid) {q : SsaDef} (hq : F.Member q) {p c : ℕ}
  {l : List ℕ} (hpath : Flow.Path F.Edge 0 c l) (hqc : q.block ≠ c) (hpc : p ≠ c)
  (hdompc : Flow.Dom F.Edge 0 p c) (hdomqp : Flow.Dom F.Edge 0 q.block p)
  (huse : F.UsedFrom q.name c (F.block c).instrs) :
  F.UsedOut q.name p
  := by
  -- back along the path until `p`
  induction hpath with
  | entry =>
      have hmem := hdompc [0] Flow.Path.entry
      exact absurd (List.mem_singleton.mp hmem) hpc
  | @step b c l hpath hedge ih =>
      have hout := hq.usedOut_of_edge hF hqc hedge huse
      by_cases hpb : p = b
      · rw [hpb]
        exact hout
      · have hdompb := hdompc.of_edge hpc hedge
        have hqb : q.block ≠ b := by
          rintro rfl
          exact hpb (Flow.Dom.antisymm hpath hdomqp hdompb).symm
        apply ih hqb hpb hdompb
        exact hq.usedFrom_of_usedOut hF hqb hout

/-- In the order of the indices, dominance is transitive, and a member that interferes with a later
one interferes with all between them that it dominates and that dominate the later one. -/
theorem nests (hF : F.Valid) (hdom : F.Dominates blockDominates) :
  Nests (F.ssaDefDominates blockDominates) F.interfere F.Ordered
  := by
  constructor
  · intro q p c hqp hpc hdomqp hdompc
    by_cases hq : F.liveIndex q.name = 0
    · unfold ssaDefDominates
      rw [if_pos hq]
    · have hp := hqp.right_ne_zero hq
      rw [ssaDefDominates_iff hdom hqp hq] at hdomqp
      rw [ssaDefDominates_iff hdom hpc hp] at hdompc
      have hlt := hqp.lt hF hq
      have hlt' := hpc.lt hF hp
      have hqc : F.Ordered q c := by
        constructor
        · exact hqp.left
        · exact hpc.right
        · omega
        · rintro rfl
          omega
      rw [ssaDefDominates_iff hdom hqc hq]
      exact hdomqp.trans hdompc
  · intro q p c hqp hpc hqc hdomqp hdompc hclash
    by_cases hq : F.liveIndex q.name = 0
    · rw [interfere_of_eq_zero hF hqc.right hqc.left (Ne.symm hqc.ne) (Or.inr hq)] at hclash
      exact absurd hclash Bool.false_ne_true
    · have hp := hqp.right_ne_zero hq
      rw [ssaDefDominates_iff hdom hqp hq] at hdomqp
      rw [ssaDefDominates_iff hdom hpc hp] at hdompc
      rw [interfere_iff hF hqc hq] at hclash
      rw [interfere_iff hF hqp hq]
      have hplaceqp := hqp.place hF hq
      have hplacepc := hpc.place hF hp
      simp only [Precedes, SsaDef.place, Prod.mk.injEq] at hplaceqp hplacepc
      by_cases hblock : p.block = c.block
      · -- the same block: what is behind the later one is behind the earlier one
        rcases hclash with hplace | hout | ⟨hin, i, hi, hsrc⟩
        · left
          simp only [SsaDef.place, Prod.mk.injEq] at hplace ⊢
          omega
        · right
          left
          rw [hblock]
          exact hout
        · right
          right
          rw [hblock]
          use hin, i
          constructor
          · apply (List.drop_sublist_drop_left _ _).subset hi
            omega
          · exact hsrc
      · have hqc' : q.block ≠ c.block := by omega
        right
        left
        obtain ⟨l, hpath⟩ := hqc.right.reachable
        apply hqc.left.usedOut_of_dom hF hpath hqc' hblock hdompc hdomqp
        rcases hclash with hplace | hout | ⟨hin | heq, -⟩
        · exact absurd (congrArg Prod.fst hplace) hqc'
        · exact hqc.left.usedFrom_of_usedOut hF hqc' hout
        · exact hin
        · exact absurd heq hqc'

/-! ### What the walk finds -/

/-- Merge sets without common members make up a list in order. -/
theorem mergeMergeSets_ordered {a b : List SsaDef} (ha : F.IsMergeSet a) (hb : F.IsMergeSet b)
  (hdisjoint : ∀ d ∈ a, d ∉ b) :
  (F.mergeMergeSets a b).Pairwise F.Ordered
  := by
  have hnodup : (F.mergeMergeSets a b).Nodup := by
    apply mergeMergeSets_nodup
    apply List.nodup_append.mpr
    use ha.nodup, hb.nodup
    rintro d hd e he rfl
    exact hdisjoint d hd he
  have hsorted := mergeMergeSets_sorted ha.sorted hb.sorted
  have hmember : ∀ d ∈ F.mergeMergeSets a b, F.Member d := by
    intro d hd
    rcases mem_mergeMergeSets.mp hd with hd | hd
    · exact ha.member d hd
    · exact hb.member d hd
  apply List.Pairwise.imp_of_mem _ (hsorted.and hnodup)
  rintro x y hx hy ⟨hle, hne⟩
  exact ⟨hmember x hx, hmember y hy, hle, hne⟩

/-- `merge_sets_interfere` finds two members that interfere if and only if there are two of which
the earlier one dominates all up to the later one. -/
theorem mergeSetsInterfere_iff (hF : F.Valid) (hdom : F.Dominates blockDominates)
  {a b : List SsaDef} (ha : F.IsMergeSet a) (hb : F.IsMergeSet b)
  (hdisjoint : ∀ d ∈ a, d ∉ b) :
  F.mergeSetsInterfere blockDominates a b = true ↔
    Exposed (F.ssaDefDominates blockDominates) F.interfere (F.mergeMergeSets a b)
  := by
  unfold mergeSetsInterfere
  rw [walk_eq]
  exact Data.Nesting.scan_nil_iff (nests hF hdom) (mergeMergeSets_ordered ha hb hdisjoint)

end Function

end Nir.Liveness
