import Mesa.Nir.PhiWebs

/-!
# Runs of the coalescing

Merging two sets keeps them free of interference exactly where an interference between them shows up
as one of a def with a later one such that it dominates all members up to that one.  It does so if
the members are in a pre-order of the dominance tree; the order of the `live_index` is none behind
a loop that is left by a break.
-/

namespace Nir.Liveness

open Data.Nesting (Exposed)

namespace Function

/-! ### Steps -/

section Model

variable (F : Function) (blockDominates : ℕ → ℕ → Bool)

/-- If members of the two sets interfere, then there are two that do of which the earlier one
dominates all members of the sets up to the later one. -/
def Nested (a b : List SsaDef) : Prop :=
  ∀ x ∈ a, ∀ y ∈ b, F.interfere x y = true →
    Exposed (F.ssaDefDominates blockDominates) F.interfere (F.mergeMergeSets a b)

/-- The set of each def, where the node of a def that has none yet is the only one of its set. -/
abbrev Sets : Type := SsaDef → List SsaDef

/-- All nodes are the only ones of their sets. -/
def Sets.single : Sets := fun d => [d]

/-- All nodes of two sets get the merged set. -/
def merge (s : Sets) (x y : SsaDef) : Sets := fun d =>
  if d ∈ s x ∨ d ∈ s y then F.mergeMergeSets (s x) (s y) else s d

/-- The merging of the sets of a phi in `coalesce_phi_nodes_block`. -/
def coalescePhi (s : Sets) (web : Web) : Sets :=
  web.srcs.foldl (fun s src => if s src = s web.dest then s else F.merge s web.dest src) s

/-- `coalesce_phi_nodes_block` for all blocks: a def gets a node with a set of its own, and the sets
of the phis are merged. -/
def coalescePhiNodes (webs : List Web) : Sets := webs.foldl F.coalescePhi Sets.single

/-- The step of `aggressive_coalesce_parallel_copy` for an entry with the source `x` and the
destination `y`. -/
def coalesce (s : Sets) (x y : SsaDef) : Sets :=
  if s x = s y then
    s
  else if F.mergeSetsInterfere blockDominates (s x) (s y) then
    s
  else
    F.merge s x y

/-- Every def is in its set, and so are the defs that have the same set; no two of one set
interfere. -/
structure Good (s : Sets) : Prop where
  isMergeSet : ∀ d, F.Member d → F.IsMergeSet (s d)
  mem : ∀ d, F.Member d → d ∈ s d
  same : ∀ d, F.Member d → ∀ e ∈ s d, s e = s d

/-- The states that steps for defs in blocks that control gets to lead to, where the sets are nested
whenever two of them are compared. -/
inductive Run (start : Sets) : Sets → Prop where
  | start : Run start start
  | step {s : Sets} {x y : SsaDef} : Run start s → F.Member x → F.Member y →
      (s x ≠ s y → F.Nested blockDominates (s x) (s y)) →
      Run start (F.coalesce blockDominates s x y)

end Model

variable {F : Function} {blockDominates : ℕ → ℕ → Bool}

/-- Two sets that are not found to interfere do not, just where they are nested. -/
theorem free_iff_nested (hF : F.Valid) (hdom : F.Dominates blockDominates) {a b : List SsaDef}
  (ha : F.IsMergeSet a) (hb : F.IsMergeSet b) (hdisjoint : ∀ d ∈ a, d ∉ b) :
  (F.mergeSetsInterfere blockDominates a b = false →
    ∀ x ∈ a, ∀ y ∈ b, F.interfere x y = false) ↔ F.Nested blockDominates a b
  := by
  have hiff := mergeSetsInterfere_iff hF hdom ha hb hdisjoint
  constructor
  · intro h x hx y hy hclash
    rw [← hiff]
    by_contra hfalse
    rw [h (Bool.eq_false_iff.mpr hfalse) x hx y hy] at hclash
    exact absurd hclash Bool.false_ne_true
  · intro h hfalse x hx y hy
    by_contra htrue
    have hexp := h x hx y hy (Bool.of_not_eq_false htrue)
    rw [← hiff, hfalse] at hexp
    exact absurd hexp Bool.false_ne_true

/-- Sets between which there is no interference make up a merge set. -/
theorem IsMergeSet.mergeMergeSets (hF : F.Valid) {a b : List SsaDef} (ha : F.IsMergeSet a)
  (hb : F.IsMergeSet b) (hdisjoint : ∀ d ∈ a, d ∉ b)
  (hfree : ∀ x ∈ a, ∀ y ∈ b, F.interfere x y = false) :
  F.IsMergeSet (F.mergeMergeSets a b)
  := by
  constructor
  · intro d hd
    rcases mem_mergeMergeSets.mp hd with hd | hd
    · exact ha.member d hd
    · exact hb.member d hd
  · apply mergeMergeSets_nodup
    apply List.nodup_append.mpr
    use ha.nodup, hb.nodup
    rintro d hd e he rfl
    exact hdisjoint d hd he
  · exact mergeMergeSets_sorted ha.sorted hb.sorted
  · intro x hx y hy hne
    rcases mem_mergeMergeSets.mp hx with hx | hx
    · rcases mem_mergeMergeSets.mp hy with hy | hy
      · exact ha.free x hx y hy hne
      · exact hfree x hx y hy
    · rcases mem_mergeMergeSets.mp hy with hy | hy
      · rw [interfere_comm hF (hb.member x hx) (ha.member y hy) hne]
        exact hfree y hy x hx
      · exact hb.free x hx y hy hne

/-- The sets of two defs are the same or have no common member. -/
theorem Good.disjoint {s : Sets} (hs : F.Good s) {x y : SsaDef} (hx : F.Member x)
  (hy : F.Member y) (hne : s x ≠ s y) :
  ∀ d ∈ s x, d ∉ s y
  := by
  intro d hd hd'
  exact hne ((hs.same x hx d hd).symm.trans (hs.same y hy d hd'))

/-- To merge two sets that do not interfere. -/
theorem Good.merge (hF : F.Valid) {s : Sets} (hs : F.Good s) {x y : SsaDef} (hx : F.Member x)
  (hy : F.Member y) (hne : s x ≠ s y)
  (hfree : ∀ d ∈ s x, ∀ e ∈ s y, F.interfere d e = false) :
  F.Good (F.merge s x y)
  := by
  have hmerged := (hs.isMergeSet x hx).mergeMergeSets hF (hs.isMergeSet y hy)
    (hs.disjoint hx hy hne) hfree
  constructor
  · intro d hd
    unfold Function.merge
    split
    · exact hmerged
    · exact hs.isMergeSet d hd
  · intro d hd
    unfold Function.merge
    split
    next h => exact mem_mergeMergeSets.mpr h
    next => exact hs.mem d hd
  · intro d hd e he
    unfold Function.merge at he ⊢
    by_cases h : d ∈ s x ∨ d ∈ s y
    · rw [if_pos h] at he ⊢
      rw [if_pos (mem_mergeMergeSets.mp he)]
    · -- the others keep their sets
      rw [if_neg h] at he ⊢
      have hsame := hs.same d hd e he
      rw [if_neg, hsame]
      rintro (hex | hey)
      · apply h
        left
        rw [← hs.same x hx e hex, hsame]
        exact hs.mem d hd
      · apply h
        right
        rw [← hs.same y hy e hey, hsame]
        exact hs.mem d hd

/-- One step. -/
theorem Good.coalesce (hF : F.Valid) (hdom : F.Dominates blockDominates) {s : Sets}
  (hs : F.Good s) {x y : SsaDef} (hx : F.Member x) (hy : F.Member y)
  (hnested : s x ≠ s y → F.Nested blockDominates (s x) (s y)) :
  F.Good (F.coalesce blockDominates s x y)
  := by
  unfold Function.coalesce
  split
  next => exact hs
  next hne =>
    split
    next => exact hs
    next hfalse =>
      apply hs.merge hF hx hy hne
      have hiff := free_iff_nested hF hdom (hs.isMergeSet x hx) (hs.isMergeSet y hy)
        (hs.disjoint hx hy hne)
      exact hiff.mpr (hnested hne) (Bool.eq_false_iff.mpr hfalse)

/-- Sets of one def each are good. -/
theorem Good.single :
  F.Good Sets.single
  := by
  constructor
  · intro d hd
    constructor
    · intro e he
      rw [List.mem_singleton.mp he]
      exact hd
    · exact List.nodup_singleton d
    · exact List.pairwise_singleton _ d
    · intro e he e' he' hne
      rw [List.mem_singleton.mp he, List.mem_singleton.mp he'] at hne
      exact absurd rfl hne
  · intro d _
    exact List.mem_singleton_self d
  · intro d _ e he
    rw [List.mem_singleton.mp he]

/-! ### Phis -/

/-- Every set is that of one def or lies in a web. -/
structure InWebs (F : Function) (webs : List Web) (s : Sets) : Prop where
  good : F.Good s
  sub : ∀ d, F.Member d → (∀ e ∈ s d, e = d) ∨ ∃ web ∈ webs, ∀ e ∈ s d, e ∈ web.defs

variable {webs : List Web}

/-- The set of a def of a web lies in the web, if the webs have no common defs. -/
theorem InWebs.mem_defs {s : Sets} (h : F.InWebs webs s)
  (hdisjoint : ∀ web ∈ webs, ∀ web' ∈ webs, ∀ d ∈ web.defs, d ∈ web'.defs → web = web')
  {web : Web} (hweb : web ∈ webs) {d : SsaDef} (hd : d ∈ web.defs) (hmember : F.Member d) :
  ∀ e ∈ s d, e ∈ web.defs
  := by
  intro e he
  rcases h.sub d hmember with hsingle | ⟨web', hweb', hsub⟩
  · rw [hsingle e he]
    exact hd
  · have heq := hdisjoint web hweb web' hweb' d hd (hsub d (h.good.mem d hmember))
    rw [heq]
    exact hsub e he

/-- The merging of one source. -/
theorem InWebs.merge (hF : F.Valid) (hisolated : ∀ web ∈ webs, F.Isolated web)
  (hdisjoint : ∀ web ∈ webs, ∀ web' ∈ webs, ∀ d ∈ web.defs, d ∈ web'.defs → web = web')
  {s : Sets} (h : F.InWebs webs s) {web : Web} (hweb : web ∈ webs) {src : SsaDef}
  (hsrc : src ∈ web.srcs) (hne : s src ≠ s web.dest) :
  F.InWebs webs (F.merge s web.dest src)
  := by
  have hwebi := hisolated web hweb
  have hsrc' : src ∈ web.defs := List.mem_cons_of_mem _ hsrc
  have hdest : web.dest ∈ web.defs := List.mem_cons_self
  have hsubsrc := h.mem_defs hdisjoint hweb hsrc' (hwebi.member _ hsrc')
  have hsubdest := h.mem_defs hdisjoint hweb hdest (hwebi.member _ hdest)
  constructor
  · apply h.good.merge hF (hwebi.member _ hdest) (hwebi.member _ hsrc') (Ne.symm hne)
    intro d hd e he
    apply hwebi.free hF (hsubdest d hd) (hsubsrc e he)
    rintro rfl
    exact h.good.disjoint (hwebi.member _ hsrc') (hwebi.member _ hdest) hne d he hd
  · intro d hd
    unfold Function.merge
    split
    next =>
      right
      use web, hweb
      intro e he
      rcases mem_mergeMergeSets.mp he with he | he
      · exact hsubdest e he
      · exact hsubsrc e he
    next => exact h.sub d hd

theorem InWebs.coalescePhi (hF : F.Valid) (hisolated : ∀ web ∈ webs, F.Isolated web)
  (hdisjoint : ∀ web ∈ webs, ∀ web' ∈ webs, ∀ d ∈ web.defs, d ∈ web'.defs → web = web')
  {s : Sets} (h : F.InWebs webs s) {web : Web} (hweb : web ∈ webs) :
  F.InWebs webs (F.coalescePhi s web)
  := by
  have hfold : ∀ (l : List SsaDef) (s : Sets), (∀ src ∈ l, src ∈ web.srcs) → F.InWebs webs s →
      F.InWebs webs (l.foldl
        (fun s src => if s src = s web.dest then s else F.merge s web.dest src) s) := by
    intro l
    induction l with
    | nil =>
        intro s _ hs
        exact hs
    | cons src l ih =>
        intro s hl hs
        apply ih
        · intro d hd
          exact hl d (List.mem_cons_of_mem _ hd)
        · beta_reduce
          split
          next => exact hs
          next hne => exact hs.merge hF hisolated hdisjoint hweb (hl src List.mem_cons_self) hne
  exact hfold web.srcs s (fun _ hsrc => hsrc) h

/-- The sets of the phis are merged without a check, and are free of interference. -/
theorem Good.coalescePhiNodes (hF : F.Valid) (hisolated : ∀ web ∈ webs, F.Isolated web)
  (hdisjoint : ∀ web ∈ webs, ∀ web' ∈ webs, ∀ d ∈ web.defs, d ∈ web'.defs → web = web') :
  F.Good (F.coalescePhiNodes webs)
  := by
  have hfold : ∀ (l : List Web) (s : Sets), (∀ web ∈ l, web ∈ webs) → F.InWebs webs s →
      F.InWebs webs (l.foldl F.coalescePhi s) := by
    intro l
    induction l with
    | nil =>
        intro s _ hs
        exact hs
    | cons web l ih =>
        intro s hl hs
        apply ih
        · intro w hw
          exact hl w (List.mem_cons_of_mem _ hw)
        · exact hs.coalescePhi hF hisolated hdisjoint (hl web List.mem_cons_self)
  have hstart : F.InWebs webs Sets.single := by
    constructor
    · exact Good.single
    · intro d _
      left
      intro e he
      exact List.mem_singleton.mp he
  exact (hfold webs Sets.single (fun _ hweb => hweb) hstart).good

/-! ### Pre-orders of the dominance tree -/

/-- An instruction before the position on every path defines `d`. -/
def DefinedBefore (F : Function) (d : ℕ) (p : ℕ × ℕ) : Prop :=
  ∃ q i, F.At q i ∧ d ∈ i.defs ∧ Flow.Before F.Edge 0 q p

/-- Definitions dominate uses. -/
structure Ssa (F : Function) : Prop where
  srcs : ∀ {b k i d}, F.At (b, k) i → (F.block b).phis.length ≤ k → .ssa d ∈ i.srcs →
    F.DefinedBefore d (b, k)
  phis : ∀ {b c phi d}, F.Edge b c → phi ∈ (F.block c).phis → phi.srcFrom b = some (.ssa d) →
    F.DefinedBefore d (b, (F.block b).all.length)
  condition : ∀ {b d}, (F.block b).condition = some (.ssa d) →
    F.DefinedBefore d (b, (F.block b).all.length)

/-- The place of a member is before what it is defined before. -/
theorem DefinedBefore.before (hF : F.Valid) {d : SsaDef} (hd : F.Member d) {p : ℕ × ℕ}
  (h : F.DefinedBefore d.name p) :
  Flow.Before F.Edge 0 d.place p
  := by
  obtain ⟨q, i, hat, hdef, hbefore⟩ := h
  obtain ⟨j, hat', hdef', -⟩ := hd.isDef
  rw [hF.unique hat' hat hdef' hdef]
  exact hbefore

/-- What is before a position and not defined by the instructions just before it is before
those. -/
theorem Member.before_append {d : SsaDef} (hd : F.Member d) {b : ℕ} {pre l rest : List Instr}
  (hall : (F.block b).all = pre ++ (l ++ rest)) (hl : ∀ i ∈ l, d.name ∉ i.defs)
  (h : Flow.Before F.Edge 0 d.place (b, pre.length + l.length)) :
  Flow.Before F.Edge 0 d.place (b, pre.length)
  := by
  induction l using List.reverseRecOn generalizing rest with
  | nil => exact h
  | append_singleton l i ih =>
      apply @ih (i :: rest)
      · rw [hall, List.append_assoc, List.singleton_append]
      · intro j hj
        exact hl j (List.mem_append_left _ hj)
      · rw [List.length_append, List.length_singleton, ← Nat.add_assoc,
          Flow.before_succ_iff] at h
        rcases h with h | hplace
        · exact h
        · -- the instruction at the place defines the member
          obtain ⟨j, hat, hdef, -⟩ := hd.isDef
          rw [hplace] at hat
          have hi : F.At (b, pre.length + l.length) i := by
            unfold At
            rw [hall, List.append_assoc, List.getElem?_append_right (Nat.le_add_right _ _),
              Nat.add_sub_cancel_left, List.getElem?_append_right (Nat.le_refl _), Nat.sub_self]
            rfl
          obtain rfl : j = i := Option.some.inj (hat.symm.trans hi)
          exact absurd hdef (hl j (List.mem_append_right _ (List.mem_singleton_self j)))

/-- A member is defined before what it is used from. -/
theorem Member.before_of_usedFrom (hF : F.Valid) (hssa : F.Ssa) {d : SsaDef} (hd : F.Member d)
  {b : ℕ} {rest : List Instr} (h : F.UsedFrom d.name b rest) :
  ∀ pre, (F.block b).all = pre ++ rest → (F.block b).phis.length ≤ pre.length →
    Flow.Before F.Edge 0 d.place (b, pre.length)
  := by
  induction h with
  | @here b i rest hsrc =>
      intro pre hall hlength
      apply DefinedBefore.before hF hd
      apply hssa.srcs (i := i) _ hlength hsrc
      unfold At
      rw [hall, List.getElem?_append_right (Nat.le_refl _), Nat.sub_self]
      rfl
  | @next b i rest hdef _ ih =>
      intro pre hall hlength
      apply hd.before_append (l := [i]) hall
      · intro j hj
        rw [List.mem_singleton.mp hj]
        exact hdef
      · rw [← List.length_append]
        apply ih
        · rw [List.append_assoc]
          exact hall
        · rw [List.length_append]
          exact Nat.le_add_right_of_le hlength
  | condition hcond =>
      intro pre hall _
      rw [List.append_nil] at hall
      rw [← hall]
      exact (hssa.condition hcond).before hF hd
  | phi hc hphi hsrc =>
      intro pre hall _
      rw [List.append_nil] at hall
      rw [← hall]
      exact (hssa.phis hc hphi hsrc).before hF hd
  | @edge b c hc hdest _ ih =>
      intro pre hall _
      rw [List.append_nil] at hall
      rw [← hall]
      -- before the instructions of the successor, and so before its phis
      have hbehind := ih ((F.block c).phis.map Phi.instr) rfl
        (Nat.le_of_eq (List.length_map _).symm)
      have hstart : Flow.Before F.Edge 0 d.place (c, 0) := by
        apply @Member.before_append F d hd c [] ((F.block c).phis.map Phi.instr)
          (F.block c).instrs rfl
        · intro i hi hmem
          obtain ⟨phi, hphi, rfl⟩ := List.mem_map.mp hi
          exact hdest phi hphi (List.mem_singleton.mp hmem).symm
        · rw [List.length_nil, Nat.zero_add]
          exact hbehind
      apply hstart.of_edge hc
      rintro rfl
      obtain ⟨j, hat, -⟩ := hd.isDef
      exact (List.getElem?_eq_some_iff.mp hat).1

/-- The earlier one of two members that interfere dominates the later one. -/
theorem ssaDefDominates_of_interfere (hF : F.Valid) (hdom : F.Dominates blockDominates)
  (hssa : F.Ssa) {q c : SsaDef} (h : F.Ordered q c) (hclash : F.interfere c q = true) :
  F.ssaDefDominates blockDominates q c = true
  := by
  by_cases hq : F.liveIndex q.name = 0
  · unfold ssaDefDominates
    rw [if_pos hq]
  · rw [ssaDefDominates_iff hdom h hq]
    by_cases hblock : q.block = c.block
    · rw [hblock]
      exact Flow.Dom.refl _
    · have huse : F.UsedFrom q.name c.block (F.block c.block).instrs := by
        rcases (interfere_iff hF h hq).mp hclash with hplace | hout | ⟨hin | heq, -⟩
        · exact absurd (congrArg Prod.fst hplace) hblock
        · exact h.left.usedFrom_of_usedOut hF hblock hout
        · exact hin
        · exact absurd heq hblock
      have hbefore := h.left.before_of_usedFrom hF hssa huse
        ((F.block c.block).phis.map Phi.instr) rfl (Nat.le_of_eq (List.length_map _).symm)
      rcases hbefore with ⟨-, hdomqc⟩ | ⟨heq, -⟩
      · exact hdomqc
      · exact absurd heq hblock

/-- A member of the list that dominates a later one dominates all between the two. -/
def PreOrdered (F : Function) (blockDominates : ℕ → ℕ → Bool) (m : List SsaDef) : Prop :=
  ∀ l q l' w r, m = l ++ q :: (l' ++ w :: r) → F.ssaDefDominates blockDominates q w = true →
    ∀ y ∈ l', F.ssaDefDominates blockDominates q y = true

/-- Of two members of a list one comes before the other. -/
theorem exists_split {m : List SsaDef} {x y : SsaDef} (hx : x ∈ m) (hy : y ∈ m) (hne : x ≠ y) :
  ∃ l l' r, m = l ++ x :: (l' ++ y :: r) ∨ m = l ++ y :: (l' ++ x :: r)
  := by
  obtain ⟨l, r, rfl⟩ := List.append_of_mem hx
  rcases List.mem_append.mp hy with hl | hr
  · obtain ⟨l₁, l₂, rfl⟩ := List.append_of_mem hl
    use l₁, l₂, r
    right
    rw [List.append_assoc, List.cons_append]
  · rcases List.mem_cons.mp hr with rfl | hr
    · exact absurd rfl hne
    · obtain ⟨l₁, l₂, rfl⟩ := List.append_of_mem hr
      use l, l₁, l₂
      left
      rfl

/-- Sets whose members are in a pre-order of the dominance tree are nested. -/
theorem nested_of_preOrdered (hF : F.Valid) (hdom : F.Dominates blockDominates) (hssa : F.Ssa)
  {a b : List SsaDef} (ha : F.IsMergeSet a) (hb : F.IsMergeSet b) (hdisjoint : ∀ d ∈ a, d ∉ b)
  (hpre : F.PreOrdered blockDominates (F.mergeMergeSets a b)) :
  F.Nested blockDominates a b
  := by
  intro x hx y hy hclash
  have hne : x ≠ y := by
    rintro rfl
    exact hdisjoint x hx hy
  have hordered := mergeMergeSets_ordered ha hb hdisjoint
  have hexp : ∀ l q l' w r, F.mergeMergeSets a b = l ++ q :: (l' ++ w :: r) →
      F.interfere w q = true →
      Exposed (F.ssaDefDominates blockDominates) F.interfere (F.mergeMergeSets a b) := by
    intro l q l' w r hm hwq
    have hqw : F.Ordered q w := by
      rw [hm] at hordered
      have htail := (List.pairwise_append.mp hordered).2.1
      exact (List.pairwise_cons.mp htail).1 w (List.mem_append_right _ List.mem_cons_self)
    have hpre' := hpre l q l' w r hm
    rw [hm]
    exact Data.Nesting.exposed_of_preorder hpre'
      (ssaDefDominates_of_interfere hF hdom hssa hqw) hwq
  obtain ⟨l, l', r, hm | hm⟩ := exists_split (mem_mergeMergeSets.mpr (Or.inl hx))
    (mem_mergeMergeSets.mpr (Or.inr hy)) hne
  · apply hexp l x l' y r hm
    rw [← interfere_comm hF (ha.member x hx) (hb.member y hy) hne]
    exact hclash
  · exact hexp l y l' x r hm hclash

/-! ### Sets that are free of interference -/

/-- In runs of the parallel copies over good sets these stay good. -/
theorem Run.good (hF : F.Valid) (hdom : F.Dominates blockDominates) {start s : Sets}
  (hstart : F.Good start) (hrun : F.Run blockDominates start s) :
  F.Good s
  := by
  induction hrun with
  | start => exact hstart
  | step _ hx hy hnested ih => exact ih.coalesce hF hdom hx hy hnested

/-- Two merge sets that are found not to interfere do not if and only if they are nested, and where
this is so at all steps of a run, which starts with the merging of the phis, no set ever contains
two defs that interfere. -/
theorem mergeSets_free (F : Function) (blockDominates : ℕ → ℕ → Bool) (hF : F.Valid)
  (hdom : F.Dominates blockDominates) :
  (∀ a b, F.IsMergeSet a → F.IsMergeSet b → (∀ d ∈ a, d ∉ b) →
    ((F.mergeSetsInterfere blockDominates a b = false →
        ∀ x ∈ a, ∀ y ∈ b, F.interfere x y = false) ↔ F.Nested blockDominates a b)) ∧
  ∀ webs : List Web, (∀ web ∈ webs, F.Isolated web) →
    (∀ web ∈ webs, ∀ web' ∈ webs, ∀ d ∈ web.defs, d ∈ web'.defs → web = web') →
    ∀ s, F.Run blockDominates (F.coalescePhiNodes webs) s →
      ∀ d, F.Member d → F.IsMergeSet (s d)
  := by
  constructor
  · intro a b ha hb hdisjoint
    exact free_iff_nested hF hdom ha hb hdisjoint
  · intro webs hisolated hdisjoint s hrun
    have hgood := hrun.good hF hdom (Good.coalescePhiNodes hF hisolated hdisjoint)
    exact hgood.isMergeSet

/-- A loop that is left by a break: a def in the branch with the break that is used behind the loop,
a def in the other branch, and a def behind the loop before the use. -/
def breakFunction : Function :=
  ⟨[⟨[], [], [1], [], none⟩,
    ⟨[], [⟨false, [0], []⟩], [2, 3], [0, 4], some (.ssa 0)⟩,
    ⟨[], [⟨false, [1], []⟩], [5], [1], none⟩,
    ⟨[], [⟨false, [2], []⟩], [4], [1], none⟩,
    ⟨[], [], [1], [3], none⟩,
    ⟨[], [⟨false, [3], []⟩, ⟨false, [], [.ssa 1]⟩], [], [2], none⟩]⟩

/-- The blocks that dominate a block of the function. -/
def breakDoms : ℕ → List ℕ
  | 0 => [0]
  | 1 => [1, 0]
  | 2 => [2, 1, 0]
  | 3 => [3, 1, 0]
  | 4 => [4, 3, 1, 0]
  | 5 => [5, 2, 1, 0]
  | _ => []

theorem breakFunction_valid :
  breakFunction.Valid
  := by
  apply Valid.of_nodup
  · decide
  · decide
  · decide

theorem breakFunction_path {b : ℕ} (hb : b < 6) :
  Flow.Path breakFunction.Edge 0 b (breakDoms b)
  := by
  have h₀ : Flow.Path breakFunction.Edge 0 0 [0] := Flow.Path.entry
  have h₁ : Flow.Path breakFunction.Edge 0 1 [1, 0] := h₀.step (by decide)
  have h₂ : Flow.Path breakFunction.Edge 0 2 [2, 1, 0] := h₁.step (by decide)
  have h₃ : Flow.Path breakFunction.Edge 0 3 [3, 1, 0] := h₁.step (by decide)
  have h₄ : Flow.Path breakFunction.Edge 0 4 [4, 3, 1, 0] := h₃.step (by decide)
  have h₅ : Flow.Path breakFunction.Edge 0 5 [5, 2, 1, 0] := h₂.step (by decide)
  match b with
  | 0 => exact h₀
  | 1 => exact h₁
  | 2 => exact h₂
  | 3 => exact h₃
  | 4 => exact h₄
  | 5 => exact h₅
  | n + 6 => omega

/-- Every edge leads to a block that has one dominator more at most. -/
theorem breakFunction_edge {b c : ℕ} (h : breakFunction.Edge b c) :
  c < 6 ∧ ∀ d ∈ breakDoms c, d = c ∨ d ∈ breakDoms b
  := by
  have hb : b < 6 := lt_of_mem_successors h
  have hall : ∀ b < 6, ∀ c ∈ (breakFunction.block b).successors,
      c < 6 ∧ ∀ d ∈ breakDoms c, d = c ∨ d ∈ breakDoms b := by
    decide
  exact hall b hb c h

theorem breakFunction_dominates :
  breakFunction.Dominates (fun b c => b ∈ breakDoms c)
  := by
  rintro b c - ⟨l, hl⟩
  have hc : c < 6 := by
    cases hl with
    | entry => exact Nat.zero_lt_succ 5
    | step _ hedge => exact (breakFunction_edge hedge).1
  rw [decide_eq_true_eq]
  symm
  apply Flow.dom_iff_mem (l := breakDoms c)
  · intro d hd
    exact List.mem_singleton.mp hd
  · intro b c hedge
    exact (breakFunction_edge hedge).2
  · exact breakFunction_path hc
  · intro d hd
    exact hd

theorem breakFunction_isMergeSet :
  breakFunction.IsMergeSet [⟨1, 2, 0⟩] ∧ breakFunction.IsMergeSet [⟨2, 3, 0⟩, ⟨3, 5, 0⟩]
  := by
  have hmember : ∀ d b, b < 6 → breakFunction.At (b, 0) ⟨false, [d], []⟩ →
      breakFunction.Member ⟨d, b, 0⟩ := by
    intro d b hb hat
    exact ⟨⟨_, breakFunction_path hb⟩, _, hat, List.mem_singleton_self d, fun _ => rfl⟩
  have h₁ := hmember 1 2 (by decide) rfl
  have h₂ := hmember 2 3 (by decide) rfl
  have h₃ := hmember 3 5 (by decide) rfl
  constructor
  · constructor
    · intro d hd
      rw [List.mem_singleton.mp hd]
      exact h₁
    · decide
    · decide
    · decide
  · constructor
    · intro d hd
      rcases List.mem_cons.mp hd with rfl | hd
      · exact h₂
      · rw [List.mem_singleton.mp hd]
        exact h₃
    · decide
    · decide
    · decide

/-- The def in the branch with the break dominates the one behind the loop, but not the one between
them: it is popped before it is compared with the def that it interferes with. -/
theorem break_not_found :
  breakFunction.Valid ∧ breakFunction.Dominates (fun b c => b ∈ breakDoms c) ∧
    breakFunction.IsMergeSet [⟨1, 2, 0⟩] ∧
    breakFunction.IsMergeSet [⟨2, 3, 0⟩, ⟨3, 5, 0⟩] ∧
    breakFunction.mergeSetsInterfere (fun b c => b ∈ breakDoms c) [⟨1, 2, 0⟩]
      [⟨2, 3, 0⟩, ⟨3, 5, 0⟩] = false ∧
    breakFunction.interfere ⟨1, 2, 0⟩ ⟨3, 5, 0⟩ = true
  := by
  obtain ⟨ha, hb⟩ := breakFunction_isMergeSet
  use breakFunction_valid, breakFunction_dominates, ha, hb
  constructor
  · unfold mergeSetsInterfere
    rw [walk_eq, mergeMergeSets_cons, if_pos (by decide), mergeMergeSets, List.nil_merge]
    decide
  · decide

/-- The case of that function: its sets, and the merging of the first two of its defs. -/
theorem mergeSets_free_break :
  ((breakFunction.mergeSetsInterfere (fun b c => b ∈ breakDoms c) [⟨1, 2, 0⟩]
        [⟨2, 3, 0⟩, ⟨3, 5, 0⟩] = false →
      ∀ x ∈ [⟨1, 2, 0⟩], ∀ y ∈ [⟨2, 3, 0⟩, ⟨3, 5, 0⟩], breakFunction.interfere x y = false)
    ↔ breakFunction.Nested (fun b c => b ∈ breakDoms c) [⟨1, 2, 0⟩] [⟨2, 3, 0⟩, ⟨3, 5, 0⟩]) ∧
  breakFunction.IsMergeSet
    (breakFunction.coalesce (fun b c => b ∈ breakDoms c) (breakFunction.coalescePhiNodes [])
      ⟨1, 2, 0⟩ ⟨2, 3, 0⟩ ⟨1, 2, 0⟩)
  := by
  obtain ⟨ha, hb⟩ := breakFunction_isMergeSet
  have h := mergeSets_free breakFunction _ breakFunction_valid breakFunction_dominates
  have hx := ha.member ⟨1, 2, 0⟩ List.mem_cons_self
  have hy := hb.member ⟨2, 3, 0⟩ List.mem_cons_self
  constructor
  · exact h.1 _ _ ha hb (by decide)
  · apply h.2 [] (fun web hweb => absurd hweb List.not_mem_nil)
      (fun web hweb => absurd hweb List.not_mem_nil) _ _ _ hx
    apply Run.step Run.start hx hy
    intro _ x hx' y hy' hclash
    -- the two defs do not interfere
    rw [List.mem_singleton.mp hx', List.mem_singleton.mp hy'] at hclash
    exact absurd hclash (by decide)

/-! ### Blocks in a pre-order of the dominance tree -/

/-- A block that dominates a later one dominates all between the two. -/
def BlocksPreOrdered (F : Function) : Prop :=
  ∀ {b c d}, F.Reachable c → b ≤ c → c ≤ d → Flow.Dom F.Edge 0 b d → Flow.Dom F.Edge 0 b c

/-- So are then members in the order of the index. -/
theorem BlocksPreOrdered.preOrdered (hpre : F.BlocksPreOrdered) (hF : F.Valid)
  (hdom : F.Dominates blockDominates) {m : List SsaDef} (hm : m.Pairwise F.Ordered) :
  F.PreOrdered blockDominates m
  := by
  have hle : ∀ {x y}, F.Ordered x y → F.liveIndex x.name ≠ 0 → x.block ≤ y.block := by
    intro x y h hx
    rcases h.place hF hx with heq | hlt | ⟨heq, -⟩
    · exact (congrArg Prod.fst heq).le
    · exact hlt.le
    · exact heq.le
  rintro l q l' w r rfl hqw y hy
  obtain ⟨hq', -, -, hw'⟩ := by
    simpa only [List.pairwise_append, List.pairwise_cons] using (List.pairwise_append.mp hm).2.1
  have hqy := hq' y (List.mem_append_left _ hy)
  by_cases hq : F.liveIndex q.name = 0
  · rw [ssaDefDominates, if_pos hq]
  · rw [ssaDefDominates_iff hdom (hq' w (List.mem_append_right _ List.mem_cons_self)) hq] at hqw
    rw [ssaDefDominates_iff hdom hqy hq]
    exact hpre hqy.right.reachable (hle hqy hq)
      (hle (hw' y hy w List.mem_cons_self) (hqy.right_ne_zero hq)) hqw

/-- A def, and one that is made of it. -/
def copyFunction : Function :=
  ⟨[⟨[], [⟨false, [0], []⟩, ⟨false, [1], [.ssa 0]⟩], [], [], none⟩]⟩

end Function

end Nir.Liveness
