import Mesa.Flow.DominatorTree
import Mesa.Nir.ControlFlow

/-!
# The blocks of a function

The blocks of a function body get their indices in the order of `nir_foreach_block`, the block at
the end of the function, which is not in the body, counts as the one after them.  Every block has
edges to its successors.
-/

namespace Nir

open Flow

variable {ι κ : Type}

/-- The number of blocks of a list. -/
def CfList.numBlocks : CfList ι κ → ℕ
  | .block _ => 1
  | .nif _ _ t e rest => 1 + t.numBlocks + e.numBlocks + rest.numBlocks
  | .loop _ body rest => 1 + body.numBlocks + rest.numBlocks

/-- The blocks that the blocks of a list can go to outside of it. -/
structure Targets where
  /-- The block after the list. -/
  follow : ℕ
  /-- The block after the innermost loop. -/
  brk : ℕ
  /-- The header of the innermost loop. -/
  cont : ℕ
  /-- The end of the function. -/
  ret : ℕ

/-- Where a jump goes. -/
def Targets.jump (T : Targets) : Jump → ℕ
  | .brk => T.brk
  | .cont => T.cont
  | .ret => T.ret

/-- The successors of a block, which are the normal ones unless it ends in a jump. -/
def Block.successors (b : Block ι) (T : Targets) (normal : List ℕ) : List ℕ :=
  match b.jump with
  | none => normal
  | some j => [T.jump j]

/-- The edges between the blocks of a list, of which the first one has the index `i`. -/
@[simp]
def CfList.edges : CfList ι κ → ℕ → Targets → List (ℕ × ℕ)
  | .block b, i, T => (b.successors T [T.follow]).map (i, ·)
  | .nif b _ t e rest, i, T =>
      let thenBlock := i + 1
      let elseBlock := thenBlock + t.numBlocks
      let next := elseBlock + e.numBlocks
      (b.successors T [thenBlock, elseBlock]).map (i, ·) ++
        t.edges thenBlock { T with follow := next } ++
        e.edges elseBlock { T with follow := next } ++
        rest.edges next T
  | .loop b body rest, i, T =>
      let header := i + 1
      let next := header + body.numBlocks
      (b.successors T [header]).map (i, ·) ++
        body.edges header { T with follow := header, brk := next, cont := header } ++
        rest.edges next T

/-- A `nir_function_impl`: its body, and the predecessors of its blocks as the sets hold them. -/
structure FunctionImpl (ι κ : Type) where
  body : CfList ι κ
  predecessors : ℕ → List ℕ
  nodup : ∀ c, (predecessors c).Nodup
  mem_predecessors : ∀ {p c}, p ∈ predecessors c ↔
    (p, c) ∈ body.edges 0 ⟨body.numBlocks, body.numBlocks, body.numBlocks, body.numBlocks⟩

namespace CfList

theorem numBlocks_pos (l : CfList ι κ) :
  0 < l.numBlocks
  := by
  cases l <;> simp only [numBlocks] <;> omega

end CfList

/-! ### Targets -/

namespace Targets

/-- No target is among the blocks from `i` to `n`, except the first one of them. -/
structure Outside (T : Targets) (i n : ℕ) : Prop where
  follow : T.follow ≤ i ∨ n ≤ T.follow
  brk : T.brk ≤ i ∨ n ≤ T.brk
  cont : T.cont ≤ i ∨ n ≤ T.cont
  ret : T.ret ≤ i ∨ n ≤ T.ret

/-- A block is one of the targets. -/
def Mem (T : Targets) (c : ℕ) : Prop := c = T.follow ∨ c = T.brk ∨ c = T.cont ∨ c = T.ret

theorem mem_jump (T : Targets) (j : Jump) :
  T.Mem (T.jump j)
  := by
  cases j <;> simp [Mem, jump]

theorem Outside.mem {T : Targets} {i n c : ℕ} (h : T.Outside i n) (hc : T.Mem c) :
  c ≤ i ∨ n ≤ c
  := by
  rcases hc with rfl | rfl | rfl | rfl
  · exact h.follow
  · exact h.brk
  · exact h.cont
  · exact h.ret

end Targets

theorem Block.mem_successors {b : Block ι} {T : Targets} {normal : List ℕ} {c : ℕ}
    (h : c ∈ b.successors T normal) :
  c ∈ normal ∨ T.Mem c
  := by
  unfold successors at h
  split at h
  · left
    exact h
  · right
    rw [List.mem_singleton.mp h]
    exact T.mem_jump _

/-! ### Edges -/

namespace CfList

/-- An edge of a list leaves one of its blocks, and goes to a target or to a block of the list
that is not the first one. -/
theorem mem_edges {l : CfList ι κ} {i : ℕ} {T : Targets} {e : ℕ × ℕ} (h : e ∈ l.edges i T) :
  (i ≤ e.1 ∧ e.1 < i + l.numBlocks) ∧ (T.Mem e.2 ∨ (i < e.2 ∧ e.2 < i + l.numBlocks))
  := by
  induction l generalizing i T with
  | block b =>
      obtain ⟨c, hc, rfl⟩ := List.mem_map.mp h
      refine ⟨by simp [numBlocks], ?_⟩
      left
      rcases Block.mem_successors hc with hc | hc
      · left
        exact List.mem_singleton.mp hc
      · exact hc
  | nif b _ t e rest iht ihe ih =>
      have ht := t.numBlocks_pos
      have he := e.numBlocks_pos
      have hrest := rest.numBlocks_pos
      simp only [edges, List.mem_append] at h
      simp only [numBlocks]
      rcases h with ((h | h) | h) | h
      · obtain ⟨c, hc, rfl⟩ := List.mem_map.mp h
        rcases Block.mem_successors hc with hc | hc
        · simp only [List.mem_cons, List.not_mem_nil, or_false] at hc
          omega
        · refine ⟨by omega, ?_⟩
          left
          exact hc
      · obtain ⟨hsrc, (hfol | hT) | htgt⟩ := iht h
        · simp only at hfol
          omega
        · refine ⟨by omega, ?_⟩
          left
          right
          exact hT
        · omega
      · obtain ⟨hsrc, (hfol | hT) | htgt⟩ := ihe h
        · simp only at hfol
          omega
        · refine ⟨by omega, ?_⟩
          left
          right
          exact hT
        · omega
      · obtain ⟨hsrc, hT | htgt⟩ := ih h
        · refine ⟨by omega, ?_⟩
          left
          exact hT
        · omega
  | loop b body rest ihbody ih =>
      have hbody := body.numBlocks_pos
      have hrest := rest.numBlocks_pos
      simp only [edges, List.mem_append] at h
      simp only [numBlocks]
      rcases h with (h | h) | h
      · obtain ⟨c, hc, rfl⟩ := List.mem_map.mp h
        rcases Block.mem_successors hc with hc | hc
        · simp only [List.mem_singleton] at hc
          omega
        · refine ⟨by omega, ?_⟩
          left
          exact hc
      · obtain ⟨hsrc, (hfol | hbrk | hcont | hret) | htgt⟩ := ihbody h
        · simp only at hfol
          omega
        · simp only at hbrk
          omega
        · simp only at hcont
          omega
        · refine ⟨by omega, ?_⟩
          left
          right
          right
          right
          exact hret
        · omega
      · obtain ⟨hsrc, hT | htgt⟩ := ih h
        · refine ⟨by omega, ?_⟩
          left
          exact hT
        · omega

/-- The edges of an `if` go to a target, up to the first block of one of its parts, or from a block
of a part to another one of the part. -/
theorem nif_target {b : Block ι} {c : κ} {t e rest : CfList ι κ} {i : ℕ} {T : Targets} {f : ℕ × ℕ}
    (h : f ∈ (CfList.nif b c t e rest).edges i T) :
  let thenBlock := i + 1
  let elseBlock := thenBlock + t.numBlocks
  let next := elseBlock + e.numBlocks
  T.Mem f.2 ∨ (f.1 < f.2 ∧ (f.2 = thenBlock ∨ f.2 = elseBlock ∨ f.2 = next)) ∨
    (f ∈ t.edges thenBlock { T with follow := next } ∧ thenBlock < f.2 ∧ f.2 < elseBlock) ∨
    (f ∈ e.edges elseBlock { T with follow := next } ∧ elseBlock < f.2 ∧ f.2 < next) ∨
    (f ∈ rest.edges next T ∧ next < f.2 ∧ f.2 < next + rest.numBlocks)
  := by
  intro thenBlock elseBlock next
  have hthen : thenBlock < elseBlock := Nat.lt_add_of_pos_right t.numBlocks_pos
  have helse : elseBlock < next := Nat.lt_add_of_pos_right e.numBlocks_pos
  simp only [edges, List.mem_append] at h
  rcases h with ((h | h) | h) | h
  · obtain ⟨d, hd, rfl⟩ := List.mem_map.mp h
    rcases Block.mem_successors hd with hd | hd
    · right
      left
      simp only [List.mem_cons, List.not_mem_nil, or_false] at hd
      simp only
      omega
    · left
      exact hd
  · obtain ⟨hsrc, (hfol | hT) | hin⟩ := mem_edges h
    · right
      left
      simp only at hfol
      omega
    · left
      exact Or.inr hT
    · right
      right
      left
      exact ⟨h, hin⟩
  · obtain ⟨hsrc, (hfol | hT) | hin⟩ := mem_edges h
    · right
      left
      simp only at hfol
      omega
    · left
      exact Or.inr hT
    · right
      right
      right
      left
      exact ⟨h, hin⟩
  · obtain ⟨-, hT | hin⟩ := mem_edges h
    · left
      exact hT
    · right
      right
      right
      right
      exact ⟨h, hin⟩

/-- The edges of a loop go to a target, to the header from before the end of the body, up to the
block after it, or from a block of a part to another one of the part. -/
theorem loop_target {b : Block ι} {body rest : CfList ι κ} {i : ℕ} {T : Targets} {f : ℕ × ℕ}
    (h : f ∈ (CfList.loop b body rest).edges i T) :
  let header := i + 1
  let next := header + body.numBlocks
  T.Mem f.2 ∨ (f.1 < next ∧ (f.2 = header ∨ f.2 = next)) ∨
    (f ∈ body.edges header { T with follow := header, brk := next, cont := header } ∧
      header < f.2 ∧ f.2 < next) ∨
    (f ∈ rest.edges next T ∧ next < f.2 ∧ f.2 < next + rest.numBlocks)
  := by
  intro header next
  have hbody : header < next := Nat.lt_add_of_pos_right body.numBlocks_pos
  simp only [edges, List.mem_append] at h
  rcases h with (h | h) | h
  · obtain ⟨d, hd, rfl⟩ := List.mem_map.mp h
    rcases Block.mem_successors hd with hd | hd
    · right
      left
      have hi : i < next := by omega
      exact ⟨hi, Or.inl (List.mem_singleton.mp hd)⟩
    · left
      exact hd
  · obtain ⟨⟨-, hsrc⟩, (hfol | hbrk | hcont | hret) | hin⟩ := mem_edges h
    · right
      left
      exact ⟨hsrc, Or.inl hfol⟩
    · right
      left
      exact ⟨hsrc, Or.inr hbrk⟩
    · right
      left
      exact ⟨hsrc, Or.inl hcont⟩
    · left
      exact Or.inr (Or.inr (Or.inr hret))
    · right
      right
      left
      exact ⟨h, hin⟩
  · obtain ⟨-, hT | hin⟩ := mem_edges h
    · left
      exact hT
    · right
      right
      right
      exact ⟨h, hin⟩

/-- An edge back, among the blocks after `i` and before `n`, to a block that is the only entry of
blocks that include the one it leaves. -/
def IsBack (es : List (ℕ × ℕ)) (i n : ℕ) (e : ℕ × ℕ) : Prop :=
  ∃ r, i < e.2 ∧ e.2 ≤ e.1 ∧ e.1 < r ∧ r ≤ n ∧
    ∀ f ∈ es, e.2 < f.2 → f.2 < r → e.2 ≤ f.1 ∧ f.1 < r

/-- Other edges may be added that do not go among these blocks. -/
theorem IsBack.mono {es es' : List (ℕ × ℕ)} {i i' n n' : ℕ} {e : ℕ × ℕ} (h : IsBack es i n e)
    (hes : ∀ f ∈ es', i < f.2 → f.2 < n → f ∈ es) (hi : i' ≤ i) (hn : n ≤ n') :
  IsBack es' i' n' e
  := by
  obtain ⟨r, hlt, hback, hr, hle, hent⟩ := h
  refine ⟨r, by omega, hback, hr, by omega, ?_⟩
  intro f hf hlt' hltr
  exact hent f (hes f hf (by omega) (by omega)) hlt' hltr

/-- An edge of a list goes up, to a target, or back. -/
theorem edge_cases {l : CfList ι κ} {i : ℕ} {T : Targets} (hT : T.Outside i (i + l.numBlocks))
    {e : ℕ × ℕ} (h : e ∈ l.edges i T) :
  e.1 < e.2 ∨ T.Mem e.2 ∨ IsBack (l.edges i T) i (i + l.numBlocks) e
  := by
  induction l generalizing i T with
  | block b =>
      obtain ⟨-, hmem | hin⟩ := mem_edges h
      · right
        left
        exact hmem
      · simp only [numBlocks] at hin
        omega
  | nif b c t e' rest iht ihe ih =>
      have hout := fun d => hT.mem (c := d)
      obtain ⟨hfol, hbrk, hcont, hret⟩ := hT
      have htgt := fun f (hf : f ∈ (CfList.nif b c t e' rest).edges i T) => nif_target hf
      have ht := t.numBlocks_pos
      have he := e'.numBlocks_pos
      simp only [numBlocks] at hfol hbrk hcont hret hout htgt ⊢
      obtain hmem | hup | ⟨hp, hin⟩ | ⟨hp, hin⟩ | ⟨hp, hin⟩ := htgt e h
      · exact Or.inr (Or.inl hmem)
      · exact Or.inl hup.1
      · obtain hlt | (hfol | hmem) | hback := iht (by constructor <;> simp only <;> omega) hp
        · exact Or.inl hlt
        · simp only at hfol
          omega
        · exact Or.inr (Or.inl (Or.inr hmem))
        · right
          right
          apply hback.mono _ (by omega) (by omega)
          intro f hf hlo hhi
          rcases htgt f hf with hmem | hup | ⟨hp, -⟩ | hp | hp
          · have := hout _ hmem
            omega
          · omega
          · exact hp
          · omega
          · omega
      · obtain hlt | (hfol | hmem) | hback := ihe (by constructor <;> simp only <;> omega) hp
        · exact Or.inl hlt
        · simp only at hfol
          omega
        · exact Or.inr (Or.inl (Or.inr hmem))
        · right
          right
          apply hback.mono _ (by omega) (by omega)
          intro f hf hlo hhi
          rcases htgt f hf with hmem | hup | hp | ⟨hp, -⟩ | hp
          · have := hout _ hmem
            omega
          · omega
          · omega
          · exact hp
          · omega
      · obtain hlt | hmem | hback := ih (by constructor <;> omega) hp
        · exact Or.inl hlt
        · exact Or.inr (Or.inl hmem)
        · right
          right
          apply hback.mono _ (by omega) (by omega)
          intro f hf hlo hhi
          rcases htgt f hf with hmem | hup | hp | hp | ⟨hp, -⟩
          · have := hout _ hmem
            omega
          · omega
          · omega
          · omega
          · exact hp
  | loop b body rest ihbody ih =>
      have hout := fun d => hT.mem (c := d)
      obtain ⟨hfol, hbrk, hcont, hret⟩ := hT
      have htgt := fun f (hf : f ∈ (CfList.loop b body rest).edges i T) => loop_target hf
      have hbody := body.numBlocks_pos
      simp only [numBlocks] at hfol hbrk hcont hret hout htgt ⊢
      obtain hmem | ⟨hlt, heq | heq⟩ | ⟨hp, hin⟩ | ⟨hp, hin⟩ := htgt e h
      · exact Or.inr (Or.inl hmem)
      · by_cases hup : e.1 < e.2
        · exact Or.inl hup
        · right
          right
          refine ⟨i + 1 + body.numBlocks, by omega, by omega, hlt, by omega, ?_⟩
          intro f hf hlo hhi
          rcases htgt f hf with hmem | hup | ⟨hp, -⟩ | hp
          · have := hout _ hmem
            omega
          · omega
          · have := (mem_edges hp).1
            omega
          · omega
      · exact Or.inl (by omega)
      · obtain hlt | (hfol | hbrk | hcont | hret) | hback :=
          ihbody (by constructor <;> simp only <;> omega) hp
        · exact Or.inl hlt
        · simp only at hfol
          omega
        · simp only at hbrk
          omega
        · simp only at hcont
          omega
        · exact Or.inr (Or.inl (Or.inr (Or.inr (Or.inr hret))))
        · right
          right
          apply hback.mono _ (by omega) (by omega)
          intro f hf hlo hhi
          rcases htgt f hf with hmem | hup | ⟨hp, -⟩ | hp
          · have := hout _ hmem
            omega
          · omega
          · exact hp
          · omega
      · obtain hlt | hmem | hback := ih (by constructor <;> omega) hp
        · exact Or.inl hlt
        · exact Or.inr (Or.inl hmem)
        · right
          right
          apply hback.mono _ (by omega) (by omega)
          intro f hf hlo hhi
          rcases htgt f hf with hmem | hup | hp | ⟨hp, -⟩
          · have := hout _ hmem
            omega
          · omega
          · omega
          · exact hp

end CfList

/-! ### The graph of a function -/

namespace FunctionImpl

variable (impl : FunctionImpl ι κ)

/-- The number of blocks in the body, which stands for the end block here. -/
def numBlocks : ℕ := impl.body.numBlocks

/-- The block `c` is a successor of the block `b`. -/
def Edge (b c : ℕ) : Prop := b ∈ impl.predecessors c

/-- There is a path from the start block. -/
def Reachable (b : ℕ) : Prop := Flow.Reachable impl.Edge 0 b

/-- Every path from the start block to `b` goes through `a`. -/
def Dom (a b : ℕ) : Prop := Flow.Dom impl.Edge 0 a b

variable {impl}

theorem Edge.lt {b c : ℕ} (h : impl.Edge b c) :
  b < impl.numBlocks
  := by
  have hlt := (CfList.mem_edges (impl.mem_predecessors.mp h)).1.2
  rw [Nat.zero_add] at hlt
  exact hlt

theorem Edge.pos {b c : ℕ} (h : impl.Edge b c) :
  0 < c
  := by
  have hpos : 0 < impl.body.numBlocks := impl.body.numBlocks_pos
  rcases (CfList.mem_edges (impl.mem_predecessors.mp h)).2 with (rfl | rfl | rfl | rfl) | hin
  · exact hpos
  · exact hpos
  · exact hpos
  · exact hpos
  · exact hin.1

theorem reachable_zero :
  impl.Reachable 0
  := by
  use [0]
  exact Path.entry

/-- A path to blocks with one entry goes through the entry. -/
theorem dom_of_enteredAt {c r b : ℕ} (hpos : 0 < c)
    (hent : ∀ p q, impl.Edge p q → c < q → q < r → c ≤ p ∧ p < r) (hb : c ≤ b) (hr : b < r) :
  impl.Dom c b
  := by
  intro l hl
  induction hl with
  | entry => omega
  | @step p q l hpath hedge ih =>
      rcases hb.eq_or_lt with rfl | hlt
      · exact List.mem_cons_self
      · obtain ⟨hp, hpr⟩ := hent p q hedge hlt hr
        exact List.mem_cons_of_mem _ (ih hp hpr)

/-- In the order of the blocks every edge goes up, or back to a loop header, which dominates the
loop. -/
theorem ordered (impl : FunctionImpl ι κ) :
  Ordered impl.Edge 0
  := by
  constructor
  · intro b c hedge
    have hb := hedge.lt
    have hout : (Targets.mk impl.body.numBlocks impl.body.numBlocks impl.body.numBlocks
        impl.body.numBlocks).Outside 0 (0 + impl.body.numBlocks) := by
      constructor <;> simp
    rcases CfList.edge_cases hout (impl.mem_predecessors.mp hedge) with hlt | hmem | hback
    · left
      exact hlt
    · left
      rcases hmem with rfl | rfl | rfl | rfl <;> exact hb
    · right
      obtain ⟨r, hpos, hle, hr, -, hent⟩ := hback
      apply dom_of_enteredAt hpos _ hle hr
      intro p q hpq
      exact hent (p, q) (impl.mem_predecessors.mp hpq)
  · intro b hedge
    exact absurd hedge.pos (Nat.lt_irrefl 0)

end FunctionImpl

end Nir
