import Mesa.Nir.LoopBlocks

/-!
# Loop closed SSA form

The functions of `nir_to_lcssa.c`.  The instructions of a function are known by the index of their
block and their place in it, so that a source that is rewritten anywhere in the function is rewritten
in place, and an SSA def is known by its index.
-/

namespace Nir

open Flow

namespace CfList

variable {ι κ : Type}

/-- The blocks that an `if` follows. -/
def ifs : CfList ι κ → ℕ → List ℕ
  | .block _, _ => []
  | .nif _ _ t e rest, i =>
      let thenBlock := i + 1
      let elseBlock := thenBlock + t.numBlocks
      let next := elseBlock + e.numBlocks
      i :: (t.ifs thenBlock ++ e.ifs elseBlock ++ rest.ifs next)
  | .loop _ body rest, i =>
      let header := i + 1
      let next := header + body.numBlocks
      body.ifs header ++ rest.ifs next

theorem ifs_bounds {l : CfList ι κ} {i b : ℕ} (h : b ∈ l.ifs i) :
  i ≤ b ∧ b < i + l.numBlocks
  := by
  induction l generalizing i with
  | block _ => exact absurd h List.not_mem_nil
  | nif _ c t e rest iht ihe ih =>
      have hrest := rest.numBlocks_pos
      simp only [ifs, List.mem_cons, List.mem_append] at h
      simp only [numBlocks]
      rcases h with rfl | (h | h) | h
      · omega
      · have := iht h
        omega
      · have := ihe h
        omega
      · have := ih h
        omega
  | loop _ body rest ihbody ih =>
      simp only [ifs, List.mem_append] at h
      simp only [numBlocks]
      rcases h with h | h
      · have := ihbody h
        omega
      · have := ih h
        omega

end CfList

namespace Lcssa

variable {ι : Type}

/-! ### Functions -/

/-- An instruction: a phi, with the block and the def of each of its sources, or one of the others,
with the defs it makes and those it uses. -/
inductive Instr (ι : Type) where
  | phi (dest : ℕ) (srcs : List (ℕ × ℕ))
  | op (operation : ι) (dests srcs : List ℕ)
  deriving DecidableEq

namespace Instr

def isPhi : Instr ι → Bool
  | phi _ _ => true
  | op _ _ _ => false

def dests : Instr ι → List ℕ
  | phi dest _ => [dest]
  | op _ dests _ => dests

def srcs : Instr ι → List ℕ
  | phi _ srcs => srcs.map Prod.snd
  | op _ _ srcs => srcs

/-- `nir_instr_rewrite_src` for all sources that use a def. -/
def rewriteSrcs (d new : ℕ) : Instr ι → Instr ι
  | phi dest srcs => phi dest (srcs.map fun src => (src.1, if src.2 = d then new else src.2))
  | op operation dests srcs => op operation dests (srcs.map fun x => if x = d then new else x)

@[simp] theorem isPhi_rewriteSrcs (d new : ℕ) (i : Instr ι) :
  (i.rewriteSrcs d new).isPhi = i.isPhi
  := by
  cases i <;> rfl

@[simp] theorem dests_rewriteSrcs (d new : ℕ) (i : Instr ι) :
  (i.rewriteSrcs d new).dests = i.dests
  := by
  cases i <;> rfl

theorem mem_srcs_rewriteSrcs {d new x : ℕ} {i : Instr ι} :
  x ∈ (i.rewriteSrcs d new).srcs ↔ x = new ∧ d ∈ i.srcs ∨ x ≠ d ∧ x ∈ i.srcs
  := by
  have hmap : ∀ l : List ℕ, (x ∈ l.map fun y => if y = d then new else y) ↔
      x = new ∧ d ∈ l ∨ x ≠ d ∧ x ∈ l := by
    intro l
    rw [List.mem_map]
    constructor
    · rintro ⟨y, hy, rfl⟩
      split_ifs with h
      · left
        subst h
        exact ⟨rfl, hy⟩
      · right
        exact ⟨h, hy⟩
    · rintro (⟨rfl, hd⟩ | ⟨hne, hx⟩)
      · exact ⟨d, hd, if_pos rfl⟩
      · exact ⟨x, hx, if_neg hne⟩
  cases i with
  | phi dest l =>
      have h := hmap (l.map Prod.snd)
      rw [List.map_map] at h
      simp only [rewriteSrcs, srcs, List.map_map]
      exact h
  | op o ds l => exact hmap l

end Instr

/-- A function: its control flow, in which the blocks have indices, the instructions of each block,
the condition of the `if` after a block, and `ssa_alloc`, the index of the next def. -/
structure Function (ι : Type) where
  impl : FunctionImpl Unit Unit
  instrs : ℕ → List (Instr ι)
  cond : ℕ → Option ℕ
  ssaAlloc : ℕ
  isSome_cond : ∀ b, (cond b).isSome ↔ b ∈ impl.body.ifs 0

abbrev Loop := CfLoop Unit Unit

/-! ### The pass -/

/-- A use of a def by an instruction that is not in the loop, nor a phi right after it. -/
def isOutsideUse (L : Loop) (b d : ℕ) (i : Instr ι) : Bool :=
  d ∈ i.srcs ∧ ¬(i.isPhi ∧ b = L.after) ∧ ¬L.Contains b

/-- The negation of `all_uses_inside_loop`. -/
def usedOutside (L : Loop) (f : Function ι) (d : ℕ) : Bool :=
  (List.range f.impl.numBlocks).any fun b =>
    (f.instrs b).any (isOutsideUse L b d) || decide (f.cond b = some d ∧ ¬L.Contains b)

/-- An instruction of the block `b`, with its sources rewritten when it is outside of the loop and
not a phi right after it. -/
def rewriteOutside (L : Loop) (d new b : ℕ) (i : Instr ι) : Instr ι :=
  if i.isPhi ∧ b = L.after ∨ L.Contains b then i else i.rewriteSrcs d new

/-- `convert_loop_exit_for_ssa` -/
def convertLoopExitForSsa (L : Loop) (f : Function ι) (d : ℕ) : Function ι :=
  if usedOutside L f d then
    let phi := .phi f.ssaAlloc ((f.impl.predecessors L.after).map (·, d))
    { f with
      instrs := fun b =>
        (if b = L.after then [phi] else []) ++ (f.instrs b).map (rewriteOutside L d f.ssaAlloc b)
      cond := fun b => if f.cond b = some d ∧ ¬L.Contains b then some f.ssaAlloc else f.cond b
      ssaAlloc := f.ssaAlloc + 1
      isSome_cond := by
        intro b
        rw [← f.isSome_cond b]
        split_ifs with h
        · simp [h.1]
        · rfl }
  else f

/-- The defs of a block, which are converted one after the other.  No def is added to the block
meanwhile, as it is in the loop. -/
def convertBlock (L : Loop) (f : Function ι) (b : ℕ) : Function ι :=
  ((f.instrs b).flatMap Instr.dests).foldl (convertLoopExitForSsa L) f

/-- `convert_to_lcssa` for the nodes of a list, of which the first block has the index `i`. -/
def convertToLcssa : CfList Unit Unit → ℕ → Loop → Function ι → Function ι
  | .block _, i, L, f => convertBlock L f i
  | .nif _ _ t e rest, i, L, f =>
      let thenBlock := i + 1
      let elseBlock := thenBlock + t.numBlocks
      let next := elseBlock + e.numBlocks
      let f := convertBlock L f i
      let f := convertToLcssa t thenBlock L f
      let f := convertToLcssa e elseBlock L f
      convertToLcssa rest next L f
  | .loop _ body rest, i, L, f =>
      let header := i + 1
      let next := header + body.numBlocks
      let f := convertBlock L f i
      let f := convertToLcssa body header ⟨i, body⟩ f
      convertToLcssa rest next L f

/-- `nir_convert_loop_to_lcssa` -/
def nirConvertLoopToLcssa (L : Loop) (f : Function ι) : Function ι :=
  convertToLcssa L.body (L.before + 1) L f

/-- The blocks are converted in their order. -/
theorem convertToLcssa_eq (l : CfList Unit Unit) (i : ℕ) (L : Loop) (f : Function ι) :
  convertToLcssa l i L f = (l.visits i L).foldl (fun f v => convertBlock v.2 f v.1) f
  := by
  induction l generalizing i L f with
  | block b => rfl
  | nif b c t e rest iht ihe ih =>
      simp only [convertToLcssa, CfList.visits, List.foldl_cons, List.foldl_append, iht, ihe, ih]
  | loop b body rest ihbody ih =>
      simp only [convertToLcssa, CfList.visits, List.foldl_cons, List.foldl_append, ihbody, ih]

/-! ### What a function computes -/

/-- What operations do: their results and the memory afterwards, and the conditions that hold.  A
def that has not been made has no value. -/
structure Meaning (ι V M : Type) where
  exec : ι → List (Option V) → M → List V × M
  truth : Option V → Bool

structure State (V M : Type) where
  env : ℕ → Option V
  mem : M

section Runs

variable {V M : Type} (J : Meaning ι V M)

/-- The values of some defs are set. -/
def assign (env : ℕ → Option V) : List ℕ → List V → ℕ → Option V
  | d :: ds, v :: vs => assign (Function.update env d (some v)) ds vs
  | _, _ => env

/-- One instruction of a block that was entered from `prev` with the values `start`. -/
def execInstr (start : ℕ → Option V) (prev : Option ℕ) (s : State V M) :
    Instr ι → State V M
  | .phi dest srcs =>
      let src := srcs.find? fun src => some src.1 = prev
      { s with env := Function.update s.env dest (src.bind fun src => start src.2) }
  | .op operation dests srcs =>
      let r := J.exec operation (srcs.map s.env) s.mem
      { env := assign s.env dests r.1, mem := r.2 }

namespace Function

variable (f : Function ι)

def execBlock (prev : Option ℕ) (s : State V M) (b : ℕ) : State V M :=
  (f.instrs b).foldl (execInstr J s.env prev) s

/-- Where an `if` follows that the block goes on to, its condition chooses the next block. -/
def Chooses (s : State V M) (b c : ℕ) : Prop :=
  ∀ x, f.cond b = some x → f.impl.Edge b (b + 1) → (c = b + 1 ↔ J.truth (s.env x) = true)

/-- The blocks that have been executed, the last one first, and the state after them. -/
inductive Runs (mem : M) : ℕ → List ℕ → State V M → Prop
  | start : Runs mem 0 [] (f.execBlock J none ⟨fun _ => none, mem⟩ 0)
  | step {b c : ℕ} {l : List ℕ} {s : State V M} (run : Runs mem b l s) (edge : f.impl.Edge b c)
    (chooses : f.Chooses J s b c) : Runs mem c (b :: l) (f.execBlock J (some b) s c)

end Function

end Runs

/-- The same memory, and the same values of the defs below `n`. -/
structure Agree {V M : Type} (n : ℕ) (s s' : State V M) : Prop where
  mem : s.mem = s'.mem
  env : ∀ x < n, s.env x = s'.env x

/-- Two functions execute the same blocks, with the same memory and the same values of the defs of
the first one. -/
def SameRuns (f f' : Function ι) : Prop :=
  ∀ (V M : Type) (J : Meaning ι V M) (mem : M) (b : ℕ) (l : List ℕ),
    (∀ s, f.Runs J mem b l s → ∃ s', f'.Runs J mem b l s' ∧ Agree f.ssaAlloc s s') ∧
    ∀ s', f'.Runs J mem b l s' → ∃ s, f.Runs J mem b l s ∧ Agree f.ssaAlloc s s'

/-! ### SSA form -/

namespace Function

variable (f : Function ι)

/-- The instruction at a place of the function. -/
def At (p : ℕ × ℕ) (i : Instr ι) : Prop := (f.instrs p.1)[p.2]? = some i

/-- The place after the last instruction of a block. -/
def last (b : ℕ) : ℕ × ℕ := (b, (f.instrs b).length)

def Before (p q : ℕ × ℕ) : Prop := Flow.Before f.impl.Edge 0 p q

/-- The defs have different indices below `ssa_alloc`, everything that is used is defined, and every
phi is at the beginning of its block and has one source for each predecessor. -/
structure WellFormed : Prop where
  block_lt : ∀ {p i}, f.At p i → p.1 < f.impl.numBlocks
  dest_lt : ∀ {p i x}, f.At p i → x ∈ i.dests → x < f.ssaAlloc
  dests_nodup : ∀ {p i}, f.At p i → i.dests.Nodup
  unique : ∀ {p q i j x}, f.At p i → f.At q j → x ∈ i.dests → x ∈ j.dests → p = q
  src_defined : ∀ {p i x}, f.At p i → x ∈ i.srcs → ∃ q j, f.At q j ∧ x ∈ j.dests
  cond_defined : ∀ {b x}, f.cond b = some x → ∃ q j, f.At q j ∧ x ∈ j.dests
  phi_preds : ∀ {p dest srcs}, f.At p (.phi dest srcs) →
    (srcs.map Prod.fst).Perm (f.impl.predecessors p.1)
  phis_first : ∀ {b k i}, f.At (b, k) i → i.isPhi → ∀ k' < k, ∃ j, f.At (b, k') j ∧ j.isPhi

/-- A valid SSA function: every use comes after the def, where the source of a phi is used at the
end of its block. -/
structure Valid : Prop extends f.WellFormed where
  src_before : ∀ {p operation dests srcs x q j}, f.At p (.op operation dests srcs) → x ∈ srcs →
    f.At q j → x ∈ j.dests → f.Before q p
  phi_before : ∀ {p dest srcs src q j}, f.At p (.phi dest srcs) → src ∈ srcs →
    f.At q j → src.2 ∈ j.dests → f.Before q (f.last src.1)
  cond_before : ∀ {b x q j}, f.cond b = some x → f.At q j → x ∈ j.dests → f.Before q (f.last b)

/-- A def is used in a block by a phi, or by another instruction or the condition of the `if` after
the block. -/
def UsedAt (x b : ℕ) (isPhi : Bool) : Prop :=
  (∃ k i, f.At (b, k) i ∧ x ∈ i.srcs ∧ i.isPhi = isPhi) ∨ f.cond b = some x ∧ isPhi = false

/-- A def is used outside of a loop, other than by a phi in the block right after it. -/
def UsedOutside (N : Loop) (x : ℕ) : Prop :=
  ∃ b isPhi, f.UsedAt x b isPhi ∧ ¬(isPhi = true ∧ b = N.after) ∧ ¬N.Contains b

/-- Every use outside of these loops of a def inside is the source of a phi right after the loop. -/
def Closed (loops : List Loop) : Prop :=
  ∀ N ∈ loops, ∀ q j x, f.At q j → x ∈ j.dests → N.Contains q.1 → ¬f.UsedOutside N x

/-- Every def in one of these loops that is used outside of it is made on every way to a block that
leaves the loop. -/
def AvailableAtExits (loops : List Loop) : Prop :=
  ∀ N ∈ loops, ∀ q j x, f.At q j → x ∈ j.dests → N.Contains q.1 → f.UsedOutside N x →
    ∀ b ∈ f.impl.predecessors N.after, f.impl.Dom q.1 b

end Function

end Lcssa

end Nir
