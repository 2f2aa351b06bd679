import Mesa.Nir.RewriteUses

/-!
# Common subexpression elimination

The pass `nir_opt_cse`: the blocks of a function are visited along the dominance tree with a set of
the instructions seen, and an instruction that is equal to one of them is replaced by it.
-/

namespace Nir.InstrSet

open Flow (Path Dom Before)

/-! ### The pass -/

/-- An entry of the set: the hash that was stored with it, and its instruction, which is known by
its block and the value it defines. -/
structure Entry where
  hash : BitVec 32
  block : ℕ
  dest : ℕ
deriving DecidableEq

/-- The order in which the entries of a set are probed. -/
structure Probing where
  order : List Entry → List Entry
  mem_order : ∀ {set e}, e ∈ order set ↔ e ∈ set

section Pass

variable (T : Infos) (P : Probing)

/-- The instruction of an entry, as it is now. -/
def Function.key (F : Function) (e : Entry) : Option Instr :=
  (F.instrs e.block).find? (fun i => i.def? T == some e.dest)

/-- `_mesa_set_search`. -/
def search (F : Function) (set : List Entry) (instr : Instr) : Option Entry :=
  (P.order set).find? (fun e =>
    e.hash == hashInstr T instr && (F.key T e).any (fun key => instrsEqual T instr key))

/-- The state of the pass. -/
structure CseState where
  progress : Bool
  set : List Entry
  func : Function

/-- `nir_instr_set_add_or_rewrite` for an instruction of a block, and `nir_instr_remove` where it
says so. -/
def addOrRewrite (block : ℕ) (instr : Instr) (st : CseState) : Bool × CseState :=
  if instrCanRewrite T instr then
    match instr.def? T with
    | some old =>
        match search T P st.func st.set instr with
        | some e => (true, ⟨true, st.set, st.func.rewrite T old e.dest instr.isExact⟩)
        | none => (false, { st with set := ⟨hashInstr T instr, block, old⟩ :: st.set })
    | none => (false, st)
  else (false, st)

/-- `nir_instr_set_remove`. -/
def setRemove (F : Function) (set : List Entry) (instr : Instr) : List Entry :=
  if instrCanRewrite T instr then
    match search T P F set instr with
    | some e => set.filter (fun e' => e' != e)
    | none => set
  else set

/-- The first loop of `cse_block`: the next `n` instructions, from the one with index `k` on. -/
def cseInstrs (block : ℕ) : (n k : ℕ) → CseState → CseState
  | 0, _, st => st
  | n + 1, k, st =>
      match (st.func.instrs block)[k]? with
      | some instr =>
          let (removed, st) := addOrRewrite T P block instr st
          cseInstrs block n (if removed then k else k + 1) st
      | none => st

/-- A block, and the trees of `dom_children`. -/
inductive DomTree where
  | node (block : ℕ) (domChildren : List DomTree)

mutual

/-- `cse_block`. -/
def cseBlock : DomTree → CseState → CseState
  | .node block domChildren, st =>
      let st := cseInstrs T P block (st.func.instrs block).length 0 st
      let st := cseChildren domChildren st
      { st with set := (st.func.instrs block).foldl (setRemove T P st.func) st.set }

/-- The second loop of `cse_block`. -/
def cseChildren : List DomTree → CseState → CseState
  | [], st => st
  | child :: rest, st => cseChildren rest (cseBlock child st)

end

/-- `nir_opt_cse_impl`, for the dominance tree of the function. -/
def nirOptCseImpl (tree : DomTree) (F : Function) : Bool × Function :=
  let st := cseBlock T P tree ⟨false, [], F⟩
  (st.progress, st.func)

end Pass

/-! ### Dominance trees -/

mutual

/-- The blocks of a tree. -/
def DomTree.blocks : DomTree → List ℕ
  | .node block domChildren => block :: DomTree.blocksOf domChildren

/-- The blocks of several trees. -/
def DomTree.blocksOf : List DomTree → List ℕ
  | [] => []
  | child :: rest => child.blocks ++ DomTree.blocksOf rest

end

/-- The block of the root. -/
def DomTree.root : DomTree → ℕ
  | .node block _ => block

/-- Blocks that can be reached, and dominate their children. -/
inductive DomTree.Dominates (edge : ℕ → ℕ → Prop) (entry : ℕ) : DomTree → Prop where
  | node {block : ℕ} {domChildren : List DomTree} :
      (∃ l, Path edge entry block l) →
      (∀ child ∈ domChildren, Dom edge entry block child.root) →
      (∀ child ∈ domChildren, child.Dominates edge entry) →
      Dominates edge entry (.node block domChildren)

theorem DomTree.root_mem_blocks (t : DomTree) :
  t.root ∈ t.blocks
  := by
  cases t
  rw [blocks]
  exact List.mem_cons_self

/-! ### The entries of the set -/

section Entries

variable {T : Infos} {F : Function} {P : Probing} {set : List Entry} {e : Entry} {q r : ℕ × ℕ}
  {i j : Instr} {l : List ℕ} {old new : ℕ}

/-- The entry is for the instruction at the position. -/
def Keyed (T : Infos) (F : Function) (e : Entry) (q : ℕ × ℕ) (i : Instr) : Prop :=
  F.At q i ∧ q.1 = e.block ∧ i.def? T = some e.dest

/-- The entries are for instructions that can be rewritten; but for phis, the hashes are up to date,
and no two entries are equal. -/
structure Good (T : Infos) (F : Function) (set : List Entry) : Prop where
  keyed : ∀ e ∈ set, ∃ q i, Keyed T F e q i ∧ instrCanRewrite T i = true
  hash : ∀ e ∈ set, ∀ q i, Keyed T F e q i → i.isPhi = false → e.hash = hashInstr T i
  distinct : ∀ e ∈ set, ∀ e' ∈ set, ∀ q i q' i', Keyed T F e q i → Keyed T F e' q' i' →
    i.isPhi = false → instrKey T i = instrKey T i' → e = e'

/-- Before the position come the instructions of all entries, but for phis of other blocks. -/
def Avail (T : Infos) (F : Function) (p : ℕ × ℕ) (set : List Entry) : Prop :=
  ∀ e ∈ set, ∀ q i, Keyed T F e q i → i.isPhi = false ∨ e.block = p.1 → F.Defined T e.dest p

theorem Keyed.unique {q' : ℕ × ℕ} {i' : Instr} (hF : F.Ssa T) (h : Keyed T F e q i)
  (h' : Keyed T F e q' i') :
  q = q' ∧ i = i'
  := by
  have hpos := hF.unique h.1 h'.1 h.2.2 h'.2.2
  subst hpos
  exact ⟨rfl, Option.some.inj (h.1.symm.trans h'.1)⟩

theorem key_eq_some_iff (hF : F.Ssa T) :
  F.key T e = some i ↔ ∃ q, Keyed T F e q i
  := by
  constructor
  · intro h
    obtain ⟨m, hm⟩ := List.mem_iff_getElem?.mp (List.mem_of_find?_eq_some h)
    exact ⟨(e.block, m), hm, rfl, by simpa using List.find?_some h⟩
  · rintro ⟨q, hq⟩
    have hat : (F.instrs q.1)[q.2]? = some i := hq.1
    cases hfind : F.key T e with
    | none =>
        have hno := List.find?_eq_none.mp hfind i
          (List.mem_iff_getElem?.mpr ⟨q.2, hq.2.1 ▸ hat⟩)
        exact absurd (beq_iff_eq.mpr hq.2.2) hno
    | some i' =>
        obtain ⟨m, hm⟩ := List.mem_iff_getElem?.mp (List.mem_of_find?_eq_some hfind)
        have hk : Keyed T F e (e.block, m) i' := ⟨hm, rfl, by simpa using List.find?_some hfind⟩
        rw [(hk.unique hF hq).2]

/-- What is found is an equal entry. -/
theorem search_eq_some (hF : F.Ssa T) (h : search T P F set j = some e) :
  e ∈ set ∧ ∃ q i, Keyed T F e q i ∧ instrsEqual T j i = true
  := by
  refine ⟨P.mem_order.mp (List.mem_of_find?_eq_some h), ?_⟩
  have hfound := List.find?_some h
  simp only [Bool.and_eq_true, Option.any_eq_true] at hfound
  obtain ⟨-, i, hkey, heq⟩ := hfound
  obtain ⟨q, hq⟩ := (key_eq_some_iff hF).mp hkey
  exact ⟨q, i, hq, heq⟩

/-- Where nothing is found, there is no equal entry with the same hash. -/
theorem search_eq_none (hF : F.Ssa T) (h : search T P F set j = none) (he : e ∈ set)
  (hk : Keyed T F e q i) (hhash : e.hash = hashInstr T j) :
  instrsEqual T j i = false
  := by
  have hno := List.find?_eq_none.mp h e (P.mem_order.mpr he)
  rw [(key_eq_some_iff hF).mpr ⟨q, hk⟩] at hno
  simpa [hhash] using hno

theorem Good.mono {set' : List Entry} (h : Good T F set) (hsub : ∀ e ∈ set', e ∈ set) :
  Good T F set'
  := by
  refine ⟨?_, ?_, ?_⟩
  · intro e he
    exact h.keyed e (hsub e he)
  · intro e he
    exact h.hash e (hsub e he)
  · intro e he e' he'
    exact h.distinct e (hsub e he) e' (hsub e' he')

theorem Good.canRewrite (h : Good T F set) (hF : F.Ssa T) (he : e ∈ set) (hk : Keyed T F e q i) :
  instrCanRewrite T i = true
  := by
  obtain ⟨q', i', hk', hr⟩ := h.keyed e he
  rw [(hk.unique hF hk').2]
  exact hr

theorem Defined.succ {d b m : ℕ} (h : F.Defined T d (b, m)) :
  F.Defined T d (b, m + 1)
  := by
  obtain ⟨q, i, hq, hdef, hbefore⟩ := h
  exact ⟨q, i, hq, hdef, Flow.before_succ_iff.mpr (.inl hbefore)⟩

theorem Avail.succ {b m : ℕ} (h : Avail T F (b, m) set) :
  Avail T F (b, m + 1) set
  := by
  intro e he q i hk hphi
  exact Defined.succ (h e he q i hk hphi)

/-- An instruction that is not found is added. -/
theorem Good.add {b m : ℕ} (hF : F.Ssa T) (h : Good T F set) (hj : F.At (b, m) j)
  (hold : j.def? T = some old) (hrj : instrCanRewrite T j = true)
  (hnone : search T P F set j = none) :
  Good T F (⟨hashInstr T j, b, old⟩ :: set)
  := by
  have hkj : Keyed T F ⟨hashInstr T j, b, old⟩ (b, m) j := ⟨hj, rfl, hold⟩
  -- no entry has the key of the instruction
  have hno : ∀ e ∈ set, ∀ q i, Keyed T F e q i → j.isPhi = false → instrKey T j ≠ instrKey T i := by
    intro e he q i hk hphi hkey
    have hne := instrKey_ne_none hrj hphi
    have heq : instrsEqual T j i = true := (instrsEqual_iff_key hphi).mpr ⟨hne, hkey⟩
    obtain ⟨preds, -, hvalid⟩ := hF.valid
    have hhash : e.hash = hashInstr T j := by
      rw [h.hash e he q i hk (isPhi_of_instrKey (hkey ▸ hne)),
        hashInstr_congr heq (hvalid hj) (hvalid hk.1)]
    rw [search_eq_none hF hnone he hk hhash] at heq
    cases heq
  refine ⟨?_, ?_, ?_⟩
  · intro e he
    rcases List.mem_cons.mp he with rfl | he
    · exact ⟨_, j, hkj, hrj⟩
    · exact h.keyed e he
  · intro e he q i hk hphi
    rcases List.mem_cons.mp he with rfl | he
    · rw [(hk.unique hF hkj).2]
    · exact h.hash e he q i hk hphi
  · intro e he e' he' q i q' i' hk hk' hphi hkey
    rcases List.mem_cons.mp he with rfl | he <;> rcases List.mem_cons.mp he' with rfl | he'
    · rfl
    · rw [(hk.unique hF hkj).2] at hphi hkey
      exact absurd hkey (hno e' he' q' i' hk' hphi)
    · have hphi' : i'.isPhi = false :=
        isPhi_of_instrKey (hkey ▸ instrKey_ne_none (h.canRewrite hF he hk) hphi)
      rw [(hk'.unique hF hkj).2] at hphi' hkey
      exact absurd hkey.symm (hno e he q i hk hphi')
    · exact h.distinct e he e' he' q i q' i' hk hk' hphi hkey

theorem Avail.add {b m : ℕ} {hash : BitVec 32} (h : Avail T F (b, m) set) (hj : F.At (b, m) j)
  (hold : j.def? T = some old) :
  Avail T F (b, m + 1) (⟨hash, b, old⟩ :: set)
  := by
  intro e he q i hk hphi
  rcases List.mem_cons.mp he with rfl | he
  · exact ⟨(b, m), j, hj, hold, Flow.before_succ_iff.mpr (.inr rfl)⟩
  · exact h.succ e he q i hk hphi

section Replaced

variable {exact : Bool} (hF : F.Ssa T) (hj : F.At r j) (hold : j.def? T = some old)
  (havail : Avail T F r set)
include hF hj hold

theorem keyed_rewrite_iff {i' : Instr} :
  Keyed T (F.rewrite T old new exact) e q i' ↔
    ∃ i, Keyed T F e (Function.up r q) i ∧ rewriteInstr T old new exact i = i'
  := by
  rw [Keyed, Function.at_rewrite_iff hF hj hold]
  constructor
  · rintro ⟨⟨i, hi, rfl⟩, hblock, hdef⟩
    rw [Match.def?_rewriteInstr] at hdef
    exact ⟨i, ⟨hi, (Function.up_fst r q).trans hblock, hdef⟩, rfl⟩
  · rintro ⟨i, ⟨hi, hblock, hdef⟩, rfl⟩
    refine ⟨⟨i, hi, rfl⟩, (Function.up_fst r q).symm.trans hblock, ?_⟩
    rw [Match.def?_rewriteInstr]
    exact hdef

include havail

/-- No entry is for the instruction that is removed. -/
theorem Avail.dest_ne (he : e ∈ set) (hk : Keyed T F e q i) :
  e.dest ≠ old
  := by
  intro hdest
  have hpos : q = r := hF.unique hk.1 hj hk.2.2 (hdest ▸ hold)
  have hdefined := havail e he q i hk (.inr (hk.2.1.symm.trans (congrArg Prod.fst hpos)))
  exact hdefined.ne_of_at hF hj (hdest ▸ hold)

/-- The rest of the set stays as it is. -/
theorem Avail.rewrite :
  Avail T (F.rewrite T old new exact) r set
  := by
  intro e he q i' hk' hphi
  obtain ⟨i, hk, rfl⟩ := (keyed_rewrite_iff hF hj hold).mp hk'
  rw [isPhi_rewriteInstr] at hphi
  have hdefined : F.Defined T e.dest (r.1, r.2 + 1) :=
    Defined.succ (havail e he _ i hk hphi)
  have hup : Function.up r r = (r.1, r.2 + 1) := by
    rw [Function.up, if_pos ⟨rfl, le_refl _⟩]
  rw [← hup] at hdefined
  exact hdefined.rewrite_of_ne hF hj hold (havail.dest_ne hF hj hold he hk)

theorem Good.rewrite (hl : Path F.Edge F.entry r.1 l) (h : Good T F set) :
  Good T (F.rewrite T old new exact) set
  := by
  -- an entry that is no phi comes before the instruction, and does not read its value
  have hkey : ∀ e ∈ set, ∀ q i, Keyed T F e q i → i.isPhi = false →
      instrKey T (rewriteInstr T old new exact i) = instrKey T i := by
    intro e he q i hk hphi
    rw [instrKey_rewriteInstr]
    apply instrKey_rename
    intro d hd
    obtain ⟨q', k, hq', hdef, hbefore⟩ := havail e he q i hk (.inl hphi)
    rw [hF.unique hq' hk.1 hdef hk.2.2] at hbefore
    rw [subst, if_neg]
    rintro rfl
    exact hF.src_ne hl hj hk.1 hd (.inl hbefore) hold
  refine ⟨?_, ?_, ?_⟩
  · intro e he
    obtain ⟨q, i, hk, hr⟩ := h.keyed e he
    have hqr : q ≠ r := by
      rintro rfl
      have heq : i = j := Option.some.inj (hk.1.symm.trans hj)
      have hdef := hk.2.2
      rw [heq, hold] at hdef
      exact havail.dest_ne hF hj hold he hk (Option.some.inj hdef).symm
    obtain ⟨q', rfl⟩ := Function.exists_up hqr
    exact ⟨q', _, (keyed_rewrite_iff hF hj hold).mpr ⟨i, hk, rfl⟩,
      (canRewrite_rewriteInstr i).trans hr⟩
  · intro e he q i' hk' hphi
    obtain ⟨i, hk, rfl⟩ := (keyed_rewrite_iff hF hj hold).mp hk'
    rw [isPhi_rewriteInstr] at hphi
    obtain ⟨preds, -, hvalid⟩ := hF.valid
    have heq : instrsEqual T i (rewriteInstr T old new exact i) = true :=
      (instrsEqual_iff_key hphi).mpr
        ⟨instrKey_ne_none (h.canRewrite hF he hk) hphi, (hkey e he _ i hk hphi).symm⟩
    rw [h.hash e he _ i hk hphi,
      hashInstr_congr heq (hvalid hk.1) (valid_rewriteInstr (hvalid hk.1))]
  · intro e he e' he' q x' q' y' hkx hky hphi hkeys
    obtain ⟨x, hx, rfl⟩ := (keyed_rewrite_iff hF hj hold).mp hkx
    obtain ⟨y, hy, rfl⟩ := (keyed_rewrite_iff hF hj hold).mp hky
    rw [isPhi_rewriteInstr] at hphi
    rw [hkey e he _ x hx hphi] at hkeys
    have hne := instrKey_ne_none (h.canRewrite hF he hx) hphi
    have hphi'' : (rewriteInstr T old new exact y).isPhi = false :=
      isPhi_of_instrKey (hkeys ▸ hne)
    have hphi' : y.isPhi = false := (isPhi_rewriteInstr y).symm.trans hphi''
    rw [hkey e' he' _ y hy hphi'] at hkeys
    exact h.distinct e he e' he' _ x _ y hx hy hphi hkeys

end Replaced

/-! ### Removing the entries of a block -/

theorem mem_of_mem_setRemove (he : e ∈ setRemove T P F set i) :
  e ∈ set
  := by
  rw [setRemove] at he
  split_ifs at he
  · split at he
    · exact List.mem_of_mem_filter he
    · exact he
  · exact he

theorem mem_of_mem_foldl_setRemove :
  ∀ {instrs : List Instr} {set : List Entry}, e ∈ instrs.foldl (setRemove T P F) set → e ∈ set
  | [], _, he => he
  | _ :: _, _, he => mem_of_mem_setRemove (mem_of_mem_foldl_setRemove he)

/-- The entry of an instruction other than a phi is found and removed. -/
theorem not_mem_setRemove (hF : F.Ssa T) (h : Good T F set) (hk : Keyed T F e q i)
  (hphi : i.isPhi = false) :
  e ∉ setRemove T P F set i
  := by
  intro he
  have hmem := mem_of_mem_setRemove he
  have hr := h.canRewrite hF hmem hk
  have hne := instrKey_ne_none hr hphi
  rw [setRemove, if_pos hr] at he
  cases hsearch : search T P F set i with
  | none =>
      have hfalse := search_eq_none hF hsearch hmem hk (h.hash e hmem q i hk hphi)
      rw [(instrsEqual_iff_key hphi).mpr ⟨hne, rfl⟩] at hfalse
      cases hfalse
  | some e' =>
      obtain ⟨hmem', q', i', hk', heq⟩ := search_eq_some hF hsearch
      have hsame := h.distinct e hmem e' hmem' q i q' i' hk hk' hphi
        ((instrsEqual_iff_key hphi).mp heq).2
      simp [hsearch, hsame] at he

theorem not_mem_foldl_setRemove (hF : F.Ssa T) (hk : Keyed T F e q i) (hphi : i.isPhi = false) :
  ∀ {instrs : List Instr} {set : List Entry}, Good T F set → i ∈ instrs →
    e ∉ instrs.foldl (setRemove T P F) set
  | k :: instrs, set, h, hi => by
      rw [List.foldl_cons]
      intro he
      rcases List.mem_cons.mp hi with rfl | hi
      · exact not_mem_setRemove hF h hk hphi (mem_of_mem_foldl_setRemove he)
      · exact not_mem_foldl_setRemove hF hk hphi (h.mono (fun _ => mem_of_mem_setRemove)) hi he

end Entries

/-! ### The pass preserves the meaning -/

section Preserves

variable {T : Infos} (P : Probing) {Mem : Type*} (M : Meaning T Mem)

/-- What a part of the pass does: the function is optimized, all entries that come in are for
instructions of some blocks, and progress is reported where there is any. -/
structure Visited (blocks : ℕ → Prop) (st st' : CseState) : Prop where
  optimizes : Optimizes M st.func st'.func
  good : Good T st'.func st'.set
  mem : ∀ e ∈ st'.set, e ∈ st.set ∨ blocks e.block
  progress : st'.progress = false → st.progress = false ∧ st'.func = st.func

variable {M} {st st' st'' : CseState}

theorem Visited.refl {blocks : ℕ → Prop} (hF : st.func.Ssa T) (hu : st.func.Uniform T)
  (hg : Good T st.func st.set) :
  Visited M blocks st st
  := by
  refine ⟨Optimizes.refl hF hu, hg, fun e he => .inl he, fun h => ⟨h, rfl⟩⟩

theorem Visited.trans {blocks blocks' blocks'' : ℕ → Prop} (h : Visited M blocks st st')
  (h' : Visited M blocks' st' st'') (hsub : ∀ b, blocks b → blocks'' b)
  (hsub' : ∀ b, blocks' b → blocks'' b) :
  Visited M blocks'' st st''
  := by
  refine ⟨h.optimizes.trans h'.optimizes, h'.good, ?_, ?_⟩
  · intro e he
    rcases h'.mem e he with he | he
    · exact (h.mem e he).imp_right (hsub _)
    · exact .inr (hsub' _ he)
  · intro hp
    obtain ⟨hp', hfunc'⟩ := h'.progress hp
    obtain ⟨hp'', hfunc⟩ := h.progress hp'
    exact ⟨hp'', hfunc'.trans hfunc⟩

/-- An entry was for the same kind of instruction. -/
theorem Optimizes.keyed {F F' : Function} (h : Optimizes M F F') {e : Entry} {q : ℕ × ℕ} {i : Instr}
  (hk : Keyed T F' e q i) :
  ∃ q' i', Keyed T F e q' i' ∧ i'.isPhi = i.isPhi
  := by
  obtain ⟨q', i', hat, hblock, hdef, hphi⟩ := h.origin hk.1
  exact ⟨q', i', ⟨hat, hblock.trans hk.2.1, hdef.trans hk.2.2⟩, hphi⟩

/-- What one call of `nir_instr_set_add_or_rewrite` does. -/
theorem addOrRewrite_cases (block : ℕ) (instr : Instr) (st : CseState) :
  addOrRewrite T P block instr st = (false, st) ∨
    ∃ old, instrCanRewrite T instr = true ∧ instr.def? T = some old ∧
      ((∃ e, search T P st.func st.set instr = some e ∧
        addOrRewrite T P block instr st =
          (true, ⟨true, st.set, st.func.rewrite T old e.dest instr.isExact⟩)) ∨
      (search T P st.func st.set instr = none ∧
        addOrRewrite T P block instr st =
          (false, { st with set := ⟨hashInstr T instr, block, old⟩ :: st.set })))
  := by
  rw [addOrRewrite]
  split_ifs with hr
  · cases hdef : instr.def? T with
    | none => exact .inl rfl
    | some old =>
        right
        refine ⟨old, hr, rfl, ?_⟩
        cases hsearch : search T P st.func st.set instr with
        | some e => exact .inl ⟨e, rfl, rfl⟩
        | none => exact .inr ⟨rfl, rfl⟩
  · exact .inl rfl

/-- The first loop of `cse_block`. -/
theorem cseInstrs_spec {block : ℕ} {l : List ℕ} :
  ∀ (n k : ℕ) (st : CseState), Path st.func.Edge st.func.entry block l → st.func.Ssa T →
    st.func.Uniform T → Good T st.func st.set → Avail T st.func (block, k) st.set →
    (st.func.instrs block).length = k + n →
    Visited M (fun b => b = block) st (cseInstrs T P block n k st) ∧
      Avail T (cseInstrs T P block n k st).func
        ((cseInstrs T P block n k st).func.last block) (cseInstrs T P block n k st).set
  | 0, k, st, _, hF, hu, hg, ha, hlen => by
      rw [Function.last, cseInstrs, hlen]
      exact ⟨Visited.refl hF hu hg, ha⟩
  | n + 1, k, st, hl, hF, hu, hg, ha, hlen => by
      obtain ⟨j, hj⟩ := Function.exists_at (F := st.func) (b := block) (m := k) (by omega)
      have hj' : (st.func.instrs block)[k]? = some j := hj
      rw [cseInstrs, hj']
      simp only
      rcases addOrRewrite_cases (T := T) P block j st with
        heq | ⟨old, hrj, hold, ⟨e, hsearch, heq⟩ | ⟨hsearch, heq⟩⟩
      · rw [heq]
        exact cseInstrs_spec n (k + 1) st hl hF hu hg ha.succ (by omega)
      · rw [heq]
        simp only [if_true]
        obtain ⟨he, q, i, hk, hequal⟩ := search_eq_some hF hsearch
        -- a phi that is equal is in the same block
        have hdefined : st.func.Defined T e.dest (block, k) := by
          apply ha e he q i hk
          cases hphi : i.isPhi with
          | false => exact .inl rfl
          | true =>
              right
              obtain ⟨hsame, hblock⟩ := isPhi_eq_of_instrsEqual hequal
              rw [hphi] at hsame
              cases j <;> simp only [Instr.isPhi, Bool.false_eq_true] at hsame
              cases i <;> simp only [Instr.isPhi, Bool.false_eq_true] at hphi
              rw [← hk.2.1, ← hF.phi_block hk.1, ← hblock _ _ rfl rfl, hF.phi_block hj]
        obtain ⟨q', i', hi', hdef', hbefore⟩ := hdefined
        rw [hF.unique hi' hk.1 hdef' hk.2.2] at hbefore
        have hopt : Optimizes M st.func (st.func.rewrite T old e.dest j.isExact) :=
          Optimizes.rewrite hF hu hl hk.1 hj hbefore hk.2.2 hold (hg.canRewrite hF he hk) hrj hequal
        have hone : Visited M (fun b => b = block) st
            ⟨true, st.set, st.func.rewrite T old e.dest j.isExact⟩ := by
          refine ⟨hopt, hg.rewrite hF hj hold ha hl, fun e he => .inl he, ?_⟩
          intro h
          cases h
        have hlen' : ((st.func.rewrite T old e.dest j.isExact).instrs block).length + 1 =
            (st.func.instrs block).length :=
          Function.length_rewrite hF hj hold
        obtain ⟨hrest, havail⟩ := cseInstrs_spec n k
          ⟨true, st.set, st.func.rewrite T old e.dest j.isExact⟩
          (hopt.edge.symm ▸ hl) hopt.ssa hopt.uniform hone.good (ha.rewrite hF hj hold)
          (by simp only at hlen' ⊢; omega)
        exact ⟨hone.trans hrest (fun _ => id) (fun _ => id), havail⟩
      · rw [heq]
        simp only [Bool.false_eq_true, if_false]
        have hone : Visited M (fun b => b = block) st
            { st with set := ⟨hashInstr T j, block, old⟩ :: st.set } := by
          refine ⟨Optimizes.refl hF hu, hg.add hF hj hold hrj hsearch, ?_, fun h => ⟨h, rfl⟩⟩
          intro e he
          rcases List.mem_cons.mp he with rfl | he
          · exact .inr rfl
          · exact .inl he
        obtain ⟨hrest, havail⟩ := cseInstrs_spec n (k + 1)
          { st with set := ⟨hashInstr T j, block, old⟩ :: st.set } hl hF hu hone.good
          (ha.add hj hold) (by simp only; omega)
        exact ⟨hone.trans hrest (fun _ => id) (fun _ => id), havail⟩

/-- After the visit of some blocks, no entry of their instructions is left, but for phis. -/
structure Left (M : Meaning T Mem) (blocks : ℕ → Prop) (st st' : CseState) : Prop extends
    Visited M blocks st st' where
  left : ∀ e ∈ st'.set, ∀ q i, Keyed T st'.func e q i → i.isPhi = false → e ∈ st.set

/-- Before the visit of some blocks, there are no entries of their phis. -/
structure Ready (T : Infos) (edge : ℕ → ℕ → Prop) (entry : ℕ) (blocks : List ℕ) (st : CseState) :
    Prop where
  edge_eq : st.func.Edge = edge
  entry_eq : st.func.entry = entry
  ssa : st.func.Ssa T
  uniform : st.func.Uniform T
  good : Good T st.func st.set
  noPhis : ∀ e ∈ st.set, ∀ q i, Keyed T st.func e q i → i.isPhi = true → e.block ∉ blocks
  nodup : blocks.Nodup

variable {edge : ℕ → ℕ → Prop} {entry block : ℕ} {l : List ℕ}

theorem Left.trans {blocks blocks' blocks'' : ℕ → Prop} (h : Left M blocks st st')
  (h' : Left M blocks' st' st'') (hsub : ∀ b, blocks b → blocks'' b)
  (hsub' : ∀ b, blocks' b → blocks'' b) :
  Left M blocks'' st st''
  := by
  refine ⟨h.toVisited.trans h'.toVisited hsub hsub', ?_⟩
  intro e he q i hk hphi
  obtain ⟨q', i', hk', hphi'⟩ := h'.optimizes.keyed hk
  exact h.left e (h'.left e he q i hk hphi) q' i' hk' (hphi'.trans hphi)

/-- What comes before the end of a block comes before the start of its children. -/
theorem Avail.child {blocks : List ℕ} {child : ℕ} (h : Ready T edge entry blocks st)
  (ha : Avail T st.func (st.func.last block) st.set) (hl : Path edge entry block l)
  (hdom : Dom edge entry block child) (hne : block ≠ child) (hmem : child ∈ blocks) :
  Avail T st.func (child, 0) st.set
  := by
  intro e he q i hk hphi
  have hphi' : i.isPhi = false := by
    cases hcase : i.isPhi with
    | false => rfl
    | true =>
        have hblock : e.block = child := hphi.resolve_left (by simp [hcase])
        exact absurd (hblock ▸ hmem) (h.noPhis e he q i hk hcase)
  obtain ⟨r, k, hr, hdef, hbefore⟩ := ha e he q i hk (.inl hphi')
  refine ⟨r, k, hr, hdef, ?_⟩
  rw [Function.Before, h.edge_eq, h.entry_eq] at hbefore ⊢
  exact hbefore.trans hl (.inl ⟨hne, hdom⟩)

/-- After the visit of other blocks, the end of a block is as before. -/
theorem Avail.left {blocks : ℕ → Prop} (ha : Avail T st.func (st.func.last block) st.set)
  (h : Left M blocks st st') (hblock : ¬blocks block) :
  Avail T st'.func (st'.func.last block) st'.set
  := by
  intro e he q i hk hphi
  obtain ⟨q', i', hk', hphi'⟩ := h.optimizes.keyed hk
  have hmem : e ∈ st.set := by
    rcases hphi with hphi | hphi
    · exact h.left e he q i hk hphi
    · rcases h.mem e he with hmem | hmem
      · exact hmem
      · have hphi' : e.block = block := hphi
        exact absurd (hphi' ▸ hmem) hblock
  exact h.optimizes.last ⟨q, i, hk.1, hk.2.2⟩ (ha e hmem q' i' hk' (hphi.imp_left hphi'.trans))

theorem Ready.left {blocks : ℕ → Prop} {blocks' blocks'' : List ℕ}
  (hready : Ready T edge entry blocks' st) (h : Left M blocks st st')
  (hsub : ∀ b ∈ blocks'', b ∈ blocks' ∧ ¬blocks b) (hnodup : blocks''.Nodup) :
  Ready T edge entry blocks'' st'
  := by
  refine ⟨h.optimizes.edge.trans hready.edge_eq, h.optimizes.entry.trans hready.entry_eq,
    h.optimizes.ssa, h.optimizes.uniform, h.good, ?_, hnodup⟩
  intro e he q i hk hphi hmem
  obtain ⟨hmem, hnot⟩ := hsub _ hmem
  rcases h.mem e he with he | he
  · obtain ⟨q', i', hk', hphi'⟩ := h.optimizes.keyed hk
    exact hready.noPhis e he q' i' hk' (hphi'.trans hphi) hmem
  · exact hnot he

/-- The second loop of `cse_block`, for children of which each is visited as it should be. -/
theorem cseChildren_spec (hl : Path edge entry block l) :
  ∀ (children : List DomTree) (st : CseState),
    (∀ child ∈ children, Dom edge entry block child.root) →
    (∀ child ∈ children, ∀ st, Ready T edge entry child.blocks st →
      Avail T st.func (child.root, 0) st.set →
      Left M (fun b => b ∈ child.blocks) st (cseBlock T P child st)) →
    Ready T edge entry (DomTree.blocksOf children) st →
    Avail T st.func (st.func.last block) st.set → block ∉ DomTree.blocksOf children →
    Left M (fun b => b ∈ DomTree.blocksOf children) st (cseChildren T P children st)
  | [], st, _, _, hready, _, _ => by
      rw [cseChildren]
      exact ⟨Visited.refl hready.ssa hready.uniform hready.good, fun e he _ _ _ _ => he⟩
  | child :: rest, st, hdom, hvisit, hready, ha, hblock => by
      rw [cseChildren]
      simp only [DomTree.blocksOf] at hready hblock ⊢
      rw [List.mem_append, not_or] at hblock
      obtain ⟨hnodup, hnodup', hdisjoint⟩ := List.nodup_append'.mp hready.nodup
      have hchild : Ready T edge entry child.blocks st := by
        refine { hready with nodup := hnodup, noPhis := ?_ }
        intro e he q i hk hphi hmem
        exact hready.noPhis e he q i hk hphi (List.mem_append_left _ hmem)
      have hroot := child.root_mem_blocks
      have hne : block ≠ child.root := by
        rintro rfl
        exact hblock.1 hroot
      have hone := hvisit child List.mem_cons_self st hchild
        (ha.child hchild hl (hdom child List.mem_cons_self) hne hroot)
      have hrest := cseChildren_spec hl rest (cseBlock T P child st)
        (fun c hc => hdom c (List.mem_cons_of_mem _ hc))
        (fun c hc => hvisit c (List.mem_cons_of_mem _ hc))
        (hready.left hone (fun b hb => ⟨List.mem_append_right _ hb, fun h => hdisjoint h hb⟩)
          hnodup')
        (ha.left hone hblock.1) hblock.2
      exact hone.trans hrest (fun b hb => List.mem_append_left _ hb)
        (fun b hb => List.mem_append_right _ hb)

/-- `cse_block`. -/
theorem cseBlock_spec {tree : DomTree} (ht : tree.Dominates edge entry) :
  ∀ st, Ready T edge entry tree.blocks st → Avail T st.func (tree.root, 0) st.set →
    Left M (fun b => b ∈ tree.blocks) st (cseBlock T P tree st)
  := by
  induction ht with
  | @node block children hreach hdom _ ih =>
      intro st hready ha
      obtain ⟨l, hl⟩ := hreach
      rw [cseBlock]
      simp only [DomTree.blocks] at hready ⊢
      obtain ⟨hblock, hnodup⟩ := List.nodup_cons.mp hready.nodup
      have hl' : Path st.func.Edge st.func.entry block l := by
        rw [hready.edge_eq, hready.entry_eq]
        exact hl
      obtain ⟨hfirst, ha'⟩ := cseInstrs_spec P (M := M) _ 0 st hl' hready.ssa hready.uniform
        hready.good ha (Nat.zero_add _).symm
      set st' := cseInstrs T P block (st.func.instrs block).length 0 st with hst'
      have hready' : Ready T edge entry (DomTree.blocksOf children) st' := by
        refine ⟨hfirst.optimizes.edge.trans hready.edge_eq,
          hfirst.optimizes.entry.trans hready.entry_eq, hfirst.optimizes.ssa,
          hfirst.optimizes.uniform, hfirst.good, ?_, hnodup⟩
        intro e he q i hk hphi hmem
        rcases hfirst.mem e he with he | heq
        · obtain ⟨q', i', hk', hphi'⟩ := hfirst.optimizes.keyed hk
          exact hready.noPhis e he q' i' hk' (hphi'.trans hphi) (List.mem_cons_of_mem _ hmem)
        · exact hblock (heq ▸ hmem)
      have hrest := cseChildren_spec P (M := M) hl children st' hdom ih hready' ha' hblock
      have hboth : Visited M (fun b => b ∈ block :: DomTree.blocksOf children) st
          (cseChildren T P children st') :=
        hfirst.trans hrest.toVisited (fun b hb => hb ▸ List.mem_cons_self)
          (fun b hb => List.mem_cons_of_mem _ hb)
      set st'' := cseChildren T P children st' with hst''
      refine ⟨⟨hboth.optimizes, hboth.good.mono (fun _ => mem_of_mem_foldl_setRemove), ?_,
        hboth.progress⟩, ?_⟩
      · intro e he
        exact hboth.mem e (mem_of_mem_foldl_setRemove he)
      · -- an entry of this block is removed
        intro e he q i hk hphi
        obtain ⟨q', i', hk', hphi'⟩ := hrest.optimizes.keyed hk
        have hmem := hrest.left e (mem_of_mem_foldl_setRemove he) q i hk hphi
        rcases hfirst.mem e hmem with hmem | heq
        · exact hmem
        · have hat : (st''.func.instrs q.1)[q.2]? = some i := hk.1
          rw [hk.2.1, heq] at hat
          exact absurd he (not_mem_foldl_setRemove hboth.optimizes.ssa hk hphi hboth.good
            (List.mem_iff_getElem?.mpr ⟨q.2, hat⟩))

theorem nirOptCseImpl_spec {F : Function} {tree : DomTree} (hF : F.Ssa T) (hu : F.Uniform T)
  (ht : tree.Dominates F.Edge F.entry) (hnodup : tree.blocks.Nodup) :
  Optimizes M F (nirOptCseImpl T P tree F).2 ∧
    ((nirOptCseImpl T P tree F).1 = false → (nirOptCseImpl T P tree F).2 = F)
  := by
  have hready : Ready T F.Edge F.entry tree.blocks ⟨false, [], F⟩ := by
    refine ⟨rfl, rfl, hF, hu, ⟨?_, ?_, ?_⟩, ?_, hnodup⟩ <;>
      (intro e he; cases he)
  have hleft := cseBlock_spec P (M := M) ht ⟨false, [], F⟩ hready (fun e he => by cases he)
  exact ⟨hleft.optimizes, fun h => (hleft.progress h).2⟩

end Preserves

/-! ### A sum that is computed twice -/

/-- A constant, its sum with itself, and the same sum in the block that follows. -/
def twice : Function where
  entry := 0
  instrs b :=
    if b = 0 then [.loadConst ⟨⟨1, 1, 32⟩, fun _ => 0⟩, fadd 2 1 1 false]
    else if b = 1 then [fadd 3 1 1 false]
    else []
  exit b := if b = 0 then .goto 1 else .stop

theorem twice_at {p : ℕ × ℕ} {i : Instr} (h : twice.At p i) :
  (p = (0, 0) ∧ i = .loadConst ⟨⟨1, 1, 32⟩, fun _ => 0⟩) ∨ (p = (0, 1) ∧ i = fadd 2 1 1 false) ∨
    (p = (1, 0) ∧ i = fadd 3 1 1 false)
  := by
  obtain ⟨b, m⟩ := p
  simp only [Function.At, twice] at h
  split_ifs at h with h0 h1
  · rcases m with _ | _ | m
    · simp_all
    · simp_all
    · simp at h
  · rcases m with _ | m
    · simp_all
    · simp at h
  · simp at h

theorem twice_edge {b c : ℕ} :
  twice.Edge b c ↔ b = 0 ∧ c = 1
  := by
  simp only [Function.Edge, twice]
  split_ifs with h <;> simp [h]

/-- The entry dominates all. -/
theorem twice_dom (b : ℕ) :
  Dom twice.Edge twice.entry 0 b
  := by
  intro l hl
  induction hl with
  | entry => exact List.mem_cons_self
  | step _ _ ih => exact List.mem_cons_of_mem _ ih

theorem twice_ssa :
  twice.Ssa faddInfos
  := by
  have hconst : ∀ p, p = (0, 1) ∨ p = (1, 0) → twice.Defined faddInfos 1 p := by
    rintro p (rfl | rfl)
    · exact ⟨(0, 0), _, rfl, rfl, .inr ⟨rfl, Nat.one_pos⟩⟩
    · exact ⟨(0, 0), _, rfl, rfl, .inl ⟨Nat.zero_ne_one, twice_dom 1⟩⟩
  have hsrcs : ∀ a, (fadd a 1 1 false).srcs faddInfos = [1, 1] := fun a => rfl
  refine ⟨?_, ?_, ?_, ?_, ⟨fun b => if b = 1 then [0] else [], ?_, ?_⟩, ?_⟩
  · intro p q i j d hi hj hdi hdj
    rcases twice_at hi with ⟨rfl, rfl⟩ | ⟨rfl, rfl⟩ | ⟨rfl, rfl⟩ <;>
      rcases twice_at hj with ⟨rfl, rfl⟩ | ⟨rfl, rfl⟩ | ⟨rfl, rfl⟩ <;>
      simp_all [Instr.def?, fadd] <;> omega
  · intro p i hi d hd
    rcases twice_at hi with ⟨rfl, rfl⟩ | ⟨rfl, rfl⟩ | ⟨rfl, rfl⟩
    · cases hd
    · simp only [hsrcs, List.mem_cons, List.not_mem_nil, or_false, or_self] at hd
      exact hd ▸ hconst _ (.inl rfl)
    · simp only [hsrcs, List.mem_cons, List.not_mem_nil, or_false, or_self] at hd
      exact hd ▸ hconst _ (.inr rfl)
  · intro p i hi
    rcases twice_at hi with ⟨-, h⟩ | ⟨-, h⟩ | ⟨-, h⟩ <;> cases h
  · intro b cond b' b'' hexit
    simp only [twice] at hexit
    split_ifs at hexit
  · intro b c
    rw [twice_edge]
    by_cases h : b = 1 <;> simp [h]
  · intro p i hi
    rcases twice_at hi with ⟨-, rfl⟩ | ⟨-, rfl⟩ | ⟨-, rfl⟩
    · trivial
    · exact ⟨Nat.one_pos, fun _ => rfl, fun _ => .inr (.inl rfl)⟩
    · exact ⟨Nat.one_pos, fun _ => rfl, fun _ => .inr (.inl rfl)⟩
  · intro p i hi
    rcases twice_at hi with ⟨-, h⟩ | ⟨-, h⟩ | ⟨-, h⟩ <;> cases h

theorem twice_uniform :
  twice.Uniform faddInfos
  := by
  intro p q i j hi hj _ _
  rcases twice_at hi with ⟨-, rfl⟩ | ⟨-, rfl⟩ | ⟨-, rfl⟩ <;>
    rcases twice_at hj with ⟨-, rfl⟩ | ⟨-, rfl⟩ | ⟨-, rfl⟩ <;> trivial

end Nir.InstrSet
