import Mathlib.Data.List.Forall2
import Mesa.Glsl.Ir

/-!
# Propagation of copies, by elements

`do_copy_propagation_elements` visits the instructions of a function body with a table of available
copies.  An entry says that some channels of a variable hold what channels of another one hold.
The entries for a variable are in a list, which the table of a block shares with the tables of the
blocks inside of it, and which all of them change in place; so the lists are kept in a heap here,
and the tables point to them.

A copy of a variable to itself needs care, because it may overwrite channels it copies from, and
the code gets the channels wrong: `SelfCopiesFine` says when that does no harm, and the soundness
theorem is about bodies in which it does none.
-/

namespace Glsl

open Flow

namespace CopyPropagation

/-! ### The available copies -/

/-- `acp_entry`: channel `c` of `lhs`, for `c` in `writeMask`, holds what channel `swizzle c` of
`rhs` holds. -/
structure AcpEntry where
  /-- Where the entry is. -/
  id : ℕ
  lhs : Var
  rhs : Var
  writeMask : Mask
  swizzle : ℕ → ℕ

/-- The lists of entries and of references to entries.  A list is named by the variable it was made
for and a number. -/
structure Heap where
  lhsLists : Var → ℕ → List AcpEntry := fun _ _ => []
  rhsLists : Var → ℕ → List ℕ := fun _ _ => []
  /-- Numbers that have not been used start here. -/
  next : ℕ := 0

/-- The tables that lead from a variable to the list of the entries that copy to it, and to the list
of references to the entries that copy from it. -/
structure Acp where
  lhsHt : Var → Option ℕ := fun _ => none
  rhsHt : Var → Option ℕ := fun _ => none

/-- `ir_copy_propagation_elements_visitor` -/
structure Visitor where
  heap : Heap := {}
  acp : Acp := {}
  kills : List (Var × Mask) := []
  killedAll : Bool := false

/-- Clear some channels in an entry, which is removed when none is left. -/
def AcpEntry.clear (writeMask : Mask) (e : AcpEntry) : Option AcpEntry :=
  if e.writeMask &&& ~~~writeMask = 0 then none
  else some { e with writeMask := e.writeMask &&& ~~~writeMask }

/-- Clear some channels in the entries that copy to a variable. -/
def Heap.clearLhs (H : Heap) (acp : Acp) (var : Var) (writeMask : Mask) : Heap :=
  match acp.lhsHt var with
  | none => H
  | some p => { H with
      lhsLists := fun a q =>
        if a = var ∧ q = p then (H.lhsLists a q).filterMap (AcpEntry.clear writeMask)
        else H.lhsLists a q }

/-- Remove the entries that copy from a variable, from whatever lists they are in. -/
def Heap.popRhs (H : Heap) (acp : Acp) (var : Var) : Heap :=
  match acp.rhsHt var with
  | none => H
  | some p => { H with
      lhsLists := fun a q => (H.lhsLists a q).filter fun e => e.id ∉ H.rhsLists var p
      rhsLists := fun b q => if b = var ∧ q = p then [] else H.rhsLists b q }

/-- `kill` -/
def Visitor.kill (V : Visitor) (k : Var × Mask) : Visitor :=
  { V with
    heap := (V.heap.clearLhs V.acp k.1 k.2).popRhs V.acp k.1
    kills := V.kills ++ [k] }

/-- The variable and the channels that are copied, if an rvalue is a copy. -/
def copySource {α : Type} : Rvalue α → Option (Var × (ℕ → ℕ))
  | .derefVar v => some (v, fun c => c)
  | .swizzle (.derefVar v) mask => some (v, mask.chan)
  | _ => none

/-- The channels of a copy of a variable to itself that are kept.  A channel is dropped if the
source channel that stands at its place in the swizzle is overwritten. -/
def selfMask (writeMask : Mask) (origSwizzle : ℕ → ℕ) : Mask :=
  (List.range 4).foldl
    (fun m i => if writeMask.getLsbD (origSwizzle i) then m &&& ~~~(1#4 <<< i) else m) writeMask

/-- Put an entry at the end of the list for the variable that it copies to, and a reference to it at
the end of the list for the variable it copies from.  Lists that are missing are made. -/
def Visitor.push (V : Visitor) (lhs rhs : Var) (writeMask : Mask) (swizzle : ℕ → ℕ) : Visitor :=
  let H := V.heap
  let entry : AcpEntry := ⟨H.next, lhs, rhs, writeMask, swizzle⟩
  let p := (V.acp.lhsHt lhs).getD H.next
  let q := (V.acp.rhsHt rhs).getD H.next
  let entries := if (V.acp.lhsHt lhs).isSome then H.lhsLists lhs p else []
  let refs := if (V.acp.rhsHt rhs).isSome then H.rhsLists rhs q else []
  { V with
    heap := {
      lhsLists := fun a p' => if a = lhs ∧ p' = p then entries ++ [entry] else H.lhsLists a p'
      rhsLists := fun b q' => if b = rhs ∧ q' = q then refs ++ [H.next] else H.rhsLists b q'
      next := H.next + 1 }
    acp := {
      lhsHt := fun a => if a = lhs then some p else V.acp.lhsHt a
      rhsHt := fun b => if b = rhs then some q else V.acp.rhsHt b } }

/-- `add_copy` -/
def Visitor.addCopy {α : Type} (V : Visitor) (lhs : Lhs α) (rhs : Rvalue α)
    (condition : Option (Rvalue α)) (writeMask : Mask) : Visitor :=
  if condition.isSome then V
  else
    match lhs.asVar, copySource rhs with
    | some v, some (u, origSwizzle) =>
        if v.type.isVector then
          let mask := if v = u then selfMask writeMask origSwizzle else writeMask
          if v.precise ≠ u.precise then V
          else V.push v u mask (fun c => origSwizzle (writeMask.rank c))
        else V
    | _, _ => V

/-! ### Replacing reads -/

/-- The entries that copy to a variable. -/
def Visitor.entries (V : Visitor) (var : Var) : List AcpEntry :=
  match V.acp.lhsHt var with
  | none => []
  | some p => V.heap.lhsLists var p

/-- The variable and the channel that a channel of a variable is a copy of.  Later entries win. -/
def Visitor.source (V : Visitor) (var : Var) (c : ℕ) : Option (Var × ℕ) :=
  (((V.entries var).filter fun e => e.writeMask.getLsbD c).getLast?).map
    fun e => (e.rhs, e.swizzle c)

/-- The read of channels of a variable that a read of channels of a variable is replaced by. -/
def Visitor.replacement {α : Type} (V : Visitor) (var : Var) (swizzleChan : ℕ → ℕ) (chans : ℕ) :
    Option (Rvalue α) :=
  if 0 < chans then
    match V.source var (swizzleChan 0) with
    | none => none
    | some (source, _) =>
        let sources := (List.range chans).all fun c =>
          (V.source var (swizzleChan c)).map Prod.fst = some source
        let noopSwizzle := (V.entries var).all fun e => (List.range chans).all fun c =>
          !e.writeMask.getLsbD (swizzleChan c) || e.swizzle (swizzleChan c) == swizzleChan c
        if sources then
          if source = var ∧ noopSwizzle then none
          else some (.swizzle (.derefVar source) {
            chan := fun c =>
              if c < chans then ((V.source var (swizzleChan c)).map Prod.snd).getD 0 else 0
            numComponents := chans })
        else none
  else none

/-- `handle_rvalue` -/
def Visitor.handleRvalue {α : Type} (V : Visitor) (e : Rvalue α) : Rvalue α :=
  match e with
  | .swizzle (.derefVar var) mask => (V.replacement var mask.chan mask.numComponents).getD e
  | .derefVar var =>
      if var.type.isVector then
        (V.replacement var (fun c => c) var.type.components).getD e
      else e
  | _ => e

/-- Visit an rvalue: `handle_rvalue` is called for those inside of it, but not for what is swizzled,
which is looked at together with its swizzle. -/
def Visitor.visitRvalue {α : Type} (V : Visitor) : Rvalue α → Rvalue α
  | .constant type value => .constant type value
  | .derefVar v => .derefVar v
  | .derefArray type array index => .derefArray type
      (V.handleRvalue (V.visitRvalue array)) (V.handleRvalue (V.visitRvalue index))
  | .derefRecord type record field =>
      .derefRecord type (V.handleRvalue (V.visitRvalue record)) field
  | .swizzle val mask => .swizzle (V.visitRvalue val) mask
  | .expression type operation n operands => .expression type operation n
      (fun k => V.handleRvalue (V.visitRvalue (operands k)))
  | .texture type op sampler n operands => .texture type op (V.visitRvalue sampler) n
      (fun k => V.handleRvalue (V.visitRvalue (operands k)))

/-- Visit what is assigned to: only the indices are rvalues. -/
def Visitor.visitLhs {α : Type} (V : Visitor) : Lhs α → Lhs α
  | .var v => .var v
  | .array base index => .array (V.visitLhs base) (V.handleRvalue (V.visitRvalue index))
  | .record base field => .record (V.visitLhs base) field

/-! ### Visiting blocks -/

section Visit

variable {α ν : Type}

/-- Visit an instruction without instructions inside. -/
def Visitor.visitInstr (V : Visitor) : Instr α → Instr α × Visitor
  | .assignment lhs rhs condition writeMask =>
      let lhs' := V.visitLhs lhs
      let rhs' := V.visitRvalue rhs
      let condition' := condition.map V.visitRvalue
      let var := lhs'.variableReferenced
      let V' :=
        if var.type.isVector then
          V.kill (var, if lhs'.asVar.isSome then writeMask else BitVec.allOnes 4)
        else V
      (.assignment lhs' rhs' condition' writeMask, V'.addCopy lhs' rhs' condition' writeMask)
  | .call callee returnDeref params =>
      (.call callee returnDeref (params.map fun p =>
          if p.out then p else { p with actual := V.visitRvalue p.actual }),
        { V with acp := {}, killedAll := true })
  | .ret value => (.ret (value.map fun e => V.handleRvalue (V.visitRvalue e)), V)
  | .discard condition =>
      (.discard (condition.map fun e => V.handleRvalue (V.visitRvalue e)), V)
  | .emitVertex stream => (.emitVertex (V.handleRvalue (V.visitRvalue stream)), V)
  | .endPrimitive stream => (.endPrimitive (V.handleRvalue (V.visitRvalue stream)), V)
  | .loopJump isBreak => (.loopJump isBreak, V)

/-- The visitor of a block inside, with the given tables. -/
def Visitor.enter (V : Visitor) (acp : Acp) : Visitor := { heap := V.heap, acp }

/-- The visitor with the tables it had before a block inside was visited, or with none after a
call. -/
def Visitor.back (V inner : Visitor) : Visitor where
  heap := inner.heap
  acp := if inner.killedAll then {} else V.acp
  kills := V.kills
  killedAll := inner.killedAll || V.killedAll

/-- What is left of a visitor after a block inside has been visited: the end of `handle_if_block`
and of `handle_loop`. -/
def Visitor.leave (V inner : Visitor) : Visitor := inner.kills.foldl Visitor.kill (V.back inner)

/-- The number of instructions of a block, with those inside. -/
def size : Block α ν → ℕ
  | .nil _ => 0
  | .instr _ _ rest => size rest + 1
  | .cond _ _ a b rest => size a + size b + size rest + 1
  | .loop _ body rest => size body + size rest + 1

/-- A point, with the visitors that have been there. -/
abbrev Note (ν : Type) : Type := ν × List Visitor

/-- Visit a block.  The visitor is noted at every point. -/
def visitBlock : (b : Block α (Note ν)) → Visitor →
    { b' : Block α (Note ν) // size b' = size b } × Visitor
  | .nil (l, Vs), V => (⟨.nil (l, Vs ++ [V]), rfl⟩, V)
  | .instr (l, Vs) i rest, V =>
      let iV := V.visitInstr i
      let restV := visitBlock rest iV.2
      (⟨.instr (l, Vs ++ [V]) iV.1 restV.1.1, by simp only [size, restV.1.2]⟩, restV.2)
  | .cond (l, Vs) condition a b rest, V =>
      let condition' := V.visitRvalue condition
      let aV := visitBlock a (V.enter V.acp)
      let V₁ := V.leave aV.2
      let bV := visitBlock b (V₁.enter V₁.acp)
      let restV := visitBlock rest (V₁.leave bV.2)
      (⟨.cond (l, Vs ++ [V]) condition' aV.1.1 bV.1.1 restV.1.1, by
        simp only [size, aV.1.2, bV.1.2, restV.1.2]⟩, restV.2)
  | .loop (l, Vs) body rest, V =>
      -- `handle_loop(ir, false)` and then `handle_loop(ir, true)`
      let bodyV := visitBlock body (V.enter {})
      let V₁ := V.leave bodyV.2
      let bodyV' := visitBlock bodyV.1.1 (V₁.enter V₁.acp)
      let restV := visitBlock rest (V₁.leave bodyV'.2)
      (⟨.loop (l, Vs ++ [V]) bodyV'.1.1 restV.1.1, by
        simp only [size, bodyV'.1.2, bodyV.1.2, restV.1.2]⟩, restV.2)
termination_by b => size b
decreasing_by
  all_goals simp only [size]
  all_goals first | omega | (rw [bodyV.1.2]; omega)

/-- Note nothing but the point. -/
def start : Block α ν → Block α (Note ν)
  | .nil l => .nil (l, [])
  | .instr l i rest => .instr (l, []) i (start rest)
  | .cond l condition a b rest => .cond (l, []) condition (start a) (start b) (start rest)
  | .loop l body rest => .loop (l, []) (start body) (start rest)

/-- `do_copy_propagation_elements` on the body of a function. -/
def doCopyPropagationElements (body : Block α ν) : Block α (Note ν) :=
  (visitBlock (start body) {}).1.1

end Visit

/-! ### Entries that are right -/

section Sound

variable {α Mem : Type}

/-- An entry in the list of a variable is right about a channel. -/
structure Right (s : State α Mem) (a : Var) (e : AcpEntry) (c : ℕ) : Prop where
  isVector : a.type.isVector = true
  rhs_isVector : e.rhs.type.isVector = true
  eq : s.vars a c = s.vars e.rhs (e.swizzle c)

/-- An entry is found from the variable that it copies from. -/
def Indexed (H : Heap) (T : Acp) (e : AcpEntry) : Prop :=
  ∃ q, T.rhsHt e.rhs = some q ∧ e.id ∈ H.rhsLists e.rhs q

/-- The entries of a table are right in a state and found from the variables they copy from, up to
channels among some masked variables. -/
structure Sound (K : List (Var × Mask)) (H : Heap) (T : Acp) (s : State α Mem) : Prop where
  bounded : ∀ b q, T.rhsHt b = some q → q < H.next
  entries : ∀ a p e c, T.lhsHt a = some p → e ∈ H.lhsLists a p → e.writeMask.getLsbD c = true →
    Has K a c ∨ (Right s a e c ∧ Indexed H T e)

theorem sound_empty (K : List (Var × Mask)) (H : Heap) (s : State α Mem) :
  Sound K H {} s
  := by
  constructor
  · intro b q h
    cases h
  · intro a p e c h
    cases h

theorem Sound.mono {K K' : List (Var × Mask)} {H : Heap} {T : Acp} {s : State α Mem}
    (h : Sound K H T s) (hK : ∀ v c, Has K v c → Has K' v c) :
  Sound K' H T s
  := by
  refine ⟨h.bounded, ?_⟩
  intro a p e c hp he hc
  rcases h.entries a p e c hp he hc with hhas | hright
  · exact Or.inl (hK a c hhas)
  · exact Or.inr hright

theorem Sound.of_vars_eq {K : List (Var × Mask)} {H : Heap} {T : Acp} {s s' : State α Mem}
    (h : Sound K H T s) (hs' : s'.vars = s.vars) :
  Sound K H T s'
  := by
  refine ⟨h.bounded, ?_⟩
  intro a p e c hp he hc
  rcases h.entries a p e c hp he hc with hhas | ⟨⟨ha, hrhs, heq⟩, hfound⟩
  · exact Or.inl hhas
  · exact Or.inr ⟨⟨ha, hrhs, by rw [hs', heq]⟩, hfound⟩

/-- An entry is another one with some channels cleared. -/
structure AcpEntry.Below (e' e : AcpEntry) : Prop where
  id : e'.id = e.id
  rhs : e'.rhs = e.rhs
  swizzle : e'.swizzle = e.swizzle
  writeMask : ∀ c, e'.writeMask.getLsbD c = true → e.writeMask.getLsbD c = true

theorem AcpEntry.Below.refl (e : AcpEntry) :
  e.Below e
  := ⟨rfl, rfl, rfl, fun _ h => h⟩

theorem AcpEntry.Below.trans {e e' e'' : AcpEntry} (h : e''.Below e') (h' : e'.Below e) :
  e''.Below e
  := ⟨h.id.trans h'.id, h.rhs.trans h'.rhs, h.swizzle.trans h'.swizzle,
      fun c hc => h'.writeMask c (h.writeMask c hc)⟩

theorem Right.below {s : State α Mem} {a : Var} {e e' : AcpEntry} {c : ℕ} (h : Right s a e c)
    (hbelow : e'.Below e) :
  Right s a e' c
  := by
  refine ⟨h.isVector, hbelow.rhs ▸ h.rhs_isVector, ?_⟩
  rw [hbelow.rhs, hbelow.swizzle, h.eq]

/-- The lists lose entries and entries lose channels, but an entry that stays is still found. -/
structure Shrinks (H H' : Heap) : Prop where
  next : H'.next = H.next
  entries : ∀ a p e', e' ∈ H'.lhsLists a p → ∃ e ∈ H.lhsLists a p, e'.Below e ∧
    ∀ b q, e.id ∈ H.rhsLists b q → e'.id ∈ H'.rhsLists b q

theorem Shrinks.refl (H : Heap) :
  Shrinks H H
  := ⟨rfl, fun _ _ e he => ⟨e, he, AcpEntry.Below.refl e, fun _ _ h => h⟩⟩

theorem Shrinks.trans {H H' H'' : Heap} (h : Shrinks H H') (h' : Shrinks H' H'') :
  Shrinks H H''
  := by
  refine ⟨h'.next.trans h.next, ?_⟩
  intro a p e'' he''
  obtain ⟨e', he', hbelow', hfound'⟩ := h'.entries a p e'' he''
  obtain ⟨e, he, hbelow, hfound⟩ := h.entries a p e' he'
  refine ⟨e, he, hbelow'.trans hbelow, ?_⟩
  intro b q hq
  exact hfound' b q (hfound b q hq)

theorem Indexed.below {H H' : Heap} {T : Acp} {e e' : AcpEntry} (h : Indexed H T e)
    (hbelow : e'.Below e) (hfound : ∀ b q, e.id ∈ H.rhsLists b q → e'.id ∈ H'.rhsLists b q) :
  Indexed H' T e'
  := by
  obtain ⟨q, hq, he⟩ := h
  exact ⟨q, hbelow.rhs ▸ hq, hbelow.rhs ▸ hfound _ _ he⟩

theorem Sound.shrinks {K : List (Var × Mask)} {H H' : Heap} {T : Acp} {s : State α Mem}
    (h : Sound K H T s) (hH : Shrinks H H') :
  Sound K H' T s
  := by
  constructor
  · rw [hH.next]
    exact h.bounded
  · intro a p e' c hp he' hc
    obtain ⟨e, he, hbelow, hfound⟩ := hH.entries a p e' he'
    rcases h.entries a p e c hp he (hbelow.writeMask c hc) with hhas | ⟨hright, hindexed⟩
    · exact Or.inl hhas
    · exact Or.inr ⟨hright.below hbelow, hindexed.below hbelow hfound⟩

/-! ### Kills -/

theorem clearLhs_shrinks (H : Heap) (acp : Acp) (var : Var) (writeMask : Mask) :
  Shrinks H (H.clearLhs acp var writeMask)
  := by
  rw [Heap.clearLhs]
  split
  · exact Shrinks.refl H
  · refine ⟨rfl, ?_⟩
    intro a p e' he'
    simp only at he'
    split_ifs at he' with h
    · obtain ⟨e, he, hclear⟩ := List.mem_filterMap.mp he'
      rw [AcpEntry.clear] at hclear
      split_ifs at hclear
      cases hclear
      refine ⟨e, he, ⟨rfl, rfl, rfl, ?_⟩, fun _ _ h => h⟩
      intro c hc
      rw [BitVec.getLsbD_and, Bool.and_eq_true] at hc
      exact hc.1
    · exact ⟨e', he', AcpEntry.Below.refl e', fun _ _ h => h⟩

/-- Entries that copy to the variable have lost the channels. -/
theorem not_covers_of_mem_clearLhs {H : Heap} {acp : Acp} {var : Var} {writeMask : Mask} {p : ℕ}
    (hp : acp.lhsHt var = some p) {e : AcpEntry}
    (he : e ∈ (H.clearLhs acp var writeMask).lhsLists var p) {c : ℕ}
    (hc : e.writeMask.getLsbD c = true) :
  ¬writeMask.Covers c
  := by
  rw [Heap.clearLhs, hp] at he
  simp only [and_self, if_true] at he
  obtain ⟨e₀, he₀, hclear⟩ := List.mem_filterMap.mp he
  rw [AcpEntry.clear] at hclear
  split_ifs at hclear
  cases hclear
  have hc4 : c < 4 := BitVec.lt_of_getLsbD hc
  simp only [BitVec.getLsbD_and, BitVec.getLsbD_not, hc4, decide_true, Bool.true_and,
    Bool.and_eq_true, Bool.not_eq_true'] at hc
  rintro (h | h)
  · rw [hc.2] at h
    exact Bool.false_ne_true h
  · omega

theorem popRhs_shrinks (H : Heap) (acp : Acp) (var : Var) :
  Shrinks H (H.popRhs acp var)
  := by
  rw [Heap.popRhs]
  split
  · exact Shrinks.refl H
  · refine ⟨rfl, ?_⟩
    intro a p e he
    simp only [List.mem_filter, decide_eq_true_eq] at he
    refine ⟨e, he.1, AcpEntry.Below.refl e, ?_⟩
    intro b q hq
    simp only
    split_ifs with h
    · obtain ⟨rfl, rfl⟩ := h
      exact absurd hq he.2
    · exact hq

/-- Entries that are found from the variable are gone. -/
theorem not_mem_of_mem_popRhs {H : Heap} {acp : Acp} {var : Var} {q : ℕ}
    (hq : acp.rhsHt var = some q) {a : Var} {p : ℕ} {e : AcpEntry}
    (he : e ∈ (H.popRhs acp var).lhsLists a p) :
  e.id ∉ H.rhsLists var q
  := by
  rw [Heap.popRhs, hq] at he
  simp only [List.mem_filter, decide_eq_true_eq] at he
  exact he.2

theorem kill_shrinks (V : Visitor) (k : Var × Mask) :
  Shrinks V.heap (V.kill k).heap
  := (clearLhs_shrinks _ _ _ _).trans (popRhs_shrinks _ _ _)

@[simp]
theorem clearLhs_rhsLists (H : Heap) (acp : Acp) (var : Var) (writeMask : Mask) :
  (H.clearLhs acp var writeMask).rhsLists = H.rhsLists
  := by
  rw [Heap.clearLhs]
  split <;> rfl

/-- What is left after a kill. -/
theorem kill_entries {V : Visitor} {k : Var × Mask} {a : Var} {p : ℕ} (hp : V.acp.lhsHt a = some p)
    {e' : AcpEntry} (he' : e' ∈ (V.kill k).heap.lhsLists a p) :
  ∃ e ∈ V.heap.lhsLists a p, e'.Below e ∧
    (∀ c, e'.writeMask.getLsbD c = true → ¬(k.1 = a ∧ k.2.Covers c)) ∧
    (Indexed V.heap V.acp e → e.rhs ≠ k.1 ∧ Indexed (V.kill k).heap V.acp e')
  := by
  obtain ⟨e₁, he₁, hbelow₁, -⟩ := (popRhs_shrinks _ V.acp k.1).entries a p e' he'
  obtain ⟨e, he, hbelow, hfound⟩ := (kill_shrinks V k).entries a p e' he'
  refine ⟨e, he, hbelow, ?_, ?_⟩
  · rintro c hc ⟨rfl, hcovers⟩
    exact not_covers_of_mem_clearLhs hp he₁ (hbelow₁.writeMask c hc) hcovers
  · intro hindexed
    refine ⟨?_, hindexed.below hbelow hfound⟩
    rintro heq
    obtain ⟨q, hq, hmem⟩ := hindexed
    rw [heq] at hq hmem
    have hnot := not_mem_of_mem_popRhs hq he'
    rw [clearLhs_rhsLists, hbelow.id] at hnot
    exact hnot hmem

/-- Kills, one after the other. -/
theorem foldl_kill_spec (V : Visitor) (ks : List (Var × Mask)) :
  (ks.foldl Visitor.kill V).acp = V.acp ∧
    (ks.foldl Visitor.kill V).kills = V.kills ++ ks ∧
    (ks.foldl Visitor.kill V).killedAll = V.killedAll ∧
    Shrinks V.heap (ks.foldl Visitor.kill V).heap
  := by
  induction ks generalizing V with
  | nil => exact ⟨rfl, (List.append_nil _).symm, rfl, Shrinks.refl _⟩
  | cons k ks ih =>
      obtain ⟨hacp, hkills, hall, hshrinks⟩ := ih (V.kill k)
      refine ⟨hacp, ?_, hall, (kill_shrinks V k).trans hshrinks⟩
      rw [List.foldl_cons, hkills]
      simp [Visitor.kill]

/-- What is left after kills. -/
theorem foldl_kill_entries {V : Visitor} {ks : List (Var × Mask)} {a : Var} {p : ℕ}
    (hp : V.acp.lhsHt a = some p) {e' : AcpEntry}
    (he' : e' ∈ (ks.foldl Visitor.kill V).heap.lhsLists a p) :
  ∃ e ∈ V.heap.lhsLists a p, e'.Below e ∧
    (∀ c, e'.writeMask.getLsbD c = true → ¬Has ks a c) ∧
    (Indexed V.heap V.acp e → (∀ c, ¬Has ks e.rhs c) ∧
      Indexed (ks.foldl Visitor.kill V).heap V.acp e')
  := by
  induction ks generalizing V with
  | nil => exact ⟨e', he', AcpEntry.Below.refl e', by simp, fun h => ⟨by simp, h⟩⟩
  | cons k ks ih =>
      obtain ⟨e₁, he₁, hbelow₁, hnot₁, hindexed₁⟩ := ih (V := V.kill k) hp he'
      obtain ⟨e, he, hbelow, hnot, hindexed⟩ := kill_entries hp he₁
      refine ⟨e, he, hbelow₁.trans hbelow, ?_, ?_⟩
      · intro c hc
        rw [has_cons]
        rintro (hhas | hhas)
        · exact hnot c (hbelow₁.writeMask c hc) hhas
        · exact hnot₁ c hc hhas
      · intro h
        obtain ⟨hne, h₁⟩ := hindexed h
        obtain ⟨hnone, h'⟩ := hindexed₁ h₁
        refine ⟨?_, h'⟩
        intro c
        rw [has_cons]
        rintro (hhas | hhas)
        · exact hne hhas.1.symm
        · exact hnone c (hbelow.rhs ▸ hhas)

/-- Killing the channels up to which a table was right, and those that have changed since, leaves
entries that are right. -/
theorem Sound.foldl_kill {K : List (Var × Mask)} {V : Visitor} {s s' : State α Mem}
    (h : Sound K V.heap V.acp s) {ks : List (Var × Mask)} (hK : ∀ v c, Has K v c → Has ks v c)
    (hagree : Agree ks s s') :
  Sound [] (ks.foldl Visitor.kill V).heap V.acp s'
  := by
  constructor
  · rw [(foldl_kill_spec V ks).2.2.2.next]
    exact h.bounded
  · intro a p e' c hp he' hc
    right
    obtain ⟨e, he, hbelow, hnot, hindexed⟩ := foldl_kill_entries hp he'
    rcases h.entries a p e c hp he (hbelow.writeMask c hc) with hhas | ⟨hright, hfound⟩
    · exact absurd (hK a c hhas) (hnot c hc)
    · obtain ⟨hnone, hfound'⟩ := hindexed hfound
      refine ⟨?_, hfound'⟩
      refine ⟨hright.isVector, hbelow.rhs ▸ hright.rhs_isVector, ?_⟩
      rw [hagree a c hright.isVector (hnot c hc), hbelow.rhs, hbelow.swizzle,
        hagree e.rhs _ hright.rhs_isVector (hnone _), hright.eq]

/-! ### New entries -/

/-- The entries of a list after `push` are those that were there and the new one. -/
theorem mem_push_lhsLists {V : Visitor} {lhs rhs : Var} {writeMask : Mask} {swizzle : ℕ → ℕ}
    {a : Var} {p : ℕ} {e : AcpEntry}
    (he : e ∈ (V.push lhs rhs writeMask swizzle).heap.lhsLists a p) :
  e ∈ V.heap.lhsLists a p ∨ (a = lhs ∧ e = ⟨V.heap.next, lhs, rhs, writeMask, swizzle⟩)
  := by
  simp only [Visitor.push] at he
  split_ifs at he with h hsome
  · obtain ⟨rfl, rfl⟩ := h
    rcases List.mem_append.mp he with he | he
    · exact Or.inl he
    · exact Or.inr ⟨rfl, List.mem_singleton.mp he⟩
  · exact Or.inr ⟨h.1, by simpa using he⟩
  · exact Or.inl he

/-- References stay, those in lists that were there before. -/
theorem mem_push_rhsLists {V : Visitor} (lhs rhs : Var) (writeMask : Mask) (swizzle : ℕ → ℕ)
    {b : Var} {q id : ℕ} (hq : q < V.heap.next) (hid : id ∈ V.heap.rhsLists b q) :
  id ∈ (V.push lhs rhs writeMask swizzle).heap.rhsLists b q
  := by
  simp only [Visitor.push]
  split_ifs with h hsome
  · obtain ⟨rfl, rfl⟩ := h
    exact List.mem_append_left _ hid
  · rw [Option.not_isSome_iff_eq_none] at hsome
    rw [hsome] at h
    exact absurd h.2 (Nat.ne_of_lt hq)
  · exact hid

/-- A new entry that is covered does not matter to the tables that share lists. -/
theorem Sound.push_other {K : List (Var × Mask)} {V : Visitor} {T : Acp} {s : State α Mem}
    (h : Sound K V.heap T s) {lhs rhs : Var} {writeMask : Mask} {swizzle : ℕ → ℕ}
    (hcover : ∀ c, writeMask.getLsbD c = true → Has K lhs c) :
  Sound K (V.push lhs rhs writeMask swizzle).heap T s
  := by
  constructor
  · intro b q hq
    exact Nat.lt_succ_of_lt (h.bounded b q hq)
  · intro a p e c hp he hc
    rcases mem_push_lhsLists he with he | ⟨rfl, rfl⟩
    · rcases h.entries a p e c hp he hc with hhas | ⟨hright, q, hq, hfound⟩
      · exact Or.inl hhas
      · exact Or.inr ⟨hright, q, hq, mem_push_rhsLists _ _ _ _ (h.bounded _ q hq) hfound⟩
    · exact Or.inl (hcover c hc)

/-- A new entry that is right joins the others. -/
theorem Sound.push {V : Visitor} {s : State α Mem} (h : Sound [] V.heap V.acp s) {lhs rhs : Var}
    {writeMask : Mask} {swizzle : ℕ → ℕ}
    (hnew : ∀ c, writeMask.getLsbD c = true →
      Right s lhs ⟨V.heap.next, lhs, rhs, writeMask, swizzle⟩ c) :
  Sound [] (V.push lhs rhs writeMask swizzle).heap (V.push lhs rhs writeMask swizzle).acp s
  := by
  have hrhsHt : ∀ b q, V.acp.rhsHt b = some q →
      (V.push lhs rhs writeMask swizzle).acp.rhsHt b = some q := by
    intro b q hq
    simp only [Visitor.push]
    split_ifs with hb
    · subst hb
      rw [hq, Option.getD_some]
    · exact hq
  constructor
  · intro b q hq
    simp only [Visitor.push] at hq ⊢
    split_ifs at hq with hb
    · subst hb
      cases hold : V.acp.rhsHt b with
      | none =>
          rw [hold] at hq
          cases hq
          exact Nat.lt_succ_self _
      | some q' =>
          rw [hold] at hq
          cases hq
          exact Nat.lt_succ_of_lt (h.bounded b _ hold)
    · exact Nat.lt_succ_of_lt (h.bounded b q hq)
  · intro a p e c hp he hc
    right
    have hnewRight : ∀ e', e' = (⟨V.heap.next, lhs, rhs, writeMask, swizzle⟩ : AcpEntry) →
        e'.writeMask.getLsbD c = true → Right s lhs e' c ∧
          Indexed (V.push lhs rhs writeMask swizzle).heap
            (V.push lhs rhs writeMask swizzle).acp e' := by
      rintro e' rfl hc'
      refine ⟨hnew c hc', (V.acp.rhsHt rhs).getD V.heap.next, ?_, ?_⟩
      · simp [Visitor.push]
      · simp [Visitor.push]
    by_cases hlist : V.acp.lhsHt a = some p
    · rcases mem_push_lhsLists he with he | ⟨rfl, rfl⟩
      · rcases h.entries a p e c hlist he hc with hhas | ⟨hright, q, hq, hfound⟩
        · exact absurd hhas (has_nil a c)
        · refine ⟨hright, q, hrhsHt _ q hq, ?_⟩
          exact mem_push_rhsLists _ _ _ _ (h.bounded _ q hq) hfound
      · exact hnewRight _ rfl hc
    · -- the list is a new one, with the new entry alone
      simp only [Visitor.push] at hp he
      split_ifs at hp with ha
      · subst ha
        cases hold : V.acp.lhsHt a with
        | none =>
            rw [hold] at hp he
            simp only [Option.getD_none, Option.some.injEq] at hp
            subst hp
            simp only [Option.getD_none, and_self, if_true, Option.isSome_none, Bool.false_eq_true,
              if_false, List.nil_append, List.mem_singleton] at he
            exact hnewRight e he hc
        | some p' =>
            rw [hold] at hp hlist
            exact absurd hp hlist
      · exact absurd hp hlist

end Sound

/-- Clearing a channel. -/
theorem getLsbD_clear (m : Mask) (i c : ℕ) :
  (m &&& ~~~(1#4 <<< i)).getLsbD c = (m.getLsbD c && !decide (c = i))
  := by
  by_cases hc : c < 4
  · rcases Nat.lt_trichotomy c i with h | h | h
    · simp [hc, h, Nat.ne_of_lt h]
    · subst h
      simp [hc]
    · have h0 : ¬c - i = 0 := by omega
      simp [hc, h0, Nat.ne_of_gt h, Nat.not_lt_of_gt h]
  · simp [BitVec.getLsbD_of_ge _ _ (Nat.le_of_not_lt hc)]

theorem getLsbD_selfMask (writeMask : Mask) (origSwizzle : ℕ → ℕ) (c : ℕ) :
  (selfMask writeMask origSwizzle).getLsbD c =
    (writeMask.getLsbD c && !writeMask.getLsbD (origSwizzle c))
  := by
  have hfold : ∀ (l : List ℕ) (m : Mask), (l.foldl (fun m i =>
      if writeMask.getLsbD (origSwizzle i) then m &&& ~~~(1#4 <<< i) else m) m).getLsbD c =
        (m.getLsbD c && !(decide (c ∈ l) && writeMask.getLsbD (origSwizzle c))) := by
    intro l
    induction l with
    | nil => simp
    | cons i l ih =>
        intro m
        rw [List.foldl_cons, ih]
        split_ifs with h
        · rw [getLsbD_clear]
          by_cases hci : c = i
          · subst hci
            simp [h]
          · simp [hci]
        · by_cases hci : c = i
          · subst hci
            simp [h]
          · simp [hci]
  rw [selfMask, hfold]
  by_cases hc : c < 4
  · simp [hc]
  · simp [BitVec.getLsbD_of_ge writeMask c (Nat.le_of_not_lt hc)]

/-! ### Visited rvalues -/

section Rvalues

variable {α Mem : Type} [Inhabited α] {M : Meaning α Mem} {V : Visitor} {s : State α Mem}
  (h : Sound [] V.heap V.acp s)
include h

omit [Inhabited α] in
/-- What a channel is a copy of holds the same. -/
theorem source_eq {var u : Var} {c k : ℕ} (hsource : V.source var c = some (u, k)) :
  s.vars var c = s.vars u k
  := by
  rw [Visitor.source, Option.map_eq_some_iff] at hsource
  obtain ⟨e, he, heq⟩ := hsource
  have hmem := List.mem_of_getLast? he
  rw [List.mem_filter, Visitor.entries] at hmem
  obtain ⟨hmem, hc⟩ := hmem
  split at hmem
  · cases hmem
  · rename_i p hp
    rcases h.entries var p e c hp hmem hc with hhas | ⟨hright, -⟩
    · exact absurd hhas (has_nil var c)
    · cases heq
      exact hright.eq

theorem replacement_eval {var : Var} {swizzleChan : ℕ → ℕ} {chans : ℕ} {e' : Rvalue α}
    (he' : V.replacement var swizzleChan chans = some e') :
  e'.type = .vector chans ∧ ∀ c < chans, e'.eval M s c = s.vars var (swizzleChan c)
  := by
  rw [Visitor.replacement] at he'
  split_ifs at he' with hchans
  split at he'
  · cases he'
  · rename_i source k hsource
    simp only at he'
    split_ifs at he' with hsources hnoop
    cases he'
    refine ⟨rfl, ?_⟩
    intro c hc
    simp only [List.all_eq_true, List.mem_range, decide_eq_true_eq, Option.map_eq_some_iff,
      Prod.exists] at hsources
    obtain ⟨u, k', hsource', rfl⟩ := hsources c hc
    simp only [Rvalue.eval, hc, if_true, hsource', Option.map_some, Option.getD_some]
    exact (source_eq h hsource').symm

/-- A read that is replaced has the value of the read it is replaced by. -/
theorem handleRvalue_sound (e : Rvalue α) :
  SameValue M s (V.handleRvalue e) e
  := by
  unfold Visitor.handleRvalue
  split
  · rename_i var mask
    cases he' : V.replacement var mask.chan mask.numComponents with
    | none => exact sameValue_refl M s _
    | some e' => exact replacement_eval h he'
  · rename_i var
    split_ifs with hvector
    · cases he' : V.replacement var (fun c => c) var.type.components with
      | none => exact sameValue_refl M s _
      | some e' =>
          obtain ⟨htype, heval⟩ := replacement_eval (M := M) h he'
          refine ⟨?_, heval⟩
          rw [Option.getD_some, htype, Rvalue.type]
          cases hvar : var.type with
          | vector n => rfl
          | aggregate n => simp [hvar, GlslType.isVector] at hvector
    · exact sameValue_refl M s _
  · exact sameValue_refl M s _

/-- A visited rvalue has the channels it had. -/
theorem visitRvalue_eval (e : Rvalue α) :
  (V.visitRvalue e).type = e.type ∧ ∀ c, (V.visitRvalue e).eval M s c = e.eval M s c
  := by
  have hhandled : ∀ e : Rvalue α,
      ((V.visitRvalue e).type = e.type ∧ ∀ c, (V.visitRvalue e).eval M s c = e.eval M s c) →
      SameValue M s (V.handleRvalue (V.visitRvalue e)) e := by
    intro e he
    apply (handleRvalue_sound h _).trans
    exact ⟨he.1, fun c _ => he.2 c⟩
  induction e with
  | constant type value => exact ⟨rfl, fun _ => rfl⟩
  | derefVar v => exact ⟨rfl, fun _ => rfl⟩
  | derefArray type array index iha ihi =>
      refine ⟨rfl, ?_⟩
      intro c
      simp only [Visitor.visitRvalue, Rvalue.eval]
      rw [(hhandled array iha).channels_eq, (hhandled index ihi).channels_eq]
  | derefRecord type record field ih =>
      refine ⟨rfl, ?_⟩
      intro c
      simp only [Visitor.visitRvalue, Rvalue.eval]
      rw [(hhandled record ih).channels_eq]
  | swizzle val mask ih => exact ⟨rfl, fun c => ih.2 _⟩
  | expression type operation n operands ih =>
      refine ⟨rfl, ?_⟩
      intro c
      simp only [Visitor.visitRvalue, Rvalue.eval]
      congr 2
      funext k
      exact (hhandled _ (ih k)).channels_eq
  | texture type op sampler n operands ihs ih =>
      refine ⟨rfl, ?_⟩
      intro c
      simp only [Visitor.visitRvalue, Rvalue.eval]
      rw [ihs.1, channels_congr (fun c _ => ihs.2 c)]
      congr 2
      funext k
      exact (hhandled _ (ih k)).channels_eq

theorem visitRvalue_sound (e : Rvalue α) :
  SameValue M s (V.visitRvalue e) e
  := by
  obtain ⟨htype, heval⟩ := visitRvalue_eval (M := M) h e
  exact ⟨htype, fun c _ => heval c⟩

theorem handled_visitRvalue_sound (e : Rvalue α) :
  SameValue M s (V.handleRvalue (V.visitRvalue e)) e
  := (handleRvalue_sound h _).trans (visitRvalue_sound h e)

theorem visitLhs_same (lhs : Lhs α) :
  Lhs.Same M s (V.visitLhs lhs) lhs
  := by
  induction lhs with
  | var v => exact Lhs.Same.var v
  | array base index ih => exact Lhs.Same.array ih (handled_visitRvalue_sound h index)
  | record base field ih => exact Lhs.Same.record field ih

/-- A visited instruction is the same as before, up to values. -/
theorem visitInstr_same (i : Instr α) :
  Instr.Same M s (V.visitInstr i).1 i
  := by
  cases i with
  | assignment lhs rhs condition writeMask =>
      apply Instr.Same.assignment (visitLhs_same h lhs) (visitRvalue_sound h rhs)
      · intro v c _ _ _
        exact (visitRvalue_eval h rhs).2 _
      · cases condition with
        | none => exact Option.Rel.none
        | some e => exact Option.Rel.some (visitRvalue_sound h e)
  | call callee returnDeref params =>
      apply Instr.Same.call
      rw [List.forall₂_map_left_iff, List.forall₂_same]
      intro p _
      split_ifs with hout
      · exact ⟨rfl, by simp [hout]⟩
      · exact ⟨rfl, by simpa [hout] using visitRvalue_sound h p.actual⟩
  | ret value =>
      apply Instr.Same.ret
      cases value with
      | none => exact Option.Rel.none
      | some e => exact Option.Rel.some (handled_visitRvalue_sound h e)
  | discard condition =>
      apply Instr.Same.discard
      cases condition with
      | none => exact Option.Rel.none
      | some e => exact Option.Rel.some (handled_visitRvalue_sound h e)
  | emitVertex stream => exact Instr.Same.emitVertex (handled_visitRvalue_sound h stream)
  | endPrimitive stream => exact Instr.Same.endPrimitive (handled_visitRvalue_sound h stream)
  | loopJump isBreak => exact Instr.Same.loopJump isBreak

end Rvalues

/-! ### Visited instructions -/

section Instrs

variable {α Mem : Type}

/-- A copy of a variable to itself keeps an entry for a channel only if the source of the channel
is not overwritten by the copy, or is overwritten with what it holds.  The code drops channel `c`
if `chan c` is written; the source of channel `c` is `chan` at the place of `c` in the mask. -/
def SelfCopyFine : Instr α → Prop
  | .assignment lhs rhs none writeMask =>
      ∀ v chan, lhs.asVar = some v → copySource rhs = some (v, chan) →
        ∀ c < 4, writeMask.getLsbD c = true → writeMask.getLsbD (chan c) = false →
          writeMask.getLsbD (chan (writeMask.rank c)) = true →
          chan (writeMask.rank (chan (writeMask.rank c))) = chan (writeMask.rank c)
  | _ => True

/-- What is copied to a vector is a vector. -/
def CopiesVector : Instr α → Prop
  | .assignment lhs rhs _ _ => ∀ v u chan, lhs.asVar = some v → v.type.isVector = true →
      copySource rhs = some (u, chan) → u.type.isVector = true
  | _ => True

theorem eq_var_of_asVar {lhs : Lhs α} {v : Var} (h : lhs.asVar = some v) :
  lhs = .var v
  := by
  cases lhs with
  | var w =>
      cases h
      rfl
  | array base index => cases h
  | record base field => cases h

@[simp]
theorem copySource_visitRvalue (V : Visitor) (e : Rvalue α) :
  copySource (V.visitRvalue e) = copySource e
  := by
  cases e with
  | swizzle val mask => cases val <;> rfl
  | _ => rfl

@[simp]
theorem variableReferenced_visitLhs (V : Visitor) (lhs : Lhs α) :
  (V.visitLhs lhs).variableReferenced = lhs.variableReferenced
  := by
  induction lhs with
  | var v => rfl
  | array base index ih => exact ih
  | record base field ih => exact ih

@[simp]
theorem asVar_visitLhs (V : Visitor) (lhs : Lhs α) :
  (V.visitLhs lhs).asVar = lhs.asVar
  := by
  cases lhs <;> rfl

theorem addCopy_cases (V : Visitor) (lhs : Lhs α) (rhs : Rvalue α)
    (condition : Option (Rvalue α)) (writeMask : Mask) :
  V.addCopy lhs rhs condition writeMask = V ∨
    ∃ v u chan, lhs.asVar = some v ∧ v.type.isVector = true ∧ copySource rhs = some (u, chan) ∧
      condition = none ∧ V.addCopy lhs rhs condition writeMask =
        V.push v u (if v = u then selfMask writeMask chan else writeMask)
          (fun c => chan (writeMask.rank c))
  := by
  unfold Visitor.addCopy
  by_cases hcondition : condition.isSome = true
  · left
    rw [if_pos hcondition]
  · rw [if_neg hcondition]
    split
    · rename_i v u chan hlhs hrhs
      by_cases hv : v.type.isVector = true
      · rw [if_pos hv]
        by_cases hprecise : v.precise ≠ u.precise
        · left
          exact if_pos hprecise
        · right
          refine ⟨v, u, chan, hlhs, hv, hrhs, ?_, if_neg hprecise⟩
          simpa using hcondition
      · left
        exact if_neg hv
    · left
      rfl

/-- The channels that a new entry has are written. -/
theorem getLsbD_of_mask {v u : Var} {writeMask : Mask} {chan : ℕ → ℕ} {c : ℕ}
    (h : (if v = u then selfMask writeMask chan else writeMask).getLsbD c = true) :
  writeMask.getLsbD c = true
  := by
  split_ifs at h
  · rw [getLsbD_selfMask, Bool.and_eq_true] at h
    exact h.1
  · exact h

theorem has_writes_var {v : Var} (hv : v.type.isVector = true) {writeMask : Mask} {c : ℕ}
    (hc : writeMask.getLsbD c = true) (rhs : Rvalue α) (condition : Option (Rvalue α)) :
  Has (Instr.assignment (.var v) rhs condition writeMask).writes v c
  := by
  rw [Instr.writes, Lhs.variableReferenced, if_pos hv, has_cons]
  left
  exact ⟨rfl, Or.inl hc⟩

/-- An assignment kills what it may write. -/
theorem kill_assigned (V : Visitor) (lhs : Lhs α) (rhs : Rvalue α)
    (condition : Option (Rvalue α)) (writeMask : Mask) :
  (if lhs.variableReferenced.type.isVector then
      V.kill (lhs.variableReferenced, if lhs.asVar.isSome then writeMask else BitVec.allOnes 4)
    else V) =
    ((Instr.assignment lhs rhs condition writeMask).writes).foldl Visitor.kill V
  := by
  rw [Instr.writes]
  by_cases hv : lhs.variableReferenced.type.isVector = true
  · rw [if_pos hv, if_pos hv]
    rfl
  · rw [if_neg hv, if_neg hv]
    rfl

theorem visitInstr_assignment (V : Visitor) (lhs : Lhs α) (rhs : Rvalue α)
    (condition : Option (Rvalue α)) (writeMask : Mask) :
  (V.visitInstr (.assignment lhs rhs condition writeMask)).2 =
    (((Instr.assignment lhs rhs condition writeMask).writes).foldl Visitor.kill V).addCopy
      (V.visitLhs lhs) (V.visitRvalue rhs) (condition.map V.visitRvalue) writeMask
  := by
  rw [← kill_assigned]
  simp only [Visitor.visitInstr, variableReferenced_visitLhs, asVar_visitLhs]

/-- What visiting an instruction kills. -/
theorem visitInstr_kills (V : Visitor) (i : Instr α) :
  (∀ v c, Has (V.visitInstr i).2.kills v c ↔ Has V.kills v c ∨ Has i.writes v c) ∧
    (V.visitInstr i).2.killedAll = (V.killedAll || i.isCall)
  := by
  cases i with
  | assignment lhs rhs condition writeMask =>
      have hadd : ∀ (W : Visitor) (lhs' : Lhs α) rhs' condition',
          (W.addCopy lhs' rhs' condition' writeMask).kills = W.kills ∧
            (W.addCopy lhs' rhs' condition' writeMask).killedAll = W.killedAll := by
        intro W lhs' rhs' condition'
        rcases addCopy_cases W lhs' rhs' condition' writeMask with
          h | ⟨v, u, chan, -, -, -, -, h⟩ <;> simp [h, Visitor.push]
      obtain ⟨-, hkills, hall, -⟩ :=
        foldl_kill_spec V (Instr.assignment lhs rhs condition writeMask).writes
      rw [visitInstr_assignment, (hadd _ _ _ _).1, (hadd _ _ _ _).2, hkills, hall]
      simp [Instr.isCall]
  | call callee returnDeref params => simp [Visitor.visitInstr, Instr.writes, Instr.isCall]
  | ret value => simp [Visitor.visitInstr, Instr.writes, Instr.isCall]
  | discard condition => simp [Visitor.visitInstr, Instr.writes, Instr.isCall]
  | emitVertex stream => simp [Visitor.visitInstr, Instr.writes, Instr.isCall]
  | endPrimitive stream => simp [Visitor.visitInstr, Instr.writes, Instr.isCall]
  | loopJump isBreak => simp [Visitor.visitInstr, Instr.writes, Instr.isCall]

/-- A visited instruction writes what it did, and copies what it did. -/
theorem visitInstr_shape (V : Visitor) (i : Instr α) :
  (V.visitInstr i).1.writes = i.writes ∧ (V.visitInstr i).1.isCall = i.isCall ∧
    (SelfCopyFine i → SelfCopyFine (V.visitInstr i).1) ∧
    (CopiesVector i → CopiesVector (V.visitInstr i).1)
  := by
  cases i with
  | assignment lhs rhs condition writeMask =>
      cases condition <;>
        simp [Visitor.visitInstr, Instr.writes, Instr.isCall, SelfCopyFine, CopiesVector]
  | _ => simp [Visitor.visitInstr, Instr.writes, Instr.isCall, SelfCopyFine, CopiesVector]

/-- Visiting an instruction adds, to the lists that another table shares, entries for channels that
the instruction writes. -/
theorem Sound.visitInstr_other {K : List (Var × Mask)} {V : Visitor} {T : Acp} {s : State α Mem}
    (h : Sound K V.heap T s) (i : Instr α) :
  Sound (K ++ i.writes) (V.visitInstr i).2.heap T s
  := by
  have hmono : Sound (K ++ i.writes) V.heap T s := by
    apply h.mono
    intro v c hvc
    exact (has_append _ _ _ _).mpr (Or.inl hvc)
  cases i with
  | assignment lhs rhs condition writeMask =>
      have hkill := hmono.shrinks
        (foldl_kill_spec V (Instr.assignment lhs rhs condition writeMask).writes).2.2.2
      rw [visitInstr_assignment]
      rcases addCopy_cases (((Instr.assignment lhs rhs condition writeMask).writes).foldl
          Visitor.kill V) (V.visitLhs lhs) (V.visitRvalue rhs) (condition.map V.visitRvalue)
          writeMask with hadd | ⟨v, u, chan, hlhs, hv, -, -, hadd⟩
      · rwa [hadd]
      · rw [hadd]
        apply hkill.push_other
        intro c hc
        rw [asVar_visitLhs] at hlhs
        cases eq_var_of_asVar hlhs
        rw [has_append]
        right
        exact has_writes_var hv (getLsbD_of_mask hc) rhs condition
  | _ => exact hmono

/-- The channels of a copied rvalue. -/
theorem eval_copySource [Inhabited α] {M : Meaning α Mem} {s : State α Mem} {e : Rvalue α} {u : Var}
    {chan : ℕ → ℕ} (h : copySource e = some (u, chan)) (c : ℕ) :
  e.eval M s c = s.vars u (chan c)
  := by
  unfold copySource at h
  split at h
  · cases h
    rfl
  · cases h
    rfl
  · cases h

/-- After a copy, the new entry is right. -/
theorem right_of_exec [Inhabited α] {M : Meaning α Mem} {v u : Var} {chan : ℕ → ℕ} {rhs : Rvalue α}
    {writeMask : Mask} (hv : v.type.isVector = true) (hrhs : copySource rhs = some (u, chan))
    (hfine : SelfCopyFine (.assignment (.var v) rhs none writeMask))
    (hvector : CopiesVector (.assignment (.var v) rhs none writeMask)) {s s' : State α Mem}
    (hs' : (Instr.assignment (.var v) rhs none writeMask).exec M s = (.fall, s')) {id c : ℕ}
    (hc : (if v = u then selfMask writeMask chan else writeMask).getLsbD c = true) :
  Right s' v ⟨id, v, u, if v = u then selfMask writeMask chan else writeMask,
    fun c => chan (writeMask.rank c)⟩ c
  := by
  refine ⟨hv, hvector v u chan rfl hv hrhs, ?_⟩
  simp only [Instr.exec, Beh.act_apply, holds, if_true, Prod.mk.injEq, true_and] at hs'
  have hwritten : ∀ d, writeMask.getLsbD d = true →
      s'.vars v d = s.vars u (chan (writeMask.rank d)) := by
    intro d hd
    rw [← hs', Lhs.variableReferenced, State.set_self, ← eval_copySource (M := M) hrhs]
    simp [Lhs.assign, hv, hd]
  have hkept : ∀ d, writeMask.getLsbD d = false → s'.vars v d = s.vars v d := by
    intro d hd
    rw [← hs', Lhs.variableReferenced, State.set_self]
    simp [Lhs.assign, hv, hd]
  rw [hwritten c (getLsbD_of_mask hc)]
  simp only
  by_cases hself : v = u
  · -- the source is not overwritten, or overwritten with itself
    subst hself
    rw [if_pos rfl, getLsbD_selfMask, Bool.and_eq_true, Bool.not_eq_true'] at hc
    cases hd : writeMask.getLsbD (chan (writeMask.rank c)) with
    | true => rw [hwritten _ hd, hfine v chan rfl hrhs c (BitVec.lt_of_getLsbD hc.1) hc.1 hc.2 hd]
    | false => rw [hkept _ hd]
  · rw [← hs', Lhs.variableReferenced, State.set_of_ne s (Ne.symm hself)]

/-- After an instruction, the entries the visitor has then are right. -/
theorem Sound.visitInstr [Inhabited α] {M : Meaning α Mem} {V : Visitor} {s s' : State α Mem}
    (h : Sound [] V.heap V.acp s) {i : Instr α} (hfine : SelfCopyFine i) (hvector : CopiesVector i)
    (hs' : i.exec M s = (.fall, s')) :
  Sound [] (V.visitInstr i).2.heap (V.visitInstr i).2.acp s'
  := by
  cases i with
  | assignment lhs rhs condition writeMask =>
      have hagree := Instr.agree_exec M (i := .assignment lhs rhs condition writeMask) rfl s
      rw [hs'] at hagree
      have hkill := h.foldl_kill (fun v c hvc => absurd hvc (has_nil v c)) hagree
      rw [visitInstr_assignment]
      obtain ⟨hacp, -⟩ := foldl_kill_spec V (Instr.assignment lhs rhs condition writeMask).writes
      rw [← hacp] at hkill
      rcases addCopy_cases (((Instr.assignment lhs rhs condition writeMask).writes).foldl
          Visitor.kill V) (V.visitLhs lhs) (V.visitRvalue rhs) (condition.map V.visitRvalue)
          writeMask with hadd | ⟨v, u, chan, hlhs, hv, hrhs, hcondition, hadd⟩
      · rwa [hadd]
      · rw [hadd]
        rw [asVar_visitLhs] at hlhs
        rw [copySource_visitRvalue] at hrhs
        rw [Option.map_eq_none_iff] at hcondition
        cases eq_var_of_asVar hlhs
        subst hcondition
        apply hkill.push
        intro c hc
        exact right_of_exec hv hrhs hfine hvector hs' hc
  | call callee returnDeref params => exact sound_empty _ _ _
  | ret value => simp [Instr.exec] at hs'
  | discard condition =>
      simp only [Instr.exec] at hs'
      split at hs'
      · simp at hs'
      · cases hs'
        exact h
  | emitVertex stream =>
      cases hs'
      exact h.of_vars_eq rfl
  | endPrimitive stream =>
      cases hs'
      exact h.of_vars_eq rfl
  | loopJump isBreak => cases isBreak <;> simp [Instr.exec] at hs'

end Instrs

/-! ### Visited blocks -/

section Blocks

variable {α Mem ν : Type} [Inhabited α] (M : Meaning α Mem) (n : ℕ)

/-- The visitors that have newly been at a point replace reads by reads of equal value there. -/
def Noted (p p' : Note ν) (t : State α Mem) : Prop :=
  p'.1 = p.1 ∧ ∃ Vs, p'.2 = p.2 ++ Vs ∧ ∀ V ∈ Vs, ∀ e, SameValue M t (V.handleRvalue e) e

/-- What visiting a block does.  `other` is about the tables of the blocks around, which share lists
with the one of the visitor: there may be new entries in these, but for channels the block
writes. -/
structure Visited (b : Block α (Note ν)) (V : Visitor) (b' : Block α (Note ν)) (V' : Visitor) :
    Prop where
  writes : b'.writes = b.writes
  hasCall : b'.hasCall = b.hasCall
  selfCopyFine : b'.All SelfCopyFine
  copiesVector : b'.All CopiesVector
  kills : ∀ v c, Has V'.kills v c ↔ Has V.kills v c ∨ Has b.writes v c
  killedAll : V'.killedAll = (V.killedAll || b.hasCall)
  other : ∀ K T (s : State α Mem), Sound K V.heap T s → Sound (K ++ b.writes) V'.heap T s
  sim : ∀ s, Sound [] V.heap V.acp s →
    Block.Sim M n (Noted M) (Sound [] V'.heap V'.acp) b b' s

variable {M n}

theorem noted_here {V : Visitor} {s : State α Mem} (h : Sound [] V.heap V.acp s) (l : ν)
    (Vs : List Visitor) :
  Noted M (l, Vs) (l, Vs ++ [V]) s
  := by
  refine ⟨rfl, [V], rfl, ?_⟩
  intro W hW e
  cases List.mem_singleton.mp hW
  exact handleRvalue_sound h e

theorem Noted.trans {p p' p'' : Note ν} {t : State α Mem} (h : Noted M p p' t)
    (h' : Noted M p' p'' t) :
  Noted M p p'' t
  := by
  obtain ⟨hl, Vs, hVs, hright⟩ := h
  obtain ⟨hl', Vs', hVs', hright'⟩ := h'
  refine ⟨hl'.trans hl, Vs ++ Vs', ?_, ?_⟩
  · rw [hVs', hVs, List.append_assoc]
  · intro V hV
    rcases List.mem_append.mp hV with hV | hV
    · exact hright V hV
    · exact hright' V hV

omit [Inhabited α] in
/-- After a block inside has been visited, the entries left are right in a state that differs from
one in which they were right by what has been killed. -/
theorem Sound.leave {V inner : Visitor} {K : List (Var × Mask)} {s s' : State α Mem}
    (h : Sound K inner.heap V.acp s) (hK : ∀ v c, Has K v c → Has inner.kills v c)
    (hagree : inner.killedAll = false → Agree inner.kills s s') :
  Sound [] (V.leave inner).heap (V.leave inner).acp s'
  := by
  rw [Visitor.leave, (foldl_kill_spec _ _).1]
  cases hall : inner.killedAll with
  | true =>
      have hacp : (V.back inner).acp = {} := by simp [Visitor.back, hall]
      rw [hacp]
      exact sound_empty _ _ _
  | false =>
      have hacp : (V.back inner).acp = V.acp := by simp [Visitor.back, hall]
      rw [← hacp] at h
      exact Sound.foldl_kill (V := V.back inner) h hK (hagree hall)

theorem leave_kills (V inner : Visitor) :
  (V.leave inner).kills = V.kills ++ inner.kills
  := (foldl_kill_spec (V.back inner) _).2.1

theorem leave_killedAll (V inner : Visitor) :
  (V.leave inner).killedAll = (inner.killedAll || V.killedAll)
  := (foldl_kill_spec (V.back inner) _).2.2.1

theorem leave_shrinks (V inner : Visitor) :
  Shrinks inner.heap (V.leave inner).heap
  := (foldl_kill_spec (V.back inner) _).2.2.2

namespace Visited

variable {b b' : Block α (Note ν)} {V inner : Visitor} {T : Acp}

/-- The entries left after a block inside, in a state in which the block may have left. -/
theorem sound_leave (hb : Visited M n b (V.enter T) b' inner) {s s' : State α Mem}
    (h : Sound [] V.heap V.acp s) (hs' : b.hasCall = false → Agree b.writes s s') :
  Sound [] (V.leave inner).heap (V.leave inner).acp s'
  := by
  have hkills : ∀ v c, Has inner.kills v c ↔ Has b.writes v c := by
    intro v c
    rw [hb.kills]
    simp [Visitor.enter]
  apply (hb.other [] V.acp s h).leave
  · intro v c hvc
    exact (hkills v c).mpr hvc
  · intro hall
    rw [hb.killedAll, Bool.or_eq_false_iff] at hall
    apply (hs' hall.2).mono
    intro v c hvc
    exact (hkills v c).mpr hvc

/-- The tables of the blocks around, after a block inside. -/
theorem other_leave (hb : Visited M n b (V.enter T) b' inner) {K : List (Var × Mask)} {T' : Acp}
    {s : State α Mem} (h : Sound K V.heap T' s) :
  Sound (K ++ b.writes) (V.leave inner).heap T' s
  := (hb.other K T' s h).shrinks (leave_shrinks V inner)

theorem leave_kills_iff (hb : Visited M n b (V.enter T) b' inner) (v : Var) (c : ℕ) :
  Has (V.leave inner).kills v c ↔ Has V.kills v c ∨ Has b.writes v c
  := by
  rw [leave_kills, has_append, hb.kills]
  simp [Visitor.enter]

theorem leave_killedAll_eq (hb : Visited M n b (V.enter T) b' inner) :
  (V.leave inner).killedAll = (V.killedAll || b.hasCall)
  := by
  rw [leave_killedAll, hb.killedAll]
  cases V.killedAll <;> cases b.hasCall <;> rfl

end Visited

section Constructors

variable {l : ν} {Vs : List Visitor} {V V' : Visitor} {rest rest' : Block α (Note ν)}

theorem visited_nil :
  Visited M n (.nil (l, Vs)) V (.nil (l, Vs ++ [V])) V
  := by
  refine ⟨rfl, rfl, trivial, trivial, ?_, ?_, ?_, ?_⟩
  · simp [Block.writes]
  · simp [Block.hasCall]
  · intro K T s h
    rwa [Block.writes, List.append_nil]
  · intro s h
    exact Block.Sim.nil (noted_here h l Vs) h

theorem Visited.instr {i : Instr α} (hfine : SelfCopyFine i) (hvector : CopiesVector i)
    (hrest : Visited M n rest (V.visitInstr i).2 rest' V') :
  Visited M n (.instr (l, Vs) i rest) V (.instr (l, Vs ++ [V]) (V.visitInstr i).1 rest') V'
  := by
  obtain ⟨hwrites, hcall, hfine', hvector'⟩ := visitInstr_shape V i
  obtain ⟨hkills, hall⟩ := visitInstr_kills V i
  refine ⟨?_, ?_, ⟨hfine' hfine, hrest.selfCopyFine⟩, ⟨hvector' hvector, hrest.copiesVector⟩,
    ?_, ?_, ?_, ?_⟩
  · rw [Block.writes, Block.writes, hwrites, hrest.writes]
  · rw [Block.hasCall, Block.hasCall, hcall, hrest.hasCall]
  · intro v c
    rw [hrest.kills, hkills, Block.writes, has_append, or_assoc]
  · rw [hrest.killedAll, hall, Block.hasCall, Bool.or_assoc]
  · intro K T s h
    rw [Block.writes, ← List.append_assoc]
    exact hrest.other _ T s (h.visitInstr_other i)
  · intro s h
    apply Block.Sim.instr (noted_here h l Vs) (visitInstr_same h i).exec_eq
    intro s' hs'
    exact hrest.sim s' (h.visitInstr hfine hvector hs')

theorem Visited.cond {c : Rvalue α} {a a' b b' : Block α (Note ν)} {inner₁ inner₂ : Visitor}
    (ha : Visited M n a (V.enter V.acp) a' inner₁)
    (hb : Visited M n b ((V.leave inner₁).enter (V.leave inner₁).acp) b' inner₂)
    (hrest : Visited M n rest ((V.leave inner₁).leave inner₂) rest' V') :
  Visited M n (.cond (l, Vs) c a b rest) V
    (.cond (l, Vs ++ [V]) (V.visitRvalue c) a' b' rest') V'
  := by
  refine ⟨?_, ?_, ⟨ha.selfCopyFine, hb.selfCopyFine, hrest.selfCopyFine⟩,
    ⟨ha.copiesVector, hb.copiesVector, hrest.copiesVector⟩, ?_, ?_, ?_, ?_⟩
  · rw [Block.writes, Block.writes, ha.writes, hb.writes, hrest.writes]
  · rw [Block.hasCall, Block.hasCall, ha.hasCall, hb.hasCall, hrest.hasCall]
  · intro v c
    rw [hrest.kills, hb.leave_kills_iff, ha.leave_kills_iff, Block.writes, has_append, has_append,
      or_assoc, or_assoc]
  · rw [hrest.killedAll, hb.leave_killedAll_eq, ha.leave_killedAll_eq, Block.hasCall,
      Bool.or_assoc, Bool.or_assoc]
  · intro K T s h
    rw [Block.writes, ← List.append_assoc, ← List.append_assoc]
    exact hrest.other _ T s (hb.other_leave (ha.other_leave h))
  · intro s h
    -- the second branch is visited with what the first one leaves of the table
    have h₁ := ha.sound_leave h (fun _ => Agree.refl _ s)
    apply Block.Sim.cond (noted_here h l Vs) (visitRvalue_sound h c)
    · intro _
      apply (ha.sim s h).with_after
      intro s' hs'
      have hagree : a.hasCall = false → Agree a.writes s s' := by
        intro hcall
        simpa [hs'] using a.agree_run M hcall n s
      exact hb.sound_leave (ha.sound_leave h hagree) (fun _ => Agree.refl _ s')
    · intro _
      apply (hb.sim s h₁).with_after
      intro s' hs'
      apply hb.sound_leave h₁
      intro hcall
      simpa [hs'] using b.agree_run M hcall n s
    · intro s' _ h₂
      exact hrest.sim s' h₂

theorem Visited.loop {body body₁ body₂ : Block α (Note ν)} {inner₁ inner₂ : Visitor}
    (hbody : Visited M n body (V.enter {}) body₁ inner₁)
    (hbody' : Visited M n body₁ ((V.leave inner₁).enter (V.leave inner₁).acp) body₂ inner₂)
    (hrest : Visited M n rest ((V.leave inner₁).leave inner₂) rest' V') :
  Visited M n (.loop (l, Vs) body rest) V (.loop (l, Vs ++ [V]) body₂ rest') V'
  := by
  refine ⟨?_, ?_, ⟨hbody'.selfCopyFine, hrest.selfCopyFine⟩,
    ⟨hbody'.copiesVector, hrest.copiesVector⟩, ?_, ?_, ?_, ?_⟩
  · rw [Block.writes, Block.writes, hbody'.writes, hbody.writes, hrest.writes]
  · rw [Block.hasCall, Block.hasCall, hbody'.hasCall, hbody.hasCall, hrest.hasCall]
  · intro v c
    rw [hrest.kills, hbody'.leave_kills_iff, hbody.leave_kills_iff, Block.writes, has_append,
      hbody.writes]
    tauto
  · rw [hrest.killedAll, hbody'.leave_killedAll_eq, hbody.leave_killedAll_eq, Block.hasCall,
      hbody.hasCall]
    cases V.killedAll <;> cases body.hasCall <;> rfl
  · intro K T s h
    apply (hrest.other _ T s (hbody'.other_leave (hbody.other_leave h))).mono
    intro v c
    rw [hbody.writes, Block.writes]
    simp only [has_append]
    tauto
  · intro s h
    -- the entries that survive the first visit are right wherever a pass starts or the loop ends
    have hkeeps : body.hasCall = false → (body.run M n).Keeps (Agree body.writes) :=
      fun hcall => body.agree_run M hcall n
    have hpass : ∀ s', Beh.Passes (body.run M n) s s' →
        Sound [] (V.leave inner₁).heap (V.leave inner₁).acp s' := by
      intro s' hs'
      apply hbody.sound_leave h
      intro hcall
      exact (hkeeps hcall).passes (Agree.refl _) (fun _ _ _ => Agree.trans) hs'
    apply Block.Sim.loop (noted_here h l Vs)
    · intro s' hs'
      have hsim := hbody.sim s' (sound_empty _ _ _)
      have hsim' := hbody'.sim s' (hpass s' hs')
      have htrans := hsim.trans hsim'
      exact ⟨htrans.run_eq, htrans.after, fun p t hp => by
          obtain ⟨p'', hp'', p', hR, hR'⟩ := htrans.forth p t hp
          exact ⟨p'', hp'', hR.trans hR'⟩,
        fun p'' t hp'' => by
          obtain ⟨p, hp, p', hR, hR'⟩ := htrans.back p'' t hp''
          exact ⟨p, hp, hR.trans hR'⟩⟩
    · intro s' hs'
      apply hrest.sim
      apply hbody'.sound_leave _ (fun _ => Agree.refl _ s')
      apply hbody.sound_leave h
      intro hcall
      have hloop := (hkeeps hcall).loop (Agree.refl _) (fun _ _ _ => Agree.trans) n s
      rwa [hs'] at hloop

end Constructors

/-- Visiting a block in which copies of variables to themselves are fine.  The induction is on the
number of instructions, because the body of a loop is visited again after it has been rewritten. -/
theorem visitBlock_visited (b : Block α (Note ν)) (V : Visitor) (hfine : b.All SelfCopyFine)
    (hvector : b.All CopiesVector) :
  Visited M n b V (visitBlock b V).1.1 (visitBlock b V).2
  := by
  suffices h : ∀ m (b : Block α (Note ν)) V, size b = m → b.All SelfCopyFine →
      b.All CopiesVector → Visited M n b V (visitBlock b V).1.1 (visitBlock b V).2 from
    h _ b V rfl hfine hvector
  intro m
  induction m using Nat.strongRecOn with
  | ind m ih =>
      rintro b V rfl hfine hvector
      cases b with
      | nil note =>
          rw [visitBlock]
          exact visited_nil
      | instr note i rest =>
          rw [visitBlock]
          apply Visited.instr hfine.1 hvector.1
          exact ih (size rest) (by simp only [size]; omega) rest _ rfl hfine.2 hvector.2
      | cond note c a b rest =>
          rw [visitBlock]
          apply Visited.cond
          · exact ih (size a) (by simp only [size]; omega) a _ rfl hfine.1 hvector.1
          · exact ih (size b) (by simp only [size]; omega) b _ rfl hfine.2.1 hvector.2.1
          · exact ih (size rest) (by simp only [size]; omega) rest _ rfl hfine.2.2 hvector.2.2
      | loop note body rest =>
          rw [visitBlock]
          have hbody := ih (size body) (by simp only [size]; omega) body (V.enter {}) rfl hfine.1
            hvector.1
          apply Visited.loop hbody
          · exact ih (size body) (by simp only [size]; omega) _ _
              (visitBlock body (V.enter {})).1.2 hbody.selfCopyFine hbody.copiesVector
          · exact ih (size rest) (by simp only [size]; omega) rest _ rfl hfine.2 hvector.2

omit [Inhabited α] in
theorem start_all {P : Instr α → Prop} {b : Block α ν} (h : b.All P) :
  (start b).All P
  := by
  induction b with
  | nil l => trivial
  | instr l i rest ih => exact ⟨h.1, ih h.2⟩
  | cond l c a b rest iha ihb ih => exact ⟨iha h.1, ihb h.2.1, ih h.2.2⟩
  | loop l body rest ihb ih => exact ⟨ihb h.1, ih h.2⟩

/-- With nothing noted yet, a block goes as it does. -/
theorem start_sim (b : Block α ν) (s : State α Mem) :
  Block.Sim M n (fun l p _ => p = (l, [])) (fun _ => True) b (start b) s
  := by
  induction b generalizing s with
  | nil l => exact Block.Sim.nil rfl trivial
  | instr l i rest ih => exact Block.Sim.instr rfl rfl (fun s' _ => ih s')
  | cond l c a b rest iha ihb ih =>
      exact Block.Sim.cond rfl (sameValue_refl M s c) (fun _ => iha s) (fun _ => ihb s)
        (fun s' _ _ => ih s')
  | loop l body rest ihb ih => exact Block.Sim.loop rfl (fun s' _ => ihb s') (fun s' _ => ih s')

omit [Inhabited α] in
theorem copiesVector_of_valid {b : Block α ν} (h : b.Valid) :
  b.All CopiesVector
  := by
  induction b with
  | nil l => trivial
  | instr l i rest ih =>
      refine ⟨?_, ih h.2⟩
      cases i with
      | assignment lhs rhs condition writeMask =>
          obtain ⟨-, hrhs, -, hmask⟩ := h.1
          intro v u chan hlhs hv hsource
          unfold copySource at hsource
          split at hsource
          · cases hsource
            exact (hmask v (eq_var_of_asVar hlhs) hv).1
          · cases hsource
            exact hrhs.2.1
          · cases hsource
      | _ => trivial
  | cond l c a b rest iha ihb ih => exact ⟨iha h.2.1, ihb h.2.2.1, ih h.2.2.2⟩
  | loop l body rest ihb ih => exact ⟨ihb h.1, ih h.2⟩

/-- If copies of variables to themselves are fine, then `do_copy_propagation_elements` replaces
reads by reads of equal value: at every point and in every state in which an execution arrives
there, each visitor that has been at the point replaces rvalues by ones of the same value.  The
executions are those of the body as it was. -/
theorem doCopyPropagationElements_sound {body : Block α ν} (hbody : body.Valid)
    (hself : body.All SelfCopyFine) (n : ℕ) (s : State α Mem) :
  (doCopyPropagationElements body).run M n s = body.run M n s ∧
    (∀ l t, body.Reaches M n s l t →
      ∃ Vs, (doCopyPropagationElements body).Reaches M n s (l, Vs) t) ∧
    ∀ l Vs t, (doCopyPropagationElements body).Reaches M n s (l, Vs) t →
      body.Reaches M n s l t ∧ ∀ V ∈ Vs, ∀ e, SameValue M t (V.handleRvalue e) e
  := by
  have hvisited := visitBlock_visited (M := M) (n := n) (start body) {} (start_all hself)
    (start_all (copiesVector_of_valid hbody))
  have hsim := (start_sim body s).trans (hvisited.sim s (sound_empty _ _ _))
  refine ⟨hsim.run_eq, ?_, ?_⟩
  · intro l t hl
    obtain ⟨⟨l', Vs⟩, hreach, p, rfl, rfl, -⟩ := hsim.forth l t hl
    exact ⟨Vs, hreach⟩
  · intro l Vs t hl
    obtain ⟨l', hreach, p, rfl, rfl, Vs', rfl, hright⟩ := hsim.back (l, Vs) t hl
    exact ⟨hreach, hright⟩

end Blocks

/-- A channel of a vector. -/
def chan (v : Var) (c : ℕ) : Rvalue ℕ := .swizzle (.derefVar v) ⟨fun _ => c, 1⟩

/-- Two channels of a vector are exchanged, two others are copied to another one, and a copy is read
in a loop that ends in the first pass. -/
def exchange : Block ℕ ℕ :=
  .instr 0 (.assignment (.var (vec4 0))
    (.swizzle (.derefVar (vec4 0)) ⟨fun i => if i = 0 then 1 else 0, 2⟩) none 3#4) <|
  .instr 1 (.assignment (.var (vec4 1))
    (.swizzle (.derefVar (vec4 0)) ⟨fun i => if i = 0 then 3 else 2, 2⟩) none 6#4) <|
  .loop 2
    (.instr 3 (.assignment (.var (vec4 2))
        (.expression (.vector 1) 0 1 fun _ => chan (vec4 1) 2) none 1#4) <|
      .instr 4 (.loopJump true) <|
      .nil 5) <|
  .nil 6

theorem doCopyPropagationElements_exchange :
  exchange.Valid ∧ exchange.All SelfCopyFine ∧
    (doCopyPropagationElements exchange).run sumMeaning 1 ⟨fun v c => v.id + c, ()⟩ =
      exchange.run sumMeaning 1 ⟨fun v c => v.id + c, ()⟩
  := by
  have hvalid : exchange.Valid := by
    simp [exchange, chan, vec4, Block.Valid, Instr.Valid, Lhs.Valid, Rvalue.Valid, Rvalue.type,
      Mask.rank, GlslType.components, GlslType.isVector, List.range, List.range.loop]
    decide
  have hself : exchange.All SelfCopyFine := by
    simp only [exchange, Block.All, SelfCopyFine, Lhs.asVar, copySource, Option.some.injEq,
      Prod.mk.injEq, reduceCtorEq, and_true, and_imp]
    refine ⟨?_, ?_, ?_⟩
    · rintro _ _ rfl - rfl
      decide
    · rintro _ _ rfl h
      exact absurd h (by decide)
    · simp
  exact ⟨hvalid, hself, (doCopyPropagationElements_sound hvalid hself 1 _).1⟩

/-- `v.yz = v.xy`, and then a read of `v.z`. -/
def shift : Block ℕ ℕ :=
  .instr 0 (.assignment (.var (vec4 0))
    (.swizzle (.derefVar (vec4 0)) ⟨fun i => if i = 1 then 1 else 0, 2⟩) none 6#4) <|
  .instr 1 (.assignment (.var (vec4 1))
    (.expression (.vector 1) 0 1 fun _ => chan (vec4 0) 2) none 1#4) <|
  .nil 2

/-- The read is replaced by one of `v.y`, which by then has been overwritten. -/
theorem doCopyPropagationElements_shift :
  ¬ ∀ body : Block ℕ ℕ, body.Valid → ∀ n s,
    (doCopyPropagationElements body).run sumMeaning n s = body.run sumMeaning n s
  := by
  intro hall
  have hvalid : shift.Valid := by
    simp [shift, chan, vec4, Block.Valid, Instr.Valid, Lhs.Valid, Rvalue.Valid, Rvalue.type,
      Mask.rank, GlslType.components, GlslType.isVector, List.range, List.range.loop]
    decide
  have h := hall shift hvalid 0 ⟨fun _ c => c, ()⟩
  have hvisited : ((doCopyPropagationElements shift).run sumMeaning 0
      ⟨fun _ c => c, ()⟩).2.vars (vec4 1) 0 = 0 := by
    simp only [doCopyPropagationElements, shift, start, visitBlock]
    rfl
  have horiginal : (shift.run sumMeaning 0 ⟨fun _ c => c, ()⟩).2.vars (vec4 1) 0 = 1 := by
    rfl
  rw [h, horiginal] at hvisited
  exact Nat.one_ne_zero hvisited

end CopyPropagation

end Glsl
