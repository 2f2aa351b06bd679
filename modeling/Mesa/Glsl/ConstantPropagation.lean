import Mathlib.Data.List.Forall2
import Mesa.Glsl.Ir

/-!
# Propagation of constants

`do_constant_propagation` visits the instructions of a function body with a list of available
constants.  An entry of the list says that some channels of a variable hold components of a
constant.  It is made by an assignment, and loses channels to later ones: `kill` clears them in the
list and notes them, so that they can be cleared in the list of the enclosing block too.

The soundness theorem says that wherever an execution arrives, the entries the visitor has there
are right, so that what is replaced has the value it is replaced by.
-/

namespace Glsl

open Flow

namespace ConstantPropagation

/-! ### The visitor -/

/-- `acp_entry`: the channels in `writeMask` hold components of the constant, which has one for
each channel in `initialValues`. -/
structure AcpEntry (α : Type) where
  var : Var
  constant : List α
  writeMask : Mask
  initialValues : Mask
  isVector : var.type.isVector = true

/-- `ir_constant_propagation_visitor` -/
structure Visitor (α : Type) where
  /-- The available constants. -/
  acp : List (AcpEntry α) := []
  /-- The channels killed in this block. -/
  kills : List (Var × Mask) := []
  killedAll : Bool := false

section Visitor

variable {α ν : Type} [Inhabited α]

/-- Clear some channels of a variable in an entry, which is removed when none is left. -/
def AcpEntry.clear (var : Var) (writeMask : Mask) (e : AcpEntry α) : Option (AcpEntry α) :=
  if e.var = var then
    if e.writeMask &&& ~~~writeMask = 0 then none
    else some { e with writeMask := e.writeMask &&& ~~~writeMask }
  else some e

/-- Add a mask to the table of killed variables, which has one entry for each of them. -/
def addKill (var : Var) (writeMask : Mask) : List (Var × Mask) → List (Var × Mask)
  | [] => [(var, writeMask)]
  | k :: kills =>
      if k.1 = var then (k.1, k.2 ||| writeMask) :: kills else k :: addKill var writeMask kills

/-- `kill` -/
def Visitor.kill (V : Visitor α) (var : Var) (writeMask : Mask) : Visitor α :=
  if var.type.isVector then
    { V with
      acp := V.acp.filterMap (AcpEntry.clear var writeMask)
      kills := addKill var writeMask V.kills }
  else V

/-- `add_constant` -/
def Visitor.addConstant (V : Visitor α) (lhs : Lhs α) (rhs : Rvalue α)
    (condition : Option (Rvalue α)) (writeMask : Mask) : Visitor α :=
  if condition.isSome then V
  else if writeMask = 0 then V
  else
    match lhs, rhs with
    | .var v, .constant _ value =>
        if h : v.type.isVector = true then
          if v.mode = .shaderStorage ∨ v.mode = .shaderShared then V
          else { V with acp := V.acp ++ [⟨v, value, writeMask, writeMask, h⟩] }
        else V
    | _, _ => V

/-- The constant that a channel of a variable is known to hold. -/
def channelValue (acp : List (AcpEntry α)) (v : Var) (channel : ℕ) : Option α :=
  (acp.find? fun e => e.var = v ∧ e.writeMask.getLsbD channel).map
    fun found => found.constant.getD (found.initialValues.rank channel) default

/-- The constant of a type whose components are those that channels of a variable are known to
hold, if all of them are known. -/
def constantOf (acp : List (AcpEntry α)) (type : GlslType) (v : Var) (channel : ℕ → ℕ) :
    Option (Rvalue α) :=
  if (List.range type.components).all fun i => (channelValue acp v (channel i)).isSome then
    some (.constant type
      (channels type.components fun i => (channelValue acp v (channel i)).getD default))
  else none

/-- `constant_propagation`: what an rvalue is replaced by. -/
def constantPropagation (acp : List (AcpEntry α)) (e : Rvalue α) : Option (Rvalue α) :=
  if e.type.isVector then
    match e with
    | .derefVar v => constantOf acp e.type v (fun i => i)
    | .swizzle (.derefVar v) mask => constantOf acp e.type v mask.chan
    | _ => none
  else none

-- `fold e` is what `constant_folding` replaces `e` by, if it does
variable (fold : Rvalue α → Option (Rvalue α))

/-- `handle_rvalue`: what an rvalue is replaced by. -/
def handleRvalue (acp : List (AcpEntry α)) (e : Rvalue α) : Option (Rvalue α) :=
  match constantPropagation acp e with
  | some e' => some ((fold e').getD e')
  | none => fold e

/-- An rvalue after `handle_rvalue`. -/
def handled (acp : List (AcpEntry α)) (e : Rvalue α) : Rvalue α :=
  (handleRvalue fold acp e).getD e

/-- Visit an rvalue: `handle_rvalue` is called for those inside of it. -/
def visitRvalue (acp : List (AcpEntry α)) : Rvalue α → Rvalue α
  | .constant type value => .constant type value
  | .derefVar v => .derefVar v
  | .derefArray type array index => .derefArray type
      (handled fold acp (visitRvalue acp array)) (handled fold acp (visitRvalue acp index))
  | .derefRecord type record field =>
      .derefRecord type (handled fold acp (visitRvalue acp record)) field
  | .swizzle val mask => .swizzle (handled fold acp (visitRvalue acp val)) mask
  | .expression type operation n operands => .expression type operation n
      (fun k => handled fold acp (visitRvalue acp (operands k)))
  | .texture type op sampler n operands => .texture type op (visitRvalue acp sampler) n
      (fun k => handled fold acp (visitRvalue acp (operands k)))

/-- Visit what is assigned to: only the indices are rvalues. -/
def visitLhs (acp : List (AcpEntry α)) : Lhs α → Lhs α
  | .var v => .var v
  | .array base index => .array (visitLhs acp base) (handled fold acp (visitRvalue fold acp index))
  | .record base field => .record (visitLhs acp base) field

/-- Visit a parameter of a call. -/
def visitParam (acp : List (AcpEntry α)) (p : Param α) : Param α :=
  if p.out then p
  else { p with actual := (handleRvalue fold acp p.actual).getD (visitRvalue fold acp p.actual) }

/-- Visit an instruction without instructions inside. -/
def visitInstr (V : Visitor α) : Instr α → Instr α × Visitor α
  | .assignment lhs rhs condition writeMask =>
      let lhs' := visitLhs fold V.acp lhs
      let rhs' := (fold (visitRvalue fold V.acp rhs)).getD (visitRvalue fold V.acp rhs)
      let condition' := condition.map (visitRvalue fold V.acp)
      -- an index may select any channel of a vector
      let killMask := if lhs'.isArray then BitVec.allOnes 4 else writeMask
      (.assignment lhs' rhs' condition' writeMask,
        (V.kill lhs'.variableReferenced killMask).addConstant lhs' rhs' condition' writeMask)
  | .call callee returnDeref params =>
      (.call callee returnDeref (params.map (visitParam fold V.acp)),
        { V with acp := [], killedAll := true })
  | .ret value => (.ret (value.map fun e => handled fold V.acp (visitRvalue fold V.acp e)), V)
  | .discard condition =>
      (.discard (condition.map fun e => handled fold V.acp (visitRvalue fold V.acp e)), V)
  | .emitVertex stream => (.emitVertex (handled fold V.acp (visitRvalue fold V.acp stream)), V)
  | .endPrimitive stream => (.endPrimitive (handled fold V.acp (visitRvalue fold V.acp stream)), V)
  | .loopJump isBreak => (.loopJump isBreak, V)

/-- What is left of a visitor after a block inside has been visited by another one: the end of
`handle_if_block` and of `visit_enter(ir_loop *)`. -/
def Visitor.leave (V inner : Visitor α) : Visitor α :=
  inner.kills.foldl (fun W k => W.kill k.1 k.2)
    { acp := if inner.killedAll then [] else V.acp
      kills := V.kills
      killedAll := inner.killedAll || V.killedAll }

/-- Visit a block.  Each point is noted together with the constants available there. -/
def visitBlock : Block α ν → Visitor α → Block α (ν × List (AcpEntry α)) × Visitor α
  | .nil note, V => (.nil (note, V.acp), V)
  | .instr note i rest, V =>
      let (i', V₁) := visitInstr fold V i
      let (rest', V₂) := visitBlock rest V₁
      (.instr (note, V.acp) i' rest', V₂)
  | .cond note condition thenInstructions elseInstructions rest, V =>
      let condition' := handled fold V.acp (visitRvalue fold V.acp condition)
      let (then', inner₁) := visitBlock thenInstructions { acp := V.acp }
      let V₁ := V.leave inner₁
      let (else', inner₂) := visitBlock elseInstructions { acp := V₁.acp }
      let (rest', V₂) := visitBlock rest (V₁.leave inner₂)
      (.cond (note, V.acp) condition' then' else' rest', V₂)
  | .loop note body rest, V =>
      -- the initial list for loops is totally empty
      let (body', inner) := visitBlock body {}
      let (rest', V₁) := visitBlock rest (V.leave inner)
      (.loop (note, V.acp) body' rest', V₁)

/-- `do_constant_propagation` on the body of a function. -/
def doConstantPropagation (body : Block α ν) : Block α (ν × List (AcpEntry α)) :=
  (visitBlock fold body {}).1

end Visitor

/-! ### Kills -/

section Kills

variable {α ν : Type}

/-- An entry is another one with some channels cleared. -/
structure AcpEntry.Below (e' e : AcpEntry α) : Prop where
  var : e'.var = e.var
  constant : e'.constant = e.constant
  initialValues : e'.initialValues = e.initialValues
  writeMask : ∀ c, e'.writeMask.getLsbD c = true → e.writeMask.getLsbD c = true

theorem AcpEntry.Below.refl (e : AcpEntry α) :
  e.Below e
  := ⟨rfl, rfl, rfl, fun _ h => h⟩

theorem AcpEntry.Below.trans {e e' e'' : AcpEntry α} (h : e''.Below e') (h' : e'.Below e) :
  e''.Below e
  := ⟨h.var.trans h'.var, h.constant.trans h'.constant, h.initialValues.trans h'.initialValues,
      fun c hc => h'.writeMask c (h.writeMask c hc)⟩

/-- The entries of a list are those of another one, without the channels among some masked
variables. -/
def Cleared (kills : List (Var × Mask)) (acp acp' : List (AcpEntry α)) : Prop :=
  ∀ e' ∈ acp', ∃ e ∈ acp, e'.Below e ∧
    ∀ c, e'.writeMask.getLsbD c = true → ¬Has kills e.var c

theorem cleared_nil (acp : List (AcpEntry α)) :
  Cleared [] acp acp
  := by
  intro e he
  exact ⟨e, he, AcpEntry.Below.refl e, fun c _ => has_nil e.var c⟩

theorem has_addKill (var : Var) (writeMask : Mask) (kills : List (Var × Mask)) (v : Var) (c : ℕ) :
  Has (addKill var writeMask kills) v c ↔
    (var = v ∧ writeMask.Covers c) ∨ Has kills v c
  := by
  induction kills with
  | nil => simp [addKill]
  | cons k kills ih =>
      rw [addKill]
      split_ifs with h
      · subst h
        simp only [has_cons, Mask.Covers, BitVec.getLsbD_or, Bool.or_eq_true]
        tauto
      · simp only [has_cons, ih]
        tauto

theorem cleared_kill (V : Visitor α) {var : Var} (hvar : var.type.isVector = true)
    (writeMask : Mask) :
  Cleared [(var, writeMask)] V.acp (V.kill var writeMask).acp
  := by
  intro e' he'
  simp only [Visitor.kill, hvar, if_true, List.mem_filterMap] at he'
  obtain ⟨e, he, hclear⟩ := he'
  refine ⟨e, he, ?_⟩
  rw [AcpEntry.clear] at hclear
  split_ifs at hclear with hv hzero
  · cases hclear
    refine ⟨⟨rfl, rfl, rfl, ?_⟩, ?_⟩
    · intro c hc
      rw [BitVec.getLsbD_and, Bool.and_eq_true] at hc
      exact hc.1
    · intro c hc
      have hc4 : c < 4 := BitVec.lt_of_getLsbD hc
      simp only [BitVec.getLsbD_and, BitVec.getLsbD_not, hc4, decide_true, Bool.true_and,
        Bool.and_eq_true, Bool.not_eq_true'] at hc
      rw [has_cons, Mask.Covers]
      rintro (⟨-, hmask | hmask⟩ | hmask)
      · rw [hc.2] at hmask
        exact Bool.false_ne_true hmask
      · omega
      · exact has_nil _ _ hmask
  · cases hclear
    refine ⟨AcpEntry.Below.refl _, ?_⟩
    intro c _
    simp [Ne.symm hv]

theorem kill_kills (V : Visitor α) {var : Var} (hvar : var.type.isVector = true)
    (writeMask : Mask) :
  (V.kill var writeMask).kills = addKill var writeMask V.kills
  := by
  simp [Visitor.kill, hvar]

theorem kill_of_not_isVector (V : Visitor α) {var : Var} (hvar : var.type.isVector = false)
    (writeMask : Mask) :
  V.kill var writeMask = V
  := by
  simp [Visitor.kill, hvar]

@[simp]
theorem kill_killedAll (V : Visitor α) (var : Var) (writeMask : Mask) :
  (V.kill var writeMask).killedAll = V.killedAll
  := by
  rw [Visitor.kill]
  split <;> rfl

/-- Kills, one after the other. -/
theorem foldl_kill_spec (V : Visitor α) (kills : List (Var × Mask)) :
  (∀ v c, v.type.isVector = true → (Has (kills.foldl (fun W k => W.kill k.1 k.2) V).kills v c ↔
      Has V.kills v c ∨ Has kills v c)) ∧
    (kills.foldl (fun W k => W.kill k.1 k.2) V).killedAll = V.killedAll ∧
    Cleared kills V.acp (kills.foldl (fun W k => W.kill k.1 k.2) V).acp
  := by
  induction kills generalizing V with
  | nil => exact ⟨by simp, rfl, cleared_nil V.acp⟩
  | cons k kills ih =>
      obtain ⟨hkills, hall, hcleared⟩ := ih (V.kill k.1 k.2)
      cases hk : k.1.type.isVector with
      | true =>
          refine ⟨?_, ?_, ?_⟩
          · intro v c hv
            rw [List.foldl_cons, hkills v c hv, kill_kills V hk, has_addKill, has_cons]
            tauto
          · rw [List.foldl_cons, hall, kill_killedAll]
          · intro e'' he''
            obtain ⟨e', he', hbelow', hnot'⟩ := hcleared e'' he''
            obtain ⟨e, he, hbelow, hnot⟩ := cleared_kill V hk k.2 e' he'
            refine ⟨e, he, hbelow'.trans hbelow, ?_⟩
            intro c hc
            rw [has_cons]
            rintro (hhas | hhas)
            · exact hnot c (hbelow'.writeMask c hc) ((has_cons _ _ _ _).mpr (Or.inl hhas))
            · exact hnot' c hc (hbelow.var ▸ hhas)
      | false =>
          rw [kill_of_not_isVector V hk] at hkills hall hcleared
          refine ⟨?_, ?_, ?_⟩
          · intro v c hv
            rw [List.foldl_cons, kill_of_not_isVector V hk, hkills v c hv, has_cons]
            have hne : k.1 ≠ v := by
              rintro rfl
              simp [hk] at hv
            simp [hne]
          · rw [List.foldl_cons, kill_of_not_isVector V hk, hall]
          · intro e' he'
            rw [List.foldl_cons, kill_of_not_isVector V hk] at he'
            obtain ⟨e, he, hbelow, hnot⟩ := hcleared e' he'
            refine ⟨e, he, hbelow, ?_⟩
            intro c hc
            rw [has_cons]
            rintro (⟨hvar, -⟩ | hhas)
            · have hv := e.isVector
              rw [← hvar, hk] at hv
              exact Bool.false_ne_true hv
            · exact hnot c hc hhas

end Kills

/-! ### Replaced rvalues -/

section Sound

variable {α Mem ν : Type} [Inhabited α] {M : Meaning α Mem}

/-- Every live channel of every entry holds what the entry says. -/
def Holds (acp : List (AcpEntry α)) (s : State α Mem) : Prop :=
  ∀ e ∈ acp, ∀ c, e.writeMask.getLsbD c = true →
    s.vars e.var c = e.constant.getD (e.initialValues.rank c) default

/-- A channel that is known to hold a constant holds it. -/
theorem channelValue_eq {acp : List (AcpEntry α)} {s : State α Mem} (h : Holds acp s) {v : Var}
    {channel : ℕ} {a : α} (ha : channelValue acp v channel = some a) :
  s.vars v channel = a
  := by
  rw [channelValue, Option.map_eq_some_iff] at ha
  obtain ⟨e, he, rfl⟩ := ha
  have hfound := List.find?_some he
  simp only [Bool.decide_and, Bool.decide_eq_true, Bool.and_eq_true, decide_eq_true_eq] at hfound
  obtain ⟨rfl, hmask⟩ := hfound
  exact h e (List.mem_of_find?_eq_some he) channel hmask

theorem constantOf_eval {acp : List (AcpEntry α)} {s : State α Mem} (h : Holds acp s)
    {type : GlslType} {v : Var} {channel : ℕ → ℕ} {e' : Rvalue α}
    (he' : constantOf acp type v channel = some e') :
  e'.type = type ∧ ∀ c < type.components, e'.eval M s c = s.vars v (channel c)
  := by
  rw [constantOf] at he'
  split_ifs at he' with hall
  cases he'
  refine ⟨rfl, ?_⟩
  intro c hc
  simp only [List.all_eq_true, List.mem_range] at hall
  obtain ⟨a, ha⟩ := Option.isSome_iff_exists.mp (hall c hc)
  rw [channelValue_eq h ha]
  simp [Rvalue.eval, channels, List.getElem?_range hc, ha]

/-- A dereference or a swizzle that is replaced has the value of the constant it is replaced by. -/
theorem constantPropagation_sound {acp : List (AcpEntry α)} {s : State α Mem} (h : Holds acp s)
    {e e' : Rvalue α} (he' : constantPropagation acp e = some e') :
  SameValue M s e' e
  := by
  unfold constantPropagation at he'
  split_ifs at he' with htype
  split at he'
  · exact constantOf_eval h he'
  · exact constantOf_eval h he'
  · cases he'

variable {fold : Rvalue α → Option (Rvalue α)}

variable (M fold) in
/-- In a state, what is folded has the value it had. -/
def Folds (s : State α Mem) : Prop := ∀ e e', fold e = some e' → SameValue M s e' e

theorem getD_fold_sound {s : State α Mem} (hfold : Folds M fold s) (e : Rvalue α) :
  SameValue M s ((fold e).getD e) e
  := by
  cases he : fold e with
  | none => exact sameValue_refl M s e
  | some e' => exact hfold e e' he

theorem handleRvalue_sound {acp : List (AcpEntry α)} {s : State α Mem}
    (hfold : Folds M fold s) (h : Holds acp s)
    {e e' : Rvalue α} (he' : handleRvalue fold acp e = some e') :
  SameValue M s e' e
  := by
  rw [handleRvalue] at he'
  split at he'
  · rename_i e₁ he₁
    cases he'
    exact (getD_fold_sound hfold e₁).trans (constantPropagation_sound h he₁)
  · exact hfold e e' he'

theorem handled_sound {acp : List (AcpEntry α)} {s : State α Mem}
    (hfold : Folds M fold s) (h : Holds acp s)
    (e : Rvalue α) :
  SameValue M s (handled fold acp e) e
  := by
  rw [handled]
  cases he : handleRvalue fold acp e with
  | none => exact sameValue_refl M s e
  | some e' => exact handleRvalue_sound hfold h he

/-- A visited rvalue has the value it had. -/
theorem visitRvalue_sound {acp : List (AcpEntry α)} {s : State α Mem}
    (hfold : Folds M fold s) (h : Holds acp s)
    {e : Rvalue α} (he : e.Valid) :
  SameValue M s (visitRvalue fold acp e) e
  := by
  have hhandled : ∀ e : Rvalue α, SameValue M s (visitRvalue fold acp e) e →
      SameValue M s (handled fold acp (visitRvalue fold acp e)) e := by
    intro e hvisit
    exact (handled_sound hfold h _).trans hvisit
  induction e with
  | constant type value => exact sameValue_refl M s _
  | derefVar v => exact sameValue_refl M s _
  | derefArray type array index iha ihi =>
      refine ⟨rfl, ?_⟩
      intro c _
      simp only [visitRvalue, Rvalue.eval]
      rw [(hhandled array (iha he.1)).channels_eq, (hhandled index (ihi he.2)).channels_eq]
  | derefRecord type record field ih =>
      refine ⟨rfl, ?_⟩
      intro c _
      simp only [visitRvalue, Rvalue.eval]
      rw [(hhandled record (ih he)).channels_eq]
  | swizzle val mask ih =>
      refine ⟨rfl, ?_⟩
      intro c hc
      exact (hhandled val (ih he.1)).2 _ (he.2.2 c hc)
  | expression type operation n operands ih =>
      refine ⟨rfl, ?_⟩
      intro c _
      simp only [visitRvalue, Rvalue.eval]
      congr 2
      funext k
      exact (hhandled _ (ih k (he k))).channels_eq
  | texture type op sampler n operands ihs ih =>
      refine ⟨rfl, ?_⟩
      intro c _
      simp only [visitRvalue, Rvalue.eval]
      rw [(ihs he.1).channels_eq]
      congr 2
      funext k
      exact (hhandled _ (ih k (he.2 k))).channels_eq

theorem handled_visitRvalue_sound {acp : List (AcpEntry α)} {s : State α Mem}
    (hfold : Folds M fold s) (h : Holds acp s)
    {e : Rvalue α} (he : e.Valid) :
  SameValue M s (handled fold acp (visitRvalue fold acp e)) e
  := (handled_sound hfold h _).trans (visitRvalue_sound hfold h he)

/-! ### Visited instructions -/

/-- Where the killed channels are the only ones that change, what is left of the list still
holds. -/
theorem Holds.of_cleared {acp acp' : List (AcpEntry α)} {kills : List (Var × Mask)}
    {s s' : State α Mem} (h : Holds acp s) (hcleared : Cleared kills acp acp')
    (hagree : Agree kills s s') :
  Holds acp' s'
  := by
  intro e' he' c hc
  obtain ⟨e, he, hbelow, hnot⟩ := hcleared e' he'
  rw [hbelow.var, hbelow.constant, hbelow.initialValues]
  rw [hagree e.var c e.isVector (hnot c hc)]
  exact h e he c (hbelow.writeMask c hc)

@[simp]
theorem variableReferenced_visitLhs (acp : List (AcpEntry α)) (lhs : Lhs α) :
  (visitLhs fold acp lhs).variableReferenced = lhs.variableReferenced
  := by
  induction lhs with
  | var v => rfl
  | array base index ih => exact ih
  | record base field ih => exact ih

theorem visitLhs_same {acp : List (AcpEntry α)} {s : State α Mem}
    (hfold : Folds M fold s) (h : Holds acp s)
    {lhs : Lhs α} (hlhs : lhs.Valid) :
  Lhs.Same M s (visitLhs fold acp lhs) lhs
  := by
  induction lhs with
  | var v => exact Lhs.Same.var v
  | array base index ih =>
      exact Lhs.Same.array (ih hlhs.1) (handled_visitRvalue_sound hfold h hlhs.2)
  | record base field ih => exact Lhs.Same.record field (ih hlhs.1)

theorem visitParam_same {acp : List (AcpEntry α)} {s : State α Mem}
    (hfold : Folds M fold s) (h : Holds acp s)
    {p : Param α} (hp : p.actual.Valid) :
  Param.Same M s (visitParam fold acp p) p
  := by
  rw [visitParam]
  split_ifs with hout
  · exact ⟨rfl, by simp [hout]⟩
  · refine ⟨rfl, ?_⟩
    simp only [hout, Bool.false_eq_true, if_false]
    cases he : handleRvalue fold acp p.actual with
    | none => exact visitRvalue_sound hfold h hp
    | some e' => exact handleRvalue_sound hfold h he

/-- A visited instruction is the same as before, up to values. -/
theorem visitInstr_same {V : Visitor α} {s : State α Mem} (hfold : Folds M fold s)
    (h : Holds V.acp s) {i : Instr α} (hi : i.Valid) :
  Instr.Same M s (visitInstr fold V i).1 i
  := by
  have hhandled : ∀ e : Rvalue α, e.Valid →
      SameValue M s (handled fold V.acp (visitRvalue fold V.acp e)) e :=
    fun e he => handled_visitRvalue_sound hfold h he
  cases i with
  | assignment lhs rhs condition writeMask =>
      obtain ⟨hlhs, hrhs, hcondition, hmask⟩ := hi
      have hsame := (getD_fold_sound hfold _).trans (visitRvalue_sound hfold h hrhs)
      apply Instr.Same.assignment (visitLhs_same hfold h hlhs) hsame
      · intro v c hv hvector hc
        apply hsame.2
        rw [← (hmask v hv hvector).2]
        exact Mask.rank_lt hc
      · cases condition with
        | none => exact Option.Rel.none
        | some e => exact Option.Rel.some (visitRvalue_sound hfold h (hcondition e rfl))
  | call callee returnDeref params =>
      apply Instr.Same.call
      rw [List.forall₂_map_left_iff, List.forall₂_same]
      intro p hp
      exact visitParam_same hfold h (hi p hp)
  | ret value =>
      apply Instr.Same.ret
      cases value with
      | none => exact Option.Rel.none
      | some e => exact Option.Rel.some (hhandled e (hi e rfl))
  | discard condition =>
      apply Instr.Same.discard
      cases condition with
      | none => exact Option.Rel.none
      | some e => exact Option.Rel.some (hhandled e (hi e rfl))
  | emitVertex stream => exact Instr.Same.emitVertex (hhandled stream hi)
  | endPrimitive stream => exact Instr.Same.endPrimitive (hhandled stream hi)
  | loopJump isBreak => exact Instr.Same.loopJump isBreak

omit [Inhabited α] in
theorem addConstant_cases (V : Visitor α) (lhs : Lhs α) (rhs : Rvalue α)
    (condition : Option (Rvalue α)) (writeMask : Mask) :
  V.addConstant lhs rhs condition writeMask = V ∨
    ∃ v type value, ∃ h : v.type.isVector = true, lhs = .var v ∧ rhs = .constant type value ∧
      condition = none ∧ V.addConstant lhs rhs condition writeMask =
        { V with acp := V.acp ++ [⟨v, value, writeMask, writeMask, h⟩] }
  := by
  unfold Visitor.addConstant
  split_ifs with hcondition hzero
  · left
    rfl
  · left
    rfl
  · split
    · rename_i v type value
      split_ifs with hv hmode
      · left
        rfl
      · right
        refine ⟨v, type, value, hv, rfl, rfl, ?_, rfl⟩
        simpa using hcondition
      · left
        rfl
    · left
      rfl

theorem isArray_visitLhs (acp : List (AcpEntry α)) (lhs : Lhs α) :
  (visitLhs fold acp lhs).isArray = lhs.isArray
  := by
  cases lhs <;> rfl

omit [Inhabited α] in
/-- The channels an assignment kills are those it may write. -/
theorem writes_assignment {lhs : Lhs α} (hlhs : lhs.Valid)
    (hvector : lhs.variableReferenced.type.isVector = true) (rhs : Rvalue α)
    (condition : Option (Rvalue α)) (writeMask : Mask) :
  (Instr.assignment lhs rhs condition writeMask).writes =
    [(lhs.variableReferenced, if lhs.isArray then BitVec.allOnes 4 else writeMask)]
  := by
  rw [Instr.writes, if_pos hvector]
  cases lhs with
  | var v => rfl
  | array base index => rfl
  | record base field =>
      rw [Lhs.variableReferenced, hlhs.2] at hvector
      exact absurd hvector Bool.false_ne_true

variable (fold) in
/-- What visiting an instruction kills. -/
theorem visitInstr_kills (V : Visitor α) {i : Instr α} (hi : i.Valid) :
  (∀ v c, v.type.isVector = true →
      (Has (visitInstr fold V i).2.kills v c ↔ Has V.kills v c ∨ Has i.writes v c)) ∧
    (visitInstr fold V i).2.killedAll = (V.killedAll || i.isCall)
  := by
  cases i with
  | assignment lhs rhs condition writeMask =>
      simp only [visitInstr, variableReferenced_visitLhs, isArray_visitLhs]
      generalize hV : V.kill lhs.variableReferenced
        (if lhs.isArray then BitVec.allOnes 4 else writeMask) = V₁
      have hadd : ∀ lhs' rhs' condition',
          (V₁.addConstant lhs' rhs' condition' writeMask).kills = V₁.kills ∧
            (V₁.addConstant lhs' rhs' condition' writeMask).killedAll = V₁.killedAll := by
        intro lhs' rhs' condition'
        rcases addConstant_cases V₁ lhs' rhs' condition' writeMask with
          h | ⟨v, type, value, hv, -, -, -, h⟩ <;> simp [h]
      rw [(hadd _ _ _).1, (hadd _ _ _).2, ← hV]
      refine ⟨?_, by simp [Instr.isCall]⟩
      intro v c hv
      cases hvector : lhs.variableReferenced.type.isVector with
      | true =>
          rw [kill_kills V hvector, has_addKill, writes_assignment hi.1 hvector, has_cons]
          simp [or_comm]
      | false =>
          rw [kill_of_not_isVector V hvector]
          simp [Instr.writes, hvector]
  | call callee returnDeref params => simp [visitInstr, Instr.writes, Instr.isCall]
  | ret value => simp [visitInstr, Instr.writes, Instr.isCall]
  | discard condition => simp [visitInstr, Instr.writes, Instr.isCall]
  | emitVertex stream => simp [visitInstr, Instr.writes, Instr.isCall]
  | endPrimitive stream => simp [visitInstr, Instr.writes, Instr.isCall]
  | loopJump isBreak => simp [visitInstr, Instr.writes, Instr.isCall]

/-- The entry an assignment adds is right after the assignment. -/
theorem holds_addConstant {V : Visitor α} {s s' : State α Mem} (hV : Holds V.acp s')
    {lhs : Lhs α} {rhs : Rvalue α} {condition : Option (Rvalue α)} {writeMask : Mask}
    (h : (Instr.assignment lhs rhs condition writeMask).exec M s = (.fall, s')) :
  Holds (V.addConstant lhs rhs condition writeMask).acp s'
  := by
  rcases addConstant_cases V lhs rhs condition writeMask with
    hadd | ⟨v, type, value, hv, rfl, rfl, rfl, hadd⟩
  · rwa [hadd]
  · rw [hadd]
    intro e he c hc
    rcases List.mem_append.mp he with he | he
    · exact hV e he c hc
    · cases List.mem_singleton.mp he
      simp only [Instr.exec, Beh.act_apply, holds, if_true, Prod.mk.injEq, true_and] at h
      rw [← h, Lhs.variableReferenced, State.set_self]
      simp only at hc
      simp [Lhs.assign, hv, hc, Rvalue.eval]

/-- After an instruction, the constants the visitor has then are there. -/
theorem holds_visitInstr {V : Visitor α} {s s' : State α Mem} (hfold : Folds M fold s)
    (h : Holds V.acp s) {i : Instr α} (hi : i.Valid) (hs' : i.exec M s = (.fall, s')) :
  Holds (visitInstr fold V i).2.acp s'
  := by
  cases i with
  | assignment lhs rhs condition writeMask =>
      have hsame := (visitInstr_same hfold h hi).exec_eq.trans hs'
      simp only [visitInstr] at hsame ⊢
      apply holds_addConstant _ hsame
      rw [variableReferenced_visitLhs, isArray_visitLhs]
      have hagree := Instr.agree_exec M (i := .assignment lhs rhs condition writeMask) rfl s
      rw [hs'] at hagree
      cases hvector : lhs.variableReferenced.type.isVector with
      | true =>
          apply h.of_cleared (cleared_kill V hvector _)
          rwa [← writes_assignment hi.1 hvector rhs condition writeMask]
      | false =>
          rw [kill_of_not_isVector V hvector]
          apply h.of_cleared (cleared_nil V.acp)
          simpa [Instr.writes, hvector] using hagree
  | call callee returnDeref params => simp [visitInstr, Holds]
  | ret value => simp [Instr.exec] at hs'
  | discard condition =>
      simp only [Instr.exec] at hs'
      split at hs'
      · simp at hs'
      · cases hs'
        exact h
  | emitVertex stream =>
      cases hs'
      exact h
  | endPrimitive stream =>
      cases hs'
      exact h
  | loopJump isBreak => cases isBreak <;> simp [Instr.exec] at hs'

/-! ### Visited blocks -/

omit [Inhabited α] in
theorem leave_kills (V inner : Visitor α) {v : Var} (hv : v.type.isVector = true) (c : ℕ) :
  Has (V.leave inner).kills v c ↔ Has V.kills v c ∨ Has inner.kills v c
  := (foldl_kill_spec _ inner.kills).1 v c hv

omit [Inhabited α] in
theorem leave_killedAll (V inner : Visitor α) :
  (V.leave inner).killedAll = (inner.killedAll || V.killedAll)
  := (foldl_kill_spec _ inner.kills).2.1

omit [Inhabited α] in
theorem cleared_leave (V inner : Visitor α) :
  Cleared inner.kills (if inner.killedAll then [] else V.acp) (V.leave inner).acp
  := (foldl_kill_spec _ inner.kills).2.2

variable (fold) in
/-- What visiting a block kills: what it writes, and everything if there is a call in it. -/
theorem visitBlock_kills (V : Visitor α) {b : Block α ν} (hb : b.Valid) :
  (∀ v c, v.type.isVector = true →
      (Has (visitBlock fold b V).2.kills v c ↔ Has V.kills v c ∨ Has b.writes v c)) ∧
    (visitBlock fold b V).2.killedAll = (V.killedAll || b.hasCall)
  := by
  induction b generalizing V with
  | nil note => simp [visitBlock, Block.writes, Block.hasCall]
  | instr note i rest ih =>
      obtain ⟨hkills, hall⟩ := visitInstr_kills fold V hb.1
      obtain ⟨hkills', hall'⟩ := ih (visitInstr fold V i).2 hb.2
      simp only [visitBlock, Block.writes, Block.hasCall, has_append]
      constructor
      · intro v c hv
        rw [hkills' v c hv, hkills v c hv, or_assoc]
      · rw [hall', hall, Bool.or_assoc]
  | cond note condition a b rest iha ihb ih =>
      obtain ⟨-, ha, hb, hrest⟩ := hb
      simp only [visitBlock, Block.writes, Block.hasCall, has_append]
      obtain ⟨hkillsa, halla⟩ := iha { acp := V.acp } ha
      generalize (visitBlock fold a { acp := V.acp }).2 = inner₁ at hkillsa halla ⊢
      obtain ⟨hkillsb, hallb⟩ := ihb { acp := (V.leave inner₁).acp } hb
      generalize (visitBlock fold b { acp := (V.leave inner₁).acp }).2 = inner₂ at hkillsb hallb ⊢
      obtain ⟨hkills, hall⟩ := ih ((V.leave inner₁).leave inner₂) hrest
      constructor
      · intro v c hv
        rw [hkills v c hv, leave_kills _ _ hv, leave_kills _ _ hv, hkillsa v c hv, hkillsb v c hv]
        simp only [has_nil, false_or, or_assoc]
      · rw [hall, leave_killedAll, leave_killedAll, halla, hallb]
        cases V.killedAll <;> cases a.hasCall <;> cases b.hasCall <;> rfl
  | loop note body rest ihb ih =>
      simp only [visitBlock, Block.writes, Block.hasCall, has_append]
      obtain ⟨hkillsb, hallb⟩ := ihb {} hb.1
      generalize (visitBlock fold body {}).2 = inner at hkillsb hallb ⊢
      obtain ⟨hkills, hall⟩ := ih (V.leave inner) hb.2
      constructor
      · intro v c hv
        rw [hkills v c hv, leave_kills _ _ hv, hkillsb v c hv]
        simp only [has_nil, false_or, or_assoc]
      · rw [hall, leave_killedAll, hallb]
        cases V.killedAll <;> cases body.hasCall <;> rfl

theorem Holds.nil (s : State α Mem) :
  Holds [] s
  := by
  simp [Holds]

/-- What is left of the list after a block inside still holds where the block is not executed. -/
theorem Holds.leave {V : Visitor α} {s : State α Mem} (h : Holds V.acp s) (inner : Visitor α) :
  Holds (V.leave inner).acp s
  := by
  have hacp : Holds (if inner.killedAll then [] else V.acp) s := by
    split
    · exact Holds.nil s
    · exact h
  intro e' he' c hc
  obtain ⟨e, he, hbelow, -⟩ := cleared_leave V inner e' he'
  rw [hbelow.var, hbelow.constant, hbelow.initialValues]
  exact hacp e he c (hbelow.writeMask c hc)

/-- What is left of the list after a block inside holds where the block has been executed. -/
theorem Holds.leave_of_agree {V inner : Visitor α} {s s' : State α Mem} (h : Holds V.acp s)
    (hagree : inner.killedAll = false → Agree inner.kills s s') :
  Holds (V.leave inner).acp s'
  := by
  have hcleared := cleared_leave V inner
  cases hall : inner.killedAll with
  | true =>
      intro e' he'
      obtain ⟨e, he, -⟩ := hcleared e' he'
      simp [hall] at he
  | false =>
      simp only [hall, Bool.false_eq_true, if_false] at hcleared
      exact h.of_cleared hcleared (hagree hall)

/-- A visited block leaves alone what its visitor does not kill. -/
theorem agree_visitBlock {V : Visitor α} {b : Block α ν} (hb : b.Valid) {s s' : State α Mem}
    (hs' : b.hasCall = false → Agree b.writes s s')
    (hall : (visitBlock fold b V).2.killedAll = false) :
  Agree (visitBlock fold b V).2.kills s s'
  := by
  obtain ⟨hkills, hall'⟩ := visitBlock_kills fold V hb
  rw [hall', Bool.or_eq_false_iff] at hall
  intro v c hv hnot
  apply hs' hall.2 v c hv
  intro hhas
  exact hnot ((hkills v c hv).mpr (Or.inr hhas))

/-- What is left of the list after a visited block holds in the states in which the block ends. -/
theorem Holds.leave_visitBlock {V W : Visitor α} {b : Block α ν} (hb : b.Valid)
    {s s' : State α Mem} (h : Holds V.acp s) (hs' : b.hasCall = false → Agree b.writes s s') :
  Holds (V.leave (visitBlock fold b W).2).acp s'
  := by
  apply h.leave_of_agree
  intro hall
  exact agree_visitBlock hb hs' hall

/-- At a point the visitor has constants that are there. -/
def Noted (p : ν) (p' : ν × List (AcpEntry α)) (t : State α Mem) : Prop :=
  p'.1 = p ∧ Holds p'.2 t

/-- Executions of a visited block go as before, from states in which the constants are there that
the visitor starts with. -/
theorem visitBlock_sim (n : ℕ) {b : Block α ν} (hb : b.Valid) {V : Visitor α} {s : State α Mem}
    (hfold : ∀ l t, b.Reaches M n s l t → Folds M fold t) (h : Holds V.acp s) :
  Block.Sim M n Noted (Holds (visitBlock fold b V).2.acp) b (visitBlock fold b V).1 s
  := by
  induction b generalizing V s with
  | nil note => exact Block.Sim.nil ⟨rfl, h⟩ h
  | instr note i rest ih =>
      have hhere := hfold _ _ .start
      apply Block.Sim.instr ⟨rfl, h⟩ (visitInstr_same hhere h hb.1).exec_eq
      intro s' hs'
      apply ih hb.2 _ (holds_visitInstr hhere h hb.1 hs')
      intro l t hl
      exact hfold l t (.instr hs' hl)
  | cond note condition a b rest iha ihb ih =>
      obtain ⟨hcondition, ha, hb, hrest⟩ := hb
      let V₁ := V.leave (visitBlock fold a { acp := V.acp }).2
      let V₂ := V₁.leave (visitBlock fold b { acp := V₁.acp }).2
      -- the second branch is visited with what the first one leaves of the list
      have h₁ : Holds V₁.acp s := h.leave _
      apply Block.Sim.cond (A := Holds V₂.acp) ⟨rfl, h⟩
        (handled_visitRvalue_sound (hfold _ _ .start) h hcondition)
      · intro htruth
        have hsim := iha ha (V := { acp := V.acp })
          (fun l t hl => hfold l t (.thenInstructions htruth hl)) h
        apply hsim.with_after
        intro s' hs'
        apply Holds.leave
        apply h.leave_visitBlock ha
        intro hcall
        simpa [hs'] using a.agree_run M hcall n s
      · intro htruth
        have hsim := ihb hb (V := { acp := V₁.acp })
          (fun l t hl => hfold l t (.elseInstructions htruth hl)) h₁
        apply hsim.with_after
        intro s' hs'
        apply h₁.leave_visitBlock hb
        intro hcall
        simpa [hs'] using b.agree_run M hcall n s
      · intro s' hs' h₂
        exact ih hrest (fun l t hl => hfold l t (.afterIf hs' hl)) h₂
  | loop note body rest ihb ih =>
      apply Block.Sim.loop ⟨rfl, h⟩
      · intro s' hs'
        exact ihb hb.1 (V := {}) (fun l t hl => hfold l t (.body hs' hl)) (Holds.nil s')
      · intro s' hs'
        apply ih hb.2 (fun l t hl => hfold l t (.afterLoop hs' hl))
        apply h.leave_visitBlock hb.1
        intro hcall
        have hkeeps := (body.agree_run M hcall n).loop (Agree.refl _)
          (fun _ _ _ => Agree.trans) n s
        rwa [hs'] at hkeeps

/-- The constants that `do_constant_propagation` has at a point are there in every state in which an
execution arrives at the point: every live channel of an entry holds its component of the constant,
so that what is replaced there has the value it is replaced by.  The executions are those of the
body as it was.  Folding is taken to keep values wherever an execution arrives. -/
theorem doConstantPropagation_sound {body : Block α ν} (hbody : body.Valid) (n : ℕ)
    (s : State α Mem) (hfold : ∀ l t, body.Reaches M n s l t → Folds M fold t) :
  (doConstantPropagation fold body).run M n s = body.run M n s ∧
    (∀ l t, body.Reaches M n s l t →
      ∃ acp, (doConstantPropagation fold body).Reaches M n s (l, acp) t) ∧
    ∀ l acp t, (doConstantPropagation fold body).Reaches M n s (l, acp) t →
      body.Reaches M n s l t ∧ Holds acp t ∧
        ∀ e e', constantPropagation acp e = some e' → SameValue M t e' e
  := by
  have hsim := visitBlock_sim n hbody (V := {}) hfold (Holds.nil s)
  refine ⟨hsim.run_eq, ?_, ?_⟩
  · intro l t hl
    obtain ⟨⟨l', acp⟩, hreach, rfl, -⟩ := hsim.forth l t hl
    exact ⟨acp, hreach⟩
  · intro l acp t hl
    obtain ⟨l', hreach, rfl, hholds⟩ := hsim.back (l, acp) t hl
    refine ⟨hreach, hholds, ?_⟩
    intro e e' he'
    exact constantPropagation_sound hholds he'

end Sound

/-- Two channels of a vector are given a constant, one of them is overwritten in a branch, and the
other one is added to something. -/
def partialKill : Block ℕ ℕ :=
  let chan := fun v c => Rvalue.swizzle (.derefVar v) ⟨fun _ => c, 1⟩
  .instr 0 (.assignment (.var (vec4 0)) (.constant (.vector 2) [5, 6]) none 6#4) <|
  .cond 1 (chan (vec4 1) 0)
    (.instr 2 (.assignment (.var (vec4 0)) (chan (vec4 1) 2) none 2#4) (.nil 3))
    (.nil 4) <|
  .instr 5 (.assignment (.var (vec4 2)) (.expression (.vector 1) 0 2
    fun k => if k = 0 then chan (vec4 0) 2 else chan (vec4 1) 1) none 1#4) <|
  .nil 6

/-- The channel that is not overwritten still holds its component of the constant. -/
theorem doConstantPropagation_partialKill :
  ∃ e t, (doConstantPropagation (fun _ => none) partialKill).Reaches sumMeaning 0
      ⟨fun v c => v.id + c, ()⟩ (5, [e]) t ∧
    e.var = vec4 0 ∧ e.writeMask = 4#4 ∧ t.vars (vec4 0) 2 = 6
  := by
  have hvalid : partialKill.Valid := by
    simp [partialKill, vec4, Block.Valid, Instr.Valid, Lhs.Valid, Rvalue.Valid, Rvalue.type,
      Mask.rank, GlslType.components, GlslType.isVector, List.range, List.range.loop, Fin.forall_fin_two]
  have hfold : ∀ l t, partialKill.Reaches sumMeaning 0 ⟨fun v c => v.id + c, ()⟩ l t →
      Folds sumMeaning (fun _ => none) t := by
    simp [Folds]
  have hsound := (doConstantPropagation_sound hvalid 0 _ hfold).2.2
  let e : AcpEntry ℕ := ⟨vec4 0, [5, 6], 4#4, 6#4, rfl⟩
  obtain ⟨t, ht⟩ : ∃ t, (doConstantPropagation (fun _ => none) partialKill).Reaches sumMeaning 0
      ⟨fun v c => v.id + c, ()⟩ (5, [e]) t := ⟨_, .instr rfl (.afterIf rfl .start)⟩
  have hlive : (4#4 : Mask).getLsbD 2 = true := by decide
  have hcomponent : [5, 6].getD (Mask.rank 6#4 2) default = 6 := by decide
  refine ⟨e, t, ht, rfl, rfl, ?_⟩
  exact ((hsound 5 [e] t ht).2.1 e (List.mem_singleton_self e) 2 hlive).trans hcomponent

end ConstantPropagation

end Glsl
