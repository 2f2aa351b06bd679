import Mesa.Nir.LoopUnroll

/-!
# The terminators of a loop

How a loop body is made up of its terminators and the code between them, and what a loop does
that leaves through a given terminator after a given number of passes.  A terminator *exits
after* `m` passes if, in every pass in which its test is reached, it leaves the loop just when
`m` passes are complete.
-/

namespace Nir

open Flow

namespace CfList

variable {ι κ S : Type} {I : Interp ι κ S} {n : ℕ}

/-! ### Taking a list apart -/

/-- A list, followed by an `if` and the nodes `rest`. -/
@[simp]
def appendIf : CfList ι κ → κ → CfList ι κ → CfList ι κ → CfList ι κ → CfList ι κ
  | .block b, c, t, e, rest => .nif b c t e rest
  | .nif b c' t' e' l, c, t, e, rest => .nif b c' t' e' (l.appendIf c t e rest)
  | .loop b body l, c, t, e, rest => .loop b body (l.appendIf c t e rest)

/-- The number of nodes of a list that are not blocks. -/
def numNodes : CfList ι κ → ℕ
  | .block _ => 0
  | .nif _ _ _ _ rest => rest.numNodes + 1
  | .loop _ _ rest => rest.numNodes + 1

theorem splitIf_eq_some_iff {l : CfList ι κ} {i : ℕ} {p : AtIf ι κ} :
  l.splitIf i = some p ↔
    p.header.numNodes = i ∧ l = p.header.appendIf p.cond p.thenList p.elseList p.rest
  := by
  constructor
  · intro h
    induction l generalizing i p with
    | block b => cases i <;> cases h
    | nif b c t e rest iht ihe ih =>
        cases i with
        | zero =>
            cases h
            exact ⟨rfl, rfl⟩
        | succ i =>
            obtain ⟨q, hq, h⟩ := Option.bind_eq_some_iff.mp h
            cases h
            obtain ⟨h₁, h₂⟩ := ih hq
            exact ⟨by simp [numNodes, h₁], by simp [appendIf, ← h₂]⟩
    | loop b body rest ihbody ih =>
        cases i with
        | zero => cases h
        | succ i =>
            obtain ⟨q, hq, h⟩ := Option.bind_eq_some_iff.mp h
            cases h
            obtain ⟨h₁, h₂⟩ := ih hq
            exact ⟨by simp [numNodes, h₁], by simp [appendIf, ← h₂]⟩
  · rintro ⟨hi, rfl⟩
    obtain ⟨header, c, t, e, rest⟩ := p
    induction header generalizing i with
    | block b =>
        cases hi
        rfl
    | nif b c' t' e' l iht ihe ih =>
        cases hi
        simp [appendIf, numNodes, splitIf, ih rfl]
    | loop b body l ihbody ih =>
        cases hi
        simp [appendIf, numNodes, splitIf, ih rfl]

theorem run_appendIf (h : CfList ι κ) (c : κ) (t e rest : CfList ι κ) :
  (h.appendIf c t e rest).run I n = (h.run I n).seq
    ((Beh.branch (I.test c) (t.run I n) (e.run I n)).seq (rest.run I n))
  := by
  induction h with
  | block b => rfl
  | nif b c' t' e' l iht ihe ih => simp [appendIf, run, ih, Beh.seq_assoc]
  | loop b body l ihbody ih => simp [appendIf, run, ih, Beh.seq_assoc]

theorem appendIf_assoc (h : CfList ι κ) (c c' : κ) (t e t' e' l rest : CfList ι κ) :
  (h.appendIf c t e l).appendIf c' t' e' rest = h.appendIf c t e (l.appendIf c' t' e' rest)
  := by
  induction h with
  | block b => rfl
  | nif b c' t' e' l iht ihe ih => simp [appendIf, ih]
  | loop b body l ihbody ih => simp [appendIf, ih]

theorem numNodes_appendIf (h : CfList ι κ) (c : κ) (t e rest : CfList ι κ) :
  (h.appendIf c t e rest).numNodes = h.numNodes + 1 + rest.numNodes
  := by
  induction h with
  | block b => simp [appendIf, numNodes, Nat.add_comm]
  | nif b c' t' e' l iht ihe ih =>
      simp only [appendIf, numNodes, ih]
      omega
  | loop b body l ihbody ih =>
      simp only [appendIf, numNodes, ih]
      omega

theorem straight_appendIf (h : CfList ι κ) (c : κ) (t e rest : CfList ι κ) :
  (h.appendIf c t e rest).straight ↔
    h.straight ∧ h.lastBlock.jump = none ∧ rest.straight
  := by
  induction h with
  | block b => simp [appendIf, straight, lastBlock]
  | nif b c' t' e' l iht ihe ih => simp [appendIf, straight, lastBlock, ih, and_assoc]
  | loop b body l ihbody ih => simp [appendIf, straight, lastBlock, ih, and_assoc]

theorem lastBlock_appendIf (h : CfList ι κ) (c : κ) (t e rest : CfList ι κ) :
  (h.appendIf c t e rest).lastBlock = rest.lastBlock
  := by
  induction h with
  | block b => rfl
  | nif b c' t' e' l iht ihe ih => exact ih
  | loop b body l ihbody ih => exact ih

theorem setLastJump_appendIf (h : CfList ι κ) (c : κ) (t e rest : CfList ι κ)
    (j : Option Jump) :
  (h.appendIf c t e rest).setLastJump j = h.appendIf c t e (rest.setLastJump j)
  := by
  induction h with
  | block b => rfl
  | nif b c' t' e' l iht ihe ih => simp [appendIf, setLastJump, ih]
  | loop b body l ihbody ih => simp [appendIf, setLastJump, ih]

/-- Of two `if`s of a list, the one with the smaller number stands before the other. -/
theorem appendIf_eq_appendIf {h h' : CfList ι κ} {c c' : κ} {t e t' e' l l' : CfList ι κ}
    (heq : h.appendIf c t e l = h'.appendIf c' t' e' l') (hlt : h.numNodes < h'.numNodes) :
  ∃ m, h' = h.appendIf c t e m ∧ l = m.appendIf c' t' e' l'
  := by
  induction h generalizing h' with
  | block b =>
      cases h' with
      | block b' => simp [numNodes] at hlt
      | nif b' _ _ _ m =>
          cases heq
          exact ⟨m, rfl, rfl⟩
      | loop b' _ m => cases heq
  | nif b _ _ _ l iht ihe ih =>
      cases h' with
      | block b' => simp [numNodes] at hlt
      | nif b' _ _ _ m =>
          simp only [appendIf, nif.injEq] at heq
          obtain ⟨rfl, rfl, rfl, rfl, heq⟩ := heq
          obtain ⟨m', rfl, hm'⟩ := ih heq (by simpa [numNodes] using hlt)
          exact ⟨m', rfl, hm'⟩
      | loop b' _ m => cases heq
  | loop b _ l ihbody ih =>
      cases h' with
      | block b' => simp [numNodes] at hlt
      | nif b' _ _ _ m => cases heq
      | loop b' _ m =>
          simp only [appendIf, loop.injEq] at heq
          obtain ⟨rfl, rfl, heq⟩ := heq
          obtain ⟨m', rfl, hm'⟩ := ih heq (by simpa [numNodes] using hlt)
          exact ⟨m', rfl, hm'⟩

/-! ### Terminators -/

/-- The terminators of a list, in the order of the list, when its nodes are numbered from
`i` on. -/
def terminators : ℕ → CfList ι κ → List (LoopTerminator κ)
  | _, .block _ => []
  | i, .nif _ c t e rest =>
      match continueFromThen t e with
      | none => terminators (i + 1) rest
      | some cft => ⟨i, c, cft⟩ :: terminators (i + 1) rest
  | i, .loop _ _ rest => terminators (i + 1) rest

/-- The `if`s of a list contain no jumps but the breaks that make them terminators. -/
def TrivialIfs (l : CfList ι κ) : Prop :=
  ∀ (h : CfList ι κ) c t e rest, l = h.appendIf c t e rest → isTrivialLoopIf t e = true

theorem TrivialIfs.header {h rest : CfList ι κ} {c : κ} {t e : CfList ι κ}
    (hl : (h.appendIf c t e rest).TrivialIfs) :
  h.TrivialIfs
  := by
  rintro h' c' t' e' rest' rfl
  apply hl h' c' t' e' (rest'.appendIf c t e rest)
  apply appendIf_assoc

theorem TrivialIfs.rest {h rest : CfList ι κ} {c : κ} {t e : CfList ι κ}
    (hl : (h.appendIf c t e rest).TrivialIfs) :
  rest.TrivialIfs
  := by
  rintro h' c' t' e' rest' rfl
  apply hl (h.appendIf c t e h') c' t' e' rest'
  symm
  apply appendIf_assoc

theorem TrivialIfs.loop {b : Block ι} {body rest : CfList ι κ}
    (hl : (CfList.loop b body rest).TrivialIfs) :
  rest.TrivialIfs
  := by
  rintro h c t e rest' rfl
  apply hl (.loop b body h) c t e rest' rfl

/-- `find_loop_terminators` finds the terminators, the last one first. -/
theorem scanTerminators_eq {A : Analysis κ} {i : ℕ} {l : CfList ι κ}
    {found found' : List (LoopTerminator κ)} (h : scanTerminators A i l found = some found') :
  found' = (terminators i l).reverse ++ found ∧ l.TrivialIfs
  := by
  induction l generalizing i found with
  | block b =>
      cases h
      refine ⟨rfl, ?_⟩
      rintro (_ | _ | _) _ _ _ _ heq <;> cases heq
  | nif b c t e rest iht ihe ih =>
      have htriv : isTrivialLoopIf t e = true := by
        by_contra hne
        simp [scanTerminators, hne] at h
      simp only [scanTerminators, htriv, Bool.not_true, Bool.false_eq_true, if_false] at h
      have hrest : rest.TrivialIfs → (CfList.nif b c t e rest).TrivialIfs := by
        rintro hr (b' | ⟨b', c', t', e', l⟩ | _) _ _ _ rest' heq
        · cases heq
          exact htriv
        · simp only [appendIf, nif.injEq] at heq
          apply hr l _ _ _ rest' heq.2.2.2.2
        · cases heq
      split at h
      · rename_i hcft
        obtain ⟨rfl, hr⟩ := ih h
        exact ⟨by simp [terminators, hcft], hrest hr⟩
      · rename_i cft hcft
        split_ifs at h
        obtain ⟨rfl, hr⟩ := ih h
        exact ⟨by simp [terminators, hcft], hrest hr⟩
  | loop b body rest ihbody ih =>
      obtain ⟨rfl, hr⟩ := ih h
      refine ⟨rfl, ?_⟩
      rintro (_ | _ | ⟨b', body', l⟩) _ _ _ rest' heq
      · cases heq
      · cases heq
      · simp only [appendIf, loop.injEq] at heq
        apply hr l _ _ _ rest' heq.2.2

theorem mem_terminators {l : CfList ι κ} {i : ℕ} {u : LoopTerminator κ} :
  u ∈ terminators i l ↔ ∃ (h t e rest : CfList ι κ), l = h.appendIf u.cond t e rest ∧
    u.index = i + h.numNodes ∧ continueFromThen t e = some u.continueFromThen
  := by
  induction l generalizing i with
  | block b =>
      simp only [terminators, List.not_mem_nil, false_iff, not_exists, not_and]
      rintro (_ | _ | _) _ _ _ heq <;> cases heq
  | nif b c t e rest iht ihe ih =>
      constructor
      · intro hu
        have hcases : (u.index = i ∧ u.cond = c ∧
            continueFromThen t e = some u.continueFromThen) ∨ u ∈ terminators (i + 1) rest := by
          simp only [terminators] at hu
          split at hu
          · exact .inr hu
          · rename_i cft hcft
            rcases List.mem_cons.mp hu with rfl | hu
            · exact .inl ⟨rfl, rfl, hcft⟩
            · exact .inr hu
        rcases hcases with ⟨rfl, rfl, hcft⟩ | hu
        · exact ⟨.block b, t, e, rest, rfl, rfl, hcft⟩
        · obtain ⟨h, t', e', rest', rfl, hi, hcft⟩ := ih.mp hu
          exact ⟨.nif b c t e h, t', e', rest', rfl, by simp [numNodes]; omega, hcft⟩
      · rintro ⟨b' | ⟨b', c', t'', e'', h⟩ | _, t', e', rest', heq, hi, hcft⟩
        · cases heq
          obtain ⟨j, c, cft⟩ := u
          simp_all [terminators, numNodes]
        · simp only [appendIf, nif.injEq] at heq
          have hu : u ∈ terminators (i + 1) rest := by
            apply ih.mpr ⟨h, t', e', rest', heq.2.2.2.2, ?_, hcft⟩
            simp only [numNodes] at hi
            omega
          simp only [terminators]
          split
          · exact hu
          · exact List.mem_cons_of_mem _ hu
        · cases heq
  | loop b body rest ihbody ih =>
      simp only [terminators]
      rw [ih]
      constructor
      · rintro ⟨h, t, e, rest', rfl, hi, hcft⟩
        exact ⟨.loop b body h, t, e, rest', rfl, by simp [numNodes]; omega, hcft⟩
      · rintro ⟨_ | _ | ⟨b', body', h⟩, t, e, rest', heq, hi, hcft⟩
        · cases heq
        · cases heq
        · simp only [appendIf, loop.injEq] at heq
          refine ⟨h, t, e, rest', heq.2.2, ?_, hcft⟩
          simp only [numNodes] at hi
          omega

/-- The first terminator of a list, with the nodes before and after it. -/
theorem terminators_eq_cons {l : CfList ι κ} {i : ℕ} {u : LoopTerminator κ}
    {us : List (LoopTerminator κ)} (h : terminators i l = u :: us) :
  ∃ (h t e rest : CfList ι κ), l = h.appendIf u.cond t e rest ∧
    u.index = i + h.numNodes ∧ continueFromThen t e = some u.continueFromThen ∧
    terminators i h = [] ∧ terminators (u.index + 1) rest = us
  := by
  induction l generalizing i with
  | block b => cases h
  | nif b c t e rest iht ihe ih =>
      simp only [terminators] at h
      split at h
      · rename_i hnone
        obtain ⟨h', t', e', rest', rfl, hi, hcft, hno, hus⟩ := ih h
        refine ⟨.nif b c t e h', t', e', rest', rfl, ?_, hcft, ?_, hus⟩
        · simp only [numNodes]
          omega
        · simp [terminators, hnone, hno]
      · rename_i cft hcft
        cases h
        exact ⟨.block b, t, e, rest, rfl, rfl, hcft, rfl, rfl⟩
  | loop b body rest ihbody ih =>
      obtain ⟨h', t', e', rest', rfl, hi, hcft, hno, hus⟩ := ih h
      refine ⟨.loop b body h', t', e', rest', rfl, ?_, hcft, hno, hus⟩
      simp only [numNodes]
      omega

/-- The branches of a terminator: the one that continues has no jumps, the other one has the
break at its end and no other jumps. -/
theorem branches_of_trivial {t e : CfList ι κ} {cft : Bool} (h : isTrivialLoopIf t e = true)
    (hcft : continueFromThen t e = some cft) :
  (if cft then t else e).containsJump = false ∧
    ((if cft then e else t).setLastJump none).containsJump = false ∧
    (if cft then e else t).lastBlock.jump = some .brk
  := by
  simp only [isTrivialLoopIf, hcft] at h
  simp only [continueFromThen, Block.endsInBreak, beq_iff_eq] at hcft
  split_ifs at hcft <;> cases hcft <;> simp_all [containsOtherJump]

/-! ### Removing terminators -/

/-- No terminator of the list leaves the loop when the list is run from `s`. -/
def NoExit (I : Interp ι κ S) (n : ℕ) (l : CfList ι κ) (s : S) : Prop :=
  ∀ (h : CfList ι κ) c t e rest cft, l = h.appendIf c t e rest → continueFromThen t e = some cft →
    ∀ s', h.run I n s = (.fall, s') → I.test c s' = cft

theorem NoExit.rest {h t e rest : CfList ι κ} {c : κ} {s s₁ s₂ : S}
    (hno : (h.appendIf c t e rest).NoExit I n s) (hs₁ : h.run I n s = (.fall, s₁))
    (hs₂ : Beh.branch (I.test c) (t.run I n) (e.run I n) s₁ = (.fall, s₂)) :
  rest.NoExit I n s₂
  := by
  rintro h' c' t' e' rest' cft rfl hcft s' hs'
  apply hno (h.appendIf c t e h') c' t' e' rest' cft (appendIf_assoc ..).symm hcft
  rw [run_appendIf, Beh.seq_of_fall hs₁, Beh.seq_of_fall hs₂, hs']

theorem run_branch_of_test {c : κ} {t e : CfList ι κ} {cft : Bool} {s : S}
    (h : I.test c s = cft) :
  Beh.branch (I.test c) (t.run I n) (e.run I n) s = (if cft then t else e).run I n s
  := by
  rw [Beh.branch_apply, h]
  cases cft <;> rfl

theorem run_branch_of_not_test {c : κ} {t e : CfList ι κ} {cft : Bool} {s : S}
    (h : I.test c s ≠ cft) :
  Beh.branch (I.test c) (t.run I n) (e.run I n) s = (if cft then e else t).run I n s
  := by
  rw [Beh.branch_apply]
  cases cft <;> simp_all

theorem closed_run_block {b : Block ι} (h : b.jump = none) :
  (b.run I).Closed
  := by
  apply Beh.closed_of_fall
  intro s
  rw [Block.run_of_jump_eq_none h]

theorem closed_run_of_not_containsJump {l : CfList ι κ} (h : l.containsJump = false) :
  (l.run I n).Closed
  := by
  apply Beh.closed_of_fall
  apply run_of_not_containsJump h

/-- Removing the terminators of a list succeeds, and makes no difference to a run that does
not leave through any of them. -/
theorem removeTerminators_spec {l : CfList ι κ} (hs : l.straight) (ht : l.TrivialIfs)
    (hj : l.lastBlock.jump = none) :
  ∃ l', l.removeTerminators = some l' ∧ l'.lastBlock.jump = none ∧
    ∀ (S : Type) (I : Interp ι κ S) (n : ℕ), (l'.run I n).Closed ∧
      ∀ s, l.NoExit I n s → l.run I n s = l'.run I n s
  := by
  induction l with
  | block b =>
      refine ⟨.block b, rfl, hj, ?_⟩
      intro S I n
      exact ⟨closed_run_block hj, fun s _ => rfl⟩
  | nif b c t e rest iht ihe ih =>
      simp only [straight, Bool.and_eq_true, Option.isNone_iff_eq_none] at hs
      obtain ⟨rest', hrest', hlast, hrun⟩ := ih hs.2 (TrivialIfs.rest (h := .block b) ht) hj
      have htriv := ht (.block b) c t e rest rfl
      -- what is left of the list after the `if`
      have hnext : ∀ (S : Type) (I : Interp ι κ S) (n : ℕ) (s s₁ s₂ : S),
          (CfList.nif b c t e rest).NoExit I n s → b.run I s = (.fall, s₁) →
          Beh.branch (I.test c) (t.run I n) (e.run I n) s₁ = (.fall, s₂) →
          rest.run I n s₂ = rest'.run I n s₂ := by
        intro S I n s s₁ s₂ hno hs₁ hs₂
        apply (hrun S I n).2
        apply NoExit.rest (h := .block b) hno hs₁ hs₂
      rcases hcft : continueFromThen t e with _ | cft
      · refine ⟨.nif b c t e rest', by simp [removeTerminators, hrest', hcft], hlast, ?_⟩
        intro S I n
        simp only [isTrivialLoopIf, hcft, Bool.and_eq_true, Bool.not_eq_true'] at htriv
        constructor
        · apply Beh.Closed.seq (closed_run_block hs.1)
          apply Beh.Closed.seq _ (hrun S I n).1
          apply Beh.Closed.branch
          · apply closed_run_of_not_containsJump htriv.1
          · apply closed_run_of_not_containsJump htriv.2
        · intro s hno
          simp only [run]
          apply Beh.seq_eq_seq_iff.mpr
          intro s₁ hs₁
          apply Beh.seq_eq_seq_iff.mpr
          intro s₂ hs₂
          apply hnext S I n s s₁ s₂ hno hs₁ hs₂
      · obtain ⟨hcont, -, -⟩ := branches_of_trivial htriv hcft
        obtain ⟨l₁, hl₁, hl₁j⟩ := exists_append (a := CfList.block b) hs.1 (if cft then t else e)
        rw [lastBlock_of_not_containsJump hcont] at hl₁j
        obtain ⟨l₂, hl₂, hl₂j⟩ := exists_append hl₁j rest'
        refine ⟨l₂, by simp [removeTerminators, hrest', hcft, hl₁, hl₂], by rw [hl₂j, hlast], ?_⟩
        intro S I n
        rw [run_append hl₂, run_append hl₁]
        constructor
        · apply Beh.Closed.seq _ (hrun S I n).1
          apply Beh.Closed.seq (closed_run_block hs.1)
          apply closed_run_of_not_containsJump hcont
        · intro s hno
          simp only [run, Beh.seq_assoc]
          apply Beh.seq_eq_seq_iff.mpr
          intro s₁ hs₁
          have htest : I.test c s₁ = cft := hno (.block b) c t e rest cft rfl hcft s₁ hs₁
          rw [Beh.seq_congr_left (run_branch_of_test htest)]
          apply Beh.seq_eq_seq_iff.mpr
          intro s₂ hs₂
          apply hnext S I n s s₁ s₂ hno hs₁
          rw [run_branch_of_test htest, hs₂]
  | loop b body rest ihbody ih =>
      simp only [straight, Bool.and_eq_true, Option.isNone_iff_eq_none] at hs
      obtain ⟨rest', hrest', hlast, hrun⟩ := ih hs.2 ht.loop hj
      refine ⟨.loop b body rest', by simp [removeTerminators, hrest'], hlast, ?_⟩
      intro S I n
      constructor
      · apply Beh.Closed.seq (closed_run_block hs.1)
        apply Beh.Closed.seq (Beh.closed_loop n _) (hrun S I n).1
      · intro s hno
        simp only [run]
        apply Beh.seq_eq_seq_iff.mpr
        intro s₁ hs₁
        apply Beh.seq_eq_seq_iff.mpr
        intro s₂ hs₂
        apply (hrun S I n).2
        rintro h c t e rest'' cft rfl hcft s' hs'
        apply hno (.loop b body h) c t e rest'' cft rfl hcft
        simp only [run]
        rw [Beh.seq_of_fall hs₁, Beh.seq_of_fall hs₂, hs']

/-- A list without terminators, alone or not, neither breaks nor continues. -/
theorem closed_run_of_terminators {l : CfList ι κ} {i : ℕ} (hs : l.straight)
    (ht : l.TrivialIfs) (hj : l.lastBlock.jump = none) (hno : terminators i l = []) :
  (l.run I n).Closed
  := by
  obtain ⟨l', -, -, hrun⟩ := removeTerminators_spec hs ht hj
  have heq : l.run I n = l'.run I n := by
    funext s
    apply (hrun S I n).2
    rintro h c t e rest cft rfl hcft s' -
    have hmem : (⟨i + h.numNodes, c, cft⟩ : LoopTerminator κ) ∈
        terminators i (h.appendIf c t e rest) :=
      mem_terminators.mpr ⟨h, t, e, rest, rfl, rfl, hcft⟩
    simp [hno] at hmem
  rw [heq]
  apply (hrun S I n).1

/-- Removing terminators on both sides of a terminator, and that terminator. -/
theorem run_removeTerminators_appendIf {h h' t e m m' l : CfList ι κ} {c : κ} {cft : Bool}
    (hcft : continueFromThen t e = some cft) (hh : h.removeTerminators = some h')
    (hm : m.removeTerminators = some m')
    (hl : (h.appendIf c t e m).removeTerminators = some l) :
  l.run I n = (h'.run I n).seq (((if cft then t else e).run I n).seq (m'.run I n))
  := by
  induction h generalizing h' l with
  | block b =>
      cases hh
      obtain ⟨m'', hm'', hl⟩ := Option.bind_eq_some_iff.mp hl
      cases hm.symm.trans hm''
      simp only [hcft] at hl
      obtain ⟨l₁, hl₁, hl⟩ := Option.bind_eq_some_iff.mp hl
      rw [run_append hl, run_append hl₁, Beh.seq_assoc]
  | nif b c' t' e' h iht ihe ih =>
      obtain ⟨x, hx, hh⟩ := Option.bind_eq_some_iff.mp hh
      obtain ⟨r, hr, hl⟩ := Option.bind_eq_some_iff.mp hl
      have hrun := ih hx hr
      rcases hcft' : continueFromThen t' e' with _ | cft'
      · simp only [hcft'] at hl hh
        cases hl
        cases hh
        simp [run, hrun, Beh.seq_assoc]
      · simp only [hcft'] at hl hh
        obtain ⟨l₁, hl₁, hl⟩ := Option.bind_eq_some_iff.mp hl
        obtain ⟨l₂, hl₂, hh⟩ := Option.bind_eq_some_iff.mp hh
        cases hl₁.symm.trans hl₂
        rw [run_append hl, run_append hh, hrun, Beh.seq_assoc]
  | loop b body h ihbody ih =>
      obtain ⟨x, hx, hh⟩ := Option.bind_eq_some_iff.mp hh
      obtain ⟨r, hr, hl⟩ := Option.bind_eq_some_iff.mp hl
      cases hl
      cases hh
      simp [run, ih hx hr, Beh.seq_assoc]

/-! ### Passes -/

/-- The state in which pass `k` of a loop starts when its first pass starts in `s`, if the
loop makes that pass. -/
def passStart (I : Interp ι κ S) (n : ℕ) (body : CfList ι κ) (s : S) : ℕ → Option S
  | 0 => some s
  | k + 1 =>
      (passStart I n body s k).bind fun s' =>
        match body.run I n s' with
        | (.fall, s'') => some s''
        | (.cont, s'') => some s''
        | _ => none

/-- The terminator `u` exits after `m` passes of the loop started in `s`: when its test is
reached in pass `k`, it leaves the loop if and only if `k` is `m`. -/
def ExitsAfter (I : Interp ι κ S) (n : ℕ) (body : CfList ι κ) (s : S) (u : LoopTerminator κ)
    (m : ℕ) : Prop :=
  ∀ p, body.splitIf u.index = some p → ∀ k sk, passStart I n body s k = some sk →
    ∀ s', p.header.run I n sk = (.fall, s') →
      (I.test p.cond s' ≠ u.continueFromThen ↔ k = m)

/-- A loop body in which code after jumps has been deleted, and which does not leave the loop
at its end. -/
structure Live (body : CfList ι κ) : Prop where
  straight : body.straight
  last : body.lastBlock.jump = none ∨ body.lastBlock.jump = some .cont

theorem loopPrepareForUnroll_eq {body : CfList ι κ} (h : body.Live) :
  body.loopPrepareForUnroll = body.setLastJump none
  := by
  rcases h.last with hj | hj
  · simp [loopPrepareForUnroll, hj, setLastJump_of_lastBlock hj]
  · simp [loopPrepareForUnroll, hj]

/-- A `continue` at the end of the loop does nothing. -/
theorem pass_setLastJump {body : CfList ι κ} (h : body.Live) (next : Beh S) :
  (body.run I n).pass next = ((body.setLastJump none).run I n).pass next
  := by
  rcases h.last with hj | hj
  · rw [setLastJump_of_lastBlock hj]
  · rw [run_eq_setLastJump_seq hj]
    apply Beh.pass_seq_cont

theorem passStart_succ {body : CfList ι κ} (h : body.Live) {s s' s'' : S} {k : ℕ}
    (hk : passStart I n body s k = some s')
    (hrun : (body.setLastJump none).run I n s' = (.fall, s'')) :
  passStart I n body s (k + 1) = some s''
  := by
  have hbody : body.run I n s' = (.fall, s'') ∨ body.run I n s' = (.cont, s'') := by
    rcases h.last with hj | hj
    · rw [setLastJump_of_lastBlock hj] at hrun
      exact .inl hrun
    · rw [run_eq_setLastJump_seq hj, Beh.seq_of_fall hrun]
      exact .inr rfl
  rcases hbody with hbody | hbody <;> simp [passStart, hk, hbody]

/-- The terminators that exit after another number of passes than `k` do not exit in pass
`k`. -/
theorem noExit_of_exitsAfter {body l : CfList ι κ} {s sk : S} {k : ℕ}
    (hl : ∀ (h : CfList ι κ) c t e rest, l = h.appendIf c t e rest →
      ∃ rest', body = h.appendIf c t e rest')
    (hsk : passStart I n body s k = some sk)
    (hexit : ∀ u ∈ terminators 0 l, ∃ m, m ≠ k ∧ ExitsAfter I n body s u m) :
  l.NoExit I n sk
  := by
  intro h c t e rest cft heq hcft s' hs'
  have hmem : (⟨h.numNodes, c, cft⟩ : LoopTerminator κ) ∈ terminators 0 l :=
    mem_terminators.mpr ⟨h, t, e, rest, heq, by simp, hcft⟩
  obtain ⟨m, hm, hexit⟩ := hexit _ hmem
  obtain ⟨rest', hbody⟩ := hl h c t e rest heq
  have := hexit ⟨h, c, t, e, rest'⟩ (splitIf_eq_some_iff.mpr ⟨rfl, hbody⟩) k sk hsk s' hs'
  by_contra hne
  exact hm (this.mp hne).symm

theorem straight_setLastJump (l : CfList ι κ) (j : Option Jump) :
  (l.setLastJump j).straight = l.straight
  := by
  induction l with
  | block b => rfl
  | nif b c t e rest iht ihe ih => simp [setLastJump, straight, ih]
  | loop b body rest ihbody ih => simp [setLastJump, straight, ih]

theorem setLastJump_setLastJump (l : CfList ι κ) (j j' : Option Jump) :
  (l.setLastJump j).setLastJump j' = l.setLastJump j'
  := by
  induction l with
  | block b => rfl
  | nif b c t e rest iht ihe ih => simp [setLastJump, ih]
  | loop b body rest ihbody ih => simp [setLastJump, ih]

/-- The `if`s of a list do not depend on the jump at its end. -/
theorem exists_appendIf_of_setLastJump {l h t e rest : CfList ι κ} {c : κ} {j : Option Jump}
    (heq : l.setLastJump j = h.appendIf c t e rest) :
  ∃ rest', l = h.appendIf c t e rest'
  := by
  use rest.setLastJump l.lastBlock.jump
  rw [← setLastJump_appendIf, ← heq, setLastJump_setLastJump, setLastJump_of_lastBlock rfl]

theorem TrivialIfs.setLastJump {l : CfList ι κ} (h : l.TrivialIfs) (j : Option Jump) :
  (l.setLastJump j).TrivialIfs
  := by
  intro h' c t e rest heq
  obtain ⟨rest', heq'⟩ := exists_appendIf_of_setLastJump heq
  apply h h' c t e rest' heq'

/-- What a loop does that leaves through a given terminator after `m` passes, having left
through no other terminator before. -/
theorem loop_run_of_exit {body h t e r l' h' : CfList ι κ} {c : κ} {cft : Bool} {m : ℕ} {s : S}
    (hlive : body.Live) (htriv : body.TrivialIfs) (hbody : body = h.appendIf c t e r)
    (hcft : continueFromThen t e = some cft)
    (hl' : (body.setLastJump none).removeTerminators = some l')
    (hh' : h.removeTerminators = some h')
    (hno : ∀ k < m, ∀ sk, passStart I n body s k = some sk →
      (body.setLastJump none).NoExit I n sk)
    (hlast : ∀ sk, passStart I n body s m = some sk → h.NoExit I n sk ∧
      ∀ s', h.run I n sk = (.fall, s') → I.test c s' ≠ cft)
    {n' : ℕ} (hn : m < n') :
  Beh.loop n' (body.run I n) s = ((Beh.iter (l'.run I n) m).seq
    ((h'.run I n).seq (((if cft then e else t).setLastJump none).run I n))) s
  := by
  obtain ⟨_, hx, -, hpass⟩ := removeTerminators_spec
    ((straight_setLastJump body none).trans hlive.straight) (htriv.setLastJump none)
    (lastBlock_setLastJump body none)
  cases hl'.symm.trans hx
  obtain ⟨hpassc, hpass⟩ := hpass S I n
  subst hbody
  obtain ⟨hsh, hjh, -⟩ := (straight_appendIf h c t e r).mp hlive.straight
  obtain ⟨_, hx, -, hhead⟩ := removeTerminators_spec hsh htriv.header hjh
  cases hh'.symm.trans hx
  obtain ⟨hheadc, hhead⟩ := hhead S I n
  obtain ⟨-, hbrk, hbrkj⟩ := branches_of_trivial (htriv h c t e r rfl) hcft
  let At (k : ℕ) (sk : S) : Prop := passStart I n (h.appendIf c t e r) s k = some sk
  have hlast' : ∀ sk next, At m sk → ((h.appendIf c t e r).run I n).pass next sk =
      ((Beh.iter (l'.run I n) 0).seq
        ((h'.run I n).seq (((if cft then e else t).setLastJump none).run I n))) sk := by
    intro sk next hsk
    obtain ⟨hnoh, htest⟩ := hlast sk hsk
    have hrun : (h.appendIf c t e r).run I n sk = ((h'.run I n).seq
        ((((if cft then e else t).setLastJump none).run I n).seq (Beh.leave .brk))) sk := by
      rw [run_appendIf, Beh.seq_congr_left (hhead sk hnoh)]
      apply Beh.seq_eq_seq_iff.mpr
      intro s' hs'
      rw [← hhead sk hnoh] at hs'
      rw [Beh.seq_congr_left (run_branch_of_not_test (htest s' hs')),
        run_eq_setLastJump_seq hbrkj, Beh.seq_assoc, Beh.leave_seq (by simp [Jump.exit])]
      rfl
    show Beh.after next _ = _
    rw [hrun, ← Beh.seq_assoc]
    apply congrFun (Beh.pass_seq_brk _ next) sk
    apply Beh.Closed.seq hheadc
    apply closed_run_of_not_containsJump hbrk
  have hstep : ∀ k j sk next, k + (j + 1) = m → At k sk →
      (∀ s', At (k + 1) s' → next s' = ((Beh.iter (l'.run I n) j).seq
        ((h'.run I n).seq (((if cft then e else t).setLastJump none).run I n))) s') →
      ((h.appendIf c t e r).run I n).pass next sk = ((Beh.iter (l'.run I n) (j + 1)).seq
        ((h'.run I n).seq (((if cft then e else t).setLastJump none).run I n))) sk := by
    intro k j sk next hk hsk hnext
    have hrun := hpass sk (hno k (by omega) sk hsk)
    rw [pass_setLastJump hlive]
    show Beh.after next _ = _
    rw [hrun, Beh.iter, Beh.seq_assoc]
    apply (congrFun (Beh.pass_of_closed hpassc next) sk).trans
    apply Beh.seq_eq_seq_iff.mpr
    intro s' hs'
    apply hnext
    apply passStart_succ hlive hsk
    rw [hrun, hs']
  apply Beh.loop_eq_unrolled hlast' hstep (k := 0) (by omega) rfl hn

end CfList

end Nir
