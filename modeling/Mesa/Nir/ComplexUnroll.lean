import Mesa.Nir.SimpleUnroll

/-!
# Complex unrolling

The nest of `if`s `complex_unroll` emits does what the loop does.  A pass of a loop with two
terminators runs the code before the first one and leaves through it or goes on to the second,
where again it leaves or goes on to the next pass.  Knowing how the limiting terminator will
decide, the nest leaves out one of its branches, or the code that follows it.
-/

namespace Nir

open Flow

namespace CfList

variable {ι κ S : Type} {I : Interp ι κ S} {n : ℕ}

/-! ### A pass of a loop with two terminators -/

/-- The condition under which a terminator continues. -/
def continues (I : Interp ι κ S) (u : LoopTerminator κ) (s : S) : Bool :=
  I.test u.cond s == u.continueFromThen

theorem run_branch_eq {u : LoopTerminator κ} (t e : CfList ι κ) :
  Beh.branch (I.test u.cond) (t.run I n) (e.run I n) =
    Beh.branch (continues I u) ((if u.continueFromThen then t else e).run I n)
      ((if u.continueFromThen then e else t).run I n)
  := by
  funext s
  cases hu : u.continueFromThen <;> cases ht : I.test u.cond s <;>
    simp [Beh.branch_apply, continues, hu, ht]

/-- A terminator with the code before it and after it: what control does up to the branches,
and in the branches. -/
theorem run_appendIf_terminator {h t e rest : CfList ι κ} {u : LoopTerminator κ}
    (htriv : isTrivialLoopIf t e = true)
    (hcft : continueFromThen t e = some u.continueFromThen) :
  (h.appendIf u.cond t e rest).run I n = (h.run I n).seq
    (Beh.branch (continues I u)
      (((if u.continueFromThen then t else e).run I n).seq (rest.run I n))
      ((((if u.continueFromThen then e else t).setLastJump none).run I n).seq
        (Beh.leave .brk)))
  := by
  obtain ⟨-, -, hbrk⟩ := branches_of_trivial htriv hcft
  have hrun := run_eq_setLastJump_seq (I := I) (n := n) hbrk
  rw [run_appendIf, run_branch_eq, Beh.branch_seq, hrun, Beh.seq_assoc,
    Beh.leave_seq (by simp [Jump.exit])]
  rfl

/-- The pieces of a loop body with two terminators, `u` before `v`. -/
structure TwoTerminators (body : CfList ι κ) (u v : LoopTerminator κ) where
  header : CfList ι κ
  thenList : CfList ι κ
  elseList : CfList ι κ
  mid : CfList ι κ
  thenList' : CfList ι κ
  elseList' : CfList ι κ
  rest : CfList ι κ
  body_eq : body = header.appendIf u.cond thenList elseList
    (mid.appendIf v.cond thenList' elseList' rest)
  index_eq : u.index = header.numNodes
  index_eq' : v.index = u.index + 1 + mid.numNodes
  cft : continueFromThen thenList elseList = some u.continueFromThen
  cft' : continueFromThen thenList' elseList' = some v.continueFromThen
  header_terminators : terminators 0 header = []
  mid_terminators : terminators (u.index + 1) mid = []
  rest_terminators : terminators (v.index + 1) rest = []

theorem nonempty_twoTerminators {body : CfList ι κ} {u v : LoopTerminator κ}
    (h : terminators 0 body = [u, v]) :
  Nonempty (TwoTerminators body u v)
  := by
  obtain ⟨h₁, t₁, e₁, r₁, hbody, hi₁, hcft₁, hno₁, hr₁⟩ := terminators_eq_cons h
  obtain ⟨h₂, t₂, e₂, r₂, rfl, hi₂, hcft₂, hno₂, hr₂⟩ := terminators_eq_cons hr₁
  exact ⟨⟨h₁, t₁, e₁, h₂, t₂, e₂, r₂, hbody, by omega, hi₂, hcft₁, hcft₂, hno₁, hno₂, hr₂⟩⟩

namespace TwoTerminators

variable {body : CfList ι κ} {u v : LoopTerminator κ} (P : TwoTerminators body u v)

/-- The branch of the first terminator that continues. -/
def continueList : CfList ι κ := if u.continueFromThen then P.thenList else P.elseList

/-- The code of the break of the first terminator. -/
def breakList : CfList ι κ :=
  (if u.continueFromThen then P.elseList else P.thenList).setLastJump none

/-- The branch of the second terminator that continues. -/
def continueList' : CfList ι κ := if v.continueFromThen then P.thenList' else P.elseList'

/-- The code of the break of the second terminator. -/
def breakList' : CfList ι κ :=
  (if v.continueFromThen then P.elseList' else P.thenList').setLastJump none

/-- The code up to the second terminator. -/
def header' : CfList ι κ := P.header.appendIf u.cond P.thenList P.elseList P.mid

/-- The code after the second terminator, a `continue` at the end of it apart. -/
def loopEnd : CfList ι κ := P.rest.setLastJump none

theorem setLastJump_body :
  body.setLastJump none = P.header.appendIf u.cond P.thenList P.elseList
    (P.mid.appendIf v.cond P.thenList' P.elseList' P.loopEnd)
  := by
  have hbody := congrArg (setLastJump none) P.body_eq
  rwa [setLastJump_appendIf, setLastJump_appendIf] at hbody

/-- What is known of the pieces when the `if`s are trivial and code after jumps has been
deleted: they end without jumps, and neither break nor continue. -/
structure Closed (I : Interp ι κ S) (n : ℕ) : Prop where
  header : P.header.lastBlock.jump = none ∧ (P.header.run I n).Closed
  continueList : P.continueList.lastBlock.jump = none ∧ (P.continueList.run I n).Closed
  breakList : P.breakList.lastBlock.jump = none ∧ (P.breakList.run I n).Closed
  mid : P.mid.lastBlock.jump = none ∧ (P.mid.run I n).Closed
  continueList' : P.continueList'.lastBlock.jump = none ∧ (P.continueList'.run I n).Closed
  breakList' : P.breakList'.lastBlock.jump = none ∧ (P.breakList'.run I n).Closed
  loopEnd : P.loopEnd.lastBlock.jump = none ∧ (P.loopEnd.run I n).Closed

theorem trivial (htriv : body.TrivialIfs) :
  isTrivialLoopIf P.thenList P.elseList = true ∧
    isTrivialLoopIf P.thenList' P.elseList' = true ∧ P.header.TrivialIfs ∧ P.mid.TrivialIfs ∧
    P.rest.TrivialIfs
  := by
  have hbody := P.body_eq
  have hrest : (P.mid.appendIf v.cond P.thenList' P.elseList' P.rest).TrivialIfs :=
    (hbody ▸ htriv).rest
  exact ⟨htriv _ _ _ _ _ hbody, hrest _ _ _ _ _ rfl, (hbody ▸ htriv).header, hrest.header,
    hrest.rest⟩

theorem closed (hlive : body.Live) (htriv : body.TrivialIfs) :
  P.Closed I n
  := by
  obtain ⟨htriv₁, htriv₂, hheader, hmid, hrest⟩ := P.trivial htriv
  obtain ⟨hsh, hjh, hsr⟩ := (straight_appendIf ..).mp (P.body_eq ▸ hlive.straight)
  obtain ⟨hsm, hjm, hsr⟩ := (straight_appendIf ..).mp hsr
  obtain ⟨hc₁, hb₁, -⟩ := branches_of_trivial htriv₁ P.cft
  obtain ⟨hc₂, hb₂, -⟩ := branches_of_trivial htriv₂ P.cft'
  constructor
  · exact ⟨hjh, closed_run_of_terminators hsh hheader hjh P.header_terminators⟩
  · exact ⟨lastBlock_of_not_containsJump hc₁, closed_run_of_not_containsJump hc₁⟩
  · exact ⟨lastBlock_of_not_containsJump hb₁, closed_run_of_not_containsJump hb₁⟩
  · exact ⟨hjm, closed_run_of_terminators hsm hmid hjm P.mid_terminators⟩
  · exact ⟨lastBlock_of_not_containsJump hc₂, closed_run_of_not_containsJump hc₂⟩
  · exact ⟨lastBlock_of_not_containsJump hb₂, closed_run_of_not_containsJump hb₂⟩
  · refine ⟨lastBlock_setLastJump _ _, closed_run_of_terminators
      ((straight_setLastJump _ _).trans hsr) (hrest.setLastJump none) (lastBlock_setLastJump _ _)
      (i := v.index + 1) ?_⟩
    exact (terminators_setLastJump ..).trans P.rest_terminators

theorem run_setLastJump (htriv : body.TrivialIfs) :
  (body.setLastJump none).run I n = (P.header.run I n).seq
    (Beh.branch (continues I u)
      ((P.continueList.run I n).seq ((P.mid.run I n).seq
        (Beh.branch (continues I v)
          ((P.continueList'.run I n).seq (P.loopEnd.run I n))
          ((P.breakList'.run I n).seq (Beh.leave .brk)))))
      ((P.breakList.run I n).seq (Beh.leave .brk)))
  := by
  obtain ⟨htriv₁, htriv₂, -, -, -⟩ := P.trivial htriv
  rw [P.setLastJump_body, run_appendIf_terminator htriv₁ P.cft,
    run_appendIf_terminator htriv₂ P.cft']
  rfl

/-- A pass of the loop: up to the first terminator, to the second one, and to the next
pass. -/
theorem pass_eq (hlive : body.Live) (htriv : body.TrivialIfs) (next : Beh S) :
  (body.run I n).pass next = (P.header.run I n).seq
    (Beh.branch (continues I u)
      ((P.continueList.run I n).seq ((P.mid.run I n).seq
        (Beh.branch (continues I v)
          ((P.continueList'.run I n).seq ((P.loopEnd.run I n).seq next))
          (P.breakList'.run I n))))
      (P.breakList.run I n))
  := by
  have hc := P.closed (I := I) (n := n) hlive htriv
  rw [pass_setLastJump hlive, P.run_setLastJump htriv, Beh.pass_seq hc.header.2,
    Beh.pass_branch, Beh.pass_seq hc.continueList.2, Beh.pass_seq hc.mid.2, Beh.pass_branch,
    Beh.pass_seq hc.continueList'.2, Beh.pass_of_closed hc.loopEnd.2,
    Beh.pass_seq_brk hc.breakList.2, Beh.pass_seq_brk hc.breakList'.2]

/-- Two continuations of a pass at the second terminator agree if they do where its test is
reached. -/
theorem congr_second {f g : Beh S} {s : S}
    (h : ∀ s', P.header'.run I n s = (.fall, s') → f s' = g s') :
  (P.header.run I n).seq (Beh.branch (continues I u)
      ((P.continueList.run I n).seq ((P.mid.run I n).seq f)) (P.breakList.run I n)) s =
    (P.header.run I n).seq (Beh.branch (continues I u)
      ((P.continueList.run I n).seq ((P.mid.run I n).seq g)) (P.breakList.run I n)) s
  := by
  apply Beh.seq_eq_seq_iff.mpr
  intro s₁ hs₁
  simp only [Beh.branch_apply]
  split_ifs with hu
  · apply Beh.seq_eq_seq_iff.mpr
    intro s₂ hs₂
    apply Beh.seq_eq_seq_iff.mpr
    intro s₃ hs₃
    apply h
    have hbr : Beh.branch (I.test u.cond) (P.thenList.run I n) (P.elseList.run I n) s₁ =
        (.fall, s₂) := by
      rw [run_branch_eq, Beh.branch_apply, if_pos hu]
      exact hs₂
    rw [header', run_appendIf, Beh.seq_of_fall hs₁, Beh.seq_of_fall hbr, hs₃]
  · rfl

/-- The passes of the loop, by what the nest of `if`s does. -/
theorem loop_run {s : S} {m : ℕ} {U : ℕ → Beh S}
    (hlast : ∀ sk next, passStart I n body s m = some sk → (body.run I n).pass next sk = U 0 sk)
    (hstep : ∀ k j sk, k + (j + 1) = m → passStart I n body s k = some sk →
      (body.run I n).pass (U j) sk = U (j + 1) sk)
    {n' : ℕ} (hn : m < n') :
  Beh.loop n' (body.run I n) s = U m s
  := by
  let At (k : ℕ) (sk : S) : Prop := passStart I n body s k = some sk
  have hlast' : ∀ sk next, At m sk → (body.run I n).pass next sk = U 0 sk := hlast
  have hstep' : ∀ k j sk next, k + (j + 1) = m → At k sk →
      (∀ s', At (k + 1) s' → next s' = U j s') →
      (body.run I n).pass next sk = U (j + 1) sk := by
    intro k j sk next hk hsk hnext
    rw [← hstep k j sk hk hsk]
    apply Beh.pass_congr
    intro s' hs'
    apply hnext
    have hsk' : passStart I n body s k = some sk := hsk
    rcases hs' with hs' | hs' <;> simp [At, passStart, hsk', hs']
  apply Beh.loop_eq_unrolled hlast' hstep' (k := 0) (by omega) rfl hn

end TwoTerminators

/-! ### The nest -/

/-- What `n` clones of a body do that is `f` followed by a terminator, each in the continue
branch of the one before and `last` in the innermost one. -/
def nest (f : Beh S) (c : S → Bool) (continueBeh breakBeh last : Beh S) : ℕ → Beh S
  | 0 => last
  | n + 1 =>
      f.seq (Beh.branch c (continueBeh.seq (nest f c continueBeh breakBeh last n)) breakBeh)

theorem run_terminatorIf (u : LoopTerminator κ) (continueList breakList : CfList ι κ) :
  (terminatorIf u.cond u.continueFromThen continueList breakList).run I n =
    Beh.branch (continues I u) (continueList.run I n) (breakList.run I n)
  := by
  have hempty : Block.run I ({} : Block ι) = Beh.skip := rfl
  funext s
  cases hu : u.continueFromThen <;> cases ht : I.test u.cond s <;>
    simp [terminatorIf, run, hempty, Beh.branch_apply, continues, hu, ht]

theorem nestClones_spec {header continueList : CfList ι κ} (start breakList last : CfList ι κ)
    (u : LoopTerminator κ) (hh : header.lastBlock.jump = none)
    (hs : start.lastBlock.jump = none) (hc : continueList.lastBlock.jump = none)
    (hl : last.lastBlock.jump = none) (m : ℕ) :
  ∃ l, nestClones header start u.cond u.continueFromThen continueList breakList last m = some l ∧
    l.lastBlock.jump = none ∧ ∀ (S : Type) (I : Interp ι κ S) (n : ℕ), l.run I n =
      nest ((header.run I n).seq (start.run I n)) (continues I u) (continueList.run I n)
        (breakList.run I n) (last.run I n) m
  := by
  induction m with
  | zero => exact ⟨last, rfl, hl, fun _ _ _ => rfl⟩
  | succ m ih =>
      obtain ⟨inner, hinner, hj, hrun⟩ := ih
      obtain ⟨branch, hbranch, -⟩ := exists_append hc inner
      obtain ⟨l₁, hl₁, hj₁⟩ := exists_append hh start
      obtain ⟨l₂, hl₂, hj₂⟩ := exists_append (hj₁.trans hs)
        (terminatorIf u.cond u.continueFromThen branch breakList)
      refine ⟨l₂, by simp [nestClones, hinner, hbranch, hl₁, hl₂], ?_, ?_⟩
      · rw [hj₂]
        unfold terminatorIf
        split_ifs <;> rfl
      · intro S I n
        rw [run_append hl₂, run_append hl₁, run_terminatorIf, run_append hbranch, hrun, nest]

/-! ### Correctness -/

namespace TwoTerminators

variable {body : CfList ι κ} {u v : LoopTerminator κ} (P : TwoTerminators body u v)

theorem splitIf_prepared (hlive : body.Live) :
  body.loopPrepareForUnroll.splitIf u.index = some ⟨P.header, u.cond, P.thenList, P.elseList,
    P.mid.appendIf v.cond P.thenList' P.elseList' P.loopEnd⟩
  := by
  apply splitIf_eq_some_iff.mpr
  exact ⟨P.index_eq.symm, (loopPrepareForUnroll_eq hlive).trans P.setLastJump_body⟩

theorem splitIf_mid :
  (P.mid.appendIf v.cond P.thenList' P.elseList' P.loopEnd).splitIf (v.index - u.index - 1) =
    some ⟨P.mid, v.cond, P.thenList', P.elseList', P.loopEnd⟩
  := by
  apply splitIf_eq_some_iff.mpr
  refine ⟨?_, rfl⟩
  have := P.index_eq'
  simp only
  omega

/-- What a terminator that exits after `m` passes does in pass `k`. -/
theorem continues_eq {body h t e rest : CfList ι κ} {w : LoopTerminator κ} {s sk s' : S}
    {m k : ℕ} (hexact : ExitsAfter I n body s w m) (hbody : body = h.appendIf w.cond t e rest)
    (hindex : w.index = h.numNodes) (hsk : passStart I n body s k = some sk)
    (hs' : h.run I n sk = (.fall, s')) :
  continues I w s' = decide (k ≠ m)
  := by
  have hsplit : body.splitIf w.index = some ⟨h, w.cond, t, e, rest⟩ :=
    splitIf_eq_some_iff.mpr ⟨hindex.symm, hbody⟩
  have hiff := hexact _ hsplit k sk hsk s' hs'
  by_cases hk : k = m
  · simpa [continues, hk] using hiff.mpr hk
  · have := mt hiff.mp hk
    simpa [continues, hk] using this

theorem body_eq' :
  body = P.header'.appendIf v.cond P.thenList' P.elseList' P.rest
  := by
  rw [header', appendIf_assoc]
  exact P.body_eq

theorem index_header' :
  v.index = P.header'.numNodes
  := by
  rw [header', numNodes_appendIf, P.index_eq', P.index_eq]

/-- A loop followed by `rest`, and code that does the same followed by `rest`. -/
theorem run_eq_run_loop {b : Block ι} (hb : b.jump = none) {body rest l l₁ l₂ : CfList ι κ}
    {s : S} (hl₁ : (CfList.block b).append l = some l₁) (hl₂ : l₁.append rest = some l₂)
    (hrun : Beh.loop n (body.run I n) (I.execAll b.instrs s) =
      l.run I n (I.execAll b.instrs s)) :
  l₂.run I n s = (CfList.loop b body rest).run I n s
  := by
  rw [run_append hl₂, run_append hl₁, Beh.seq_assoc]
  simp only [run]
  rw [Beh.seq_of_fall (Block.run_of_jump_eq_none hb s),
    Beh.seq_of_fall (Block.run_of_jump_eq_none hb s), Beh.seq_congr_left hrun.symm]

/-- When the limiting terminator comes second, the code emitted does what the loop does. -/
theorem complexUnrollSecond_correct (P : TwoTerminators body u v) {s : S} {m : ℕ} {b : Block ι}
    (hlive : body.Live) (htriv : body.TrivialIfs) (hb : b.jump = none) (rest : CfList ι κ)
    (hexact : ExitsAfter I n body (I.execAll b.instrs s) v m) (hn : m < n) :
  ∃ l, complexUnrollSecond v u m b body rest = some l ∧
    l.run I n s = (CfList.loop b body rest).run I n s
  := by
  have hc := P.closed (I := I) (n := n) hlive htriv
  obtain ⟨branch, hbranch, -⟩ := exists_append hc.continueList'.1 P.loopEnd
  obtain ⟨loopEnd, hloopEnd, hj⟩ := exists_append hc.mid.1
    (terminatorIf v.cond v.continueFromThen branch P.breakList')
  obtain ⟨continueList, hcont, hj'⟩ := exists_append hc.continueList.1 loopEnd
  have hjc : continueList.lastBlock.jump = none := by
    rw [hj', hj]
    unfold terminatorIf
    split_ifs <;> rfl
  obtain ⟨l₁, hl₁, hj₁, hrun₁⟩ := nestClones_spec (.block {}) P.breakList (.block {}) u
    hc.header.1 rfl hjc rfl (m + 1)
  obtain ⟨l₂, hl₂, hj₂⟩ := exists_append (a := CfList.block b) hb l₁
  obtain ⟨l₃, hl₃, -⟩ := exists_append (hj₂.trans hj₁) rest
  refine ⟨l₃, ?_, run_eq_run_loop hb hl₂ hl₃ ?_⟩
  · simp only [complexUnrollSecond, P.splitIf_prepared hlive, P.splitIf_mid, AtIf.continueList,
      AtIf.breakList, Option.bind_eq_bind, Option.bind_some]
    simp only [TwoTerminators.continueList, TwoTerminators.continueList',
      TwoTerminators.breakList, TwoTerminators.breakList'] at hbranch hloopEnd hcont hl₁
    simp [hbranch, hloopEnd, hcont, hl₁, hl₂, hl₃]
  · rw [hrun₁]
    -- the copies, with the code after the first terminator written out
    have hnest : ∀ j, nest ((P.header.run I n).seq ((CfList.block {}).run I n)) (continues I u)
        (continueList.run I n) (P.breakList.run I n) ((CfList.block {}).run I n) (j + 1) =
        (P.header.run I n).seq (Beh.branch (continues I u)
          ((P.continueList.run I n).seq ((P.mid.run I n).seq
            ((Beh.branch (continues I v) ((P.continueList'.run I n).seq (P.loopEnd.run I n))
              (P.breakList'.run I n)).seq
              (nest ((P.header.run I n).seq ((CfList.block {}).run I n)) (continues I u)
                (continueList.run I n) (P.breakList.run I n) ((CfList.block {}).run I n) j))))
          (P.breakList.run I n)) := by
      intro j
      have hempty : (CfList.block {} : CfList ι κ).run I n = Beh.skip := rfl
      rw [nest, run_append hcont, run_append hloopEnd, run_terminatorIf, run_append hbranch]
      simp only [hempty, Beh.seq_skip, Beh.seq_assoc]
    refine loop_run (U := fun j => nest _ _ _ _ _ (j + 1)) ?_ ?_ hn
    · intro sk next hsk
      rw [P.pass_eq hlive htriv, hnest]
      apply P.congr_second
      intro s' hs'
      have htest := continues_eq hexact P.body_eq' P.index_header' hsk hs'
      have hempty : nest ((P.header.run I n).seq ((CfList.block {}).run I n)) (continues I u)
          (continueList.run I n) (P.breakList.run I n) ((CfList.block {}).run I n) 0 =
          Beh.skip := rfl
      rw [hempty, Beh.seq_skip]
      simp [Beh.branch_apply, htest]
    · intro k j sk hk hsk
      rw [P.pass_eq hlive htriv, hnest (j + 1)]
      apply P.congr_second
      intro s' hs'
      have htest := continues_eq hexact P.body_eq' P.index_header' hsk hs'
      have hne : k ≠ m := by omega
      rw [Beh.branch_seq]
      simp [Beh.branch_apply, htest, hne, Beh.seq_assoc]

/-- When the limiting terminator comes first and exits at once, simple unrolling is correct
without knowing anything of the other one. -/
theorem simpleUnroll_correct (P : TwoTerminators body u v) {s : S} {b : Block ι}
    (hlive : body.Live) (htriv : body.TrivialIfs) (hb : b.jump = none) (rest : CfList ι κ)
    (hexact : ExitsAfter I n body (I.execAll b.instrs s) u 0) (hn : 0 < n) :
  ∃ l, simpleUnroll u 0 b body rest = some l ∧
    l.run I n s = (CfList.loop b body rest).run I n s
  := by
  have hc := P.closed (I := I) (n := n) hlive htriv
  obtain ⟨l', hl', -, -⟩ := removeTerminators_spec
    ((straight_setLastJump body none).trans hlive.straight) (htriv.setLastJump none)
    (lastBlock_setLastJump body none)
  obtain ⟨hs, -, -⟩ := (straight_appendIf ..).mp (P.body_eq ▸ hlive.straight)
  obtain ⟨h', hh', -, -⟩ := removeTerminators_spec hs (P.trivial htriv).2.2.1 hc.header.1
  obtain ⟨l, hl, hrun⟩ := simpleUnroll_spec hb hlive htriv P.body_eq P.index_eq P.cft hl' hh'
    rest 0
  refine ⟨l, hl, ?_⟩
  have hloop := loop_run_of_exit hlive htriv P.body_eq P.cft hl' hh'
    (I := I) (n := n) (m := 0) (s := I.execAll b.instrs s) (by simp) ?_ hn
  · simp only [run]
    rw [hrun, Beh.seq_of_fall (Block.run_of_jump_eq_none hb s),
      Beh.seq_of_fall (Block.run_of_jump_eq_none hb s), Beh.seq_congr_left hloop]
    simp only [Beh.seq_assoc]
  · intro sk hsk
    constructor
    · rintro h c t e r cft heq hcft s' -
      have hmem : (⟨h.numNodes, c, cft⟩ : LoopTerminator κ) ∈ terminators 0 P.header :=
        mem_terminators.mpr ⟨h, t, e, r, heq, by simp, hcft⟩
      simp [P.header_terminators] at hmem
    · intro s' hs'
      simpa [continues] using continues_eq hexact P.body_eq P.index_eq hsk hs'

/-- When the limiting terminator comes first, the code emitted does what the loop does. -/
theorem complexUnrollFirst_correct (P : TwoTerminators body u v) {s : S} {m : ℕ} {b : Block ι}
    (hlive : body.Live) (htriv : body.TrivialIfs) (hb : b.jump = none) (rest : CfList ι κ)
    (hexact : ExitsAfter I n body (I.execAll b.instrs s) u m) (hn : m < n) :
  ∃ l, complexUnrollFirst u v m b body rest = some l ∧
    l.run I n s = (CfList.loop b body rest).run I n s
  := by
  have hc := P.closed (I := I) (n := n) hlive htriv
  obtain ⟨start, hstart, hjs⟩ := exists_append hc.continueList.1 P.mid
  obtain ⟨continueList, hcont, hjc⟩ := exists_append hc.continueList'.1 P.loopEnd
  obtain ⟨last, hlast, hjl⟩ := exists_append hc.header.1 P.breakList
  obtain ⟨l₁, hl₁, hj₁, hrun₁⟩ := nestClones_spec start P.breakList' last v hc.header.1
    (hjs.trans hc.mid.1) (hjc.trans hc.loopEnd.1) (hjl.trans hc.breakList.1) m
  obtain ⟨l₂, hl₂, hj₂⟩ := exists_append (a := CfList.block b) hb l₁
  obtain ⟨l₃, hl₃, -⟩ := exists_append (hj₂.trans hj₁) rest
  refine ⟨l₃, ?_, run_eq_run_loop hb hl₂ hl₃ ?_⟩
  · simp only [complexUnrollFirst, P.splitIf_prepared hlive, P.splitIf_mid, AtIf.continueList,
      AtIf.breakList, Option.bind_eq_bind, Option.bind_some]
    simp only [TwoTerminators.continueList, TwoTerminators.continueList',
      TwoTerminators.breakList, TwoTerminators.breakList'] at hstart hcont hlast hl₁
    simp [hstart, hcont, hlast, hl₁, hl₂, hl₃]
  · rw [hrun₁, run_append hlast, run_append hstart, run_append hcont]
    refine loop_run (U := nest _ _ _ _ _) ?_ ?_ hn
    · intro sk next hsk
      rw [P.pass_eq hlive htriv, nest]
      apply Beh.seq_eq_seq_iff.mpr
      intro s' hs'
      have htest := continues_eq hexact P.body_eq P.index_eq hsk hs'
      simp [Beh.branch_apply, htest]
    · intro k j sk hk hsk
      rw [P.pass_eq hlive htriv]
      conv_rhs => rw [nest]
      rw [Beh.seq_assoc]
      apply Beh.seq_eq_seq_iff.mpr
      intro s' hs'
      have htest := continues_eq hexact P.body_eq P.index_eq hsk hs'
      have hne : k ≠ m := by omega
      simp [Beh.branch_apply, htest, hne, Beh.seq_assoc]

end TwoTerminators

/-- When one of two terminators of a loop has an exact count, whatever the other one does, the
code `process_loops` replaces the loop by does what the loop does. -/
theorem processLoop_complex {A : Analysis κ} {b : Block ι} {body : CfList ι κ}
    {first last limiting : LoopTerminator κ} {info : LoopInfo (LoopTerminator κ)} {s : S}
    (rest : CfList ι κ) (hb : b.jump = none) (hlive : body.Live)
    (hinfo : loopInfo A body = some ([last, first], info))
    (hsmall : A.isLoopSmallEnoughToUnroll info.tripCount = true)
    (hunknown : info.isTripCountKnown = false)
    (hlim : info.limitingTerminator = some limiting)
    (hexact : ExitsAfter I n body (I.execAll b.instrs s) limiting info.tripCount)
    (hn : info.tripCount < n) :
  ∃ l, processLoop A b body rest = some (some l) ∧
    l.run I n s = (CfList.loop b body rest).run I n s
  := by
  obtain ⟨hts, htriv, hcount⟩ := loopInfo_spec hinfo
  have hterm : terminators 0 body = [first, last] := by
    simpa using congrArg List.reverse hts.symm
  obtain ⟨P⟩ := nonempty_twoTerminators hterm
  have hlt : first.index < last.index := by
    have := P.index_eq'
    omega
  have hmem : limiting = last ∨ limiting = first := by
    obtain ⟨st, hst, rfl⟩ := findTripCount_spec hcount
    obtain ⟨-, -, before, after, hsplit, -⟩ := hst.limiting limiting hlim
    have : limiting ∈ [last, first] := by
      simp [hsplit]
    simpa using this
  rcases hmem with rfl | rfl
  · -- the limiting terminator comes second
    obtain ⟨l, hl, hrun⟩ := P.complexUnrollSecond_correct hlive htriv hb rest hexact hn
    refine ⟨l, ?_, hrun⟩
    simp [processLoop, hinfo, hlim, hsmall, hunknown, complexUnroll, hlt.ne, hl]
  · by_cases hzero : info.tripCount = 0
    · -- the second one is never reached
      rw [hzero] at hexact hn hsmall
      obtain ⟨l, hl, hrun⟩ := P.simpleUnroll_correct hlive htriv hb rest hexact hn
      refine ⟨l, ?_, hrun⟩
      simp [processLoop, hinfo, hlim, hsmall, hunknown, hzero, hl]
    · obtain ⟨l, hl, hrun⟩ := P.complexUnrollFirst_correct hlive htriv hb rest hexact hn
      refine ⟨l, ?_, hrun⟩
      simp [processLoop, hinfo, hlim, hsmall, hunknown, complexUnroll, hzero, hl]

/-- An analysis that can only count to two. -/
def countToTwo : Analysis ℕ :=
  { tallyAnalysis with iterations := fun c _ => some (if c = 2 then 2#32 else -1#32) }

/-- The second terminator exits after two passes, and nothing is known of the first. -/
theorem processLoop_complex_two :
  ∃ l, processLoop countToTwo {} (twoExits 5 2) (.block {}) = some (some l) ∧
    l.run tally 5 (0, []) = (CfList.loop {} (twoExits 5 2) (.block {})).run tally 5 (0, [])
  := by
  have hinfo : loopInfo countToTwo (twoExits 5 2) =
      some ([⟨1, 2, false⟩, ⟨0, 5, false⟩], ⟨false, 2, some ⟨1, 2, false⟩⟩) := by
    decide
  have hexact : ExitsAfter tally 5 (twoExits 5 2) (0, []) ⟨1, 2, false⟩ 2 := by
    refine exitsAfter_of_passStart 3 rfl rfl ?_
    intro k hk sk hsk s' hs'
    interval_cases k <;> cases hsk <;> cases hs' <;> decide
  exact processLoop_complex (b := {}) (.block {}) rfl (twoExits_live 5 2) hinfo
    (by decide) rfl rfl hexact (by decide)

end CfList

end Nir
