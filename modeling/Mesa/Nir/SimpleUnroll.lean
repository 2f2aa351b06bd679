import Mesa.Nir.Terminators
import Mathlib.Tactic.IntervalCases

/-!
# Simple unrolling

The code `simple_unroll` emits does what the loop does, except that it goes on in the last
pass until the limiting terminator.  That makes a difference where a terminator that comes
before the limiting one is satisfied in the same pass.
-/

namespace Nir

open Flow

namespace CfList

variable {ι κ S : Type} {I : Interp ι κ S} {n : ℕ}

/-! ### The code emitted -/

theorem cloneTimes_spec {loopBody header l : CfList ι κ}
    (hb : loopBody.lastBlock.jump = none) (hh : header.lastBlock.jump = none)
    (hl : l.lastBlock.jump = none) (m : ℕ) :
  ∃ l', cloneTimes loopBody header m l = some l' ∧ l'.lastBlock.jump = none ∧
    ∀ (S : Type) (I : Interp ι κ S) (n : ℕ), l'.run I n =
      (l.run I n).seq (Beh.iter ((loopBody.run I n).seq (header.run I n)) m)
  := by
  induction m generalizing l with
  | zero =>
      refine ⟨l, rfl, hl, ?_⟩
      intro S I n
      simp [Beh.iter]
  | succ m ih =>
      obtain ⟨l₁, hl₁, hj₁⟩ := exists_append hl loopBody
      obtain ⟨l₂, hl₂, hj₂⟩ := exists_append (hj₁.trans hb) header
      obtain ⟨l', hl', hj', hrun⟩ := ih (hj₂.trans hh)
      refine ⟨l', by simp [cloneTimes, hl₁, hl₂, hl'], hj', ?_⟩
      intro S I n
      rw [hrun, run_append hl₂, run_append hl₁]
      simp [Beh.iter, Beh.seq_assoc]

/-- `simple_unroll` succeeds, and emits the passes without their terminators, followed by the
code before the limiting terminator and the code of its break. -/
theorem simpleUnroll_spec {body h t e r l' h' : CfList ι κ} {b : Block ι}
    {limiting : LoopTerminator κ} (hb : b.jump = none) (hlive : body.Live)
    (htriv : body.TrivialIfs) (hbody : body = h.appendIf limiting.cond t e r)
    (hindex : limiting.index = h.numNodes)
    (hcft : continueFromThen t e = some limiting.continueFromThen)
    (hl' : (body.setLastJump none).removeTerminators = some l')
    (hh' : h.removeTerminators = some h') (rest : CfList ι κ) (m : ℕ) :
  ∃ l, simpleUnroll limiting m b body rest = some l ∧
    ∀ (S : Type) (I : Interp ι κ S) (n : ℕ), l.run I n = (b.run I).seq
      ((Beh.iter (l'.run I n) m).seq ((h'.run I n).seq
        ((((if limiting.continueFromThen then e else t).setLastJump none).run I n).seq
          (rest.run I n))))
  := by
  obtain ⟨hcont, hbrk, -⟩ := branches_of_trivial (htriv h _ t e r hbody) hcft
  have hprep : body.loopPrepareForUnroll =
      h.appendIf limiting.cond t e (r.setLastJump none) := by
    rw [loopPrepareForUnroll_eq hlive, hbody, setLastJump_appendIf]
  have hsplit : body.loopPrepareForUnroll.splitIf limiting.index =
      some ⟨h, limiting.cond, t, e, r.setLastJump none⟩ :=
    splitIf_eq_some_iff.mpr ⟨hindex.symm, hprep⟩
  subst hbody
  obtain ⟨hsh, hjh, hsr⟩ := (straight_appendIf h _ t e r).mp hlive.straight
  obtain ⟨_, hx, hjh', -⟩ := removeTerminators_spec hsh htriv.header hjh
  cases hh'.symm.trans hx
  obtain ⟨r', hr', hjr', -⟩ := removeTerminators_spec
    ((straight_setLastJump r none).trans hsr) (htriv.rest.setLastJump none)
    (lastBlock_setLastJump r none)
  rw [setLastJump_appendIf] at hl'
  obtain ⟨loopBody, hloop, hjloop⟩ := exists_append (lastBlock_of_not_containsJump hcont) r'
  obtain ⟨l₁, hl₁, hj₁⟩ := exists_append (a := CfList.block b) hb h'
  obtain ⟨l₂, hl₂, hj₂, hrun₂⟩ :=
    cloneTimes_spec (hjloop.trans hjr') hjh' (hj₁.trans hjh') m
  obtain ⟨l₃, hl₃, hj₃⟩ := exists_append hj₂
    ((if limiting.continueFromThen then e else t).setLastJump none)
  obtain ⟨l₄, hl₄, -⟩ := exists_append (hj₃.trans (lastBlock_setLastJump _ none)) rest
  refine ⟨l₄, ?_, ?_⟩
  · simp [simpleUnroll, hsplit, hh', hr', AtIf.continueList, AtIf.breakList, hloop, hl₁, hl₂,
      hl₃, hl₄]
  · intro S I n
    have hpass : l'.run I n = (h'.run I n).seq (loopBody.run I n) := by
      rw [run_removeTerminators_appendIf hcft hh' hr' hl', run_append hloop]
    have hiter : (h'.run I n).seq (Beh.iter ((loopBody.run I n).seq (h'.run I n)) m) =
        (Beh.iter (l'.run I n) m).seq (h'.run I n) := by
      rw [hpass, Beh.iter_seq]
    calc l₄.run I n
        = (b.run I).seq (((h'.run I n).seq
            (Beh.iter ((loopBody.run I n).seq (h'.run I n)) m)).seq
            ((((if limiting.continueFromThen then e else t).setLastJump none).run I n).seq
              (rest.run I n))) := by
          rw [run_append hl₄, run_append hl₃, hrun₂, run_append hl₁]
          simp only [run, Beh.seq_assoc]
      _ = _ := by
          rw [hiter]
          simp only [Beh.seq_assoc]

/-- Where the terminator `u` is satisfied together with the limiting one and comes before it,
the loop runs the code of its break.  The code emitted instead does the same if running the
rest of its last pass, from the continue branch of `u` down to the limiting terminator and
through the break of that, makes no difference. -/
def TieHarmless (I : Interp ι κ S) (n : ℕ) (body rest : CfList ι κ) (s : S) (tripCount : ℕ)
    (limiting u : LoopTerminator κ) : Prop :=
  ∀ p q mid, body.splitIf u.index = some p →
    p.rest.splitIf (limiting.index - u.index - 1) = some q →
    q.header.removeTerminators = some mid →
    ∀ sk s', passStart I n body s tripCount = some sk → p.header.run I n sk = (.fall, s') →
      (((p.breakList u.continueFromThen).run I n).seq (rest.run I n)) s' =
        (((p.continueList u.continueFromThen).run I n).seq ((mid.run I n).seq
          (((q.breakList limiting.continueFromThen).run I n).seq (rest.run I n)))) s'

/-! ### The limiting terminator -/

theorem loopInfo_spec {A : Analysis κ} {body : CfList ι κ} {ts : List (LoopTerminator κ)}
    {info : LoopInfo (LoopTerminator κ)} (h : loopInfo A body = some (ts, info)) :
  ts = (terminators 0 body).reverse ∧ body.TrivialIfs ∧ findTripCount A.count ts = some info
  := by
  obtain ⟨ts', hts', h⟩ := Option.bind_eq_some_iff.mp h
  obtain ⟨info', hinfo', h⟩ := Option.bind_eq_some_iff.mp h
  cases h
  obtain ⟨found, hfound, h⟩ := Option.bind_eq_some_iff.mp hts'
  split_ifs at h
  cases h
  obtain ⟨rfl, htriv⟩ := scanTerminators_eq hfound
  exact ⟨by simp, htriv, hinfo'⟩

theorem toInt_ofNat_of_lt {m : ℕ} (h : m < 2 ^ 31) :
  (BitVec.ofNat 32 m).toInt = m
  := by
  have hm : (BitVec.ofNat 32 m).toNat = m := by
    rw [BitVec.toNat_ofNat]
    omega
  rw [BitVec.toInt_eq_toNat_cond, hm]
  split_ifs
  · rfl
  · omega

/-- Where the counts are known, the limiting terminator has the least one. -/
theorem findTripCount_limiting {A : Analysis κ} {ts : List (LoopTerminator κ)}
    {info : LoopInfo (LoopTerminator κ)} {limiting : LoopTerminator κ}
    (h : findTripCount A.count ts = some info) (hlim : info.limitingTerminator = some limiting)
    (hcount : ∀ u ∈ ts, ∃ m < 2 ^ 31, A.count u = some (BitVec.ofNat 32 m)) :
  limiting ∈ ts ∧ info.tripCount < 2 ^ 31 ∧
    A.count limiting = some (BitVec.ofNat 32 info.tripCount) ∧
    ∀ u ∈ ts, ∀ m < 2 ^ 31, A.count u = some (BitVec.ofNat 32 m) → info.tripCount ≤ m
  := by
  obtain ⟨st, hst, rfl⟩ := findTripCount_spec h
  obtain ⟨hne, hcl, before, after, hsplit, -⟩ := hst.limiting limiting hlim
  have hmem : limiting ∈ ts := by
    simp [hsplit]
  obtain ⟨m, hm, hcm⟩ := hcount limiting hmem
  have hmin : st.minTripCount = BitVec.ofNat 32 m := by
    simpa using hcl.symm.trans hcm
  have htrip : (if (-1#32).slt st.minTripCount then st.minTripCount.toNat else 0) = m := by
    have hpos : (-1#32).slt st.minTripCount := by
      rw [BitVec.slt_iff_toInt_lt, hmin, toInt_ofNat_of_lt hm]
      have : (-1#32).toInt = -1 := by decide
      omega
    rw [if_pos hpos, hmin, BitVec.toNat_ofNat]
    omega
  simp only [htrip]
  refine ⟨hmem, hm, hcm, ?_⟩
  intro u hu m' hm' hcu
  have hne' : BitVec.ofNat 32 m' ≠ -1#32 := by
    intro heq
    have := congrArg BitVec.toInt heq
    rw [toInt_ofNat_of_lt hm', show (-1#32).toInt = -1 by decide] at this
    omega
  obtain ⟨-, hleast⟩ := hst.least u hu _ hcu hne'
  rw [BitVec.slt_iff_toInt_lt, hmin, toInt_ofNat_of_lt hm, toInt_ofNat_of_lt hm'] at hleast
  omega

theorem ofNat_inj_of_lt {m m' : ℕ} (h : m < 2 ^ 31) (h' : m' < 2 ^ 31) :
  some (BitVec.ofNat 32 m) = some (BitVec.ofNat 32 m') ↔ m = m'
  := by
  constructor
  · intro heq
    have := congrArg BitVec.toInt (Option.some.inj heq)
    rw [toInt_ofNat_of_lt h, toInt_ofNat_of_lt h'] at this
    omega
  · rintro rfl
    rfl

/-- The terminators of a loop are known by their positions. -/
theorem terminators_index_inj {l : CfList ι κ} {i : ℕ} {u v : LoopTerminator κ}
    (hu : u ∈ terminators i l) (hv : v ∈ terminators i l) (h : u.index = v.index) :
  u = v
  := by
  obtain ⟨h₁, t₁, e₁, r₁, hl₁, hi₁, hc₁⟩ := mem_terminators.mp hu
  obtain ⟨h₂, t₂, e₂, r₂, hl₂, hi₂, hc₂⟩ := mem_terminators.mp hv
  have hs₁ : l.splitIf h₁.numNodes = some ⟨h₁, u.cond, t₁, e₁, r₁⟩ :=
    splitIf_eq_some_iff.mpr ⟨rfl, hl₁⟩
  have hs₂ : l.splitIf h₂.numNodes = some ⟨h₂, v.cond, t₂, e₂, r₂⟩ :=
    splitIf_eq_some_iff.mpr ⟨rfl, hl₂⟩
  have hnum : h₁.numNodes = h₂.numNodes := by
    omega
  rw [hnum, hs₂] at hs₁
  simp only [Option.some.injEq, AtIf.mk.injEq] at hs₁
  obtain ⟨-, hcond, rfl, rfl, -⟩ := hs₁
  rw [hc₂] at hc₁
  cases u
  cases v
  simp_all

/-- As long as no terminator exits, the passes of the loop are those without terminators. -/
theorem iter_eq_fall_iff {body l' : CfList ι κ} {m : ℕ} {s sk : S} (hlive : body.Live)
    (htriv : body.TrivialIfs) (hl' : (body.setLastJump none).removeTerminators = some l')
    (hno : ∀ k < m, ∀ sk, passStart I n body s k = some sk →
      (body.setLastJump none).NoExit I n sk) :
  Beh.iter (l'.run I n) m s = (.fall, sk) ↔ passStart I n body s m = some sk
  := by
  obtain ⟨_, hx, -, hpass⟩ := removeTerminators_spec
    ((straight_setLastJump body none).trans hlive.straight) (htriv.setLastJump none)
    (lastBlock_setLastJump body none)
  cases hl'.symm.trans hx
  obtain ⟨hclosed, hpass⟩ := hpass S I n
  induction m generalizing sk with
  | zero => simp [Beh.iter, passStart]
  | succ m ih =>
      have ih' : ∀ x, Beh.iter (l'.run I n) m s = (.fall, x) ↔
          passStart I n body s m = some x := fun x => ih (fun k hk => hno k (by omega))
      rw [Beh.iter_succ, Beh.seq_eq_fall_iff]
      constructor
      · rintro ⟨x, hx, hsk⟩
        have hm := (ih' x).mp hx
        apply passStart_succ hlive hm
        rw [hpass x (hno m (by omega) x hm), hsk]
      · intro hsk
        obtain ⟨x, hx, hrun⟩ := Option.bind_eq_some_iff.mp hsk
        refine ⟨x, (ih' x).mpr hx, ?_⟩
        have heq := hpass x (hno m (by omega) x hx)
        have hc := hclosed x
        rw [← heq] at hc ⊢
        clear heq
        rcases hlive.last with hj | hj
        · rw [setLastJump_of_lastBlock hj] at hc ⊢
          rcases hb : body.run I n x with ⟨ex, y⟩
          cases ex <;> simp_all
        · rw [run_eq_setLastJump_seq hj] at hrun
          rcases hb : (body.setLastJump none).run I n x with ⟨ex, y⟩
          cases ex <;> simp_all [Beh.seq, Jump.exit]

/-! ### Correctness -/

/-- Of the terminators with a given property, one comes first. -/
theorem exists_first {ts : List (LoopTerminator κ)} {P : LoopTerminator κ → Prop}
    (h : ∃ u ∈ ts, P u) :
  ∃ u ∈ ts, P u ∧ ∀ v ∈ ts, v.index < u.index → ¬ P v
  := by
  obtain ⟨u, hu, hP⟩ := h
  induction hi : u.index using Nat.strong_induction_on generalizing u with
  | _ i ih =>
      by_cases hv : ∃ v ∈ ts, v.index < u.index ∧ P v
      · obtain ⟨v, hv, hlt, hPv⟩ := hv
        apply ih v.index (by omega) v hv hPv rfl
      · push Not at hv
        exact ⟨u, hu, hP, hv⟩

theorem terminators_setLastJump (i : ℕ) (l : CfList ι κ) (j : Option Jump) :
  terminators i (l.setLastJump j) = terminators i l
  := by
  induction l generalizing i with
  | block b => rfl
  | nif b c t e rest iht ihe ih => simp [setLastJump, terminators, ih]
  | loop b body rest ihbody ih => simp [setLastJump, terminators, ih]

/-- The counts of the terminators are exact, and the least of them is `m`. -/
structure LeastCount (A : Analysis κ) (I : Interp ι κ S) (n : ℕ) (body : CfList ι κ) (s : S)
    (m : ℕ) : Prop where
  lt : m < 2 ^ 31
  exact : ∀ u ∈ terminators 0 body, ∃ m' < 2 ^ 31, m ≤ m' ∧
    A.count u = some (BitVec.ofNat 32 m') ∧ ExitsAfter I n body s u m'

namespace LeastCount

variable {A : Analysis κ} {body : CfList ι κ} {s : S} {m : ℕ}

/-- No terminator exits before the least count is reached. -/
theorem noExit (hc : LeastCount A I n body s m) {k : ℕ} (hk : k < m) {sk : S}
    (hsk : passStart I n body s k = some sk) :
  (body.setLastJump none).NoExit I n sk
  := by
  apply noExit_of_exitsAfter (fun h c t e rest heq => exists_appendIf_of_setLastJump heq) hsk
  intro u hu
  rw [terminators_setLastJump] at hu
  obtain ⟨m', -, hm', -, hexit⟩ := hc.exact u hu
  exact ⟨m', by omega, hexit⟩

/-- Once it is reached, the first terminator with that count exits. -/
theorem exits_first (hc : LeastCount A I n body s m) {u : LoopTerminator κ}
    (hcount : A.count u = some (BitVec.ofNat 32 m))
    (hfirst : ∀ v ∈ terminators 0 body, v.index < u.index →
      A.count v ≠ some (BitVec.ofNat 32 m))
    {h t e r : CfList ι κ} (hbody : body = h.appendIf u.cond t e r)
    (hindex : u.index = h.numNodes) (hcft : continueFromThen t e = some u.continueFromThen)
    {sk : S} (hsk : passStart I n body s m = some sk) :
  h.NoExit I n sk ∧ ∀ s', h.run I n sk = (.fall, s') → I.test u.cond s' ≠ u.continueFromThen
  := by
  constructor
  · apply noExit_of_exitsAfter _ hsk
    · intro v hv
      obtain ⟨h', t', e', r', rfl, hi, hcft'⟩ := mem_terminators.mp hv
      have hmem : v ∈ terminators 0 body := by
        apply mem_terminators.mpr ⟨h', t', e', r'.appendIf u.cond t e r, ?_, hi, hcft'⟩
        rw [hbody, appendIf_assoc]
      have hlt : v.index < u.index := by
        rw [hindex, numNodes_appendIf]
        omega
      obtain ⟨m', -, -, hcount', hexit⟩ := hc.exact v hmem
      refine ⟨m', ?_, hexit⟩
      rintro rfl
      exact hfirst v hmem hlt hcount'
    · rintro h' c' t' e' r' rfl
      exact ⟨_, by rw [hbody, appendIf_assoc]⟩
  · intro s' hs'
    have hmem : u ∈ terminators 0 body :=
      mem_terminators.mpr ⟨h, t, e, r, hbody, by omega, hcft⟩
    obtain ⟨m', hlt, -, hcount', hexit⟩ := hc.exact u hmem
    have hm : m = m' := (ofNat_inj_of_lt hc.lt hlt).mp (hcount.symm.trans hcount')
    have hsplit : body.splitIf u.index = some ⟨h, u.cond, t, e, r⟩ :=
      splitIf_eq_some_iff.mpr ⟨hindex.symm, hbody⟩
    apply (hexit _ hsplit m sk hsk s' hs').mpr hm

end LeastCount

/-- A tie is harmless if the two pieces of code agree in the state in which the terminator is
tested in the last pass. -/
theorem tieHarmless_iff {A : Analysis κ} {body h t e mid t' e' r l' h' mid' : CfList ι κ}
    {s : S} {m : ℕ} {limiting u : LoopTerminator κ} (rest : CfList ι κ) (hlive : body.Live)
    (htriv : body.TrivialIfs) (hl' : (body.setLastJump none).removeTerminators = some l')
    (hc : LeastCount A I n body s m) (hcount : A.count u = some (BitVec.ofNat 32 m))
    (hfirst : ∀ v ∈ terminators 0 body, v.index < u.index →
      A.count v ≠ some (BitVec.ofNat 32 m))
    (hbody : body = h.appendIf u.cond t e (mid.appendIf limiting.cond t' e' r))
    (hindex : u.index = h.numNodes) (hindex' : limiting.index = h.numNodes + 1 + mid.numNodes)
    (hcft : continueFromThen t e = some u.continueFromThen)
    (hhrun : ∀ s, h.NoExit I n s → h.run I n s = h'.run I n s)
    (hmid' : mid.removeTerminators = some mid') :
  TieHarmless I n body rest s m limiting u ↔
    ∀ s', ((Beh.iter (l'.run I n) m).seq (h'.run I n)) s = (.fall, s') →
      (((if u.continueFromThen then t else e).run I n).seq ((mid'.run I n).seq
        ((((if limiting.continueFromThen then e' else t').setLastJump none).run I n).seq
          (rest.run I n)))) s' =
      ((((if u.continueFromThen then e else t).setLastJump none).run I n).seq (rest.run I n)) s'
  := by
  have hp : body.splitIf u.index =
      some ⟨h, u.cond, t, e, mid.appendIf limiting.cond t' e' r⟩ :=
    splitIf_eq_some_iff.mpr ⟨hindex.symm, hbody⟩
  have hq : (mid.appendIf limiting.cond t' e' r).splitIf (limiting.index - u.index - 1) =
      some ⟨mid, limiting.cond, t', e', r⟩ :=
    splitIf_eq_some_iff.mpr ⟨by simp only; omega, rfl⟩
  have hreach : ∀ s', ((Beh.iter (l'.run I n) m).seq (h'.run I n)) s = (.fall, s') ↔
      ∃ sk, passStart I n body s m = some sk ∧ h.run I n sk = (.fall, s') := by
    intro s'
    rw [Beh.seq_eq_fall_iff]
    apply exists_congr
    intro sk
    rw [iter_eq_fall_iff hlive htriv hl' (fun k hk sk => hc.noExit hk)]
    apply and_congr_right
    intro hsk
    rw [hhrun sk (hc.exits_first hcount hfirst hbody hindex hcft hsk).1]
  constructor
  · intro hharmless s' hs'
    obtain ⟨sk, hsk, hrun⟩ := (hreach s').mp hs'
    exact (hharmless _ _ mid' hp hq hmid' sk s' hsk hrun).symm
  · intro hagree p q mid'' hp' hq' hmid'' sk s' hsk hrun
    cases hp.symm.trans hp'
    cases hq.symm.trans hq'
    cases hmid'.symm.trans hmid''
    exact (hagree s' ((hreach s').mpr ⟨sk, hsk, hrun⟩)).symm

/-- When all the terminators of a loop have exact counts, the code `process_loops` replaces
the loop by does what the loop does if and only if the first terminator that is satisfied, if
it comes before the limiting one, does no harm. -/
theorem processLoop_simple_iff {A : Analysis κ} {b : Block ι} {body : CfList ι κ}
    {ts : List (LoopTerminator κ)} {info : LoopInfo (LoopTerminator κ)}
    {limiting : LoopTerminator κ} {s : S} (rest : CfList ι κ) (hb : b.jump = none)
    (hlive : body.Live)
    (hinfo : loopInfo A body = some (ts, info))
    (hsmall : A.isLoopSmallEnoughToUnroll info.tripCount = true)
    (hknown : info.isTripCountKnown = true)
    (hlim : info.limitingTerminator = some limiting)
    (hexact : ∀ u ∈ ts, ∃ m < 2 ^ 31, A.count u = some (BitVec.ofNat 32 m) ∧
      ExitsAfter I n body (I.execAll b.instrs s) u m)
    (hn : info.tripCount < n) :
  ∃ l, processLoop A b body rest = some (some l) ∧
    (l.run I n s = (CfList.loop b body rest).run I n s ↔
      ∀ u ∈ ts, u.index < limiting.index → A.count u = A.count limiting →
        (∀ v ∈ ts, v.index < u.index → A.count v ≠ A.count limiting) →
        TieHarmless I n body rest (I.execAll b.instrs s) info.tripCount limiting u)
  := by
  obtain ⟨hts, htriv, hcount⟩ := loopInfo_spec hinfo
  obtain ⟨hmem, hlt, hcl, hleast⟩ := findTripCount_limiting hcount hlim
    (fun u hu => (hexact u hu).imp fun m hm => ⟨hm.1, hm.2.1⟩)
  simp only [hcl]
  have hmem' : ∀ u, u ∈ ts ↔ u ∈ terminators 0 body := by
    simp [hts]
  simp only [hmem'] at hmem hexact hleast ⊢
  have hc : LeastCount A I n body (I.execAll b.instrs s) info.tripCount := by
    refine ⟨hlt, ?_⟩
    intro u hu
    obtain ⟨m, hm, hcount, hexit⟩ := hexact u hu
    exact ⟨m, hm, hleast u hu m hm hcount, hcount, hexit⟩
  obtain ⟨h, t, e, r, hbody, hindex, hcft⟩ := mem_terminators.mp hmem
  rw [Nat.zero_add] at hindex
  obtain ⟨l', hl', -, -⟩ := removeTerminators_spec
    ((straight_setLastJump body none).trans hlive.straight) (htriv.setLastJump none)
    (lastBlock_setLastJump body none)
  have hhead : ∀ {h c t e r}, body = CfList.appendIf h c t e r → ∃ h',
      h.removeTerminators = some h' ∧ ∀ s, h.NoExit I n s → h.run I n s = h'.run I n s := by
    rintro h c t e r rfl
    obtain ⟨hs, hj, -⟩ := (straight_appendIf h c t e r).mp hlive.straight
    obtain ⟨h', hh', -, hrun⟩ := removeTerminators_spec hs htriv.header hj
    exact ⟨h', hh', (hrun S I n).2⟩
  obtain ⟨h', hh', -⟩ := hhead hbody
  obtain ⟨l, hl, hrun⟩ :=
    simpleUnroll_spec hb hlive htriv hbody hindex hcft hl' hh' rest info.tripCount
  refine ⟨l, by simp [processLoop, hinfo, hlim, hsmall, hknown, hl], ?_⟩
  -- what the loop does, for the first terminator with the least count
  have hloop : ∀ {u : LoopTerminator κ} {h t e r h'},
      A.count u = some (BitVec.ofNat 32 info.tripCount) →
      (∀ v ∈ terminators 0 body, v.index < u.index →
        A.count v ≠ some (BitVec.ofNat 32 info.tripCount)) →
      body = CfList.appendIf h u.cond t e r → u.index = h.numNodes →
      continueFromThen t e = some u.continueFromThen → h.removeTerminators = some h' →
      (CfList.loop b body rest).run I n s = (((Beh.iter (l'.run I n) info.tripCount).seq
        (h'.run I n)).seq ((((if u.continueFromThen then e else t).setLastJump none).run I n).seq
          (rest.run I n))) (I.execAll b.instrs s) := by
    intro u h t e r h' hcount hfirst hbody hindex hcft hh'
    have hl := loop_run_of_exit hlive htriv hbody hcft hl' hh' (fun k hk sk => hc.noExit hk)
      (fun sk => hc.exits_first hcount hfirst hbody hindex hcft) hn
    simp only [run]
    rw [Beh.seq_of_fall (Block.run_of_jump_eq_none hb s), Beh.seq_congr_left hl]
    simp only [Beh.seq_assoc]
  rw [hrun, Beh.seq_of_fall (Block.run_of_jump_eq_none hb s)]
  by_cases htie : ∃ u ∈ terminators 0 body, u.index < limiting.index ∧
      A.count u = some (BitVec.ofNat 32 info.tripCount)
  · obtain ⟨u, hu, ⟨hult, hucount⟩, hufirst⟩ := exists_first htie
    have hufirst' : ∀ v ∈ terminators 0 body, v.index < u.index →
        A.count v ≠ some (BitVec.ofNat 32 info.tripCount) := by
      intro v hv hlt heq
      exact hufirst v hv hlt ⟨by omega, heq⟩
    obtain ⟨hd, tu, eu, ru, hbodyu, hiu, hcu⟩ := mem_terminators.mp hu
    rw [Nat.zero_add] at hiu
    obtain ⟨hd', hhd', hhdrun⟩ := hhead hbodyu
    obtain ⟨mid, rfl, rfl⟩ := appendIf_eq_appendIf (hbodyu.symm.trans hbody) (by omega)
    obtain ⟨hs, hj, -⟩ := (straight_appendIf _ _ t e r).mp (hbody ▸ hlive.straight)
    rw [lastBlock_appendIf] at hj
    obtain ⟨mid', hmid', -, -⟩ := removeTerminators_spec
      ((straight_appendIf ..).mp hs).2.2 (hbody ▸ htriv).header.rest hj
    have hiff := tieHarmless_iff rest hlive htriv hl' hc hucount hufirst' hbodyu hiu
      (by rw [hindex, numNodes_appendIf]) hcu hhdrun hmid'
    rw [← Beh.seq_eq_seq_iff] at hiff
    rw [hloop hucount hufirst' hbodyu hiu hcu hhd',
      run_removeTerminators_appendIf hcu hhd' hmid' hh']
    simp only [Beh.seq_assoc] at hiff ⊢
    rw [← hiff]
    constructor
    · intro hharmless v hv hvlt hvcount hvfirst
      have heq : v.index = u.index := by
        by_contra hne
        rcases Nat.lt_or_gt_of_ne hne with hlt | hlt
        · exact hufirst' v hv hlt hvcount
        · exact hvfirst u hu hlt hucount
      rwa [terminators_index_inj hv hu heq]
    · intro hharmless
      exact hharmless u hu hult hucount hufirst'
  · rw [hloop hcl _ hbody hindex hcft hh', Beh.seq_assoc]
    · refine ⟨?_, fun _ => rfl⟩
      intro _ u hu hlt hcount _
      exact absurd ⟨u, hu, hlt, hcount⟩ htie
    · intro v hv hlt hcount
      exact htie ⟨v, hv, hlt, hcount⟩

/-! ### A loop with two terminators -/

/-- Once a loop has ended, it makes no more passes. -/
theorem passStart_of_le {body : CfList ι κ} {s : S} {k k' : ℕ}
    (h : passStart I n body s k = none) (hk : k ≤ k') :
  passStart I n body s k' = none
  := by
  induction hk with
  | refl => exact h
  | step _ ih => simp [passStart, ih]

/-- To show when a terminator exits, one only has to look at the passes the loop makes. -/
theorem exitsAfter_of_passStart {body : CfList ι κ} {s : S} {u : LoopTerminator κ} {m : ℕ}
    {p : AtIf ι κ} (K : ℕ) (hp : body.splitIf u.index = some p)
    (hK : passStart I n body s K = none)
    (h : ∀ k < K, ∀ sk, passStart I n body s k = some sk → ∀ s',
      p.header.run I n sk = (.fall, s') → (I.test p.cond s' ≠ u.continueFromThen ↔ k = m)) :
  ExitsAfter I n body s u m
  := by
  intro p' hp' k sk hsk s' hs'
  cases hp.symm.trans hp'
  apply h k _ sk hsk s' hs'
  by_contra hle
  simp [passStart_of_le hK (by omega : K ≤ k)] at hsk

/-- Instructions that count, `none`, and that emit a number; the state is the counter and what
has been emitted; a condition holds once the counter has reached it. -/
def tally : Interp (Option ℕ) ℕ (ℕ × List ℕ) where
  exec
    | none, (i, out) => (i + 1, out)
    | some x, (i, out) => (i, out ++ [x])
  test c s := c ≤ s.1

/-- A loop body with two terminators and an instruction between them. -/
def twoExits (first second : ℕ) : CfList (Option ℕ) ℕ :=
  .nif {} first (.block ⟨[], some .brk⟩) (.block {})
    (.nif ⟨[some 7], none⟩ second (.block ⟨[some 8], some .brk⟩) (.block {})
      (.block ⟨[none], none⟩))

/-- The analysis of a loop whose counter starts at zero. -/
def tallyAnalysis : Analysis ℕ where
  isPhi _ := false
  iterations c _ := some (BitVec.ofNat 32 c)
  numInstructions := 6
  forceUnroll := false
  maxUnrollIterations := 32

theorem twoExits_live (first second : ℕ) :
  (twoExits first second).Live
  := ⟨rfl, .inl rfl⟩

/-- When the second terminator is satisfied first, unrolling is correct. -/
theorem processLoop_simple_two_one :
  ∃ l, processLoop tallyAnalysis {} (twoExits 2 1) (.block {}) = some (some l) ∧
    l.run tally 5 (0, []) = (CfList.loop {} (twoExits 2 1) (.block {})).run tally 5 (0, [])
  := by
  have hinfo : loopInfo tallyAnalysis (twoExits 2 1) =
      some ([⟨1, 1, false⟩, ⟨0, 2, false⟩], ⟨true, 1, some ⟨1, 1, false⟩⟩) := by
    decide
  have hexact : ∀ u ∈ [(⟨1, 1, false⟩ : LoopTerminator ℕ), ⟨0, 2, false⟩], ∃ m < 2 ^ 31,
      tallyAnalysis.count u = some (BitVec.ofNat 32 m) ∧
        ExitsAfter tally 5 (twoExits 2 1) (0, []) u m := by
    intro u hu
    simp only [List.mem_cons, List.not_mem_nil, or_false] at hu
    rcases hu with rfl | rfl
    · refine ⟨1, by decide, rfl, exitsAfter_of_passStart 2 rfl rfl ?_⟩
      intro k hk sk hsk s' hs'
      interval_cases k <;> cases hsk <;> cases hs' <;> decide
    · refine ⟨2, by decide, rfl, exitsAfter_of_passStart 2 rfl rfl ?_⟩
      intro k hk sk hsk s' hs'
      interval_cases k <;> cases hsk <;> cases hs' <;> decide
  obtain ⟨l, hl, hiff⟩ := processLoop_simple_iff (I := tally) (n := 5) (b := {}) (s := (0, []))
    (.block {}) rfl (twoExits_live 2 1) hinfo (by decide) rfl rfl hexact (by decide)
  refine ⟨l, hl, hiff.mpr ?_⟩
  intro u hu hlt hcount
  simp only [List.mem_cons, List.not_mem_nil, or_false] at hu
  rcases hu with rfl | rfl
  · simp at hlt
  · exact absurd hcount (by decide)

/-- When both are satisfied in the same pass, the loop leaves through the first one, while the
code emitted goes on to the second and emits a number too many. -/
theorem processLoop_simple_tie :
  ¬ ∀ (ι κ S : Type) (I : Interp ι κ S) (n : ℕ) (A : Analysis κ) (b : Block ι)
    (body rest : CfList ι κ) (ts : List (LoopTerminator κ))
    (info : LoopInfo (LoopTerminator κ)) (limiting : LoopTerminator κ) (s : S),
    b.jump = none → body.Live → loopInfo A body = some (ts, info) →
    A.isLoopSmallEnoughToUnroll info.tripCount = true → info.isTripCountKnown = true →
    info.limitingTerminator = some limiting →
    (∀ u ∈ ts, ∃ m < 2 ^ 31, A.count u = some (BitVec.ofNat 32 m) ∧
      ExitsAfter I n body (I.execAll b.instrs s) u m) →
    info.tripCount < n →
    ∃ l, processLoop A b body rest = some (some l) ∧
      l.run I n s = (CfList.loop b body rest).run I n s
  := by
  intro hall
  have hexact : ∀ u ∈ [(⟨1, 1, false⟩ : LoopTerminator ℕ), ⟨0, 1, false⟩], ∃ m < 2 ^ 31,
      tallyAnalysis.count u = some (BitVec.ofNat 32 m) ∧
        ExitsAfter tally 5 (twoExits 1 1) (0, []) u m := by
    intro u hu
    simp only [List.mem_cons, List.not_mem_nil, or_false] at hu
    rcases hu with rfl | rfl
    · refine ⟨1, by decide, rfl, exitsAfter_of_passStart 2 rfl rfl ?_⟩
      intro k hk sk hsk s' hs'
      interval_cases k <;> cases hsk
      · cases hs'
        decide
      · cases hs'
    · refine ⟨1, by decide, rfl, exitsAfter_of_passStart 2 rfl rfl ?_⟩
      intro k hk sk hsk s' hs'
      interval_cases k <;> cases hsk <;> cases hs' <;> decide
  obtain ⟨l, hl, hrun⟩ := hall _ _ _ tally 5 tallyAnalysis {} (twoExits 1 1) (.block {})
    [⟨1, 1, false⟩, ⟨0, 1, false⟩] ⟨true, 1, some ⟨1, 1, false⟩⟩ ⟨1, 1, false⟩ (0, []) rfl
    (twoExits_live 1 1) (by decide) (by decide) rfl rfl hexact (by decide)
  have hl' : processLoop tallyAnalysis {} (twoExits 1 1) (.block {}) = some (some
      (.block ⟨[some 7, none, some 7, some 8], none⟩)) := by
    decide
  cases hl.symm.trans hl'
  revert hrun
  decide

end CfList

end Nir
