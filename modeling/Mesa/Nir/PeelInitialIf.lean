import Mesa.Flow.Approx
import Mesa.Nir.OptIf

/-!
# Peeling preserves behaviour

Peeling turns a loop `header; if …; afterIf` into a loop `afterIf; header; …`, which reaches the
bound on its passes at another place.  The two are compared by approximation, over states
that are ordered by their histories.
-/

namespace Nir

open Flow

variable {ι κ δ S : Type}

/-! ### Runs and bounds -/

/-- An interpretation in which instructions only add to the history. -/
def Interp.Grows [Preorder S] (I : Interp ι κ S) : Prop := ∀ i s, s ≤ I.exec i s

section Bounds

variable [Preorder S] {I : Interp ι κ S} (hI : I.Grows)
include hI

theorem Interp.le_execAll (is : List ι) (s : S) :
  s ≤ I.execAll is s
  := by
  induction is generalizing s with
  | nil => exact le_refl s
  | cons i is ih =>
      apply le_trans (hI i s)
      apply ih

theorem Block.grows_run (b : Block ι) :
  (b.run I).Grows
  := by
  intro s
  rcases hj : b.jump with _ | j
  · rw [run_of_jump_eq_none hj]
    apply Interp.le_execAll hI
  · rw [run_of_jump_eq_some hj]
    apply Interp.le_execAll hI

theorem CfList.grows_run (l : CfList ι κ) (n : ℕ) :
  (l.run I n).Grows
  := by
  induction l with
  | block b => exact b.grows_run hI
  | nif b c t e rest iht ihe ih => exact (b.grows_run hI).seq ((iht.branch ihe).seq ih)
  | loop b body rest ihbody ih => exact (b.grows_run hI).seq ((ihbody.loop n).seq ih)

/-- With higher bounds, code gets at least as far. -/
theorem CfList.run_below_run (l : CfList ι κ) {n m : ℕ} (h : n ≤ m) :
  (l.run I n).Below (l.run I m)
  := by
  induction l with
  | block b => exact Beh.Below.refl _
  | nif b c t e rest iht ihe ih =>
      apply (Beh.Below.refl _).seq
      · apply (iht.branch ihe).seq ih (rest.grows_run hI m)
      · apply ((t.grows_run hI m).branch (e.grows_run hI m)).seq (rest.grows_run hI m)
  | loop b body rest ihbody ih =>
      apply (Beh.Below.refl _).seq
      · apply (ihbody.loop (body.grows_run hI m) h).seq ih (rest.grows_run hI m)
      · apply ((body.grows_run hI m).loop m).seq (rest.grows_run hI m)

end Bounds

/-- The two lists have the same runs: what one does within a bound, the other does within the
bound, give or take a constant. -/
def CfList.SameRuns [Preorder S] (I : Interp ι κ S) (l l' : CfList ι κ) : Prop :=
  ∃ d, ∀ n, (l.run I n).Below (l'.run I n) ∧ (l'.run I n).Below (l.run I (n + d))

namespace CfList

section SameRuns

variable [Preorder S] {I : Interp ι κ S}

theorem SameRuns.refl (l : CfList ι κ) :
  SameRuns I l l
  := ⟨0, fun _ => ⟨Beh.Below.refl _, Beh.Below.refl _⟩⟩

theorem SameRuns.of_run_eq {l l' : CfList ι κ} (h : ∀ n, l.run I n = l'.run I n) :
  SameRuns I l l'
  := by
  refine ⟨0, fun n => ?_⟩
  rw [Nat.add_zero, h n]
  exact ⟨Beh.Below.refl _, Beh.Below.refl _⟩

theorem SameRuns.trans {l l' l'' : CfList ι κ} (h : SameRuns I l l') (h' : SameRuns I l' l'') :
  SameRuns I l l''
  := by
  obtain ⟨d, h⟩ := h
  obtain ⟨d', h'⟩ := h'
  refine ⟨d' + d, fun n => ⟨(h n).1.trans (h' n).1, ?_⟩⟩
  rw [← Nat.add_assoc]
  apply (h' n).2.trans (h (n + d')).2

/-- The constant may be taken as large as one likes. -/
theorem SameRuns.exists_bound (hI : I.Grows) {l l' : CfList ι κ} (h : SameRuns I l l') :
  ∃ d, ∀ d', d ≤ d' → ∀ n,
    (l.run I n).Below (l'.run I n) ∧ (l'.run I n).Below (l.run I (n + d'))
  := by
  obtain ⟨d, h⟩ := h
  refine ⟨d, fun d' hd n => ⟨(h n).1, (h n).2.trans ?_⟩⟩
  apply run_below_run hI
  omega

theorem SameRuns.nif (hI : I.Grows) (b : Block ι) (c : κ) {t t' e e' rest rest' : CfList ι κ}
    (ht : SameRuns I t t') (he : SameRuns I e e') (hrest : SameRuns I rest rest') :
  SameRuns I (.nif b c t e rest) (.nif b c t' e' rest')
  := by
  obtain ⟨dt, ht⟩ := ht.exists_bound hI
  obtain ⟨de, he⟩ := he.exists_bound hI
  obtain ⟨dr, hrest⟩ := hrest.exists_bound hI
  refine ⟨dt + de + dr, fun n => ?_⟩
  specialize ht (dt + de + dr) (by omega) n
  specialize he (dt + de + dr) (by omega) n
  specialize hrest (dt + de + dr) (by omega) n
  constructor
  · apply (Beh.Below.refl _).seq ((ht.1.branch he.1).seq hrest.1 (grows_run hI _ _))
    apply ((grows_run hI _ _).branch (grows_run hI _ _)).seq (grows_run hI _ _)
  · apply (Beh.Below.refl _).seq ((ht.2.branch he.2).seq hrest.2 (grows_run hI _ _))
    apply ((grows_run hI _ _).branch (grows_run hI _ _)).seq (grows_run hI _ _)

theorem SameRuns.loop (hI : I.Grows) (b : Block ι) {body body' rest rest' : CfList ι κ}
    (hbody : SameRuns I body body') (hrest : SameRuns I rest rest') :
  SameRuns I (.loop b body rest) (.loop b body' rest')
  := by
  obtain ⟨db, hbody⟩ := hbody.exists_bound hI
  obtain ⟨dr, hrest⟩ := hrest.exists_bound hI
  refine ⟨db + dr, fun n => ?_⟩
  specialize hbody (db + dr) (by omega) n
  specialize hrest (db + dr) (by omega) n
  constructor
  · apply (Beh.Below.refl _).seq
    · apply (hbody.1.loop (grows_run hI _ _) (Nat.le_refl n)).seq hrest.1 (grows_run hI _ _)
    · apply ((grows_run hI _ _).loop n).seq (grows_run hI _ _)
  · apply (Beh.Below.refl _).seq
    · apply (hbody.2.loop (grows_run hI _ _) (by omega)).seq hrest.2 (grows_run hI _ _)
    · apply ((grows_run hI _ _).loop (n + (db + dr))).seq (grows_run hI _ _)

end SameRuns

/-! ### Exits -/

section Exits

variable {I : Interp ι κ S} {n : ℕ}

/-- Code that falls off its end has run its last block just before. -/
theorem exists_of_run_eq_fall {l : CfList ι κ} {s s' : S} (h : l.run I n s = (.fall, s')) :
  l.lastBlock.jump = none ∧ ∃ s₁, s' = I.execAll l.lastBlock.instrs s₁
  := by
  induction l generalizing s with
  | block b =>
      rcases hj : b.jump with _ | j
      · rw [run, Block.run_of_jump_eq_none hj] at h
        cases h
        exact ⟨hj, s, rfl⟩
      · rw [run, Block.run_of_jump_eq_some hj] at h
        exact absurd (congrArg Prod.fst h) (Block.exit_ne_fall j)
  | nif b c t e rest iht ihe ih =>
      obtain ⟨s₁, -, h⟩ := Beh.seq_eq_fall_iff.mp h
      obtain ⟨s₂, -, h⟩ := Beh.seq_eq_fall_iff.mp h
      exact ih h
  | loop b body rest ihbody ih =>
      obtain ⟨s₁, -, h⟩ := Beh.seq_eq_fall_iff.mp h
      obtain ⟨s₂, -, h⟩ := Beh.seq_eq_fall_iff.mp h
      exact ih h

theorem Block.exists_of_run_eq_cont {b : Block ι} {s s' : S} (h : b.run I s = (.cont, s')) :
  b.jump = some .cont ∧ s' = I.execAll b.instrs s
  := by
  rcases hj : b.jump with _ | j
  · rw [Block.run_of_jump_eq_none hj] at h
    cases h
  · rw [Block.run_of_jump_eq_some hj] at h
    cases j <;> cases h
    exact ⟨rfl, rfl⟩

/-- Code that continues has just run a block that ends in a `continue`. -/
theorem exists_of_run_eq_cont {l : CfList ι κ} {s s' : S} (h : l.run I n s = (.cont, s')) :
  ∃ b ∈ l.continueJumps, ∃ s₁, s' = I.execAll b.instrs s₁
  := by
  induction l generalizing s with
  | block b =>
      obtain ⟨hj, hs'⟩ := Block.exists_of_run_eq_cont h
      exact ⟨b, by simp [continueJumps, hj], s, hs'⟩
  | nif b c t e rest iht ihe ih =>
      obtain hb | ⟨s₁, -, h⟩ := Beh.seq_eq_cont_iff.mp h
      · obtain ⟨hj, hs'⟩ := Block.exists_of_run_eq_cont hb
        exact ⟨b, by simp [continueJumps, hj], s, hs'⟩
      · obtain h | ⟨s₂, -, h⟩ := Beh.seq_eq_cont_iff.mp h
        · rw [Beh.branch_apply] at h
          split_ifs at h
          · obtain ⟨x, hx, hs'⟩ := iht h
            exact ⟨x, by simp [continueJumps, hx], hs'⟩
          · obtain ⟨x, hx, hs'⟩ := ihe h
            exact ⟨x, by simp [continueJumps, hx], hs'⟩
        · obtain ⟨x, hx, hs'⟩ := ih h
          exact ⟨x, by simp [continueJumps, hx], hs'⟩
  | loop b body rest ihbody ih =>
      obtain hb | ⟨s₁, -, h⟩ := Beh.seq_eq_cont_iff.mp h
      · obtain ⟨hj, hs'⟩ := Block.exists_of_run_eq_cont hb
        exact ⟨b, by simp [continueJumps, hj], s, hs'⟩
      · obtain h | ⟨s₂, -, h⟩ := Beh.seq_eq_cont_iff.mp h
        · have hexit := Beh.loop_exit n (body.run I n) s₁
          rw [h] at hexit
          simp at hexit
        · obtain ⟨x, hx, hs'⟩ := ih h
          exact ⟨x, by simp [continueJumps, hx], hs'⟩

/-- A pass that is followed by another one has just run a continue block. -/
theorem exists_continueBlock {body : CfList ι κ} {s s' : S}
    (h : body.run I n s = (.fall, s') ∨ body.run I n s = (.cont, s')) :
  ∃ b ∈ body.continueBlocks, ∃ s₁, s' = I.execAll b.instrs s₁
  := by
  rcases h with h | h
  · obtain ⟨hj, hs'⟩ := exists_of_run_eq_fall h
    exact ⟨body.lastBlock, by simp [continueBlocks, hj], hs'⟩
  · obtain ⟨b, hb, hs'⟩ := exists_of_run_eq_cont h
    exact ⟨b, by simp [continueBlocks, hb], hs'⟩

theorem run_ne_cont {l : CfList ι κ} (h : l.continueJumps = []) (s : S) :
  (l.run I n s).1 ≠ .cont
  := by
  intro hs
  obtain ⟨b, hb, -⟩ := exists_of_run_eq_cont (I := I) (n := n) (Prod.ext hs rfl)
  simp [h] at hb

theorem run_ne_fall {l : CfList ι κ} (h : l.lastBlock.jump.isNone = false) (s : S) :
  (l.run I n s).1 ≠ .fall
  := by
  intro hs
  obtain ⟨hj, -⟩ := exists_of_run_eq_fall (I := I) (n := n) (Prod.ext hs rfl)
  simp [hj] at h

/-- Code without jumps neither breaks nor continues. -/
theorem closed_run {l : CfList ι κ} (h : l.endsInJump = false) :
  (l.run I n).Closed
  := by
  induction l with
  | block b =>
      have hb : b.jump = none := by simpa [endsInJump] using h
      intro s
      simp [run, Block.run_of_jump_eq_none hb]
  | nif b c t e rest iht ihe ih =>
      simp only [endsInJump, Bool.or_eq_false_iff, Option.isSome_eq_false_iff,
        Option.isNone_iff_eq_none] at h
      obtain ⟨⟨⟨hb, ht⟩, he⟩, hrest⟩ := h
      apply Beh.Closed.seq
      · apply Beh.closed_of_fall
        simp [Block.run_of_jump_eq_none hb]
      · apply ((iht ht).branch (ihe he)).seq (ih hrest)
  | loop b body rest ihbody ih =>
      simp only [endsInJump, Bool.or_eq_false_iff, Option.isSome_eq_false_iff,
        Option.isNone_iff_eq_none] at h
      obtain ⟨⟨hb, -⟩, hrest⟩ := h
      apply Beh.Closed.seq
      · apply Beh.closed_of_fall
        simp [Block.run_of_jump_eq_none hb]
      · apply (Beh.closed_loop n _).seq (ih hrest)

end Exits

/-! ### Insertion -/

section Insertion

variable {I : Interp ι κ S} {n : ℕ}

theorem run_of_isEmpty {l : CfList ι κ} (h : l.isEmpty = true) :
  l.run I n = Beh.skip
  := by
  cases l with
  | block b =>
      simp only [isEmpty, Block.isEmpty, Bool.and_eq_true, List.isEmpty_iff,
        Option.isNone_iff_eq_none] at h
      funext s
      rw [run, Block.run_of_jump_eq_none h.2, h.1]
      rfl
  | nif b c t e rest => simp [isEmpty] at h
  | loop b body rest => simp [isEmpty] at h

theorem append_empty (l : CfList ι κ) :
  l.append (.block {}) = some l
  := by
  induction l with
  | block b =>
      obtain ⟨is, _ | j⟩ := b
      · simp [append, Block.stitch, firstBlock, setFirstBlock]
      · simp [append, Block.stitch, firstBlock, setFirstBlock, Block.isEmpty]
  | nif b c t e rest iht ihe ih => simp [append, ih]
  | loop b body rest ihbody ih => simp [append, ih]

/-- Before no jump is at the end. -/
theorem insertBeforeLastJump_eq {l : CfList ι κ} (hl : l.lastBlock.jump = none)
    (k : CfList ι κ) :
  l.insertBeforeLastJump k = l.append k
  := by
  simp [insertBeforeLastJump, hl, setLastJump_of_lastBlock hl, append_empty]

theorem run_appendLoop (l body rest : CfList ι κ) :
  (l.appendLoop body rest).run I n =
    (l.run I n).seq ((Beh.loop n (body.run I n)).seq (rest.run I n))
  := by
  induction l with
  | block b => rfl
  | nif b c t e l iht ihe ih => simp [appendLoop, run, ih, Beh.seq_assoc]
  | loop b body' l ihbody ih => simp [appendLoop, run, ih, Beh.seq_assoc]

theorem run_insertIntoBlock {h b b' : Block ι} (hh : h.jump = none)
    (hb : insertIntoBlock h b = some b') :
  b'.run I = (b.run I).mapCont (I.execAll h.instrs)
  := by
  unfold insertIntoBlock at hb
  split_ifs at hb with hj
  · obtain ⟨b₁, hb₁, hb⟩ := Option.bind_eq_some_iff.mp hb
    funext s
    rw [Block.run_stitch hb, Block.run_stitch hb₁, Beh.mapCont, Block.run_of_jump_eq_some hj]
    simp [Beh.seq, Block.run, hh, Jump.run, Jump.exit, Interp.execAll]
  · cases hb
    funext s
    have hne : (b.run I s).1 ≠ .cont := by
      intro hs
      exact hj (Block.exists_of_run_eq_cont (Prod.ext hs rfl)).1
    rw [Beh.mapCont_of_ne_cont hne]

/-- A block inserted before every `continue` is run whenever the code continues. -/
theorem run_insertBeforeContinue {h : Block ι} (hh : h.jump = none) {l l' : CfList ι κ}
    (hl : l.insertBeforeContinue h = some l') :
  l'.run I n = (l.run I n).mapCont (I.execAll h.instrs)
  := by
  induction l generalizing l' with
  | block b =>
      obtain ⟨b', hb, rfl⟩ := Option.map_eq_some_iff.mp hl
      exact run_insertIntoBlock hh hb
  | nif b c t e rest iht ihe ih =>
      obtain ⟨b', hb, hl⟩ := Option.bind_eq_some_iff.mp hl
      obtain ⟨t', ht, hl⟩ := Option.bind_eq_some_iff.mp hl
      obtain ⟨e', he, hl⟩ := Option.bind_eq_some_iff.mp hl
      obtain ⟨rest', hrest, hl⟩ := Option.bind_eq_some_iff.mp hl
      cases hl
      rw [run, run_insertIntoBlock hh hb, iht ht, ihe he, ih hrest, run, Beh.mapCont_seq,
        Beh.mapCont_seq, Beh.mapCont_branch]
  | loop b body rest ihbody ih =>
      obtain ⟨b', hb, hl⟩ := Option.bind_eq_some_iff.mp hl
      obtain ⟨rest', hrest, hl⟩ := Option.bind_eq_some_iff.mp hl
      cases hl
      rw [run, run_insertIntoBlock hh hb, ih hrest, run, Beh.mapCont_seq, Beh.mapCont_seq,
        Beh.mapCont_of_closed (Beh.closed_loop n _)]

theorem exists_insertIntoBlock {h : Block ι} (hh : h.jump = none) (b : Block ι) :
  ∃ b', insertIntoBlock h b = some b'
  := by
  unfold insertIntoBlock
  split_ifs <;> simp [Block.stitch, hh]

theorem exists_insertBeforeContinue {h : Block ι} (hh : h.jump = none) (l : CfList ι κ) :
  ∃ l', l.insertBeforeContinue h = some l'
  := by
  induction l with
  | block b =>
      obtain ⟨b', hb⟩ := exists_insertIntoBlock hh b
      simp [insertBeforeContinue, hb]
  | nif b c t e rest iht ihe ih =>
      obtain ⟨b', hb⟩ := exists_insertIntoBlock hh b
      obtain ⟨t', ht⟩ := iht
      obtain ⟨e', he⟩ := ihe
      obtain ⟨rest', hrest⟩ := ih
      simp [insertBeforeContinue, hb, ht, he, hrest]
  | loop b body rest ihbody ih =>
      obtain ⟨b', hb⟩ := exists_insertIntoBlock hh b
      obtain ⟨rest', hrest⟩ := ih
      simp [insertBeforeContinue, hb, hrest]

end Insertion

/-! ### One loop -/

theorem isNone_of_continueJumps_ne_nil {body : CfList ι κ} (h : body.continueBlocks.length = 1) :
  body.lastBlock.jump.isNone = true → body.continueJumps = []
  := by
  intro hj
  rw [Option.isNone_iff_eq_none] at hj
  simpa [continueBlocks, hj] using h

section Peel

/-- The loop that is peeled: the halves of the `if` and the lists around it, the condition being
`continueVal` after each pass. -/
structure PeelShape (body : CfList ι κ) (header : Block ι) (c : κ) (continueVal : Bool)
    (entryList continueList afterIf : CfList ι κ) : Prop where
  eq : body = .nif header c (bif continueVal then continueList else entryList)
    (bif continueVal then entryList else continueList) afterIf
  noJump : header.jump = none
  entryNoJump : entryList.endsInJump = false
  oneContinue : body.continueBlocks.length = 1
  position : afterIf.lastBlock.jump.isNone = true ∨ continueList.isEmpty = true

variable {I : Interp ι κ S} {body : CfList ι κ} {b header : Block ι} {c : κ} {continueVal : Bool}
  {entryList continueList afterIf rest l' : CfList ι κ}

/-- What the loop does at the place of the first `if`, when the condition is `v`. -/
theorem PeelShape.run_body
    (h : PeelShape body header c continueVal entryList continueList afterIf) (n : ℕ) {s : S}
    {v : Bool} (hv : I.test c (I.execAll header.instrs s) = v) :
  body.run I n s =
    (header.run I).seq
      (((bif v == continueVal then continueList else entryList).run I n).seq
        (afterIf.run I n)) s
  := by
  rw [h.eq, run, Beh.seq_of_fall (Block.run_of_jump_eq_none h.noJump s),
    Beh.seq_of_fall (Block.run_of_jump_eq_none h.noJump s)]
  apply Beh.seq_congr_left
  rw [Beh.branch_apply, hv]
  cases v <;> cases continueVal <;> rfl

/-- The continue list does not continue: if it did, the position of the continue block would be
lost. -/
theorem PeelShape.continueJumps_continueList
    (h : PeelShape body header c continueVal entryList continueList afterIf) :
  continueList.continueJumps = []
  := by
  rcases h.position with hp | hp
  · have hbody : body.continueJumps = [] := by
      apply isNone_of_continueJumps_ne_nil h.oneContinue
      rw [h.eq]
      exact hp
    rw [h.eq, continueJumps] at hbody
    cases continueVal <;> simp_all
  · cases continueList with
    | block x =>
        have hx : x.jump = none := by
          simp only [isEmpty, Block.isEmpty, Bool.and_eq_true, Option.isNone_iff_eq_none] at hp
          exact hp.2
        simp [continueJumps, hx]
    | nif x c' t e r => simp [isEmpty] at hp
    | loop x bd r => simp [isEmpty] at hp

/-- The body of the new loop: the rest of the old body, and on the way back to the start of the
loop, the header and the continue list. -/
theorem PeelShape.pass_newBody
    (h : PeelShape body header c continueVal entryList continueList afterIf)
    (hpeel : peel b header entryList continueList afterIf rest = some l') :
  ∃ before newBody : CfList ι κ, l' = before.appendLoop newBody rest ∧
    (∀ n, before.run I n = ((b.run I).seq (header.run I)).seq (entryList.run I n)) ∧
    ∀ n next, (newBody.run I n).pass next =
      (afterIf.run I n).pass (((header.run I).seq (continueList.run I n)).pass next)
  := by
  obtain ⟨before₁, hbefore₁, hpeel⟩ := Option.bind_eq_some_iff.mp hpeel
  obtain ⟨before, hbefore, hpeel⟩ := Option.bind_eq_some_iff.mp hpeel
  obtain ⟨newBody, hnew, hpeel⟩ := Option.bind_eq_some_iff.mp hpeel
  cases hpeel
  refine ⟨before, newBody, rfl, ?_, ?_⟩
  · intro n
    rw [run_append hbefore, run_append hbefore₁]
    rfl
  · intro n next
    unfold insertAtContinue at hnew
    split_ifs at hnew with hlast hempty
    · obtain ⟨body₁, hbody₁, hnew⟩ := Option.bind_eq_some_iff.mp hnew
      have hlast' : afterIf.lastBlock.jump = none := by simpa using hlast
      rw [insertBeforeLastJump_eq hlast'] at hbody₁
      have hlast₁ : body₁.lastBlock.jump = none := by
        obtain ⟨body₂, hbody₂, hjump⟩ := exists_append hlast' (.block header)
        rw [hbody₁] at hbody₂
        cases hbody₂
        rw [hjump]
        exact h.noJump
      rw [insertBeforeLastJump_eq hlast₁] at hnew
      have hcont : afterIf.continueJumps = [] := by
        have hbody : body.continueJumps = [] := by
          apply isNone_of_continueJumps_ne_nil h.oneContinue
          rw [h.eq]
          exact hlast
        rw [h.eq, continueJumps] at hbody
        simp_all
      rw [run_append hnew, run_append hbody₁, Beh.seq_assoc,
        Beh.seq_pass_of_ne_cont (run_ne_cont hcont)]
      rfl
    · rw [run_insertBeforeContinue h.noJump hnew, run_of_isEmpty hempty, Beh.seq_skip]
      funext s
      have hfall := run_ne_fall (I := I) (n := n) (Bool.not_eq_true _ ▸ hlast) s
      have hheader := Block.run_of_jump_eq_none (I := I) h.noJump
      rcases hrun : afterIf.run I n s with ⟨e, s'⟩
      cases e <;> simp_all [Beh.pass, Beh.mapCont, Beh.after]

/-- The condition at the first `if`: `false` on entry means the entry list, `true` after a pass
means the continue list, or the other way round. -/
structure PhiValues (I : Interp ι κ S) (b : Block ι) (body : CfList ι κ) (header : Block ι) (c : κ)
    (continueVal : Bool) : Prop where
  entry : ∀ s, I.test c (I.execAll header.instrs (I.execAll b.instrs s)) = !continueVal
  back : ∀ x ∈ body.continueBlocks, ∀ s,
    I.test c (I.execAll header.instrs (I.execAll x.instrs s)) = continueVal

/-- All passes but the first one run the continue list. -/
theorem PeelShape.loop_eq
    (h : PeelShape body header c continueVal entryList continueList afterIf)
    (hphi : PhiValues I b body header c continueVal) (n m : ℕ) {s : S}
    (hs : I.test c (I.execAll header.instrs s) = continueVal) :
  Beh.loop m (body.run I n) s =
    Beh.loop m (((header.run I).seq (continueList.run I n)).seq (afterIf.run I n)) s
  := by
  apply Beh.loop_eq_of_invariant (P := fun s => I.test c (I.execAll header.instrs s) = continueVal)
    ?_ ?_ m hs
  · intro s hs
    rw [h.run_body n hs, Beh.seq_assoc]
    simp
  · intro s s' hs'
    obtain ⟨x, hx, s₁, rfl⟩ := exists_continueBlock hs'
    apply hphi.back x hx

/-- The old loop, entered from the block before it. -/
theorem PeelShape.loop_succ_eq
    (h : PeelShape body header c continueVal entryList continueList afterIf)
    (hphi : PhiValues I b body header c continueVal) (n m : ℕ) (s : S) :
  Beh.loop (m + 1) (body.run I n) (I.execAll b.instrs s) =
    ((header.run I).seq (entryList.run I n)).seq
      ((afterIf.run I n).pass
        (Beh.loop m (((header.run I).seq (continueList.run I n)).seq (afterIf.run I n))))
      (I.execAll b.instrs s)
  := by
  have hclosed : ((header.run I).seq (entryList.run I n)).Closed := by
    apply Beh.Closed.seq
    · apply Beh.closed_of_fall
      simp [Block.run_of_jump_eq_none h.noJump]
    · apply closed_run h.entryNoJump
  rw [← Beh.pass_seq hclosed, Beh.loop_succ_eq]
  calc
    _ = (body.run I n).pass
          (Beh.loop m (((header.run I).seq (continueList.run I n)).seq (afterIf.run I n)))
          (I.execAll b.instrs s) := by
        apply Beh.pass_congr
        intro s' hs'
        obtain ⟨x, hx, s₁, rfl⟩ := exists_continueBlock hs'
        apply h.loop_eq hphi n m (hphi.back x hx s₁)
    _ = _ := by
        simp only [Beh.pass]
        rw [h.run_body n (hphi.entry s), Beh.seq_assoc]
        simp [Beh.seq_assoc]

/-- The old loop, with the block before it. -/
theorem PeelShape.seq_loop_succ_eq
    (h : PeelShape body header c continueVal entryList continueList afterIf)
    (hphi : PhiValues I b body header c continueVal) (hb : b.jump = none) (n m : ℕ)
    (next : Beh S) :
  (b.run I).seq ((Beh.loop (m + 1) (body.run I n)).seq next) =
    (b.run I).seq (((header.run I).seq (entryList.run I n)).seq
      (((afterIf.run I n).pass
        (Beh.loop m (((header.run I).seq (continueList.run I n)).seq (afterIf.run I n)))).seq
        next))
  := by
  funext s
  rw [Beh.seq_of_fall (Block.run_of_jump_eq_none hb s),
    Beh.seq_of_fall (Block.run_of_jump_eq_none hb s), ← Beh.seq_assoc]
  apply Beh.seq_congr_left
  apply h.loop_succ_eq hphi

/-- Peeling one loop preserves its runs. -/
theorem PeelShape.sameRuns [Preorder S] (hI : I.Grows) (hb : b.jump = none)
    (h : PeelShape body header c continueVal entryList continueList afterIf)
    (hphi : PhiValues I b body header c continueVal)
    (hpeel : peel b header entryList continueList afterIf rest = some l') :
  SameRuns I (.loop b body rest) l'
  := by
  obtain ⟨before, newBody, rfl, hbefore, hpass⟩ := h.pass_newBody (I := I) hpeel
  have hk : ∀ n s, (((header.run I).seq (continueList.run I n)) s).1 ≠ .cont := by
    intro n s
    rw [Beh.seq_of_fall (Block.run_of_jump_eq_none h.noJump s)]
    apply run_ne_cont h.continueJumps_continueList
  have hkg : ∀ n, ((header.run I).seq (continueList.run I n)).Grows :=
    fun n => (header.grows_run hI).seq (continueList.grows_run hI n)
  have hrg : ∀ n, (afterIf.run I n).Grows := afterIf.grows_run hI
  have hnewg : ∀ n, (newBody.run I n).Grows := newBody.grows_run hI
  have hrestg : ∀ n, (rest.run I n).Grows := rest.grows_run hI
  have heg : ∀ n, ((header.run I).seq (entryList.run I n)).Grows :=
    fun n => (header.grows_run hI).seq (entryList.grows_run hI n)
  have hnew : ∀ n, (before.appendLoop newBody rest).run I n =
      (b.run I).seq (((header.run I).seq (entryList.run I n)).seq
        ((Beh.loop n (newBody.run I n)).seq (rest.run I n))) := by
    intro n
    rw [run_appendLoop, hbefore]
    simp only [Beh.seq_assoc]
  refine ⟨1, fun n => ⟨?_, ?_⟩⟩
  · have hgrows := ((hnewg n).loop n).seq (hrestg n)
    rw [hnew, run]
    rcases n with _ | n
    · apply (Beh.Below.refl _).seq ?_ ((heg 0).seq hgrows)
      rw [Beh.loop, Beh.leave_seq (by simp)]
      apply Beh.leave_stuck_below ((heg 0).seq hgrows)
    · rw [h.seq_loop_succ_eq hphi hb]
      apply (Beh.Below.refl _).seq ?_ ((heg (n + 1)).seq hgrows)
      apply (Beh.Below.refl _).seq ?_ hgrows
      apply Beh.Below.seq ?_ (Beh.Below.refl _) (hrestg (n + 1))
      apply Beh.pass_loop_below_rotated (hpass (n + 1)) (hk (n + 1)) (hkg (n + 1)) (hrg (n + 1))
  · rw [hnew, run, h.seq_loop_succ_eq hphi hb]
    have hgrows := ((hrg (n + 1)).pass (((hkg (n + 1)).seq (hrg (n + 1))).loop n))
    apply (Beh.Below.refl _).seq ?_ ((heg (n + 1)).seq (hgrows.seq (hrestg (n + 1))))
    apply Beh.Below.seq ?_ ?_ (hgrows.seq (hrestg (n + 1)))
    · apply (Beh.Below.refl _).seq (entryList.run_below_run hI (Nat.le_succ n))
        (entryList.grows_run hI (n + 1))
    · apply Beh.Below.seq ?_ (rest.run_below_run hI (Nat.le_succ n)) (hrestg (n + 1))
      apply Beh.Below.trans
      · apply (newBody.run_below_run hI (Nat.le_succ n)).loop (hnewg (n + 1)) (Nat.le_refl n)
      · apply Beh.rotated_below_pass_loop (hpass (n + 1)) (hk (n + 1)) (hkg (n + 1)) (hrg (n + 1))

end Peel

/-! ### Lowering of conditions -/

section LowerDefs

variable [DecidableEq δ] {I : Interp ι δ S} (ds : List δ) (l : CfList ι (Src δ))

theorem run_lowerDefs (n : ℕ) :
  (l.lowerDefs ds).run I.onSrcs n = l.run I.onSrcs n
  := by
  induction l with
  | block b => rfl
  | nif b c t e rest iht ihe ih =>
      rw [lowerDefs, run, iht, ihe, ih]
      rfl
  | loop b body rest ihbody ih => rw [lowerDefs, run, ihbody, ih, run]

@[simp]
theorem lastBlock_lowerDefs :
  (l.lowerDefs ds).lastBlock = l.lastBlock
  := by
  induction l with
  | block b => rfl
  | nif b c t e rest iht ihe ih => exact ih
  | loop b body rest ihbody ih => exact ih

@[simp]
theorem firstBlock_lowerDefs :
  (l.lowerDefs ds).firstBlock = l.firstBlock
  := by
  cases l <;> rfl

@[simp]
theorem continueJumps_lowerDefs :
  (l.lowerDefs ds).continueJumps = l.continueJumps
  := by
  induction l with
  | block b => rfl
  | nif b c t e rest iht ihe ih => simp [lowerDefs, continueJumps, iht, ihe, ih]
  | loop b body rest ihbody ih => simp [lowerDefs, continueJumps, ih]

@[simp]
theorem continueBlocks_lowerDefs :
  (l.lowerDefs ds).continueBlocks = l.continueBlocks
  := by
  simp [continueBlocks]

@[simp]
theorem endsInJump_lowerDefs :
  (l.lowerDefs ds).endsInJump = l.endsInJump
  := by
  induction l with
  | block b => rfl
  | nif b c t e rest iht ihe ih => simp [lowerDefs, endsInJump, iht, ihe, ih]
  | loop b body rest ihbody ih => simp [lowerDefs, endsInJump, ihbody, ih]

@[simp]
theorem isEmpty_lowerDefs :
  (l.lowerDefs ds).isEmpty = l.isEmpty
  := by
  cases l <;> rfl

end LowerDefs

/-! ### The pass -/

section Pass

variable {T : InstrInfo ι δ} [DecidableEq δ]

/-- What `opt_peel_loop_initial_if` does. -/
theorem optPeelLoopInitialIf_cases {b : Block ι} {body rest l' : CfList ι (Src δ)}
    (h : optPeelLoopInitialIf T b body rest = some l') :
  b.jump = none ∧ (l' = .loop b body rest ∨
    ∃ header c t e afterIf entryVal continueVal, body = .nif header c t e afterIf ∧
      body.continueBlocks.length = 1 ∧ c.isSsa = true ∧
      T.headerPhi header c.value = some (entryVal, continueVal) ∧
      (entryVal != 0) = !(continueVal != 0) ∧
      (half (continueVal == 0) t e).endsInJump = false ∧
      peel b header
        ((half (continueVal == 0) t e).lowerDefs ((CfList.nif header c t e (.block {})).defs T))
        ((half (continueVal != 0) t e).lowerDefs ((CfList.nif header c t e (.block {})).defs T))
        (afterIf.lowerDefs ((CfList.nif header c t e (.block {})).defs T)) rest = some l')
  := by
  unfold optPeelLoopInitialIf at h
  split_ifs at h with hb hone
  · refine ⟨by simpa using hb, Or.inl ?_⟩
    cases h
    rfl
  · refine ⟨by simpa using hb, ?_⟩
    split at h
    · rename_i header c t e afterIf
      split_ifs at h with hc
      split at h
      · cases h
        exact Or.inl rfl
      · rename_i entryVal continueVal hphi
        by_cases hval : (entryVal != 0) = (continueVal != 0)
        · rw [if_pos hval] at h
          cases h
          exact Or.inl rfl
        rw [if_neg hval] at h
        by_cases hjump : (half (continueVal == 0) t e).endsInJump = true
        · rw [if_pos hjump] at h
          cases h
          exact Or.inl rfl
        · rw [if_neg hjump] at h
          refine Or.inr ⟨header, c, t, e, afterIf, entryVal, continueVal, rfl, by simpa using hone,
            by simpa using hc, hphi, ?_, by simpa using hjump, h⟩
          exact Bool.eq_not_of_ne hval
    · cases h
      exact Or.inl rfl

/-- The code above the loop, spelled out. -/
theorem peel_cases {b header : Block ι} {entryList continueList afterIf rest l' : CfList ι κ}
    (hb : b.jump = none) (hheader : header.jump = none)
    (h : peel b header entryList continueList afterIf rest = some l') :
  ∃ body, insertAtContinue header continueList afterIf = some body ∧
    l' = (entryList.setFirstBlock ⟨b.instrs ++ header.instrs ++ entryList.firstBlock.instrs,
      entryList.firstBlock.jump⟩).appendLoop body rest
  := by
  obtain ⟨before₁, hbefore₁, h⟩ := Option.bind_eq_some_iff.mp h
  obtain ⟨before, hbefore, h⟩ := Option.bind_eq_some_iff.mp h
  obtain ⟨body, hbody, h⟩ := Option.bind_eq_some_iff.mp h
  cases h
  simp only [append, Block.stitch, hb, firstBlock, setFirstBlock, hheader, Option.isSome_none,
    Bool.false_eq_true, if_false, Option.bind_eq_bind, Option.bind_some, Option.some.injEq]
    at hbefore₁
  subst hbefore₁
  simp only [append, Block.stitch, Option.isSome_none, Bool.false_eq_true, if_false,
    Option.bind_eq_bind, Option.bind_some, Option.some.injEq] at hbefore
  subst hbefore
  exact ⟨body, hbody, rfl⟩

/-- Peeling succeeds if the continue block is the end of the loop, or there is nothing to move
into it. -/
theorem exists_peel {b header : Block ι} {entryList continueList afterIf : CfList ι κ}
    (rest : CfList ι κ) (hb : b.jump = none) (hheader : header.jump = none)
    (h : afterIf.lastBlock.jump.isNone = true ∨ continueList.isEmpty = true) :
  ∃ l', peel b header entryList continueList afterIf rest = some l'
  := by
  obtain ⟨before₁, hbefore₁, hjump₁⟩ :=
    exists_append (a := .block b) hb (.block header)
  obtain ⟨before, hbefore, -⟩ := exists_append (hjump₁.trans hheader) entryList
  obtain ⟨body, hbody⟩ : ∃ body, insertAtContinue header continueList afterIf = some body := by
    unfold insertAtContinue
    split_ifs with hlast hempty
    · rw [Option.isNone_iff_eq_none] at hlast
      obtain ⟨body₁, hbody₁, hjump⟩ := exists_append hlast (.block header)
      obtain ⟨body, hbody, -⟩ := exists_append (hjump.trans hheader) continueList
      refine ⟨body, ?_⟩
      rw [insertBeforeLastJump_eq hlast, hbody₁]
      simp only [Option.bind_eq_bind, Option.bind_some]
      rw [insertBeforeLastJump_eq (hjump.trans hheader), hbody]
    · apply exists_insertBeforeContinue hheader
    · simp_all
  refine ⟨before.appendLoop body rest, ?_⟩
  simp [peel, hbefore₁, hbefore, hbody]

theorem continueJumps_of_endsInJump {l : CfList ι κ} (h : l.endsInJump = false) :
  l.continueJumps = []
  := by
  induction l with
  | block b => simp_all [endsInJump, continueJumps]
  | nif b c t e rest iht ihe ih => simp_all [endsInJump, continueJumps]
  | loop b body rest ihbody ih => simp_all [endsInJump, continueJumps]

theorem endsInJump_setFirstBlock {l : CfList ι κ} {b : Block ι} (h : l.endsInJump = false)
    (hb : b.jump = l.firstBlock.jump) :
  (l.setFirstBlock b).endsInJump = false
  := by
  cases l <;> simp_all [endsInJump, setFirstBlock, firstBlock]

theorem continueJumps_appendLoop (l body rest : CfList ι κ) :
  (l.appendLoop body rest).continueJumps = l.continueJumps ++ rest.continueJumps
  := by
  induction l with
  | block b => rfl
  | nif b c t e l iht ihe ih => simp [appendLoop, continueJumps, ih]
  | loop b body' l ihbody ih => simp [appendLoop, continueJumps, ih]

theorem lastBlock_appendLoop (l body rest : CfList ι κ) :
  (l.appendLoop body rest).lastBlock = rest.lastBlock
  := by
  induction l with
  | block b => rfl
  | nif b c t e l iht ihe ih => exact ih
  | loop b body' l ihbody ih => exact ih

/-! ### When the pass succeeds -/

/-- Whether the first `if` of a loop with a single continue block can be dealt with: its condition
is not a register, and if the `if` is to be peeled, the header does not end in a jump, and the
continue block is the end of the loop or there is nothing to be moved there. -/
def canPeel (T : InstrInfo ι δ) : CfList ι (Src δ) → Bool
  | .nif header c t e afterIf =>
      c.isSsa &&
        match T.headerPhi header c.value with
        | none => true
        | some (entryVal, continueVal) =>
            (entryVal != 0) == (continueVal != 0) || (half (continueVal == 0) t e).endsInJump ||
              header.jump.isNone &&
                (afterIf.lastBlock.jump.isNone || (half (continueVal != 0) t e).isEmpty)
  | _ => true

/-- Whether each loop, when the pass comes to it, does not stand after a jump and can be dealt
with. -/
def peelsCleanly (T : InstrInfo ι δ) : CfList ι (Src δ) → Bool
  | .block _ => true
  | .nif _ _ t e rest => t.peelsCleanly T && e.peelsCleanly T && rest.peelsCleanly T
  | .loop b body rest =>
      b.jump.isNone && body.peelsCleanly T && rest.peelsCleanly T &&
        match body.optIfCfList T with
        | some body' => body'.continueBlocks.length != 1 || body'.canPeel T
        | none => false

/-- The shape of a loop that is peeled, once its conditions have been lowered. -/
theorem peelShape_lowerDefs {header : Block ι} {c : Src δ} {t e afterIf : CfList ι (Src δ)}
    {entryVal continueVal : UInt32} (hcan : (CfList.nif header c t e afterIf).canPeel T = true)
    (hone : (CfList.nif header c t e afterIf).continueBlocks.length = 1)
    (hphi : T.headerPhi header c.value = some (entryVal, continueVal))
    (hval : (entryVal != 0) = !(continueVal != 0))
    (hjump : (half (continueVal == 0) t e).endsInJump = false) (ds : List δ) :
  PeelShape ((CfList.nif header c t e afterIf).lowerDefs ds) header
    ⟨c.value, c.isSsa && c.value ∉ ds⟩ (continueVal != 0)
    ((half (continueVal == 0) t e).lowerDefs ds) ((half (continueVal != 0) t e).lowerDefs ds)
    (afterIf.lowerDefs ds)
  := by
  have hpos : header.jump = none ∧
      (afterIf.lastBlock.jump = none ∨ (half (continueVal != 0) t e).isEmpty = true) := by
    simp only [canPeel, hphi, hjump, hval, Bool.and_eq_true, Bool.or_eq_true, beq_iff_eq,
      Option.isNone_iff_eq_none] at hcan
    simpa using hcan.2
  constructor
  · simp only [lowerDefs]
    cases hv : continueVal == 0 <;> simp [bne, hv, half]
  · exact hpos.1
  · rw [endsInJump_lowerDefs, hjump]
  · rw [continueBlocks_lowerDefs, hone]
  · simpa using hpos.2

/-- Where the first `if` of a loop can be dealt with, it is. -/
theorem exists_optPeelLoopInitialIf {b : Block ι} {body : CfList ι (Src δ)}
    (rest : CfList ι (Src δ)) (hb : b.jump = none)
    (h : body.continueBlocks.length = 1 → body.canPeel T = true) :
  ∃ l', optPeelLoopInitialIf T b body rest = some l'
  := by
  unfold optPeelLoopInitialIf
  rw [if_neg (by simp [hb])]
  by_cases hone : body.continueBlocks.length = 1
  · rw [if_neg (by simpa using hone)]
    specialize h hone
    cases body with
    | block x => exact ⟨_, rfl⟩
    | loop x bd r => exact ⟨_, rfl⟩
    | nif header c t e afterIf =>
        simp only [canPeel, Bool.and_eq_true] at h
        obtain ⟨hc, h⟩ := h
        simp only [hc, Bool.not_true, Bool.false_eq_true, if_false]
        rcases hphi : T.headerPhi header c.value with _ | ⟨entryVal, continueVal⟩
        · exact ⟨_, rfl⟩
        · simp only [hphi, Bool.or_eq_true, Bool.and_eq_true, beq_iff_eq] at h
          simp only
          by_cases hval : (entryVal != 0) = (continueVal != 0)
          · exact ⟨_, if_pos hval⟩
          rw [if_neg hval]
          by_cases hjump : (half (continueVal == 0) t e).endsInJump = true
          · exact ⟨_, if_pos hjump⟩
          rw [if_neg hjump]
          obtain (h | h) | ⟨hheader, hpos⟩ := h
          · contradiction
          · contradiction
          · apply exists_peel rest hb (by simpa using hheader)
            simpa using hpos
  · exact ⟨_, if_pos hone⟩

theorem peelsCleanly_loop {b : Block ι} {body rest : CfList ι (Src δ)} :
  (CfList.loop b body rest).peelsCleanly T = true ↔
    b.jump = none ∧ body.peelsCleanly T = true ∧ rest.peelsCleanly T = true ∧
      ∃ body', body.optIfCfList T = some body' ∧
        (body'.continueBlocks.length = 1 → body'.canPeel T = true)
  := by
  rcases hbody : body.optIfCfList T with _ | body'
  · simp [peelsCleanly, hbody]
  · simp only [peelsCleanly, hbody, Bool.and_eq_true, Option.isNone_iff_eq_none, bne_iff_ne,
      Bool.or_eq_true, Option.some.injEq, exists_eq_left', ← imp_iff_not_or, and_assoc]

/-- The pass comes to an end without failing. -/
theorem exists_optIfCfList {l : CfList ι (Src δ)} (h : l.peelsCleanly T = true) :
  ∃ l', l.optIfCfList T = some l'
  := by
  induction l with
  | block b => exact ⟨_, rfl⟩
  | nif b c t e rest iht ihe ih =>
      simp only [peelsCleanly, Bool.and_eq_true] at h
      obtain ⟨t', ht⟩ := iht h.1.1
      obtain ⟨e', he⟩ := ihe h.1.2
      obtain ⟨rest', hrest⟩ := ih h.2
      exact ⟨.nif b c t' e' rest', by simp [optIfCfList, ht, he, hrest]⟩
  | loop b body rest ihbody ih =>
      obtain ⟨hb, -, hrest, body', hbody', hcan⟩ := peelsCleanly_loop.mp h
      obtain ⟨rest', hrest'⟩ := ih hrest
      obtain ⟨l', hl'⟩ := exists_optPeelLoopInitialIf rest' hb hcan
      exact ⟨l', by simp [optIfCfList, hbody', hrest', hl']⟩

/-! ### What the pass keeps -/

/-- What the pass keeps of a list `l` in turning it into `l'`: the continue blocks; and
instructions are only added at the end of the first block, none of which defines the condition of
an `if` next to it, as long as this is an SSA value. -/
structure Kept (T : InstrInfo ι δ) (l l' : CfList ι (Src δ)) : Prop where
  continueJumps : l'.continueJumps = l.continueJumps
  lastBlock : l'.lastBlock = l.lastBlock
  header : ∃ extra, l'.firstBlock.instrs = l.firstBlock.instrs ++ extra ∧
    ∀ header c t e afterIf, l' = .nif header c t e afterIf → c.isSsa = true →
      ∀ i ∈ extra, T.def? i ≠ some c.value

omit [DecidableEq δ] in
theorem Kept.continueBlocks {l l' : CfList ι (Src δ)} (h : Kept T l l') :
  l'.continueBlocks = l.continueBlocks
  := by
  rw [CfList.continueBlocks, CfList.continueBlocks, h.continueJumps, h.lastBlock]

omit [DecidableEq δ] in
theorem kept_of_eq {l l' : CfList ι (Src δ)} (hjumps : l'.continueJumps = l.continueJumps)
    (hlast : l'.lastBlock = l.lastBlock) (hfirst : l'.firstBlock.instrs = l.firstBlock.instrs) :
  Kept T l l'
  := by
  refine ⟨hjumps, hlast, [], by simpa using hfirst, ?_⟩
  simp

omit [DecidableEq δ] in
theorem mem_defs_firstBlock {l : CfList ι κ} {i : ι} {d : δ} (hi : i ∈ l.firstBlock.instrs)
    (hd : T.def? i = some d) :
  d ∈ l.defs T
  := by
  cases l <;> simp only [defs, List.mem_append, List.mem_filterMap] <;>
    first
    | exact ⟨i, hi, hd⟩
    | exact Or.inl (Or.inl ⟨i, hi, hd⟩)
    | exact Or.inl (Or.inl (Or.inl ⟨i, hi, hd⟩))

omit [DecidableEq δ] in
theorem mem_defs_half {header : Block ι} {c : Src δ} {t e : CfList ι (Src δ)} {v : Bool} {d : δ}
    (hd : d ∈ header.instrs.filterMap T.def? ∨ d ∈ (half v t e).defs T) :
  d ∈ (CfList.nif header c t e (.block {})).defs T
  := by
  simp only [defs, List.mem_append]
  rcases hd with hd | hd
  · exact Or.inl (Or.inl (Or.inl hd))
  · cases v
    · exact Or.inl (Or.inr hd)
    · exact Or.inl (Or.inl (Or.inr hd))

theorem firstBlock_appendLoop_setFirstBlock (l body rest : CfList ι κ) (b : Block ι) :
  ((l.setFirstBlock b).appendLoop body rest).firstBlock = b
  := by
  cases l <;> rfl

/-- The condition of the first `if` above the loop is a register if it is defined in what has been
moved. -/
theorem not_mem_of_isSsa {l body rest t e afterIf : CfList ι (Src δ)} {b header : Block ι}
    {c : Src δ} {ds : List δ}
    (h : ((l.lowerDefs ds).setFirstBlock b).appendLoop body rest = .nif header c t e afterIf)
    (hc : c.isSsa = true) :
  c.value ∉ ds
  := by
  cases l with
  | block x => simp [lowerDefs, setFirstBlock, appendLoop] at h
  | loop x bd r => simp [lowerDefs, setFirstBlock, appendLoop] at h
  | nif x c' t' e' r =>
      simp only [lowerDefs, setFirstBlock, appendLoop, nif.injEq] at h
      obtain ⟨-, rfl, -⟩ := h
      simp only [Bool.and_eq_true, decide_eq_true_eq] at hc
      exact hc.2

/-- Peeling keeps the surroundings of the loop. -/
theorem kept_peel {b header : Block ι} {c : Src δ} {v : Bool}
    {t e continueList afterIf rest l' : CfList ι (Src δ)} (body : CfList ι (Src δ))
    (hb : b.jump = none) (hheader : header.jump = none)
    (hjump : (half v t e).endsInJump = false)
    (h : peel b header ((half v t e).lowerDefs ((CfList.nif header c t e (.block {})).defs T))
      continueList afterIf rest = some l') :
  Kept T (.loop b body rest) l'
  := by
  obtain ⟨newBody, -, rfl⟩ := peel_cases hb hheader h
  constructor
  · rw [continueJumps_appendLoop, continueJumps_of_endsInJump]
    · simp [CfList.continueJumps, hb]
    · apply endsInJump_setFirstBlock
      · rw [endsInJump_lowerDefs, hjump]
      · rfl
  · apply lastBlock_appendLoop
  · refine ⟨header.instrs ++ (half v t e).firstBlock.instrs, ?_, ?_⟩
    · rw [firstBlock_appendLoop_setFirstBlock, firstBlock_lowerDefs, List.append_assoc]
      rfl
    · intro header' c' t' e' afterIf' heq hc i hi hd
      apply not_mem_of_isSsa heq hc
      apply mem_defs_half (v := v)
      rcases List.mem_append.mp hi with hi | hi
      · exact Or.inl (List.mem_filterMap.mpr ⟨i, hi, hd⟩)
      · exact Or.inr (mem_defs_firstBlock hi hd)

theorem kept_optPeelLoopInitialIf {b : Block ι} {body rest l' : CfList ι (Src δ)}
    (hcan : body.continueBlocks.length = 1 → body.canPeel T = true)
    (h : optPeelLoopInitialIf T b body rest = some l') :
  Kept T (.loop b body rest) l'
  := by
  obtain ⟨hb, rfl | ⟨header, c, t, e, afterIf, entryVal, continueVal, rfl, hone, hc, hphi, hval,
    hjump, hpeel⟩⟩ := optPeelLoopInitialIf_cases h
  · apply kept_of_eq rfl rfl rfl
  · have hshape := peelShape_lowerDefs (hcan hone) hone hphi hval hjump []
    apply kept_peel _ hb hshape.noJump hjump hpeel

theorem kept_optIfCfList {l l' : CfList ι (Src δ)} (hclean : l.peelsCleanly T = true)
    (h : l.optIfCfList T = some l') :
  Kept T l l'
  := by
  induction l generalizing l' with
  | block b =>
      cases h
      apply kept_of_eq rfl rfl rfl
  | nif b c t e rest iht ihe ih =>
      simp only [peelsCleanly, Bool.and_eq_true] at hclean
      obtain ⟨t', ht, h⟩ := Option.bind_eq_some_iff.mp h
      obtain ⟨e', he, h⟩ := Option.bind_eq_some_iff.mp h
      obtain ⟨rest', hrest, h⟩ := Option.bind_eq_some_iff.mp h
      cases h
      have ht' := (iht hclean.1.1 ht).continueJumps
      have he' := (ihe hclean.1.2 he).continueJumps
      have hrest' := ih hclean.2 hrest
      apply kept_of_eq
      · simp [continueJumps, ht', he', hrest'.continueJumps]
      · exact hrest'.lastBlock
      · rfl
  | loop b body rest ihbody ih =>
      obtain ⟨hb, hbody, hrest, body', hbody', hcan⟩ := peelsCleanly_loop.mp hclean
      simp only [optIfCfList, hbody', Option.bind_eq_bind, Option.bind_some] at h
      obtain ⟨rest', hrest', h⟩ := Option.bind_eq_some_iff.mp h
      have hkept := kept_optPeelLoopInitialIf hcan h
      have hkept' := ih hrest hrest'
      constructor
      · rw [hkept.continueJumps, continueJumps, continueJumps, hkept'.continueJumps]
      · rw [hkept.lastBlock, lastBlock, lastBlock, hkept'.lastBlock]
      · exact hkept.header

end Pass

/-! ### Register form -/

section RegisterForm

variable [DecidableEq δ] (T : InstrInfo ι δ) (I : Interp ι δ S)

/-- Instructions change no other value than the one they define. -/
def Frame : Prop := ∀ i d, T.def? i ≠ some d → ∀ s, I.test d (I.exec i s) = I.test d s

/-- The phis of the loop headers have been lowered to registers: where a loop has a single continue
block and a phi of its header has constant sources, the value of the phi once the header has been
run is the one constant if the block before the loop has just been run, and the other one if the
continue block has. -/
def PhisLowered : CfList ι (Src δ) → Prop
  | .block _ => True
  | .nif _ _ t e rest => PhisLowered t ∧ PhisLowered e ∧ PhisLowered rest
  | .loop b body rest =>
      (∀ d entryVal continueVal, body.continueBlocks.length = 1 →
        T.headerPhi body.firstBlock d = some (entryVal, continueVal) → ∀ s,
          I.test d (I.execAll body.firstBlock.instrs (I.execAll b.instrs s)) = (entryVal != 0) ∧
          ∀ x ∈ body.continueBlocks,
            I.test d (I.execAll body.firstBlock.instrs (I.execAll x.instrs s)) =
              (continueVal != 0)) ∧
        PhisLowered body ∧ PhisLowered rest

variable {T I}

omit [DecidableEq δ] in
theorem Frame.test_execAll (h : Frame T I) {is : List ι} {d : δ}
    (his : ∀ i ∈ is, T.def? i ≠ some d) (s : S) :
  I.test d (I.execAll is s) = I.test d s
  := by
  induction is generalizing s with
  | nil => rfl
  | cons i is ih =>
      rw [List.forall_mem_cons] at his
      calc I.test d (I.execAll (i :: is) s) = I.test d (I.execAll is (I.exec i s)) := rfl
        _ = I.test d (I.exec i s) := ih his.2 (I.exec i s)
        _ = I.test d s := h i d his.1 s

/-- A phi stays the phi it is when instructions that do not define it are added to its block. -/
theorem headerPhi_of_append {header header' : Block ι} {extra : List ι} {d : δ}
    (h : header'.instrs = header.instrs ++ extra) (hextra : ∀ i ∈ extra, T.def? i ≠ some d) :
  T.headerPhi header' d = T.headerPhi header d
  := by
  have hnone : (extra.findSome? fun i => if T.def? i = some d then T.phi? i else none) = none := by
    rw [List.findSome?_eq_none_iff]
    intro i hi
    rw [if_neg (hextra i hi)]
  rw [InstrInfo.headerPhi, h, List.findSome?_append, hnone, Option.or_none, InstrInfo.headerPhi]

/-- The values of the condition at the first `if` of a loop in which the loops have been dealt
with. -/
theorem Kept.phiValues {b : Block ι} {body rest body' t e afterIf : CfList ι (Src δ)}
    {header : Block ι} {c : Src δ} {entryVal continueVal : UInt32}
    (h : Kept T body body') (ds : List δ) (hframe : Frame T I) (hlow : PhisLowered T I (.loop b body rest))
    (heq : body' = .nif header c t e afterIf) (hone : body'.continueBlocks.length = 1)
    (hc : c.isSsa = true) (hphi : T.headerPhi header c.value = some (entryVal, continueVal))
    (hval : (entryVal != 0) = !(continueVal != 0)) :
  PhiValues I.onSrcs b (body'.lowerDefs ds) header ⟨c.value, c.isSsa && c.value ∉ ds⟩
    (continueVal != 0)
  := by
  obtain ⟨extra, hfirst, hextra⟩ := h.header
  have hextra' := hextra header c t e afterIf heq hc
  have hfirst' : header.instrs = body.firstBlock.instrs ++ extra := by
    rw [← hfirst, heq]
    rfl
  rw [headerPhi_of_append hfirst' hextra'] at hphi
  rw [h.continueBlocks] at hone
  have hvalues := hlow.1 c.value entryVal continueVal hone hphi
  have happend : ∀ s, I.onSrcs.execAll header.instrs s =
      I.execAll extra (I.execAll body.firstBlock.instrs s) := by
    intro s
    rw [hfirst']
    exact List.foldl_append
  constructor
  · intro s
    rw [happend, ← hval, ← (hvalues s).1]
    apply hframe.test_execAll hextra'
  · intro x hx s
    have hx' : x ∈ body.continueBlocks := by
      rwa [← h.continueBlocks, ← continueBlocks_lowerDefs ds]
    rw [happend, ← (hvalues s).2 x hx']
    apply hframe.test_execAll hextra'

/-- The pass preserves the runs of a function. -/
theorem sameRuns_optIfCfList [Preorder S] (hI : I.Grows) (hframe : Frame T I)
    {l l' : CfList ι (Src δ)} (hlow : PhisLowered T I l) (hclean : l.peelsCleanly T = true)
    (h : l.optIfCfList T = some l') :
  SameRuns I.onSrcs l l'
  := by
  have hI' : I.onSrcs.Grows := hI
  induction l generalizing l' with
  | block b =>
      cases h
      apply SameRuns.refl
  | nif b c t e rest iht ihe ih =>
      simp only [peelsCleanly, Bool.and_eq_true] at hclean
      obtain ⟨t', ht, h⟩ := Option.bind_eq_some_iff.mp h
      obtain ⟨e', he, h⟩ := Option.bind_eq_some_iff.mp h
      obtain ⟨rest', hrest, h⟩ := Option.bind_eq_some_iff.mp h
      cases h
      apply SameRuns.nif hI'
      · apply iht hlow.1 hclean.1.1 ht
      · apply ihe hlow.2.1 hclean.1.2 he
      · apply ih hlow.2.2 hclean.2 hrest
  | loop b body rest ihbody ih =>
      obtain ⟨hb, hbody, hrest, body', hbody', hcan⟩ := peelsCleanly_loop.mp hclean
      simp only [optIfCfList, hbody', Option.bind_eq_bind, Option.bind_some] at h
      obtain ⟨rest', hrest', h⟩ := Option.bind_eq_some_iff.mp h
      have hsame : SameRuns I.onSrcs (.loop b body rest) (.loop b body' rest') := by
        apply SameRuns.loop hI'
        · apply ihbody hlow.2.1 hbody hbody'
        · apply ih hlow.2.2 hrest hrest'
      apply hsame.trans
      obtain ⟨-, rfl | ⟨header, c, t, e, afterIf, entryVal, continueVal, rfl, hone, hc, hphi, hval,
        hjump, hpeel⟩⟩ := optPeelLoopInitialIf_cases h
      · apply SameRuns.refl
      · have hphis := (kept_optIfCfList hbody hbody').phiValues
          ((CfList.nif header c t e (.block {})).defs T) hframe hlow rfl hone hc hphi hval
        have hshape := peelShape_lowerDefs (hcan hone) hone hphi hval hjump
          ((CfList.nif header c t e (.block {})).defs T)
        have hlower : SameRuns I.onSrcs (.loop b (.nif header c t e afterIf) rest')
            (.loop b ((CfList.nif header c t e afterIf).lowerDefs
              ((CfList.nif header c t e (.block {})).defs T)) rest') := by
          apply SameRuns.of_run_eq
          intro n
          rw [run, run.eq_3 I.onSrcs n b (lowerDefs _ _), run_lowerDefs]
        apply hlower.trans
        apply hshape.sameRuns hI' hb hphis hpeel

end RegisterForm

/-! ### When the pass fails -/

section Failure

variable [DecidableEq δ] {T : InstrInfo ι δ}

/-- Whether no block that stands before an `if` or a loop ends in a jump. -/
def noCodeAfterJumps : CfList ι κ → Bool
  | .block _ => true
  | .nif b _ t e rest =>
      b.jump.isNone && t.noCodeAfterJumps && e.noCodeAfterJumps && rest.noCodeAfterJumps
  | .loop b body rest => b.jump.isNone && body.noCodeAfterJumps && rest.noCodeAfterJumps

theorem jump_firstBlock_of_endsInJump {l : CfList ι κ} (h : l.endsInJump = false) :
  l.firstBlock.jump = none
  := by
  cases l <;> simp_all [endsInJump, firstBlock]

/-- The pass puts no `if` after a jump. -/
theorem header_jump_of_optIfCfList {l l' : CfList ι (Src δ)} (hdead : l.noCodeAfterJumps = true)
    (h : l.optIfCfList T = some l') {header : Block ι} {c : Src δ} {t e afterIf : CfList ι (Src δ)}
    (heq : l' = .nif header c t e afterIf) :
  header.jump = none
  := by
  induction l generalizing l' header c t e afterIf with
  | block b =>
      cases h
      cases heq
  | nif b c' t' e' rest iht ihe ih =>
      obtain ⟨t₁, -, h⟩ := Option.bind_eq_some_iff.mp h
      obtain ⟨e₁, -, h⟩ := Option.bind_eq_some_iff.mp h
      obtain ⟨rest₁, -, h⟩ := Option.bind_eq_some_iff.mp h
      cases h
      cases heq
      simp only [noCodeAfterJumps, Bool.and_eq_true, Option.isNone_iff_eq_none] at hdead
      exact hdead.1.1.1
  | loop b body rest ihbody ih =>
      simp only [noCodeAfterJumps, Bool.and_eq_true, Option.isNone_iff_eq_none] at hdead
      obtain ⟨body', hbody', h⟩ := Option.bind_eq_some_iff.mp h
      obtain ⟨rest', -, h⟩ := Option.bind_eq_some_iff.mp h
      obtain ⟨hb, rfl | ⟨header', c', t', e', afterIf', entryVal, continueVal, hbody₁, -, -, -, -,
        hjump, hpeel⟩⟩ := optPeelLoopInitialIf_cases h
      · cases heq
      · have hheader' := ihbody hdead.1.2 hbody' hbody₁
        obtain ⟨newBody, -, hl'⟩ := peel_cases hb hheader' hpeel
        rw [heq] at hl'
        have hfirst := congrArg firstBlock hl'
        rw [firstBlock_appendLoop_setFirstBlock] at hfirst
        rw [show header = (CfList.nif header c t e afterIf).firstBlock from rfl, hfirst,
          firstBlock_lowerDefs]
        apply jump_firstBlock_of_endsInJump hjump

/-- Where `opt_peel_loop_initial_if` does not fail, the `if` could be dealt with. -/
theorem canPeel_of_optPeelLoopInitialIf {b : Block ι} {body rest l' : CfList ι (Src δ)}
    (h : optPeelLoopInitialIf T b body rest = some l')
    (hheader : ∀ header c t e afterIf, body = .nif header c t e afterIf → header.jump = none)
    (hone : body.continueBlocks.length = 1) :
  body.canPeel T = true
  := by
  cases body with
  | block x => rfl
  | loop x bd r => rfl
  | nif header c t e afterIf =>
      have hnone := hheader header c t e afterIf rfl
      have hb := (optPeelLoopInitialIf_cases h).1
      unfold optPeelLoopInitialIf at h
      rw [if_neg (by simp [hb]), if_neg (by simpa using hone)] at h
      simp only [canPeel]
      cases hc : c.isSsa with
      | false => simp [hc] at h
      | true =>
          simp only [hc, Bool.not_true, Bool.false_eq_true, if_false] at h
          rcases hphi : T.headerPhi header c.value with _ | ⟨entryVal, continueVal⟩
          · rfl
          · simp only [hphi] at h
            by_cases hval : (entryVal != 0) = (continueVal != 0)
            · simp [hval]
            by_cases hjump : (half (continueVal == 0) t e).endsInJump = true
            · simp [hjump]
            rw [if_neg hval, if_neg hjump] at h
            obtain ⟨newBody, hnew, -⟩ := peel_cases hb hnone h
            unfold insertAtContinue at hnew
            split_ifs at hnew with hlast hempty
            · rw [lastBlock_lowerDefs] at hlast
              simp [hnone, hlast]
            · rw [isEmpty_lowerDefs] at hempty
              simp [hnone, hempty]

/-- Where the pass does not fail, each loop could be dealt with. -/
theorem peelsCleanly_of_optIfCfList {l l' : CfList ι (Src δ)} (hdead : l.noCodeAfterJumps = true)
    (h : l.optIfCfList T = some l') :
  l.peelsCleanly T = true
  := by
  induction l generalizing l' with
  | block b => rfl
  | nif b c t e rest iht ihe ih =>
      simp only [noCodeAfterJumps, Bool.and_eq_true] at hdead
      obtain ⟨t', ht, h⟩ := Option.bind_eq_some_iff.mp h
      obtain ⟨e', he, h⟩ := Option.bind_eq_some_iff.mp h
      obtain ⟨rest', hrest, h⟩ := Option.bind_eq_some_iff.mp h
      simp [peelsCleanly, iht hdead.1.1.2 ht, ihe hdead.1.2 he, ih hdead.2 hrest]
  | loop b body rest ihbody ih =>
      simp only [noCodeAfterJumps, Bool.and_eq_true] at hdead
      obtain ⟨body', hbody', h⟩ := Option.bind_eq_some_iff.mp h
      obtain ⟨rest', hrest', h⟩ := Option.bind_eq_some_iff.mp h
      apply peelsCleanly_loop.mpr
      refine ⟨(optPeelLoopInitialIf_cases h).1, ihbody hdead.1.2 hbody', ih hdead.2 hrest', body',
        hbody', ?_⟩
      apply canPeel_of_optPeelLoopInitialIf h
      intro header c t e afterIf heq
      apply header_jump_of_optIfCfList hdead.1.2 hbody' heq

end Failure

/-- If each loop, when the pass comes to it, can be dealt with, then `nir_opt_if` ends without
failing and the function has the same runs before and after; and as long as there is no code after
jumps, it fails otherwise. -/
theorem optIfCfList_correct [DecidableEq δ] [Preorder S] {T : InstrInfo ι δ} {I : Interp ι δ S}
    (hI : I.Grows) (hframe : Frame T I) {l : CfList ι (Src δ)} (hlow : PhisLowered T I l) :
  (l.peelsCleanly T = true → ∃ l', l.optIfCfList T = some l' ∧ SameRuns I.onSrcs l l') ∧
    (l.noCodeAfterJumps = true → (∃ l', l.optIfCfList T = some l') → l.peelsCleanly T = true)
  := by
  constructor
  · intro hclean
    obtain ⟨l', hl'⟩ := exists_optIfCfList hclean
    exact ⟨l', hl', sameRuns_optIfCfList hI hframe hlow hclean hl'⟩
  · rintro hdead ⟨l', hl'⟩
    apply peelsCleanly_of_optIfCfList hdead hl'

/-! ### Two loops -/

/-- The instructions of two small loops: writing the register of a phi, the phi, and an output. -/
inductive PhiInstr where
  | copy (v : Bool)
  | phi
  | emit (k : ℕ)
deriving DecidableEq

/-- The values: that of the phi, and whether three outputs have been made. -/
inductive PhiValue where
  | phi
  | done
deriving DecidableEq

/-- The states: the register, the phi, and the outputs so far, the last one first. -/
structure PhiState where
  reg : Bool
  phi : Bool
  outputs : List ℕ

instance : Preorder PhiState where
  le s s' := s.outputs <:+ s'.outputs
  le_refl s := List.suffix_refl s.outputs
  le_trans _ _ _ h h' := List.IsSuffix.trans h h'

/-- The meaning of the instructions. -/
def phiInterp : Interp PhiInstr PhiValue PhiState where
  exec
    | .copy v, s => { s with reg := v }
    | .phi, s => { s with phi := s.reg }
    | .emit k, s => { s with outputs := k :: s.outputs }
  test
    | .phi, s => s.phi
    | .done, s => 3 ≤ s.outputs.length

/-- What is defined by which instruction: the phi is 0 on entry, and 1 after each pass. -/
def phiInfo : InstrInfo PhiInstr PhiValue where
  def?
    | .copy _ => none
    | .phi => some .phi
    | .emit _ => some .done
  phi?
    | .phi => some (0, 1)
    | _ => none

/-- A loop that does nothing in its first pass and makes an output in all the others, with the given
code at its end. -/
def phiLoop (finish : CfList PhiInstr (Src PhiValue)) : CfList PhiInstr (Src PhiValue) :=
  .loop ⟨[.copy false], none⟩
    (.nif ⟨[.phi], none⟩ ⟨.phi, true⟩ (.block ⟨[.emit 1], none⟩) (.block {}) finish) (.block {})

/-- The end of the loop, if it falls off its end. -/
def naturalContinue : CfList PhiInstr (Src PhiValue) :=
  .nif {} ⟨.done, true⟩ (.block ⟨[], some .brk⟩) (.block {}) (.block ⟨[.copy true], none⟩)

/-- The end of the loop, if it says `continue`. -/
def explicitContinue : CfList PhiInstr (Src PhiValue) :=
  .nif {} ⟨.done, true⟩ (.block {}) (.block ⟨[.copy true], some .cont⟩) (.block ⟨[], some .brk⟩)

theorem phiInterp_grows :
  phiInterp.Grows
  := by
  intro i s
  cases i with
  | emit k => exact List.suffix_cons k s.outputs
  | _ => exact le_refl s

theorem frame_phiInterp :
  Frame phiInfo phiInterp
  := by
  intro i d hd s
  cases i <;> cases d <;> first | rfl | exact absurd rfl hd

theorem phisLowered_phiLoop {finish : CfList PhiInstr (Src PhiValue)}
    (hfinish : PhisLowered phiInfo phiInterp finish)
    (hcont : ∀ x ∈ finish.continueBlocks, x.instrs = [.copy true]) :
  PhisLowered phiInfo phiInterp (phiLoop finish)
  := by
  refine ⟨?_, ⟨trivial, trivial, hfinish⟩, trivial⟩
  intro d entryVal continueVal _ hphi s
  cases d with
  | done => cases hphi
  | phi =>
      cases hphi
      refine ⟨rfl, ?_⟩
      intro x hx
      have hx' : x ∈ finish.continueBlocks := hx
      rw [hcont x hx']
      rfl

/-- A loop that falls off its end is peeled. -/
theorem optIfCfList_naturalContinue :
  ∃ l', (phiLoop naturalContinue).optIfCfList phiInfo = some l' ∧
    SameRuns phiInterp.onSrcs (phiLoop naturalContinue) l'
  := by
  apply (optIfCfList_correct phiInterp_grows frame_phiInterp ?_).1
  · decide
  · apply phisLowered_phiLoop
    · exact ⟨trivial, trivial, trivial⟩
    · decide

/-- A loop with the same first `if` that ends in a `continue` makes the pass fail. -/
theorem optIfCfList_explicitContinue :
  phiInterp.Grows ∧ Frame phiInfo phiInterp ∧
    PhisLowered phiInfo phiInterp (phiLoop explicitContinue) ∧
    (phiLoop explicitContinue).noCodeAfterJumps = true ∧
    (phiLoop explicitContinue).optIfCfList phiInfo = none
  := by
  refine ⟨phiInterp_grows, frame_phiInterp, ?_, by decide, by decide⟩
  apply phisLowered_phiLoop
  · exact ⟨trivial, trivial, trivial⟩
  · decide

end CfList

end Nir
