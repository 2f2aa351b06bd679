import Mesa.Nir.LowerReturns

/-!
# Functions without returns

What the lowering of returns does to the runs of a function.  Outside loops a return becomes
falling off the end with the flag set, inside a loop it becomes a break with the flag set.  The
code that follows has to look at the flag then, and there is one place where the pass fails to
make it do so: where a loop is the last thing in a list inside another loop.
-/

namespace Nir

open Flow

variable {ι κ S : Type}

/-! ### Runs with a flag -/

/-- What becomes of the end of a run when returns are lowered, the flag being `f`. -/
def liftReturn (inLoop f : Bool) : Exit × S → Exit × (S × Bool)
  | (.ret, s) => (if inLoop then .brk else .fall, (s, true))
  | (e, s) => (e, (s, f))

theorem liftReturn_of_ne {inLoop f : Bool} {e : Exit} (h : e ≠ .ret) (s : S) :
  liftReturn inLoop f (e, s) = (e, (s, f))
  := by
  cases e <;> simp_all [liftReturn]

/-- Sequencing lowered code: the second piece goes on where the first falls off its end, and
has to do nothing where it does so because of a return. -/
theorem liftReturn_seq {inLoop f : Bool} {x y : Beh S} {x' y' : Beh (S × Bool)} {s : S}
    (hx : x' (s, f) = liftReturn inLoop f (x s))
    (hy : ∀ s', x s = (.fall, s') → y' (s', f) = liftReturn inLoop f (y s'))
    (hret : ∀ s', x s = (.ret, s') → inLoop = false → y' (s', true) = (.fall, (s', true))) :
  x'.seq y' (s, f) = liftReturn inLoop f (x.seq y s)
  := by
  rcases h : x s with ⟨e, s'⟩
  rw [h] at hx
  cases e
  case fall => rw [Beh.seq_of_fall hx, Beh.seq_of_fall h, hy s' h]
  case ret =>
    have hseq : x.seq y s = (.ret, s') := by
      rw [Beh.seq_of_ne_fall (by simp [h]), h]
    rw [hseq]
    cases inLoop
    · rw [Beh.seq_of_fall hx, hret s' h rfl]
      rfl
    · rw [Beh.seq_of_ne_fall (by simp [hx, liftReturn]), hx]
  all_goals
    rw [Beh.seq_of_ne_fall (by simp [hx, liftReturn]), hx, Beh.seq_of_ne_fall (by simp [h]), h]

/-- A loop whose body has been lowered falls off its end where the loop returned. -/
theorem liftReturn_loop {f : Bool} {x : Beh S} {x' : Beh (S × Bool)}
    (hx : ∀ s, x' (s, f) = liftReturn true f (x s)) (n : ℕ) (s : S) :
  Beh.loop n x' (s, f) = liftReturn false f (Beh.loop n x s)
  := by
  induction n generalizing s with
  | zero => rfl
  | succ n ih =>
      rw [Beh.loop_succ, Beh.loop_succ, hx]
      rcases x s with ⟨e, s'⟩
      cases e <;> simp [liftReturn, Beh.after, ih]

theorem execAll_withFlag (I : Interp ι κ S) (is : List ι) (s : S) (f : Bool) :
  I.withFlag.execAll (is.map .instr) (s, f) = (I.execAll is s, f)
  := by
  induction is generalizing s with
  | nil => rfl
  | cons i is ih => exact ih (I.exec i s)

theorem Block.run_withFlag {I : Interp ι κ S} {b : Block ι} {inLoop f : Bool} {s : S}
    (h : b.jump ≠ some .ret) :
  b.withFlag.run I.withFlag (s, f) = liftReturn inLoop f (b.run I s)
  := by
  rcases hj : b.jump with _ | j
  · rw [Block.run_of_jump_eq_none hj, Block.run_of_jump_eq_none (b := b.withFlag) hj]
    simp [Block.withFlag, execAll_withFlag, liftReturn]
  · rw [Block.run_of_jump_eq_some hj, Block.run_of_jump_eq_some (b := b.withFlag) hj]
    cases j <;> simp_all [Block.withFlag, execAll_withFlag, liftReturn, Jump.exit]

namespace CfList

variable {I : Interp ι κ S} {n : ℕ}

/-! ### Jumps and runs -/

/-- Whether a block of the list, at any depth, ends in a return. -/
def containsReturn : CfList ι κ → Bool
  | .block b => b.jump == some .ret
  | .nif b _ t e rest =>
      b.jump == some .ret || t.containsReturn || e.containsReturn || rest.containsReturn
  | .loop b body rest => b.jump == some .ret || body.containsReturn || rest.containsReturn

theorem exit_block_ne {b : Block ι} {j : Jump} (h : (b.jump == some j) = false) (s : S) :
  (b.run I s).1 ≠ j.exit
  := by
  rcases hj : b.jump with _ | j'
  · rw [Block.run_of_jump_eq_none hj]
    cases j <;> simp [Jump.exit]
  · rw [Block.run_of_jump_eq_some hj]
    cases j <;> cases j' <;> simp_all [Jump.exit]

theorem exit_seq_ne {f g : Beh S} {e : Exit} (hf : ∀ s, (f s).1 ≠ e) (hg : ∀ s, (g s).1 ≠ e)
    (s : S) :
  (f.seq g s).1 ≠ e
  := by
  rcases h : f s with ⟨e', s'⟩
  by_cases he : e' = .fall
  · cases he
    rw [Beh.seq_of_fall h]
    apply hg
  · rw [Beh.seq_of_ne_fall (by simpa [h] using he)]
    apply hf

theorem exit_branch_ne {c : S → Bool} {f g : Beh S} {e : Exit} (hf : ∀ s, (f s).1 ≠ e)
    (hg : ∀ s, (g s).1 ≠ e) (s : S) :
  (Beh.branch c f g s).1 ≠ e
  := by
  rw [Beh.branch_apply]
  split_ifs
  · apply hf
  · apply hg

/-- Code without a given jump, outside the loops in it, does not leave by it. -/
theorem exit_ne_of_hasJump {l : CfList ι κ} {j : Jump} (hj : j ≠ .ret)
    (h : l.hasJump j = false) (s : S) :
  (l.run I n s).1 ≠ j.exit
  := by
  induction l generalizing s with
  | block b => apply exit_block_ne h
  | nif b c t e rest iht ihe ih =>
      simp only [hasJump, Bool.or_eq_false_iff] at h
      obtain ⟨⟨⟨hb, ht⟩, he⟩, hrest⟩ := h
      apply exit_seq_ne (exit_block_ne hb)
      apply exit_seq_ne (exit_branch_ne (iht ht) (ihe he)) (ih hrest)
  | loop b body rest ihbody ih =>
      simp only [hasJump, Bool.or_eq_false_iff] at h
      apply exit_seq_ne (exit_block_ne h.1)
      apply exit_seq_ne _ (ih h.2)
      intro s'
      obtain ⟨hbrk, hcont⟩ := Beh.closed_loop n (body.run I n) s'
      cases j <;> simp_all [Jump.exit]

/-- Code that has no return in it does not return. -/
theorem exit_ne_ret {l : CfList ι κ} (h : l.containsReturn = false) (s : S) :
  (l.run I n s).1 ≠ .ret
  := by
  induction l generalizing s with
  | block b => apply exit_block_ne (j := .ret) h
  | nif b c t e rest iht ihe ih =>
      simp only [containsReturn, Bool.or_eq_false_iff] at h
      obtain ⟨⟨⟨hb, ht⟩, he⟩, hrest⟩ := h
      apply exit_seq_ne (exit_block_ne (j := .ret) hb)
      apply exit_seq_ne (exit_branch_ne (iht ht) (ihe he)) (ih hrest)
  | loop b body rest ihbody ih =>
      simp only [containsReturn, Bool.or_eq_false_iff] at h
      obtain ⟨⟨hb, hbody⟩, hrest⟩ := h
      apply exit_seq_ne (exit_block_ne (j := .ret) hb)
      apply exit_seq_ne _ (ih hrest)
      intro s'
      apply Beh.loop_ne_ret (ihbody hbody)

theorem exit_seq_ne_fall {f g : Beh S} (hg : ∀ s, (g s).1 ≠ .fall) (s : S) :
  (f.seq g s).1 ≠ .fall
  := by
  rcases h : f s with ⟨e', s'⟩
  by_cases he : e' = .fall
  · cases he
    rw [Beh.seq_of_fall h]
    apply hg
  · rw [Beh.seq_of_ne_fall (by simpa [h] using he), h]
    exact he

theorem exit_seq_ne_fall_left {f g : Beh S} (hf : ∀ s, (f s).1 ≠ .fall) (s : S) :
  (f.seq g s).1 ≠ .fall
  := by
  rw [Beh.seq_of_ne_fall (hf s)]
  apply hf

/-- Code that ends in a jump does not fall off its end. -/
theorem exit_ne_fall_of_hasNextEdge {l : CfList ι κ} (h : l.hasNextEdge = false) (s : S) :
  (l.run I n s).1 ≠ .fall
  := by
  induction l generalizing s with
  | block b =>
      have hb : b.jump.isNone = false := h
      obtain ⟨j, hj⟩ := Option.isSome_iff_exists.mp (by simpa using hb)
      simp only [run, Block.run_of_jump_eq_some hj]
      apply Block.exit_ne_fall
  | nif b c t e rest iht ihe ih =>
      apply exit_seq_ne_fall
      apply exit_seq_ne_fall
      apply ih h
  | loop b body rest ihbody ih =>
      apply exit_seq_ne_fall
      apply exit_seq_ne_fall
      apply ih h

/-! ### Taking the pass apart -/

theorem lowerReturns_nif {inLoop : Bool} {hp : CfList (FlagInstr ι) (FlagCond κ) → Bool}
    {b : Block ι} {c : κ} {t e rest : CfList ι κ} {st st' : ReturnsState}
    {l : CfList (FlagInstr ι) (FlagCond κ)} {p : Bool}
    (h : lowerReturns inLoop hp (.nif b c t e rest) st = some (l, p, st')) :
  ∃ following p₁ st₁ t' pt st₂ e' pe st₃ l₀ pb,
    lowerReturns inLoop (fun _ => t.hasNextEdge || e.hasNextEdge) rest st =
      some (following, p₁, st₁) ∧
    lowerReturns inLoop (fun _ => b.jump.isNone) t ⟨st₁.returnFlag, false⟩ =
      some (t', pt, st₂) ∧
    lowerReturns inLoop (fun _ => b.jump.isNone) e st₂ = some (e', pe, st₃) ∧
    finishIf inLoop st₃ b c t' pt e' pe following = some l₀ ∧
    lowerReturnsInBlock inLoop hp l₀
      ⟨st₃.returnFlag, pt || pe || st₁.hasPredicatedReturn⟩ = some (l, pb, st') ∧
    p = (p₁ || (pt || pe) || pb)
  := by
  obtain ⟨⟨following, p₁, st₁⟩, hrest, h⟩ := Option.bind_eq_some_iff.mp h
  obtain ⟨⟨t', pt, st₂⟩, ht, h⟩ := Option.bind_eq_some_iff.mp h
  obtain ⟨⟨e', pe, st₃⟩, he, h⟩ := Option.bind_eq_some_iff.mp h
  obtain ⟨l₀, hl₀, h⟩ := Option.bind_eq_some_iff.mp h
  obtain ⟨⟨l', pb, st₄⟩, hb, h⟩ := Option.bind_eq_some_iff.mp h
  cases h
  exact ⟨following, p₁, st₁, t', pt, st₂, e', pe, st₃, l₀, pb, hrest, ht, he, hl₀, hb, rfl⟩

theorem lowerReturns_loop {inLoop : Bool} {hp : CfList (FlagInstr ι) (FlagCond κ) → Bool}
    {b : Block ι} {body rest : CfList ι κ} {st st' : ReturnsState}
    {l : CfList (FlagInstr ι) (FlagCond κ)} {p : Bool}
    (h : lowerReturns inLoop hp (.loop b body rest) st = some (l, p, st')) :
  ∃ following p₁ st₁ body' pl st₂ following' pb,
    lowerReturns inLoop (fun _ => body.hasJump .brk) rest st = some (following, p₁, st₁) ∧
    lowerReturns true (fun body => b.jump.isNone || body.hasBackEdge) body st₁ =
      some (body', pl, st₂) ∧
    finishLoop inLoop st₂ pl following = some following' ∧
    lowerReturnsInBlock inLoop hp (.loop b.withFlag body' following')
      ⟨st₂.returnFlag, pl || st₂.hasPredicatedReturn⟩ = some (l, pb, st') ∧
    p = (p₁ || pl || pb)
  := by
  obtain ⟨⟨following, p₁, st₁⟩, hrest, h⟩ := Option.bind_eq_some_iff.mp h
  obtain ⟨⟨body', pl, st₂⟩, hbody, h⟩ := Option.bind_eq_some_iff.mp h
  obtain ⟨following', hf, h⟩ := Option.bind_eq_some_iff.mp h
  obtain ⟨⟨l', pb, st₃⟩, hb, h⟩ := Option.bind_eq_some_iff.mp h
  cases h
  exact ⟨following, p₁, st₁, body', pl, st₂, following', pb, hrest, hbody, hf, hb, rfl⟩

/-- What `predicate_following` can do. -/
theorem predicateFollowing_cases {inLoop returnFlag : Bool}
    {l l' : CfList (FlagInstr ι) (FlagCond κ)}
    (h : predicateFollowing inLoop returnFlag l = some l') :
  (l.isEmpty = true ∧ l' = l) ∨
    (l.isEmpty = false ∧ returnFlag = true ∧
      ((inLoop = true ∧ l' = .nif {} .flag (.block ⟨[], some .brk⟩) (.block {}) l) ∨
        (inLoop = false ∧ l' = .nif {} .flag (.block {}) l (.block {}))))
  := by
  unfold predicateFollowing at h
  split_ifs at h with h₁ h₂ h₃
  · exact .inl ⟨h₁, (Option.some.inj h).symm⟩
  · exact .inr ⟨by simpa using h₁, by simpa using h₂, .inl ⟨h₃, (Option.some.inj h).symm⟩⟩
  · exact .inr ⟨by simpa using h₁, by simpa using h₂,
      .inr ⟨by simpa using h₃, (Option.some.inj h).symm⟩⟩

/-- What `lower_returns_in_block` can do: delete the block and all that follows, lower the
return at its end, or nothing. -/
theorem lowerReturnsInBlock_cases {inLoop : Bool}
    {hp : CfList (FlagInstr ι) (FlagCond κ) → Bool} {st st' : ReturnsState}
    {l l' : CfList (FlagInstr ι) (FlagCond κ)} {p : Bool}
    (h : lowerReturnsInBlock inLoop hp l st = some (l', p, st')) :
  (hp l = false ∧ l.isEmpty = true ∧ l' = l ∧ p = false ∧ st' = st) ∨
    (hp l = false ∧ l.isEmpty = false ∧ l' = .block {} ∧ p = true ∧ st' = st) ∨
    (hp l = true ∧ l.firstBlock.jump = some .ret ∧ p = true ∧
      st' = ⟨true, st.hasPredicatedReturn⟩ ∧
      ((inLoop = true ∧
          l' = l.setFirstBlock ⟨l.firstBlock.instrs ++ [.storeFlag true], some .brk⟩) ∨
        (inLoop = false ∧ ∃ b, l = .block b ∧
          l' = .block ⟨b.instrs ++ [.storeFlag true], none⟩))) ∨
    (hp l = true ∧ l.firstBlock.jump ≠ some .ret ∧ l' = l ∧ p = false ∧ st' = st)
  := by
  unfold lowerReturnsInBlock at h
  split_ifs at h with h₁ h₂ h₃ h₄
  · cases h
    simp_all
  · cases h
    simp_all
  · cases h
    simp_all
  · split at h
    · cases h
      simp_all [firstBlock]
    · cases h
  · cases h
    simp_all

/-- What `lower_returns_in_if` can do with what follows. -/
theorem finishIf_cases {inLoop : Bool} {st : ReturnsState} {b : Block ι} {c : κ}
    {t e following l : CfList (FlagInstr ι) (FlagCond κ)} {pt pe : Bool}
    (h : finishIf inLoop st b c t pt e pe following = some l) :
  (((pt = false ∧ pe = false) ∨ inLoop = true) ∧
      l = .nif b.withFlag (.cond c) t e following) ∨
    (inLoop = false ∧ st.hasPredicatedReturn = true ∧
      ∃ f', predicateFollowing false st.returnFlag following = some f' ∧
        l = .nif b.withFlag (.cond c) t e f') ∨
    (inLoop = false ∧ st.hasPredicatedReturn = false ∧ pt = true ∧ pe = true ∧
      l = .nif b.withFlag (.cond c) t e (.block {})) ∨
    (inLoop = false ∧ st.hasPredicatedReturn = false ∧ pt = true ∧ pe = false ∧
      ∃ e', e.append following = some e' ∧ l = .nif b.withFlag (.cond c) t e' (.block {})) ∨
    (inLoop = false ∧ st.hasPredicatedReturn = false ∧ pt = false ∧ pe = true ∧
      ∃ t', t.append following = some t' ∧ l = .nif b.withFlag (.cond c) t' e (.block {}))
  := by
  unfold finishIf at h
  split_ifs at h with h₁ h₂ h₃ h₄
  · obtain ⟨f', hf', h⟩ := Option.bind_eq_some_iff.mp h
    cases h
    simp only [Bool.and_eq_true, Bool.not_eq_true'] at h₁
    rw [h₁.2] at hf'
    exact .inr (.inl ⟨h₁.2, h₂, f', hf', rfl⟩)
  · cases h
    simp_all
  · obtain ⟨e', he', h⟩ := Option.bind_eq_some_iff.mp h
    cases h
    simp_all
  · obtain ⟨t', ht', h⟩ := Option.bind_eq_some_iff.mp h
    cases h
    simp_all
  · cases h
    cases pt <;> cases pe <;> cases inLoop <;> simp_all

/-! ### The shape of the result -/

/-- Whether a list contains a return that is not at the end of its first block. -/
def tailReturn : CfList ι κ → Bool
  | .block _ => false
  | .nif _ _ t e rest => t.containsReturn || e.containsReturn || rest.containsReturn
  | .loop _ body rest => body.containsReturn || rest.containsReturn

theorem containsReturn_eq (l : CfList ι κ) :
  l.containsReturn = (l.firstBlock.jump == some .ret || l.tailReturn)
  := by
  cases l <;> simp [containsReturn, firstBlock, tailReturn, Bool.or_assoc]

theorem tailReturn_setFirstBlock (b : Block ι) (l : CfList ι κ) :
  (l.setFirstBlock b).tailReturn = l.tailReturn
  := by
  cases l <;> rfl

theorem firstBlock_setFirstBlock (b : Block ι) (l : CfList ι κ) :
  (l.setFirstBlock b).firstBlock = b
  := by
  cases l <;> rfl

theorem containsReturn_append {a b c : CfList ι κ} (h : a.append b = some c)
    (ha : a.containsReturn = false) (hb : b.containsReturn = false) :
  c.containsReturn = false
  := by
  induction a generalizing c with
  | block x =>
      obtain ⟨y, hy, h⟩ := Option.bind_eq_some_iff.mp h
      cases h
      rw [containsReturn_eq] at hb ⊢
      simp only [Bool.or_eq_false_iff] at hb
      rw [firstBlock_setFirstBlock, tailReturn_setFirstBlock, hb.2, Bool.or_false]
      unfold Block.stitch at hy
      split_ifs at hy <;> cases hy
      · exact ha
      · exact hb.1
  | nif x c' t e rest iht ihe ih =>
      obtain ⟨rest', hrest, h⟩ := Option.bind_eq_some_iff.mp h
      cases h
      simp only [containsReturn, Bool.or_eq_false_iff] at ha ⊢
      exact ⟨ha.1, ih hrest ha.2⟩
  | loop x body rest ihbody ih =>
      obtain ⟨rest', hrest, h⟩ := Option.bind_eq_some_iff.mp h
      cases h
      simp only [containsReturn, Bool.or_eq_false_iff] at ha ⊢
      exact ⟨ha.1, ih hrest ha.2⟩

theorem containsReturn_predicateFollowing {inLoop returnFlag : Bool}
    {l l' : CfList (FlagInstr ι) (FlagCond κ)}
    (h : predicateFollowing inLoop returnFlag l = some l') (hl : l.containsReturn = false) :
  l'.containsReturn = false
  := by
  rcases predicateFollowing_cases h with ⟨-, rfl⟩ | ⟨-, -, ⟨-, rfl⟩ | ⟨-, rfl⟩⟩ <;>
    simp [containsReturn, hl]

theorem containsReturn_lowerReturnsInBlock {inLoop : Bool}
    {hp : CfList (FlagInstr ι) (FlagCond κ) → Bool} {st st' : ReturnsState}
    {l l' : CfList (FlagInstr ι) (FlagCond κ)} {p : Bool}
    (h : lowerReturnsInBlock inLoop hp l st = some (l', p, st')) (hl : l.tailReturn = false) :
  l'.containsReturn = false
  := by
  rw [containsReturn_eq]
  rcases lowerReturnsInBlock_cases h with ⟨-, he, rfl, -⟩ | ⟨-, -, rfl, -⟩ |
    ⟨-, -, -, -, ⟨-, rfl⟩ | ⟨-, b, -, rfl⟩⟩ | ⟨-, hne, rfl, -⟩
  · cases l' <;> simp_all [isEmpty, Block.isEmpty, firstBlock]
  · rfl
  · rw [firstBlock_setFirstBlock, tailReturn_setFirstBlock, hl]
    rfl
  · rfl
  · simpa [hl] using hne

theorem tailReturn_finishIf {inLoop : Bool} {st : ReturnsState} {b : Block ι} {c : κ}
    {t e following l : CfList (FlagInstr ι) (FlagCond κ)} {pt pe : Bool}
    (h : finishIf inLoop st b c t pt e pe following = some l) (ht : t.containsReturn = false)
    (he : e.containsReturn = false) (hf : following.containsReturn = false) :
  l.tailReturn = false
  := by
  have hempty : (CfList.block {} : CfList (FlagInstr ι) (FlagCond κ)).containsReturn = false :=
    rfl
  rcases finishIf_cases h with ⟨-, rfl⟩ | ⟨-, -, f', hf', rfl⟩ | ⟨-, -, -, -, rfl⟩ |
    ⟨-, -, -, -, e', he', rfl⟩ | ⟨-, -, -, -, t', ht', rfl⟩
  · simp [tailReturn, ht, he, hf]
  · simp [tailReturn, ht, he, containsReturn_predicateFollowing hf' hf]
  · simp [tailReturn, ht, he, hempty]
  · simp [tailReturn, ht, containsReturn_append he' he hf, hempty]
  · simp [tailReturn, he, containsReturn_append ht' ht hf, hempty]

/-- The pass leaves no return behind. -/
theorem containsReturn_lowerReturns {l : CfList ι κ} {inLoop : Bool}
    {hp : CfList (FlagInstr ι) (FlagCond κ) → Bool} {st st' : ReturnsState}
    {l' : CfList (FlagInstr ι) (FlagCond κ)} {p : Bool}
    (h : lowerReturns inLoop hp l st = some (l', p, st')) :
  l'.containsReturn = false
  := by
  induction l generalizing inLoop hp st st' l' p with
  | block b => exact containsReturn_lowerReturnsInBlock h rfl
  | nif b c t e rest iht ihe ih =>
      obtain ⟨following, p₁, st₁, t', pt, st₂, e', pe, st₃, l₀, pb, hrest, ht, he, hl₀, hb, -⟩ :=
        lowerReturns_nif h
      apply containsReturn_lowerReturnsInBlock hb
      apply tailReturn_finishIf hl₀ (iht ht) (ihe he) (ih hrest)
  | loop b body rest ihbody ih =>
      obtain ⟨following, p₁, st₁, body', pl, st₂, following', pb, hrest, hbody, hf, hb, -⟩ :=
        lowerReturns_loop h
      apply containsReturn_lowerReturnsInBlock hb
      have hf' : following'.containsReturn = false := by
        unfold finishLoop at hf
        split_ifs at hf
        · exact containsReturn_predicateFollowing hf (ih hrest)
        · cases hf
          exact ih hrest
      simp [tailReturn, ihbody hbody, hf']

theorem lowerReturnsInBlock_state {inLoop : Bool}
    {hp : CfList (FlagInstr ι) (FlagCond κ) → Bool} {st st' : ReturnsState}
    {l l' : CfList (FlagInstr ι) (FlagCond κ)} {p : Bool}
    (h : lowerReturnsInBlock inLoop hp l st = some (l', p, st')) :
  (st.returnFlag = true → st'.returnFlag = true) ∧
    st'.hasPredicatedReturn = st.hasPredicatedReturn
  := by
  rcases lowerReturnsInBlock_cases h with ⟨-, -, -, -, rfl⟩ | ⟨-, -, -, -, rfl⟩ |
    ⟨-, -, -, rfl, -⟩ | ⟨-, -, -, -, rfl⟩ <;> simp

/-- Once the flag has been created it stays, and so does `has_predicated_return`. -/
theorem lowerReturns_state {l : CfList ι κ} {inLoop : Bool}
    {hp : CfList (FlagInstr ι) (FlagCond κ) → Bool} {st st' : ReturnsState}
    {l' : CfList (FlagInstr ι) (FlagCond κ)} {p : Bool}
    (h : lowerReturns inLoop hp l st = some (l', p, st')) :
  (st.returnFlag = true → st'.returnFlag = true) ∧
    (st.hasPredicatedReturn = true → st'.hasPredicatedReturn = true)
  := by
  induction l generalizing inLoop hp st st' l' p with
  | block b =>
      obtain ⟨h₁, h₂⟩ := lowerReturnsInBlock_state h
      exact ⟨h₁, fun hpr => h₂.trans hpr⟩
  | nif b c t e rest iht ihe ih =>
      obtain ⟨following, p₁, st₁, t', pt, st₂, e', pe, st₃, l₀, pb, hrest, ht, he, -, hb, -⟩ :=
        lowerReturns_nif h
      obtain ⟨h₁, h₂⟩ := lowerReturnsInBlock_state hb
      constructor
      · intro hflag
        exact h₁ ((ihe he).1 ((iht ht).1 ((ih hrest).1 hflag)))
      · intro hpr
        rw [h₂, (ih hrest).2 hpr]
        simp
  | loop b body rest ihbody ih =>
      obtain ⟨following, p₁, st₁, body', pl, st₂, following', pb, hrest, hbody, -, hb, -⟩ :=
        lowerReturns_loop h
      obtain ⟨h₁, h₂⟩ := lowerReturnsInBlock_state hb
      constructor
      · intro hflag
        exact h₁ ((ihbody hbody).1 ((ih hrest).1 hflag))
      · intro hpr
        rw [h₂, (ihbody hbody).2 ((ih hrest).2 hpr)]
        simp

theorem firstBlock_finishIf {inLoop : Bool} {st : ReturnsState} {b : Block ι} {c : κ}
    {t e following l : CfList (FlagInstr ι) (FlagCond κ)} {pt pe : Bool}
    (h : finishIf inLoop st b c t pt e pe following = some l) :
  l.firstBlock = b.withFlag ∧ l.isEmpty = false ∧ ∀ x, l ≠ .block x
  := by
  rcases finishIf_cases h with ⟨-, rfl⟩ | ⟨-, -, f', hf', rfl⟩ | ⟨-, -, -, -, rfl⟩ |
    ⟨-, -, -, -, e', he', rfl⟩ | ⟨-, -, -, -, t', ht', rfl⟩ <;>
    simp [firstBlock, isEmpty]

/-- Without progress there was no return. -/
theorem not_containsReturn_of_progress {l : CfList ι κ} {inLoop : Bool}
    {hp : CfList (FlagInstr ι) (FlagCond κ) → Bool} {st st' : ReturnsState}
    {l' : CfList (FlagInstr ι) (FlagCond κ)}
    (h : lowerReturns inLoop hp l st = some (l', false, st')) :
  l.containsReturn = false
  := by
  have hblock : ∀ {inLoop : Bool} {hp : CfList (FlagInstr ι) (FlagCond κ) → Bool}
      {st st' : ReturnsState} {l l' : CfList (FlagInstr ι) (FlagCond κ)} {b : Block ι},
      lowerReturnsInBlock inLoop hp l st = some (l', false, st') →
      l.firstBlock = b.withFlag → (b.jump == some .ret) = false := by
    intro inLoop hp st st' l l' b h hb
    have hj : b.jump = l.firstBlock.jump := by
      rw [hb]
      rfl
    rcases lowerReturnsInBlock_cases h with ⟨-, he, -⟩ | ⟨-, -, -, hp, -⟩ |
      ⟨-, -, hp, -⟩ | ⟨-, hne, -⟩
    · cases l <;> simp_all [isEmpty, Block.isEmpty, firstBlock]
    · cases hp
    · cases hp
    · simpa [hj] using hne
  induction l generalizing inLoop hp st st' l' with
  | block b => exact hblock h rfl
  | nif b c t e rest iht ihe ih =>
      obtain ⟨following, p₁, st₁, t', pt, st₂, e', pe, st₃, l₀, pb, hrest, ht, he, hl₀, hb, hp⟩ :=
        lowerReturns_nif h
      simp only [Bool.false_eq, Bool.or_eq_false_iff] at hp
      obtain ⟨⟨rfl, rfl, rfl⟩, rfl⟩ := hp
      simp [containsReturn, iht ht, ihe he, ih hrest, hblock hb (firstBlock_finishIf hl₀).1]
  | loop b body rest ihbody ih =>
      obtain ⟨following, p₁, st₁, body', pl, st₂, following', pb, hrest, hbody, -, hb, hp⟩ :=
        lowerReturns_loop h
      simp only [Bool.false_eq, Bool.or_eq_false_iff] at hp
      obtain ⟨⟨rfl, rfl⟩, rfl⟩ := hp
      simp [containsReturn, ihbody hbody, ih hrest, hblock hb rfl]

/-- Outside loops, where there has been progress but nothing has to be predicated, the code
always returns. -/
theorem exit_ne_fall_of_progress {l : CfList ι κ}
    {hp : CfList (FlagInstr ι) (FlagCond κ) → Bool} {st st' : ReturnsState}
    {l' : CfList (FlagInstr ι) (FlagCond κ)} (hhp : ∀ x, hp x = true)
    (h : lowerReturns false hp l st = some (l', true, st'))
    (hpr : st'.hasPredicatedReturn = false) (s : S) :
  (l.run I n s).1 ≠ .fall
  := by
  induction l generalizing hp st st' l' s with
  | block b =>
      rcases lowerReturnsInBlock_cases h with ⟨hf, -⟩ | ⟨hf, -⟩ | ⟨-, hret, -⟩ | ⟨-, -, -, hp, -⟩
      · simp [hhp] at hf
      · simp [hhp] at hf
      · simp only [run, Block.run_of_jump_eq_some (b := b) hret]
        simp [Jump.exit]
      · cases hp
  | nif b c t e rest iht ihe ih =>
      obtain ⟨following, p₁, st₁, t', pt, st₂, e', pe, st₃, l₀, pb, hrest, ht, he, hl₀, hb, hp⟩ :=
        lowerReturns_nif h
      obtain ⟨-, hst⟩ := lowerReturnsInBlock_state hb
      simp only [hpr, Bool.false_eq, Bool.or_eq_false_iff] at hst
      obtain ⟨⟨rfl, rfl⟩, hpr₁⟩ := hst
      have hpb : pb = false := by
        rcases lowerReturnsInBlock_cases hb with ⟨hf, -⟩ | ⟨hf, -⟩ |
          ⟨-, -, -, -, ⟨hf, -⟩ | ⟨-, x, hx, -⟩⟩ | ⟨-, -, -, hp, -⟩
        · simp [hhp] at hf
        · simp [hhp] at hf
        · cases hf
        · exact absurd hx ((firstBlock_finishIf hl₀).2.2 x)
        · exact hp
      obtain rfl : p₁ = true := by
        simpa [hpb] using hp
      apply exit_seq_ne_fall
      by_cases hnext : (t.hasNextEdge || e.hasNextEdge) = true
      · apply exit_seq_ne_fall
        apply ih (fun _ => hnext) hrest hpr₁
      · simp only [Bool.or_eq_true, not_or, Bool.not_eq_true] at hnext
        apply exit_seq_ne_fall_left
        apply exit_branch_ne
        · apply exit_ne_fall_of_hasNextEdge hnext.1
        · apply exit_ne_fall_of_hasNextEdge hnext.2
  | loop b body rest ihbody ih =>
      obtain ⟨following, p₁, st₁, body', pl, st₂, following', pb, hrest, hbody, -, hb, hp⟩ :=
        lowerReturns_loop h
      obtain ⟨-, hst⟩ := lowerReturnsInBlock_state hb
      simp only [hpr, Bool.false_eq, Bool.or_eq_false_iff] at hst
      obtain ⟨rfl, hpr₂⟩ := hst
      have hpr₁ : st₁.hasPredicatedReturn = false := by
        by_contra hne
        simp [(lowerReturns_state hbody).2 (by simpa using hne)] at hpr₂
      have hpb : pb = false := by
        rcases lowerReturnsInBlock_cases hb with ⟨hf, -⟩ | ⟨hf, -⟩ |
          ⟨-, -, -, -, ⟨hf, -⟩ | ⟨-, x, hx, -⟩⟩ | ⟨-, -, -, hp, -⟩
        · simp [hhp] at hf
        · simp [hhp] at hf
        · cases hf
        · cases hx
        · exact hp
      obtain rfl : p₁ = true := by
        simpa [hpb] using hp
      apply exit_seq_ne_fall
      by_cases hbrk : body.hasJump .brk = true
      · apply exit_seq_ne_fall
        apply ih (fun _ => hbrk) hrest hpr₁
      · apply exit_seq_ne_fall_left
        apply Beh.loop_ne_fall
        apply exit_ne_of_hasJump (j := .brk) (by simp) (by simpa using hbrk)

/-! ### Simulation -/

/-- What a list does after its first block. -/
def tailRun (I : Interp ι κ S) (n : ℕ) : CfList ι κ → Beh S
  | .block _ => Beh.skip
  | .nif _ c t e rest =>
      (Beh.branch (I.test c) (t.run I n) (e.run I n)).seq (rest.run I n)
  | .loop _ body rest => (Beh.loop n (body.run I n)).seq (rest.run I n)

theorem run_eq_tailRun (l : CfList ι κ) :
  l.run I n = (l.firstBlock.run I).seq (l.tailRun I n)
  := by
  cases l <;> simp [run, firstBlock, tailRun]

theorem tailRun_setFirstBlock (b : Block ι) (l : CfList ι κ) :
  (l.setFirstBlock b).tailRun I n = l.tailRun I n
  := by
  cases l <;> rfl

theorem execAll_storeFlag (b : Block ι) (s : S) (f v : Bool) :
  I.withFlag.execAll (b.withFlag.instrs ++ [.storeFlag v]) (s, f) = (I.execAll b.instrs s, v)
  := by
  have h := execAll_withFlag I b.instrs s f
  unfold Interp.execAll at h ⊢
  rw [List.foldl_append, Block.withFlag, h]
  rfl

/-- The first block of a list, lowered, in front of code that has been lowered. -/
theorem lowerReturnsInBlock_run {inLoop f : Bool}
    {hp : CfList (FlagInstr ι) (FlagCond κ) → Bool} {st st' : ReturnsState}
    {l l' : CfList (FlagInstr ι) (FlagCond κ)} {p : Bool} {b : Block ι} {y : Beh S} {s : S}
    (hhp : ∀ x, hp x = true) (h : lowerReturnsInBlock inLoop hp l st = some (l', p, st'))
    (hb : l.firstBlock = b.withFlag)
    (hy : ∀ s', b.run I s = (.fall, s') →
      l.tailRun I.withFlag n (s', f) = liftReturn inLoop f (y s')) :
  l'.run I.withFlag n (s, f) = liftReturn inLoop f ((b.run I).seq y s)
  := by
  have hj : l.firstBlock.jump = b.jump := by
    rw [hb]
    rfl
  rcases lowerReturnsInBlock_cases h with ⟨hf, -⟩ | ⟨hf, -⟩ |
    ⟨-, hret, -, -, ⟨rfl, rfl⟩ | ⟨rfl, x, rfl, rfl⟩⟩ | ⟨-, hne, rfl, -⟩
  · simp [hhp] at hf
  · simp [hhp] at hf
  · rw [hj] at hret
    rw [run_eq_tailRun, firstBlock_setFirstBlock, hb]
    rw [Beh.seq_of_ne_fall, Beh.seq_of_ne_fall]
    · rw [Block.run_of_jump_eq_some hret, Block.run_of_jump_eq_some rfl]
      simp [execAll_storeFlag, liftReturn, Jump.exit]
    · rw [Block.run_of_jump_eq_some hret]
      simp [Jump.exit]
    · rw [Block.run_of_jump_eq_some rfl]
      simp [Jump.exit]
  · rw [hj] at hret
    have hx : x.instrs = b.withFlag.instrs := congrArg Block.instrs hb
    rw [Beh.seq_of_ne_fall]
    · simp only [run]
      rw [Block.run_of_jump_eq_some hret, Block.run_of_jump_eq_none rfl]
      simp [hx, execAll_storeFlag, liftReturn, Jump.exit]
    · rw [Block.run_of_jump_eq_some hret]
      simp [Jump.exit]
  · rw [hj] at hne
    rw [run_eq_tailRun, hb]
    apply liftReturn_seq (Block.run_withFlag hne) hy
    intro s' hs'
    have := exit_block_ne (I := I) (b := b) (j := .ret) (by simpa using hne) s
    simp [hs', Jump.exit] at this

theorem liftReturn_branch {inLoop f : Bool} {c : κ} {t e : Beh S} {t' e' : Beh (S × Bool)}
    {s : S} (ht : t' (s, f) = liftReturn inLoop f (t s))
    (he : e' (s, f) = liftReturn inLoop f (e s)) :
  Beh.branch (I.withFlag.test (.cond c)) t' e' (s, f) =
    liftReturn inLoop f (Beh.branch (I.test c) t e s)
  := by
  have htest : I.withFlag.test (.cond c) (s, f) = I.test c s := rfl
  rw [Beh.branch_apply, Beh.branch_apply, htest]
  split_ifs
  · exact ht
  · exact he

theorem run_empty_of_isEmpty {l : CfList ι κ} (h : l.isEmpty = true) :
  l.run I n = Beh.skip
  := by
  cases l with
  | block b =>
      obtain ⟨instrs, jump⟩ := b
      simp only [isEmpty, Block.isEmpty, Bool.and_eq_true, List.isEmpty_iff,
        Option.isNone_iff_eq_none] at h
      obtain ⟨rfl, rfl⟩ := h
      rfl
  | nif b c t e rest => cases h
  | loop b body rest => cases h

/-- Code that has been predicated, outside loops: it runs where there has been no return. -/
theorem predicateFollowing_run {f returnFlag : Bool}
    {l l' : CfList (FlagInstr ι) (FlagCond κ)}
    (h : predicateFollowing false returnFlag l = some l') (hf : returnFlag = true → f = false) :
  (∀ s : S, l'.run I.withFlag n (s, f) = l.run I.withFlag n (s, f)) ∧
    ∀ s : S, l'.run I.withFlag n (s, true) = (.fall, (s, true))
  := by
  rcases predicateFollowing_cases h with ⟨he, rfl⟩ | ⟨-, hflag, ⟨hl, -⟩ | ⟨-, rfl⟩⟩
  · simp [run_empty_of_isEmpty he]
  · cases hl
  · have hempty : Block.run I.withFlag ({} : Block (FlagInstr ι)) = Beh.skip := rfl
    have htest : ∀ s f, I.withFlag.test .flag (s, f) = f := fun _ _ => rfl
    rw [hf hflag]
    simp [run, hempty, Beh.branch_apply, htest]

/-- The same inside a loop, where a return leaves it. -/
theorem predicateFollowing_run_inLoop {f returnFlag : Bool}
    {l l' : CfList (FlagInstr ι) (FlagCond κ)}
    (h : predicateFollowing true returnFlag l = some l') (hl : l.isEmpty = false)
    (hf : returnFlag = true → f = false) :
  (∀ s : S, l'.run I.withFlag n (s, f) = l.run I.withFlag n (s, f)) ∧
    ∀ s : S, l'.run I.withFlag n (s, true) = (.brk, (s, true))
  := by
  rcases predicateFollowing_cases h with ⟨he, -⟩ | ⟨-, hflag, ⟨-, rfl⟩ | ⟨hl, -⟩⟩
  · simp [hl] at he
  · have hempty : Block.run I.withFlag ({} : Block (FlagInstr ι)) = Beh.skip := rfl
    have htest : ∀ s f, I.withFlag.test .flag (s, f) = f := fun _ _ => rfl
    rw [hf hflag]
    constructor
    · intro s
      simp [run, hempty, Beh.seq, Beh.branch_apply, htest]
    · intro s
      simp [run, Beh.seq, Beh.branch_apply, htest, Block.run, Jump.run, Jump.exit,
        Interp.execAll]
  · cases hl

/-- An `if` with lowered branches, and what follows it. -/
theorem finishIf_run {inLoop f : Bool} {st : ReturnsState} {b : Block ι} {c : κ}
    {t e rest : CfList ι κ} {t' e' following l : CfList (FlagInstr ι) (FlagCond κ)}
    {pt pe : Bool} (h : finishIf inLoop st b c t' pt e' pe following = some l)
    (hf : st.returnFlag = true → f = false)
    (ht : ∀ s, t'.run I.withFlag n (s, f) = liftReturn inLoop f (t.run I n s))
    (he : ∀ s, e'.run I.withFlag n (s, f) = liftReturn inLoop f (e.run I n s))
    (hrest : (t.hasNextEdge || e.hasNextEdge) = true → ∀ s,
      following.run I.withFlag n (s, f) = liftReturn inLoop f (rest.run I n s))
    (htret : pt = false → ∀ s, (t.run I n s).1 ≠ .ret)
    (heret : pe = false → ∀ s, (e.run I n s).1 ≠ .ret)
    (htfall : pt = true → inLoop = false → st.hasPredicatedReturn = false →
      ∀ s, (t.run I n s).1 ≠ .fall)
    (hefall : pe = true → inLoop = false → st.hasPredicatedReturn = false →
      ∀ s, (e.run I n s).1 ≠ .fall) (s : S) :
  l.tailRun I.withFlag n (s, f) = liftReturn inLoop f
    ((Beh.branch (I.test c) (t.run I n) (e.run I n)).seq (rest.run I n) s)
  := by
  have hbranch : ∀ s, Beh.branch (I.withFlag.test (.cond c)) (t'.run I.withFlag n)
      (e'.run I.withFlag n) (s, f) =
      liftReturn inLoop f (Beh.branch (I.test c) (t.run I n) (e.run I n) s) :=
    fun s => liftReturn_branch (ht s) (he s)
  -- where a branch falls off its end, what follows is reached
  have hthen : ∀ s s', t.run I n s = (.fall, s') →
      following.run I.withFlag n (s', f) = liftReturn inLoop f (rest.run I n s') := by
    intro s s' hs
    apply hrest
    rw [Bool.or_eq_true]
    by_contra hne
    simp only [not_or, Bool.not_eq_true] at hne
    simpa [hs] using exit_ne_fall_of_hasNextEdge (I := I) (n := n) hne.1 s
  have helse : ∀ s s', e.run I n s = (.fall, s') →
      following.run I.withFlag n (s', f) = liftReturn inLoop f (rest.run I n s') := by
    intro s s' hs
    apply hrest
    rw [Bool.or_eq_true]
    by_contra hne
    simp only [not_or, Bool.not_eq_true] at hne
    simpa [hs] using exit_ne_fall_of_hasNextEdge (I := I) (n := n) hne.2 s
  have hnext : ∀ s s', Beh.branch (I.test c) (t.run I n) (e.run I n) s = (.fall, s') →
      following.run I.withFlag n (s', f) = liftReturn inLoop f (rest.run I n s') := by
    intro s s' hs
    rw [Beh.branch_apply] at hs
    split_ifs at hs
    · exact hthen s s' hs
    · exact helse s s' hs
  have hempty : (CfList.block {} : CfList (FlagInstr ι) (FlagCond κ)).run I.withFlag n =
      Beh.skip := rfl
  rcases finishIf_cases h with ⟨hno, rfl⟩ | ⟨rfl, -, f', hf', rfl⟩ | ⟨rfl, hpr, hpt, hpe, rfl⟩ |
    ⟨rfl, hpr, hpt, hpe, e'', he'', rfl⟩ | ⟨rfl, hpr, hpt, hpe, t'', ht'', rfl⟩
  · apply liftReturn_seq (hbranch s) (hnext s)
    intro s' hs' hloop
    rcases hno with ⟨hpt, hpe⟩ | hno
    · have := exit_branch_ne (c := I.test c) (htret hpt) (heret hpe) s
      simp [hs'] at this
    · simp [hloop] at hno
  · obtain ⟨hrun, hskip⟩ := predicateFollowing_run (I := I) (n := n) hf' hf
    apply liftReturn_seq (hbranch s)
    · intro s' hs'
      rw [hrun, hnext s s' hs']
    · intro s' _ _
      apply hskip
  · apply liftReturn_seq (hbranch s)
    · intro s' hs'
      have := exit_branch_ne (c := I.test c) (htfall hpt rfl hpr) (hefall hpe rfl hpr) s
      simp [hs'] at this
    · intro s' _ _
      rfl
  · simp only [tailRun, run_append he'', hempty, Beh.seq_skip]
    rw [Beh.branch_seq]
    apply liftReturn_branch
    · rw [Beh.seq_of_ne_fall (htfall hpt rfl hpr s), ht]
    · apply liftReturn_seq (he s) (helse s)
      intro s' hs'
      simpa [hs'] using heret hpe s
  · simp only [tailRun, run_append ht'', hempty, Beh.seq_skip]
    rw [Beh.branch_seq]
    apply liftReturn_branch
    · apply liftReturn_seq (ht s) (hthen s)
      intro s' hs'
      simpa [hs'] using htret hpt s
    · rw [Beh.seq_of_ne_fall (hefall hpe rfl hpr s), he]

/-- Whether every loop with a return in it that stands inside another loop is followed, in the
list it stands in, by something that can be reached. -/
def returnsFollowed (inLoop : Bool) : CfList ι κ → Bool
  | .block _ => true
  | .nif _ _ t e rest =>
      t.returnsFollowed inLoop && e.returnsFollowed inLoop && rest.returnsFollowed inLoop
  | .loop _ body rest =>
      (!(inLoop && body.containsReturn) || (body.hasJump .brk && !rest.isEmpty)) &&
        body.returnsFollowed true && rest.returnsFollowed inLoop

/-- Code that is there and can be reached is still there when it has been lowered. -/
theorem isEmpty_lowerReturns {l : CfList ι κ} {inLoop : Bool}
    {hp : CfList (FlagInstr ι) (FlagCond κ) → Bool} {st st' : ReturnsState}
    {l' : CfList (FlagInstr ι) (FlagCond κ)} {p : Bool} (hhp : ∀ x, hp x = true)
    (h : lowerReturns inLoop hp l st = some (l', p, st')) (hl : l.isEmpty = false) :
  l'.isEmpty = false
  := by
  have hblock : ∀ {st st' : ReturnsState} {l l' : CfList (FlagInstr ι) (FlagCond κ)} {p : Bool},
      lowerReturnsInBlock inLoop hp l st = some (l', p, st') → l.isEmpty = false →
      l'.isEmpty = false := by
    intro st st' l l' p h hl
    rcases lowerReturnsInBlock_cases h with ⟨hf, -⟩ | ⟨hf, -⟩ |
      ⟨-, hret, -, -, ⟨-, rfl⟩ | ⟨-, x, rfl, rfl⟩⟩ | ⟨-, -, rfl, -⟩
    · simp [hhp] at hf
    · simp [hhp] at hf
    · cases l <;> simp [setFirstBlock, isEmpty, Block.isEmpty]
    · simp [isEmpty, Block.isEmpty]
    · exact hl
  cases l with
  | block b =>
      apply hblock h
      simpa [isEmpty, Block.isEmpty, Block.withFlag] using hl
  | nif b c t e rest =>
      obtain ⟨following, p₁, st₁, t', pt, st₂, e', pe, st₃, l₀, pb, -, -, -, hl₀, hb, -⟩ :=
        lowerReturns_nif h
      apply hblock hb (firstBlock_finishIf hl₀).2.1
  | loop b body rest =>
      obtain ⟨following, p₁, st₁, body', pl, st₂, following', pb, -, -, -, hb, -⟩ :=
        lowerReturns_loop h
      apply hblock hb rfl

theorem liftReturn_eq {inLoop inLoop' f : Bool} {r : Exit × S} (h : r.1 ≠ .ret) :
  liftReturn inLoop f r = liftReturn inLoop' f r
  := by
  obtain ⟨e, s⟩ := r
  rw [liftReturn_of_ne h, liftReturn_of_ne h]

/-- A loop with a lowered body, and what follows it. -/
theorem finishLoop_run {inLoop f : Bool} {st : ReturnsState} {body rest : CfList ι κ}
    {body' following l : CfList (FlagInstr ι) (FlagCond κ)} {p : Bool}
    (h : finishLoop inLoop st p following = some l) (hf : st.returnFlag = true → f = false)
    (hbody : ∀ s, body'.run I.withFlag n (s, f) = liftReturn true f (body.run I n s))
    (hrest : body.hasJump .brk = true → ∀ s,
      following.run I.withFlag n (s, f) = liftReturn inLoop f (rest.run I n s))
    (hret : p = false → body.containsReturn = false)
    (hfollowed : inLoop = true → body.containsReturn = true → following.isEmpty = false)
    (s : S) :
  ((Beh.loop n (body'.run I.withFlag n)).seq (l.run I.withFlag n)) (s, f) =
    liftReturn inLoop f ((Beh.loop n (body.run I n)).seq (rest.run I n) s)
  := by
  have hloop := liftReturn_loop hbody n s
  -- where the loop falls off its end, what follows is reached
  have hnext : ∀ s', Beh.loop n (body.run I n) s = (.fall, s') →
      following.run I.withFlag n (s', f) = liftReturn inLoop f (rest.run I n s') := by
    intro s' hs'
    apply hrest
    by_contra hbrk
    have := Beh.loop_ne_fall
      (exit_ne_of_hasJump (I := I) (n := n) (j := .brk) (by simp) (by simpa using hbrk)) n s
    simp [hs'] at this
  -- a loop without returns
  have hplain : body.containsReturn = false →
      ((Beh.loop n (body'.run I.withFlag n)).seq (following.run I.withFlag n)) (s, f) =
        liftReturn inLoop f ((Beh.loop n (body.run I n)).seq (rest.run I n) s) := by
    intro hno
    have hne := Beh.loop_ne_ret (exit_ne_ret (I := I) (n := n) hno) n s
    apply liftReturn_seq (hloop.trans (liftReturn_eq hne)) hnext
    intro s' hs'
    simp [hs'] at hne
  unfold finishLoop at h
  split_ifs at h with hp
  · cases inLoop with
    | false =>
        obtain ⟨hrun, hskip⟩ := predicateFollowing_run (I := I) (n := n) h hf
        apply liftReturn_seq hloop
        · intro s' hs'
          rw [hrun, hnext s' hs']
        · intro s' _ _
          apply hskip
    | true =>
        by_cases he : following.isEmpty = true
        · -- nothing follows, and there is no return either
          have hno : body.containsReturn = false := by
            by_contra hne
            simp [hfollowed rfl (by simpa using hne)] at he
          rw [predicateFollowing, if_pos he] at h
          cases h
          exact hplain hno
        · obtain ⟨hrun, hbrk⟩ :=
            predicateFollowing_run_inLoop (I := I) (n := n) h (by simpa using he) hf
          rcases hr : Beh.loop n (body.run I n) s with ⟨e, s'⟩
          rw [hr] at hloop
          cases e
          case fall =>
            rw [Beh.seq_of_fall hloop, Beh.seq_of_fall hr, hrun, hnext s' hr]
          case ret =>
            rw [Beh.seq_of_fall hloop, hbrk, Beh.seq_of_ne_fall (by simp [hr]), hr]
            rfl
          all_goals
            rw [Beh.seq_of_ne_fall (by simp [hloop, liftReturn]), hloop,
              Beh.seq_of_ne_fall (by simp [hr]), hr]
            rfl
  · cases h
    exact hplain (hret (by simpa using hp))

/-- The lowered code does what the code does, up to what becomes of returns. -/
theorem lowerReturns_run {l : CfList ι κ} {inLoop : Bool}
    {hp : CfList (FlagInstr ι) (FlagCond κ) → Bool} {st st' : ReturnsState}
    {l' : CfList (FlagInstr ι) (FlagCond κ)} {p : Bool} (hhp : ∀ x, hp x = true)
    (h : lowerReturns inLoop hp l st = some (l', p, st'))
    (hfollowed : l.returnsFollowed inLoop = true) {f : Bool}
    (hf : st'.returnFlag = true → f = false) (s : S) :
  l'.run I.withFlag n (s, f) = liftReturn inLoop f (l.run I n s)
  := by
  induction l generalizing inLoop hp st st' l' p s with
  | block b =>
      have := lowerReturnsInBlock_run (I := I) (n := n) (y := Beh.skip) (f := f) (s := s) hhp h
        rfl (fun s' _ => rfl)
      simpa [run] using this
  | nif b c t e rest iht ihe ih =>
      obtain ⟨following, p₁, st₁, t', pt, st₂, e', pe, st₃, l₀, pb, hrest, ht, he, hl₀, hb, -⟩ :=
        lowerReturns_nif h
      simp only [returnsFollowed, Bool.and_eq_true] at hfollowed
      obtain ⟨⟨hft, hfe⟩, hfr⟩ := hfollowed
      have hf₃ : st₃.returnFlag = true → f = false :=
        fun hst => hf ((lowerReturnsInBlock_state hb).1 hst)
      have hf₂ : st₂.returnFlag = true → f = false :=
        fun hst => hf₃ ((lowerReturns_state he).1 hst)
      have hf₁ : st₁.returnFlag = true → f = false :=
        fun hst => hf₂ ((lowerReturns_state ht).1 hst)
      apply lowerReturnsInBlock_run hhp hb (firstBlock_finishIf hl₀).1
      intro s' hs'
      have hjump : b.jump.isNone = true := by
        rcases hj : b.jump with _ | j
        · rfl
        · rw [Block.run_of_jump_eq_some hj] at hs'
          simp [Block.exit_ne_fall] at hs'
      apply finishIf_run hl₀ hf₃
      · apply iht (fun _ => hjump) ht hft hf₂
      · apply ihe (fun _ => hjump) he hfe hf₃
      · intro hnext
        apply ih (fun _ => hnext) hrest hfr hf₁
      · rintro rfl
        apply exit_ne_ret (not_containsReturn_of_progress ht)
      · rintro rfl
        apply exit_ne_ret (not_containsReturn_of_progress he)
      · rintro rfl rfl hpr
        apply exit_ne_fall_of_progress (fun _ => hjump) ht
        by_contra hne
        simp [(lowerReturns_state he).2 (by simpa using hne)] at hpr
      · rintro rfl rfl hpr
        apply exit_ne_fall_of_progress (fun _ => hjump) he hpr
  | loop b body rest ihbody ih =>
      obtain ⟨following, p₁, st₁, body', pl, st₂, following', pb, hrest, hbody, hl, hb, -⟩ :=
        lowerReturns_loop h
      simp only [returnsFollowed, Bool.and_eq_true] at hfollowed
      obtain ⟨⟨hfl, hfb⟩, hfr⟩ := hfollowed
      have hf₂ : st₂.returnFlag = true → f = false :=
        fun hst => hf ((lowerReturnsInBlock_state hb).1 hst)
      have hf₁ : st₁.returnFlag = true → f = false :=
        fun hst => hf₂ ((lowerReturns_state hbody).1 hst)
      apply lowerReturnsInBlock_run hhp hb rfl
      intro s' hs'
      have hjump : b.jump.isNone = true := by
        rcases hj : b.jump with _ | j
        · rfl
        · rw [Block.run_of_jump_eq_some hj] at hs'
          simp [Block.exit_ne_fall] at hs'
      apply finishLoop_run hl hf₂
      · apply ihbody (fun _ => by simp [hjump]) hbody hfb hf₂
      · intro hbrk
        apply ih (fun _ => hbrk) hrest hfr hf₁
      · rintro rfl
        apply not_containsReturn_of_progress hbody
      · rintro rfl hret
        simp only [hret, Bool.and_self, Bool.not_true, Bool.false_or, Bool.and_eq_true,
          Bool.not_eq_true'] at hfl
        apply isEmpty_lowerReturns (fun _ => hfl.1) hrest hfl.2

/-! ### Assertions -/

/-- Whether there is no code in a list that cannot be reached: what is in a block without
predecessors, or comes after it or after a jump in the same list. -/
def deadFree : CfList ι κ → Bool → Bool
  | .block b, hasPredecessors => hasPredecessors || b.isEmpty
  | .nif b _ t e rest, hasPredecessors =>
      hasPredecessors && b.jump.isNone && t.deadFree true && e.deadFree true &&
        rest.deadFree (t.hasNextEdge || e.hasNextEdge)
  | .loop b body rest, hasPredecessors =>
      hasPredecessors && b.jump.isNone && body.deadFree true &&
        rest.deadFree (body.hasJump .brk)

theorem lastBlock_predicateFollowing {returnFlag : Bool}
    {l l' : CfList (FlagInstr ι) (FlagCond κ)}
    (h : predicateFollowing false returnFlag l = some l') (hl : l.lastBlock.jump = none) :
  l'.lastBlock.jump = none
  := by
  rcases predicateFollowing_cases h with ⟨-, rfl⟩ | ⟨-, -, ⟨hl, -⟩ | ⟨-, rfl⟩⟩
  · exact hl
  · cases hl
  · rfl

theorem exists_predicateFollowing (inLoop : Bool) {returnFlag : Bool} (hf : returnFlag = true)
    (l : CfList (FlagInstr ι) (FlagCond κ)) :
  ∃ l', predicateFollowing inLoop returnFlag l = some l'
  := by
  unfold predicateFollowing
  rw [hf]
  split_ifs <;> simp_all

/-- No assertion fails on the way from an `if`, if the flag has been created. -/
theorem exists_finishIf {inLoop : Bool} {st : ReturnsState} (b : Block ι) (c : κ)
    {t e following : CfList (FlagInstr ι) (FlagCond κ)} {pt pe : Bool}
    (hf : (pt || pe) = true → st.returnFlag = true)
    (ht : inLoop = false → t.lastBlock.jump = none)
    (he : inLoop = false → e.lastBlock.jump = none)
    (hl : inLoop = false → following.lastBlock.jump = none) :
  ∃ l, finishIf inLoop st b c t pt e pe following = some l ∧
    (inLoop = false → l.lastBlock.jump = none)
  := by
  unfold finishIf
  split_ifs with h₁ h₂ h₃ h₄
  · simp only [Bool.and_eq_true, Bool.not_eq_true'] at h₁
    obtain ⟨f', hf'⟩ := exists_predicateFollowing inLoop (hf h₁.1) following
    refine ⟨.nif b.withFlag (.cond c) t e f', by simp [hf'], ?_⟩
    rintro rfl
    show f'.lastBlock.jump = none
    exact lastBlock_predicateFollowing hf' (hl rfl)
  · exact ⟨_, rfl, fun _ => rfl⟩
  · simp only [Bool.and_eq_true, Bool.not_eq_true'] at h₁
    obtain ⟨e', he', -⟩ := exists_append (he h₁.2) following
    exact ⟨.nif b.withFlag (.cond c) t e' (.block {}), by simp [he'], fun _ => rfl⟩
  · simp only [Bool.and_eq_true, Bool.not_eq_true'] at h₁
    obtain ⟨t', ht', -⟩ := exists_append (ht h₁.2) following
    exact ⟨.nif b.withFlag (.cond c) t' e (.block {}), by simp [ht'], fun _ => rfl⟩
  · exact ⟨_, rfl, hl⟩

/-- On code without unreachable parts no assertion fails, and there is progress only where a
return has been lowered. -/
theorem exists_lowerReturns {l : CfList ι κ} {inLoop v : Bool}
    {hp : CfList (FlagInstr ι) (FlagCond κ) → Bool} (hhp : ∀ x, hp x = v)
    (hdead : l.deadFree v = true)
    (hj : inLoop = false → l.hasJump .brk = false ∧ l.hasJump .cont = false)
    (st : ReturnsState) :
  ∃ l' p st', lowerReturns inLoop hp l st = some (l', p, st') ∧
    (p = true → st'.returnFlag = true) ∧ (inLoop = false → l'.lastBlock.jump = none)
  := by
  induction l generalizing inLoop v hp st with
  | block b =>
      cases v with
      | false =>
          refine ⟨.block b.withFlag, false, st, ?_, by simp, ?_⟩
          · simp_all [lowerReturns, lowerReturnsInBlock, deadFree, isEmpty, Block.isEmpty,
              Block.withFlag]
          · intro _
            simp_all [deadFree, Block.isEmpty, lastBlock, Block.withFlag]
      | true =>
          by_cases hret : b.jump = some .ret
          · cases inLoop with
            | false =>
                refine ⟨.block ⟨b.withFlag.instrs ++ [.storeFlag true], none⟩, true,
                  ⟨true, st.hasPredicatedReturn⟩, ?_, by simp, fun _ => rfl⟩
                simp [lowerReturns, lowerReturnsInBlock, hhp, firstBlock, Block.withFlag, hret]
            | true =>
                refine ⟨.block ⟨b.withFlag.instrs ++ [.storeFlag true], some .brk⟩, true,
                  ⟨true, st.hasPredicatedReturn⟩, ?_, by simp, by simp⟩
                simp [lowerReturns, lowerReturnsInBlock, hhp, firstBlock, Block.withFlag, hret,
                  setFirstBlock]
          · refine ⟨.block b.withFlag, false, st, ?_, by simp, ?_⟩
            · simp [lowerReturns, lowerReturnsInBlock, hhp, firstBlock, Block.withFlag, hret]
            · intro hloop
              obtain ⟨h₁, h₂⟩ := hj hloop
              show b.jump = none
              rcases hb : b.jump with _ | j
              · rfl
              · cases j <;> simp_all [hasJump]
  | nif b c t e rest iht ihe ih =>
      simp only [deadFree, Bool.and_eq_true, Option.isNone_iff_eq_none] at hdead
      obtain ⟨⟨⟨⟨rfl, hb⟩, hdt⟩, hde⟩, hdr⟩ := hdead
      simp only [hasJump, Bool.or_eq_false_iff] at hj
      have hbj : ∀ x : CfList (FlagInstr ι) (FlagCond κ), (fun _ => b.jump.isNone) x = true := by
        simp [hb]
      obtain ⟨following, p₁, st₁, hrest, hp₁, hl₁⟩ := ih (fun _ => rfl) hdr
        (fun h => ⟨(hj h).1.2, (hj h).2.2⟩) st
      obtain ⟨t', pt, st₂, ht, hp₂, hl₂⟩ := iht hbj hdt
        (fun h => ⟨(hj h).1.1.1.2, (hj h).2.1.1.2⟩) ⟨st₁.returnFlag, false⟩
      obtain ⟨e', pe, st₃, he, hp₃, hl₃⟩ := ihe hbj hde
        (fun h => ⟨(hj h).1.1.2, (hj h).2.1.2⟩) st₂
      have hf₃ : (pt || pe) = true → st₃.returnFlag = true := by
        intro hp
        rcases Bool.or_eq_true_iff.mp hp with hp | hp
        · exact (lowerReturns_state he).1 (hp₂ hp)
        · exact hp₃ hp
      obtain ⟨l₀, hl₀, hlast⟩ := exists_finishIf b c hf₃ hl₂ hl₃ hl₁
      have hfirst : l₀.firstBlock.jump = none := by
        rw [(firstBlock_finishIf hl₀).1]
        exact hb
      refine ⟨l₀, p₁ || (pt || pe) || false,
        ⟨st₃.returnFlag, pt || pe || st₁.hasPredicatedReturn⟩, ?_, ?_, hlast⟩
      · simp [lowerReturns, hrest, ht, he, hl₀, lowerReturnsInBlock, hhp, hfirst]
      · intro hp
        simp only [Bool.or_false, Bool.or_eq_true_iff] at hp
        rcases hp with hp | hp
        · exact (lowerReturns_state he).1 ((lowerReturns_state ht).1 (hp₁ hp))
        · exact hf₃ (by simpa using hp)
  | loop b body rest ihbody ih =>
      simp only [deadFree, Bool.and_eq_true, Option.isNone_iff_eq_none] at hdead
      obtain ⟨⟨⟨rfl, hb⟩, hdb⟩, hdr⟩ := hdead
      simp only [hasJump, Bool.or_eq_false_iff] at hj
      obtain ⟨following, p₁, st₁, hrest, hp₁, hl₁⟩ := ih (fun _ => rfl) hdr
        (fun h => ⟨(hj h).1.2, (hj h).2.2⟩) st
      have hbj : ∀ x : CfList (FlagInstr ι) (FlagCond κ),
          (fun body => b.jump.isNone || body.hasBackEdge) x = true := by
        simp [hb]
      obtain ⟨body', pl, st₂, hbody, hp₂, -⟩ :=
        ihbody hbj hdb (fun h : true = false => by cases h) st₁
      obtain ⟨following', hfl, hlast⟩ : ∃ l', finishLoop inLoop st₂ pl following = some l' ∧
          (inLoop = false → l'.lastBlock.jump = none) := by
        unfold finishLoop
        split_ifs with hpl
        · obtain ⟨l', hl'⟩ := exists_predicateFollowing inLoop (hp₂ hpl) following
          refine ⟨l', hl', ?_⟩
          rintro rfl
          exact lastBlock_predicateFollowing hl' (hl₁ rfl)
        · exact ⟨following, rfl, hl₁⟩
      have hblock : ∀ st, lowerReturnsInBlock inLoop hp (.loop b.withFlag body' following') st =
          some (.loop b.withFlag body' following', false, st) := by
        simp [lowerReturnsInBlock, hhp, firstBlock, Block.withFlag, hb]
      refine ⟨.loop b.withFlag body' following', p₁ || pl || false,
        ⟨st₂.returnFlag, pl || st₂.hasPredicatedReturn⟩, ?_, ?_, hlast⟩
      · simp only [lowerReturns, hrest, hbody, hfl, hblock, Option.bind_eq_bind,
          Option.bind_some]
      · intro hp
        simp only [Bool.or_false, Bool.or_eq_true_iff] at hp
        rcases hp with hp | hp
        · exact (lowerReturns_state hbody).1 (hp₁ hp)
        · exact hp₂ hp

/-! ### Correctness -/

/-- How a function ends whose body ends in `e`: returning is the same as falling off the end. -/
def functionExit : Exit → Exit
  | .ret => .fall
  | e => e

/-- The body `l`, with a return flag, has no returns and does what `body` does. -/
def ReplacesBody (body : CfList ι κ) (l : CfList (FlagInstr ι) (FlagCond κ)) : Prop :=
  l.containsReturn = false ∧ ∀ (S : Type) (I : Interp ι κ S) (n : ℕ) (s : S) (f : Bool),
    ∃ f', l.run I.withFlag n (s, f) =
      (functionExit (body.run I n s).1, ((body.run I n s).2, f'))

theorem run_storeFlag (l : CfList (FlagInstr ι) (FlagCond κ)) (s : S) (f v : Bool) :
  (l.setFirstBlock ⟨.storeFlag v :: l.firstBlock.instrs, l.firstBlock.jump⟩).run I.withFlag n
    (s, f) = l.run I.withFlag n (s, v)
  := by
  rw [run_eq_tailRun, run_eq_tailRun l, firstBlock_setFirstBlock, tailRun_setFirstBlock]
  have hblock : Block.run I.withFlag ⟨.storeFlag v :: l.firstBlock.instrs, l.firstBlock.jump⟩
      (s, f) = l.firstBlock.run I.withFlag (s, v) := rfl
  simp only [Beh.seq, hblock]

theorem exists_liftReturn (f : Bool) (r : Exit × S) :
  ∃ f', liftReturn false f r = (functionExit r.1, (r.2, f'))
  := by
  obtain ⟨e, s⟩ := r
  cases e <;> simp [liftReturn, functionExit]

/-- A loop that returns when a condition holds, and code after it. -/
def searchLoop : CfList ℕ ℕ :=
  .loop {} (.nif ⟨[0], none⟩ 1 (.block ⟨[1], some .ret⟩) (.block {})
    (.nif {} 2 (.block ⟨[], some .brk⟩) (.block {}) (.block {}))) (.block ⟨[2], none⟩)

/-- A loop that returns at once, as the body of another loop. -/
def nestedReturn : CfList Unit Unit :=
  .loop {} (.loop {} (.block ⟨[()], some .ret⟩) (.block {})) (.block {})

end CfList

end Nir
