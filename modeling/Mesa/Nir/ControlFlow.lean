import Mesa.Flow.Behaviour

/-!
# Structured control flow

The control flow of a function is a list of nodes, in which blocks alternate with `if`s and
loops, the first and the last node being blocks.  A block is a list of instructions followed
by at most one jump.

The instructions and the conditions are left abstract: an `Interp` says what they do to a
state.  As the state is arbitrary, it may hold registers, memory and the list of all the side
effects so far, and code that takes a state to the same state has the same side effects in
the same order.
-/

namespace Nir

open Flow

/-- A jump, always the last instruction of its block. -/
inductive Jump where
  | brk
  | cont
  | ret
deriving DecidableEq, Repr

/-- A basic block, with the jump it ends in, if any. -/
structure Block (ι : Type) where
  instrs : List ι := []
  jump : Option Jump := none
deriving DecidableEq, Repr

/-- A control-flow list, with instructions `ι` and conditions `κ`. -/
inductive CfList (ι κ : Type) where
  /-- The last block of a list. -/
  | block (b : Block ι)
  /-- A block, followed by an `if` and the rest of the list. -/
  | nif (b : Block ι) (cond : κ) (thenList elseList rest : CfList ι κ)
  /-- A block, followed by a loop and the rest of the list. -/
  | loop (b : Block ι) (body rest : CfList ι κ)
deriving DecidableEq, Repr

/-- What instructions and conditions mean over states `S`. -/
structure Interp (ι κ S : Type) where
  exec : ι → S → S
  test : κ → S → Bool

variable {ι κ S : Type}

/-! ### Runs -/

/-- The exit a jump takes. -/
def Jump.exit : Jump → Exit
  | .brk => .brk
  | .cont => .cont
  | .ret => .ret

/-- Control goes where the jump at the end of a block says. -/
def Jump.run : Option Jump → Beh S
  | none => Beh.skip
  | some j => Beh.leave j.exit

/-- The effect of a list of instructions. -/
def Interp.execAll (I : Interp ι κ S) (is : List ι) (s : S) : S :=
  is.foldl (fun s i => I.exec i s) s

/-- The run of a block. -/
def Block.run (I : Interp ι κ S) (b : Block ι) : Beh S :=
  (Beh.act (I.execAll b.instrs)).seq (Jump.run b.jump)

/-- The run of a control-flow list, in which every loop makes at most `n` passes. -/
def CfList.run (I : Interp ι κ S) (n : ℕ) : CfList ι κ → Beh S
  | .block b => b.run I
  | .nif b c t e rest =>
      (b.run I).seq ((Beh.branch (I.test c) (t.run I n) (e.run I n)).seq (rest.run I n))
  | .loop b body rest => (b.run I).seq ((Beh.loop n (body.run I n)).seq (rest.run I n))

/-! ### Blocks -/

namespace Block

variable {I : Interp ι κ S}

/-- A block without a jump falls off its end. -/
theorem run_of_jump_eq_none {b : Block ι} (h : b.jump = none) (s : S) :
  b.run I s = (.fall, I.execAll b.instrs s)
  := by
  simp [run, h, Jump.run]

theorem run_of_jump_eq_some {b : Block ι} {j : Jump} (h : b.jump = some j) (s : S) :
  b.run I s = (j.exit, I.execAll b.instrs s)
  := by
  simp [run, h, Jump.run, Beh.seq]

/-- Whether a block holds neither an instruction nor a jump. -/
def isEmpty (b : Block ι) : Bool := b.instrs.isEmpty && b.jump.isNone

/-- `stitch_blocks`: merge a block with the block after it.  A block that ends in a jump must
not be followed by instructions. -/
def stitch (b b' : Block ι) : Option (Block ι) :=
  if b.jump.isSome then
    if b'.isEmpty then some b else none
  else some ⟨b.instrs ++ b'.instrs, b'.jump⟩

theorem exit_ne_fall (j : Jump) :
  j.exit ≠ .fall
  := by
  cases j <;> simp [Jump.exit]

theorem run_stitch {b b' c : Block ι} (h : b.stitch b' = some c) :
  c.run I = (b.run I).seq (b'.run I)
  := by
  funext s
  unfold stitch at h
  split_ifs at h with hj he
  · obtain ⟨j, hj⟩ := Option.isSome_iff_exists.mp hj
    cases h
    rw [Beh.seq_of_ne_fall]
    simp [run_of_jump_eq_some hj, exit_ne_fall]
  · cases h
    rw [Option.not_isSome_iff_eq_none] at hj
    rw [Beh.seq_of_fall (run_of_jump_eq_none hj s)]
    simp [run, Beh.seq, Interp.execAll, List.foldl_append]

end Block

/-! ### Lists -/

namespace CfList

variable {I : Interp ι κ S} {n : ℕ}

/-- The first block of a list. -/
def firstBlock : CfList ι κ → Block ι
  | .block b => b
  | .nif b _ _ _ _ => b
  | .loop b _ _ => b

/-- Whether there is nothing in a list. -/
def isEmpty : CfList ι κ → Bool
  | .block b => b.isEmpty
  | _ => false

/-- The list with another first block. -/
def setFirstBlock (b : Block ι) : CfList ι κ → CfList ι κ
  | .block _ => .block b
  | .nif _ c t e rest => .nif b c t e rest
  | .loop _ body rest => .loop b body rest

/-- The last block of a list. -/
def lastBlock : CfList ι κ → Block ι
  | .block b => b
  | .nif _ _ _ _ rest => rest.lastBlock
  | .loop _ _ rest => rest.lastBlock

/-- The list with another jump at the end of its last block. -/
def setLastJump (j : Option Jump) : CfList ι κ → CfList ι κ
  | .block b => .block ⟨b.instrs, j⟩
  | .nif b c t e rest => .nif b c t e (rest.setLastJump j)
  | .loop b body rest => .loop b body (rest.setLastJump j)

/-- `nir_cf_reinsert` at the end of a list: the nodes of the second list are appended to the
first, and the blocks that meet are stitched. -/
def append : CfList ι κ → CfList ι κ → Option (CfList ι κ)
  | .block b, l => do
      let b' ← b.stitch l.firstBlock
      some (l.setFirstBlock b')
  | .nif b c t e rest, l => do
      let rest' ← rest.append l
      some (.nif b c t e rest')
  | .loop b body rest, l => do
      let rest' ← rest.append l
      some (.loop b body rest')

/-- Sequential composition is the meaning of appending. -/
theorem run_append {a b c : CfList ι κ} (h : a.append b = some c) :
  c.run I n = (a.run I n).seq (b.run I n)
  := by
  induction a generalizing c with
  | block x =>
      obtain ⟨y, hy, h⟩ := Option.bind_eq_some_iff.mp h
      cases h
      have hrun : y.run I = (x.run I).seq (b.firstBlock.run I) := Block.run_stitch hy
      cases b <;> simp [setFirstBlock, firstBlock, run, hrun, Beh.seq_assoc]
  | nif x c' t e rest iht ihe ih =>
      obtain ⟨rest', hrest, h⟩ := Option.bind_eq_some_iff.mp h
      cases h
      simp [run, ih hrest, Beh.seq_assoc]
  | loop x body rest ihbody ih =>
      obtain ⟨rest', hrest, h⟩ := Option.bind_eq_some_iff.mp h
      cases h
      simp [run, ih hrest, Beh.seq_assoc]

theorem lastBlock_setFirstBlock_jump {l : CfList ι κ} {b : Block ι}
    (h : b.jump = l.firstBlock.jump) :
  (l.setFirstBlock b).lastBlock.jump = l.lastBlock.jump
  := by
  cases l <;> simp_all [setFirstBlock, lastBlock, firstBlock]

/-- A list whose last block does not end in a jump can be appended to, and then ends as the
list appended. -/
theorem exists_append {a : CfList ι κ} (h : a.lastBlock.jump = none) (b : CfList ι κ) :
  ∃ c, a.append b = some c ∧ c.lastBlock.jump = b.lastBlock.jump
  := by
  induction a with
  | block x =>
      have hx : x.jump = none := h
      refine ⟨b.setFirstBlock ⟨x.instrs ++ b.firstBlock.instrs, b.firstBlock.jump⟩, ?_, ?_⟩
      · simp [append, Block.stitch, hx]
      · exact lastBlock_setFirstBlock_jump rfl
  | nif x c t e rest iht ihe ih =>
      obtain ⟨c', hc', hlast⟩ := ih h
      refine ⟨.nif x c t e c', ?_, hlast⟩
      simp [append, hc']
  | loop x body rest ihbody ih =>
      obtain ⟨c', hc', hlast⟩ := ih h
      refine ⟨.loop x body c', ?_, hlast⟩
      simp [append, hc']

/-! ### Jumps -/

/-- Whether a block of the list, at any depth, ends in a jump, or the list holds a loop. -/
def containsJump : CfList ι κ → Bool
  | .block b => b.jump.isSome
  | .nif b _ t e rest =>
      b.jump.isSome || t.containsJump || e.containsJump || rest.containsJump
  | .loop _ _ _ => true

/-- Whether no block of the list itself, except possibly the last one, ends in a jump, as is
the case once code after jumps has been deleted. -/
def straight : CfList ι κ → Bool
  | .block _ => true
  | .nif b _ _ _ rest => b.jump.isNone && rest.straight
  | .loop b _ rest => b.jump.isNone && rest.straight

/-- Code without jumps and loops falls off its end. -/
theorem run_of_not_containsJump {l : CfList ι κ} (h : l.containsJump = false) (s : S) :
  (l.run I n s).1 = .fall
  := by
  induction l generalizing s with
  | block b =>
      have hb : b.jump = none := by
        simpa [containsJump] using h
      simp [run, Block.run_of_jump_eq_none hb]
  | nif b c t e rest iht ihe ih =>
      simp only [containsJump, Bool.or_eq_false_iff, Option.isSome_eq_false_iff,
        Option.isNone_iff_eq_none] at h
      obtain ⟨⟨⟨hb, ht⟩, he⟩, hrest⟩ := h
      simp only [run]
      rw [Beh.seq_of_fall (Block.run_of_jump_eq_none hb s)]
      have hbr : ∀ s', (Beh.branch (I.test c) (t.run I n) (e.run I n) s').1 = .fall := by
        intro s'
        rw [Beh.branch_apply]
        split_ifs
        · apply iht ht
        · apply ihe he
      rw [Beh.seq_of_fall (Prod.ext (hbr _) rfl)]
      apply ih hrest
  | loop b body rest ihbody ih => simp [containsJump] at h

/-- A list that ends in a jump does what it does without the jump, and then jumps. -/
theorem run_eq_setLastJump_seq {l : CfList ι κ} {j : Jump} (h : l.lastBlock.jump = some j) :
  l.run I n = ((l.setLastJump none).run I n).seq (Beh.leave j.exit)
  := by
  induction l with
  | block b =>
      have hb : b.jump = some j := h
      simp [run, setLastJump, Block.run, hb, Jump.run]
  | nif b c t e rest iht ihe ih => simp [run, setLastJump, ih h, Beh.seq_assoc]
  | loop b body rest ihbody ih => simp [run, setLastJump, ih h, Beh.seq_assoc]

theorem setLastJump_of_lastBlock {l : CfList ι κ} {j : Option Jump}
    (h : l.lastBlock.jump = j) :
  l.setLastJump j = l
  := by
  induction l with
  | block b =>
      have hb : b.jump = j := h
      simp [setLastJump, ← hb]
  | nif b c t e rest iht ihe ih => simp [setLastJump, ih h]
  | loop b body rest ihbody ih => simp [setLastJump, ih h]

theorem lastBlock_setLastJump (l : CfList ι κ) (j : Option Jump) :
  (l.setLastJump j).lastBlock.jump = j
  := by
  induction l with
  | block b => rfl
  | nif b c t e rest iht ihe ih => exact ih
  | loop b body rest ihbody ih => exact ih

theorem lastBlock_of_not_containsJump {l : CfList ι κ} (h : l.containsJump = false) :
  l.lastBlock.jump = none
  := by
  induction l with
  | block b => simpa [containsJump, lastBlock] using h
  | nif b c t e rest iht ihe ih =>
      simp only [containsJump, Bool.or_eq_false_iff] at h
      apply ih h.2
  | loop b body rest ihbody ih => simp [containsJump] at h

end CfList

end Nir
