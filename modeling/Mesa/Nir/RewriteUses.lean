import Mesa.Nir.InstrKeys

/-!
# Functions in which an instruction is replaced

A function in SSA form stays in SSA form when an instruction is replaced by an equal one that comes
before it.
-/

namespace Nir.InstrSet

open Flow (Path Dom Before)

/-! ### The function after a replacement -/

section Rewrite

variable {T : Infos} {F : Function} {old new : ℕ} {exact : Bool}

theorem canRewrite_rewriteInstr (i : Instr) :
  instrCanRewrite T (rewriteInstr T old new exact i) = instrCanRewrite T i
  := by
  rw [rewriteInstr]
  split_ifs <;> cases i <;> rfl

theorem isPhi_rewriteInstr (i : Instr) :
  (rewriteInstr T old new exact i).isPhi = i.isPhi
  := by
  rw [rewriteInstr]
  split_ifs <;> cases i <;> rfl

theorem srcs_rewriteInstr (i : Instr) :
  (rewriteInstr T old new exact i).srcs T = (i.srcs T).map (subst old new)
  := by
  rw [rewriteInstr]
  split_ifs <;> cases i <;>
    simp only [Instr.rename, Instr.setExact, Instr.srcs, List.map_map, List.map_nil] <;> rfl

/-- The flag `exact` is not compared. -/
theorem instrKey_rewriteInstr (i : Instr) :
  instrKey T (rewriteInstr T old new exact i) = instrKey T (i.rename (subst old new))
  := by
  rw [rewriteInstr]
  split_ifs <;> cases i <;> rfl

theorem valid_rewriteInstr {preds : ℕ → List ℕ} {i : Instr} (h : i.Valid T preds) :
  (rewriteInstr T old new exact i).Valid T preds
  := by
  rw [rewriteInstr]
  split_ifs <;> cases i <;> simp only [Instr.setExact, Instr.rename, Instr.Valid] at h ⊢ <;>
    simpa [List.map_map, Function.comp_def] using h

theorem rewriteInstr_eq_phi {i : Instr} {p : PhiInstr} (h : rewriteInstr T old new exact i = .phi p) :
  ∃ p', i = .phi p' ∧ p.block = p'.block ∧
    p.srcs = p'.srcs.map (fun s => { s with src := subst old new s.src })
  := by
  rw [rewriteInstr] at h
  split_ifs at h <;> cases i <;> simp only [Instr.setExact, Instr.rename, Instr.phi.injEq,
    reduceCtorEq] at h
  all_goals
    subst h
    exact ⟨_, rfl, rfl, rfl⟩

namespace Function

theorem edge_rewrite :
  (F.rewrite T old new exact).Edge = F.Edge
  := by
  funext b c
  simp only [Edge, rewrite]
  cases F.exit b <;> rfl

/-- A list without one of its elements. -/
theorem filter_eq_eraseIdx {α : Type*} {f : α → Bool} :
  ∀ {l : List α} {k : ℕ}, (∀ m x, l[m]? = some x → (f x = false ↔ m = k)) →
    l.filter f = l.eraseIdx k
  | [], _, _ => rfl
  | x :: l, 0, h => by
      have hx : f x = false := (h 0 x rfl).mpr rfl
      rw [List.filter_cons_of_neg (by simp [hx]), List.eraseIdx_zero, List.tail_cons,
        List.filter_eq_self]
      intro y hy
      obtain ⟨m, hm⟩ := List.mem_iff_getElem?.mp hy
      have hne := (h (m + 1) y hm).not.mpr (Nat.succ_ne_zero m)
      simpa using hne
  | x :: l, k + 1, h => by
      have hx : f x = true := by
        simpa using (h 0 x rfl).not.mpr (Nat.succ_ne_zero k).symm
      rw [List.filter_cons_of_pos hx, List.eraseIdx_cons_succ]
      congr 1
      apply filter_eq_eraseIdx
      intro m y hy
      rw [h (m + 1) y hy, Nat.succ_inj]

/-- A position of the rewritten function, in the function in which there is an instruction more at
the position `r`. -/
def up (r p : ℕ × ℕ) : ℕ × ℕ := if p.1 = r.1 ∧ r.2 ≤ p.2 then (p.1, p.2 + 1) else p

theorem up_fst (r p : ℕ × ℕ) :
  (up r p).1 = p.1
  := by
  rw [up]
  split_ifs <;> rfl

theorem before_up_iff {r p q : ℕ × ℕ} :
  F.Before (up r p) (up r q) ↔ F.Before p q
  := by
  have hlt : p.1 = q.1 → ((up r p).2 < (up r q).2 ↔ p.2 < q.2) := by
    intro heq
    simp only [up, heq]
    split_ifs <;> simp only <;> omega
  simp only [Before, Flow.Before, up_fst]
  constructor
  · rintro (h | ⟨heq, h⟩)
    · exact .inl h
    · exact .inr ⟨heq, (hlt heq).mp h⟩
  · rintro (h | ⟨heq, h⟩)
    · exact .inl h
    · exact .inr ⟨heq, (hlt heq).mpr h⟩

theorem exists_up {r p : ℕ × ℕ} (hne : p ≠ r) :
  ∃ q, up r q = p
  := by
  by_cases h : p.1 = r.1 ∧ r.2 < p.2
  · use (p.1, p.2 - 1)
    rw [up, if_pos ⟨h.1, by simp only; omega⟩]
    ext
    · rfl
    · simp only
      omega
  · use p
    rw [up, if_neg]
    rintro ⟨heq, hle⟩
    have hidx : r.2 = p.2 := by omega
    exact hne (Prod.ext heq hidx.symm)

variable {r : ℕ × ℕ} {j : Instr} {l : List ℕ} (hF : F.Ssa T) (hj : F.At r j)
  (hold : j.def? T = some old)

section Positions

include hF hj hold

theorem instrs_rewrite (b : ℕ) :
  (F.rewrite T old new exact).instrs b =
    (if b = r.1 then (F.instrs b).eraseIdx r.2 else F.instrs b).map (rewriteInstr T old new exact)
  := by
  simp only [rewrite]
  congr 1
  split_ifs with hb
  · subst hb
    apply filter_eq_eraseIdx
    intro m x hx
    rw [bne_eq_false_iff_eq]
    constructor
    · intro hdef
      have hx' : F.At (r.1, m) x := hx
      exact (Prod.ext_iff.mp (hF.unique hx' hj hdef hold)).2
    · rintro rfl
      have heq : x = j := Option.some.inj (hx.symm.trans hj)
      rw [heq]
      exact hold
  · rw [List.filter_eq_self]
    intro x hx
    obtain ⟨m, hm⟩ := List.mem_iff_getElem?.mp hx
    have hx' : F.At (b, m) x := hm
    rw [bne_iff_ne]
    intro hdef
    exact hb (Prod.ext_iff.mp (hF.unique hx' hj hdef hold)).1

theorem at_rewrite_iff {p : ℕ × ℕ} {i' : Instr} :
  (F.rewrite T old new exact).At p i' ↔
    ∃ i, F.At (up r p) i ∧ rewriteInstr T old new exact i = i'
  := by
  simp only [At]
  rw [instrs_rewrite hF hj hold, List.getElem?_map, Option.map_eq_some_iff, up_fst]
  have hget : (if p.1 = r.1 then (F.instrs p.1).eraseIdx r.2 else F.instrs p.1)[p.2]? =
      (F.instrs p.1)[(up r p).2]? := by
    rw [up]
    by_cases hb : p.1 = r.1
    · rw [if_pos hb, List.getElem?_eraseIdx]
      split_ifs with hlt hle hle
      · omega
      · rfl
      · rfl
      · exact absurd ⟨hb, by omega⟩ hle
    · rw [if_neg hb, if_neg (fun h => hb h.1)]
  rw [hget]

theorem length_rewrite :
  ((F.rewrite T old new exact).instrs r.1).length + 1 = (F.instrs r.1).length
  := by
  have hlt : r.2 < (F.instrs r.1).length := hj.lt_length
  rw [instrs_rewrite hF hj hold, if_pos rfl, List.length_map, List.length_eraseIdx_of_lt hlt]
  omega

theorem up_last (b : ℕ) :
  up r ((F.rewrite T old new exact).last b) = F.last b
  := by
  by_cases hb : b = r.1
  · subst hb
    have hlt : r.2 < (F.instrs r.1).length := hj.lt_length
    have hlen : ((F.rewrite T old new exact).instrs r.1).length + 1 = (F.instrs r.1).length :=
      length_rewrite hF hj hold
    rw [up, if_pos ⟨rfl, by simp only [last]; omega⟩]
    exact Prod.ext rfl hlen
  · rw [up, if_neg (fun h => hb h.1), last, instrs_rewrite hF hj hold, if_neg hb, List.length_map]
    rfl

/-- A value other than the old one is still defined. -/
theorem Defined.rewrite_of_ne {d : ℕ} {p : ℕ × ℕ} (h : F.Defined T d (up r p)) (hne : d ≠ old) :
  (F.rewrite T old new exact).Defined T d p
  := by
  obtain ⟨q, i, hq, hdef, hbefore⟩ := h
  have hqr : q ≠ r := by
    rintro rfl
    have heq : i = j := Option.some.inj (hq.symm.trans hj)
    rw [heq, hold] at hdef
    exact hne (Option.some.inj hdef).symm
  obtain ⟨q', rfl⟩ := exists_up hqr
  refine ⟨q', _, (at_rewrite_iff hF hj hold).mpr ⟨i, hq, rfl⟩, ?_, ?_⟩
  · rw [Match.def?_rewriteInstr]
    exact hdef
  · rw [Before, edge_rewrite]
    exact before_up_iff.mp hbefore

end Positions

theorem Defined.ne_of_at {d : ℕ} {p : ℕ × ℕ} {i : Instr} (hF : F.Ssa T) (h : F.Defined T d p)
  (hi : F.At p i) :
  i.def? T ≠ some d
  := by
  intro hdef
  obtain ⟨q, k, hq, hdef', hbefore⟩ := h
  rw [hF.unique hq hi hdef' hdef] at hbefore
  exact Flow.Before.irrefl hbefore

section Ssa

variable (hl : Path F.Edge F.entry r.1 l) (hnew : F.Defined T new r)
include hF hj hold hl hnew

/-- Where a value is defined, the one in its place is. -/
theorem Defined.rewrite {d : ℕ} {p : ℕ × ℕ} (h : F.Defined T d (up r p)) :
  (F.rewrite T old new exact).Defined T (subst old new d) p
  := by
  rw [subst]
  split_ifs with hd
  · subst hd
    apply Defined.rewrite_of_ne hF hj hold
    · obtain ⟨q, i, hq, hdef, hbefore⟩ := h
      obtain ⟨q', i', hq', hdef', hbefore'⟩ := hnew
      rw [hF.unique hq hj hdef hold] at hbefore
      exact ⟨q', i', hq', hdef', hbefore'.trans hl hbefore⟩
    · rintro rfl
      exact hnew.ne_of_at hF hj hold
  · exact Defined.rewrite_of_ne hF hj hold h hd

/-- The rewritten function is in SSA form. -/
theorem Ssa.rewrite :
  (F.rewrite T old new exact).Ssa T
  := by
  have hat := @at_rewrite_iff T F old new exact r j hF hj hold
  have hsub := @Defined.rewrite T F old new exact r j l hF hj hold hl hnew
  refine ⟨?_, ?_, ?_, ?_, ?_, ?_⟩
  · intro p q i' k' d hi' hk' hdi hdk
    obtain ⟨i, hi, rfl⟩ := hat.mp hi'
    obtain ⟨k, hk, rfl⟩ := hat.mp hk'
    rw [Match.def?_rewriteInstr] at hdi hdk
    have heq := hF.unique hi hk hdi hdk
    have h1 : p.1 = q.1 := by
      simpa only [up_fst] using congrArg Prod.fst heq
    apply Prod.ext h1
    have h2 := congrArg Prod.snd heq
    simp only [up, h1, apply_ite Prod.snd] at h2
    split_ifs at h2 <;> omega
  · intro p i' hi' d hd
    obtain ⟨i, hi, rfl⟩ := hat.mp hi'
    rw [srcs_rewriteInstr] at hd
    obtain ⟨e, he, rfl⟩ := List.mem_map.mp hd
    exact hsub (hF.srcs_defined hi e he)
  · intro p i' hi' src hsrc
    obtain ⟨i, hi, hphi⟩ := hat.mp hi'
    obtain ⟨i, rfl, -, hsrcs⟩ := rewriteInstr_eq_phi hphi
    rw [hsrcs] at hsrc
    obtain ⟨e, he, rfl⟩ := List.mem_map.mp hsrc
    apply hsub
    rw [up_last hF hj hold]
    exact hF.phi_defined hi e he
  · intro b cond b' b'' hexit
    simp only [Function.rewrite] at hexit
    split at hexit
    · cases hexit
    · cases hexit
    · cases hexit
      apply hsub
      rw [up_last hF hj hold]
      exact hF.cond_defined (by assumption)
  · obtain ⟨preds, hpreds, hvalid⟩ := hF.valid
    refine ⟨preds, ?_, ?_⟩
    · intro b c
      rw [hpreds, edge_rewrite]
    · intro p i' hi'
      obtain ⟨i, hi, rfl⟩ := hat.mp hi'
      exact valid_rewriteInstr (hvalid hi)
  · intro p i' hi'
    obtain ⟨i, hi, hphi⟩ := hat.mp hi'
    obtain ⟨i, rfl, hblock, -⟩ := rewriteInstr_eq_phi hphi
    rw [hblock, hF.phi_block hi, up_fst]

end Ssa

end Function

/-! ### What every step keeps -/

namespace Function

/-- The function has a definition of the value. -/
def Defines (T : Infos) (F : Function) (d : ℕ) : Prop := ∃ p i, F.At p i ∧ i.def? T = some d

/-- Instructions that differ in their sources only agree in the fields the equality leaves out. -/
def Uniform (T : Infos) (F : Function) : Prop :=
  ∀ {p q i j}, F.At p i → F.At q j → i.isPhi = false →
    instrsEqual T (i.rename (fun _ => 0)) (j.rename (fun _ => 0)) = true → SameResult i j

end Function

/-- Two runs are at the same block with the same memory and the same values of the kept ones, or
have both ended. -/
def AgreeOn {Mem : Type*} (keep : ℕ → Prop) :
    Option (ℕ × State Mem) → Option (ℕ × State Mem) → Prop
  | none, none => True
  | some (b, s), some (b', s') => b = b' ∧ s'.mem = s.mem ∧ ∀ d, keep d → s'.env d = s.env d
  | _, _ => False

/-- The second function is an optimized version of the first. -/
structure Optimizes {Mem : Type*} (M : Meaning T Mem) (F F' : Function) : Prop where
  ssa : F'.Ssa T
  uniform : F'.Uniform T
  edge : F'.Edge = F.Edge
  entry : F'.entry = F.entry
  origin : ∀ {p i}, F'.At p i →
    ∃ q j, F.At q j ∧ q.1 = p.1 ∧ j.def? T = i.def? T ∧ j.isPhi = i.isPhi
  last : ∀ {d}, F'.Defines T d → ∀ {b}, F.Defined T d (F.last b) → F'.Defined T d (F'.last b)
  run : ∀ init n, AgreeOn (F'.Defines T) (F.run M init n) (F'.run M init n)

section Optimizes

variable {Mem : Type*} {M : Meaning T Mem}

theorem AgreeOn.trans {keep keep' : ℕ → Prop} {a b c : Option (ℕ × State Mem)}
  (hab : AgreeOn keep a b) (hbc : AgreeOn keep' b c) (hsub : ∀ d, keep' d → keep d) :
  AgreeOn keep' a c
  := by
  match a, b, c with
  | none, none, none => trivial
  | some (_, s), some (_, s'), some (_, s'') =>
      obtain ⟨hb, hmem, henv⟩ := hab
      obtain ⟨hb', hmem', henv'⟩ := hbc
      refine ⟨hb.trans hb', hmem'.trans hmem, ?_⟩
      intro d hd
      rw [henv' d hd, henv d (hsub d hd)]

theorem SameRun.agreeOn {keep : ℕ → Prop} {a b : Option (ℕ × State Mem)}
  (h : SameRun old a b) (hold : ¬keep old) :
  AgreeOn keep a b
  := by
  match a, b with
  | none, none => trivial
  | some (_, s), some (_, s') =>
      obtain ⟨hb, hmem, henv⟩ := h
      refine ⟨hb, hmem, ?_⟩
      intro d hd
      apply henv
      rintro rfl
      exact hold hd

theorem Optimizes.defines {F' : Function} (h : Optimizes M F F') {d : ℕ} (hd : F'.Defines T d) :
  F.Defines T d
  := by
  obtain ⟨p, i, hi, hdef⟩ := hd
  obtain ⟨q, j, hj, -, hdef', -⟩ := h.origin hi
  exact ⟨q, j, hj, hdef'.trans hdef⟩

theorem Optimizes.refl (hF : F.Ssa T) (hu : F.Uniform T) :
  Optimizes M F F
  := by
  refine ⟨hF, hu, rfl, rfl, ?_, ?_, ?_⟩
  · intro p i hi
    exact ⟨p, i, hi, rfl, rfl, rfl⟩
  · intro d _ b h
    exact h
  · intro init n
    match F.run M init n with
    | none => trivial
    | some (b, s) => exact ⟨rfl, rfl, fun _ _ => rfl⟩

theorem Optimizes.trans {F' F'' : Function} (h : Optimizes M F F') (h' : Optimizes M F' F'') :
  Optimizes M F F''
  := by
  refine ⟨h'.ssa, h'.uniform, h'.edge.trans h.edge, h'.entry.trans h.entry, ?_, ?_, ?_⟩
  · intro p i hi
    obtain ⟨q, j, hj, hblock, hdef, hphi⟩ := h'.origin hi
    obtain ⟨r, k, hk, hblock', hdef', hphi'⟩ := h.origin hj
    exact ⟨r, k, hk, hblock'.trans hblock, hdef'.trans hdef, hphi'.trans hphi⟩
  · intro d hd b hdefined
    exact h'.last hd (h.last (h'.defines hd) hdefined)
  · intro init n
    exact (h.run init n).trans (h'.run init n) (fun d => h'.defines)

theorem sameResult_rewriteInstr (i j : Instr) :
  SameResult (rewriteInstr T old new exact i) (rewriteInstr T old new exact j) ↔ SameResult i j
  := by
  rw [rewriteInstr, rewriteInstr]
  split_ifs <;> cases i <;> cases j <;> exact Iff.rfl

variable {q r : ℕ × ℕ} {i j : Instr} {l : List ℕ}

/-- A match that is equal, and comes before an instruction, takes its place. -/
theorem Optimizes.rewrite (hF : F.Ssa T) (hu : F.Uniform T) (hl : Path F.Edge F.entry r.1 l)
  (hi : F.At q i) (hj : F.At r j) (hqr : F.Before q r) (hnew : i.def? T = some new)
  (hold : j.def? T = some old) (hri : instrCanRewrite T i = true)
  (hrj : instrCanRewrite T j = true) (heq : instrsEqual T j i = true) :
  Optimizes M F (F.rewrite T old new exact)
  := by
  have hat := @Function.at_rewrite_iff T F old new exact r j hF hj hold
  have hnot : ¬(F.rewrite T old new exact).Defines T old := by
    rintro ⟨p, i', hi', hdef⟩
    obtain ⟨x, hx, rfl⟩ := hat.mp hi'
    rw [Match.def?_rewriteInstr] at hdef
    have hpos := hF.unique hx hj hdef hold
    have h2 := congrArg Prod.snd hpos
    have h1 : p.1 = r.1 := by
      simpa only [Function.up_fst] using congrArg Prod.fst hpos
    simp only [Function.up, h1, true_and, apply_ite Prod.snd] at h2
    split_ifs at h2 <;> omega
  refine ⟨hF.rewrite hj hold hl ⟨q, i, hi, hnew, hqr⟩, ?_, Function.edge_rewrite, rfl, ?_, ?_, ?_⟩
  · intro p p' x' y' hx' hy' hphi hequal
    obtain ⟨x, hx, rfl⟩ := hat.mp hx'
    obtain ⟨y, hy, rfl⟩ := hat.mp hy'
    rw [isPhi_rewriteInstr] at hphi
    rw [sameResult_rewriteInstr]
    apply hu hx hy hphi
    have hphi' := (isPhi_rename x (fun _ => 0)).trans hphi
    have hphi'' := (isPhi_rename (rewriteInstr T old new exact x) (fun _ => 0)).trans
      ((isPhi_rewriteInstr x).trans hphi)
    have hkey : ∀ z : Instr, instrKey T ((rewriteInstr T old new exact z).rename (fun _ => 0)) =
        instrKey T (z.rename (fun _ => 0)) := by
      intro z
      rw [instrKey_rename_eq, instrKey_rewriteInstr, instrKey_rename_eq, instrKey_rename_eq,
        Option.map_map]
      congr 1
      funext key
      exact InstrKey.rename_rename key
    rw [instrsEqual_iff_key hphi'', hkey, hkey] at hequal
    exact (instrsEqual_iff_key hphi').mpr hequal
  · intro p x' hx'
    obtain ⟨x, hx, rfl⟩ := hat.mp hx'
    exact ⟨_, x, hx, Function.up_fst r p, (Match.def?_rewriteInstr exact x).symm,
      (isPhi_rewriteInstr x).symm⟩
  · intro d hd b hdefined
    have hlast : Function.up r ((F.rewrite T old new exact).last b) = F.last b :=
      Function.up_last hF hj hold b
    rw [← hlast] at hdefined
    apply hdefined.rewrite_of_ne hF hj hold
    rintro rfl
    exact hnot hd
  · intro init n
    obtain ⟨preds, -, hvalid⟩ := hF.valid
    obtain ⟨hphi, hblock⟩ := isPhi_eq_of_instrsEqual heq
    have hsame : SameResult j i := by
      cases hcase : j.isPhi with
      | false => exact hu hj hi hcase (instrsEqual_rename heq hcase _)
      | true =>
          cases j <;> simp only [Instr.isPhi, Bool.false_eq_true] at hcase
          trivial
    have hrun := run_rewrite_of_exec_eq hF hi hj hqr hnew hold hri hphi hblock
      (exec_congr M heq (hvalid hj) (hvalid hi) hrj hri hsame) exact init n
    exact hrun.agreeOn hnot

end Optimizes

end Rewrite

end Nir.InstrSet
