import Mesa.Nir.LcssaStep

/-!
# The new phi has the value of the def

Outside of the loop, the new phi always has the value that the def has: it takes it on when the loop
is left, and the def is not made again before the loop is entered.  So the uses that are rewritten
read the same values, and the function executes the same blocks.
-/

namespace Nir

open Flow

namespace Lcssa

variable {ι : Type} {V M : Type} {J : Meaning ι V M}

/-! ### Instructions -/

theorem assign_congr {env env' : ℕ → Option V} {x : ℕ} (h : env x = env' x) (ds : List ℕ)
    (vs : List V) :
  assign env ds vs x = assign env' ds vs x
  := by
  induction ds generalizing env env' vs with
  | nil =>
      simp only [assign]
      exact h
  | cons d ds ih =>
      cases vs with
      | nil =>
          simp only [assign]
          exact h
      | cons v vs =>
          simp only [assign]
          apply ih
          by_cases hx : x = d
          · subst hx
            simp
          · simp [Function.update_of_ne hx, h]

theorem assign_of_notMem {env : ℕ → Option V} {x : ℕ} {ds : List ℕ} (h : x ∉ ds) (vs : List V) :
  assign env ds vs x = env x
  := by
  induction ds generalizing env vs with
  | nil => rfl
  | cons d ds ih =>
      rw [List.mem_cons, not_or] at h
      cases vs with
      | nil => rfl
      | cons v vs =>
          simp only [assign]
          rw [ih h.2, Function.update_of_ne h.1]

variable {start start' : ℕ → Option V} {prev : Option ℕ} {s s' : State V M} {n : ℕ}

/-- An instruction changes nothing but its defs. -/
theorem execInstr_of_notMem {i : Instr ι} {x : ℕ} (h : x ∉ i.dests) :
  (execInstr J start prev s i).env x = s.env x
  := by
  cases i with
  | phi dest srcs => exact Function.update_of_ne (fun heq => h (List.mem_singleton.mpr heq)) _ _
  | op o dests srcs => exact assign_of_notMem h _

/-- A phi takes on the same value when its sources have the same values. -/
theorem agree_phi (dest : ℕ) {srcs srcs' : List (ℕ × ℕ)} (h : Agree n s s')
    (hvalue : ((srcs.find? fun src => some src.1 = prev).bind fun src => start src.2) =
      (srcs'.find? fun src => some src.1 = prev).bind fun src => start' src.2) :
  Agree n (execInstr J start prev s (.phi dest srcs)) (execInstr J start' prev s' (.phi dest srcs'))
  := by
  refine ⟨h.mem, fun x hx => ?_⟩
  simp only [execInstr, hvalue]
  by_cases heq : x = dest
  · subst heq
    simp
  · simp [Function.update_of_ne heq, h.env x hx]

theorem agree_op (o : ι) (dests : List ℕ) {srcs srcs' : List ℕ} (h : Agree n s s')
    (hvalues : srcs.map s.env = srcs'.map s'.env) :
  Agree n (execInstr J start prev s (.op o dests srcs))
    (execInstr J start' prev s' (.op o dests srcs'))
  := by
  simp only [execInstr, hvalues, h.mem]
  exact ⟨rfl, fun x hx => assign_congr (h.env x hx) _ _⟩

/-- An instruction that is not rewritten. -/
theorem agree_execInstr {i : Instr ι} (hsrcs : ∀ x ∈ i.srcs, x < n)
    (hstart : ∀ x < n, start x = start' x) (h : Agree n s s') :
  Agree n (execInstr J start prev s i) (execInstr J start' prev s' i)
  := by
  cases i with
  | phi dest srcs =>
      apply agree_phi dest h
      cases hfind : srcs.find? fun src => some src.1 = prev with
      | none => rfl
      | some src =>
          apply hstart
          exact hsrcs _ (List.mem_map_of_mem (List.mem_of_find?_eq_some hfind))
  | op o dests srcs =>
      apply agree_op o dests h
      exact List.map_congr_left fun x hx => h.env x (hsrcs x hx)

/-- An instruction that uses the new phi instead of the def, while both have the same value. -/
theorem agree_execInstr_rewrite {i : Instr ι} {d new : ℕ} (hsrcs : ∀ x ∈ i.srcs, x < n)
    (hstart : ∀ x < n, start x = start' x) (h : Agree n s s')
    (hnew : i.isPhi = true → start' new = start d) (hnew' : s'.env new = s.env d) :
  Agree n (execInstr J start prev s i) (execInstr J start' prev s' (i.rewriteSrcs d new))
  := by
  cases i with
  | phi dest srcs =>
      apply agree_phi dest h
      rw [List.find?_map]
      have hsame : ((fun src : ℕ × ℕ => decide (some src.1 = prev)) ∘
          fun src : ℕ × ℕ => (src.1, if src.2 = d then new else src.2)) =
          fun src => decide (some src.1 = prev) := rfl
      rw [hsame]
      cases hfind : srcs.find? fun src => some src.1 = prev with
      | none => rfl
      | some src =>
          simp only [Option.bind_some, Option.map_some]
          split
          · rename_i heq
            rw [heq, hnew rfl]
          · exact hstart _ (hsrcs _ (List.mem_map_of_mem (List.mem_of_find?_eq_some hfind)))
  | op o dests srcs =>
      apply agree_op o dests h
      rw [List.map_map]
      apply List.map_congr_left
      intro x hx
      simp only [Function.comp]
      split
      · rename_i heq
        rw [heq, hnew']
      · exact h.env x (hsrcs x hx)

/-! ### Blocks -/

theorem SameRuns.refl (f : Function ι) : SameRuns f f :=
  fun _ _ _ _ _ _ => ⟨fun s run => ⟨s, run, rfl, fun _ _ => rfl⟩,
    fun s run => ⟨s, run, rfl, fun _ _ => rfl⟩⟩

section Blocks

variable {L : Loop} {f : Function ι} {d : ℕ} {q₀ : ℕ × ℕ} {j₀ : Instr ι}

theorem agree_foldl {is : List (Instr ι)} (hsrcs : ∀ i ∈ is, ∀ x ∈ i.srcs, x < n)
    (hstart : ∀ x < n, start x = start' x) (h : Agree n s s') :
  Agree n (is.foldl (execInstr J start prev) s) (is.foldl (execInstr J start' prev) s')
  := by
  induction is generalizing s s' with
  | nil => exact h
  | cons i is ih =>
      have first := @agree_execInstr _ _ _ J _ _ prev _ _ _ _ (hsrcs i List.mem_cons_self) hstart h
      exact ih (fun i hi => hsrcs i (List.mem_cons_of_mem _ hi)) first

/-- The instructions of a block outside, when the def and the new phi have the same value. -/
theorem agree_foldl_outside (J : Meaning ι V M) (prev : Option ℕ) {is : List (Instr ι)}
    {new b : ℕ} (hsrcs : ∀ i ∈ is, ∀ x ∈ i.srcs, x < n) (hdests : ∀ i ∈ is, d ∉ i.dests ∧ new ∉ i.dests)
    (hstart : ∀ x < n, start x = start' x) (hnew : b ≠ L.after → start' new = start d)
    (h : Agree n s s') (hnew' : s'.env new = s.env d) :
  Agree n (is.foldl (execInstr J start prev) s)
      ((is.map (rewriteOutside L d new b)).foldl (execInstr J start' prev) s') ∧
    ((is.map (rewriteOutside L d new b)).foldl (execInstr J start' prev) s').env new =
      (is.foldl (execInstr J start prev) s).env d
  := by
  induction is generalizing s s' with
  | nil => exact ⟨h, hnew'⟩
  | cons i is ih =>
      have first : Agree n (execInstr J start prev s i)
          (execInstr J start' prev s' (rewriteOutside L d new b i)) := by
        unfold rewriteOutside
        split
        · exact agree_execInstr (hsrcs i List.mem_cons_self) hstart h
        · rename_i hout
          rw [not_or, not_and] at hout
          exact agree_execInstr_rewrite (hsrcs i List.mem_cons_self) hstart h
            (fun hphi => hnew (hout.1 hphi)) hnew'
      obtain ⟨hd, hn⟩ := hdests i List.mem_cons_self
      apply ih (fun i hi => hsrcs i (List.mem_cons_of_mem _ hi))
        (fun i hi => hdests i (List.mem_cons_of_mem _ hi)) first
      rw [execInstr_of_notMem hd, execInstr_of_notMem (by rw [dests_rewriteOutside]; exact hn)]
      exact hnew'

theorem find?_eq_of_mem {l : List ℕ} {a : ℕ} (h : a ∈ l) :
  (l.find? fun x => decide (some x = some a)) = some a
  := by
  cases hfind : l.find? fun x => decide (some x = some a) with
  | none =>
      have hnone := List.find?_eq_none.mp hfind a h
      simp at hnone
  | some x =>
      have hx := List.find?_some hfind
      rw [decide_eq_true_eq] at hx
      exact hx

/-- After a block, the functions agree, and outside of the loop the new phi has the value of the
def. -/
structure Sim (L : Loop) (f : Function ι) (d b : ℕ) (s s' : State V M) : Prop where
  agree : Agree f.ssaAlloc s s'
  phi : b < f.impl.numBlocks → ¬L.Contains b → s'.env f.ssaAlloc = s.env d

variable (h : f.WellFormed) (hd : DefIn f L d q₀ j₀) (used : usedOutside L f d = true)

include h hd used

/-- A block that is entered with the same values. -/
theorem sim_execBlock {b : ℕ} (hs : Agree f.ssaAlloc s s')
    (hout : ¬L.Contains b → b < f.impl.numBlocks → b ≠ L.after →
      s'.env f.ssaAlloc = s.env d)
    (hafter : b = L.after → ∃ a, prev = some a ∧ a ∈ f.impl.predecessors L.after) :
  Sim L f d b (f.execBlock J prev s b) ((convertLoopExitForSsa L f d).execBlock J prev s' b)
  := by
  have hmem : ∀ {i}, i ∈ f.instrs b → ∃ k, f.At (b, k) i := fun hi => List.getElem?_of_mem hi
  have hsrcs : ∀ i ∈ f.instrs b, ∀ x ∈ i.srcs, x < f.ssaAlloc := by
    intro i hi x hx
    obtain ⟨k, hk⟩ := hmem hi
    obtain ⟨q, j, hq, hxj⟩ := h.src_defined hk hx
    exact h.dest_lt hq hxj
  unfold Function.execBlock
  rw [convert_instrs used]
  by_cases hb : L.Contains b
  case pos =>
    have hne : b ≠ L.after := fun heq => Nat.lt_irrefl _ (heq ▸ hb.2)
    have hsame : (f.instrs b).map (rewriteOutside L d f.ssaAlloc b) = f.instrs b := by
      rw [List.map_congr_left (g := id), List.map_id]
      intro i _
      unfold rewriteOutside
      rw [if_pos (Or.inr hb)]
      rfl
    rw [if_neg hne, List.nil_append, hsame]
    exact ⟨agree_foldl hsrcs hs.env hs, fun _ hnot => absurd hb hnot⟩
  case neg =>
    have hdests : ∀ i ∈ f.instrs b, d ∉ i.dests ∧ f.ssaAlloc ∉ i.dests := by
      intro i hi
      obtain ⟨k, hk⟩ := hmem hi
      refine ⟨fun hx => ?_, fun hx => absurd (h.dest_lt hk hx) (Nat.lt_irrefl _)⟩
      have heq := h.unique hk hd.def_at hx hd.dest
      apply hb
      have hc := hd.contains
      rw [← heq] at hc
      exact hc
    by_cases hab : b = L.after
    case pos =>
      -- the new phi takes on the value of the def
      obtain ⟨a, rfl, ha⟩ := hafter hab
      rw [if_pos hab, List.singleton_append, List.foldl_cons]
      have hfind : ((f.impl.predecessors L.after).map (·, d)).find?
          (fun src => decide (some src.1 = some a)) = some (a, d) := by
        rw [List.find?_map]
        have hfirst := find?_eq_of_mem ha
        simp only [Function.comp_def, hfirst, Option.map_some]
      let s₁ := execInstr J s'.env (some a) s' (exitPhi L f d)
      have henv : s₁.env = Function.update s'.env f.ssaAlloc (s'.env d) := by
        simp only [s₁, exitPhi, execInstr, hfind, Option.bind_some]
      have hs₁ : Agree f.ssaAlloc s s₁ := by
        refine ⟨hs.mem, fun x hx => ?_⟩
        rw [henv, Function.update_of_ne hx.ne]
        exact hs.env x hx
      have hnew₁ : s₁.env f.ssaAlloc = s.env d := by
        rw [henv, Function.update_self]
        exact (hs.env d (h.dest_lt hd.def_at hd.dest)).symm
      have both := agree_foldl_outside J (some a) (L := L) (b := b) hsrcs hdests hs.env
        (fun hne => absurd hab hne) hs₁ hnew₁
      exact ⟨both.1, fun _ _ => both.2⟩
    case neg =>
      rw [if_neg hab, List.nil_append]
      by_cases hlt : b < f.impl.numBlocks
      case pos =>
        have hnew := hout hb hlt hab
        have both := agree_foldl_outside J prev (L := L) (b := b) hsrcs hdests hs.env
          (fun _ => hnew) hs hnew
        exact ⟨both.1, fun _ _ => both.2⟩
      case neg =>
        -- the end block has no instructions
        have hnil : f.instrs b = [] := by
          apply List.eq_nil_iff_forall_not_mem.mpr
          intro i hi
          obtain ⟨k, hk⟩ := hmem hi
          exact hlt (h.block_lt hk)
        rw [hnil]
        exact ⟨hs, fun hlt' => absurd hlt' hlt⟩

omit hd in
/-- Both functions choose the same next blocks. -/
theorem Sim.chooses_iff {b c : ℕ} (hs : Sim L f d b s s') (hlt : b < f.impl.numBlocks) :
  f.Chooses J s b c ↔ (convertLoopExitForSsa L f d).Chooses J s' b c
  := by
  unfold Function.Chooses
  rw [convert_impl, convert_cond used]
  split
  · rename_i hin
    have hvalue := hs.phi hlt hin.2
    simp only [hin.1, Option.some.injEq, forall_eq', hvalue]
  · apply forall_congr'
    intro x
    apply forall_congr'
    intro hcond
    obtain ⟨q, j, hq, hx⟩ := h.cond_defined hcond
    rw [hs.agree.env x (h.dest_lt hq hx)]

/-- The next block. -/
theorem Sim.step {b c : ℕ} (hs : Sim L f d b s s') (hedge : f.impl.Edge b c) :
  Sim L f d c (f.execBlock J (some b) s c)
    ((convertLoopExitForSsa L f d).execBlock J (some b) s' c)
  := by
  apply sim_execBlock h hd used hs.agree
  · intro hc hlt hne
    apply hs.phi hedge.lt
    -- the block before is outside too
    intro hb
    rcases (FunctionImpl.loop_leftAt hd.loop).leave hedge hb hc with heq | heq
    · exact hne heq
    · exact absurd hlt (by rw [heq]; exact Nat.lt_irrefl _)
  · rintro rfl
    exact ⟨b, rfl, hedge⟩

theorem sim_start (mem : M) :
  Sim L f d 0 (f.execBlock J none ⟨fun _ => none, mem⟩ 0)
    ((convertLoopExitForSsa L f d).execBlock J none ⟨fun _ => none, mem⟩ 0)
  := by
  apply sim_execBlock h hd used ⟨rfl, fun _ _ => rfl⟩
  · exact fun _ _ _ => rfl
  · intro heq
    simp only [CfLoop.after] at heq
    omega

/-- Runs correspond step by step. -/
theorem runs_convert {mem : M} {b : ℕ} {l : List ℕ} (run : f.Runs J mem b l s) :
  ∃ s', (convertLoopExitForSsa L f d).Runs J mem b l s' ∧ Sim L f d b s s'
  := by
  induction run with
  | start => exact ⟨_, .start, sim_start h hd used mem⟩
  | step _ edge chooses ih =>
      obtain ⟨s', run', hs⟩ := ih
      refine ⟨_, run'.step ?_ ?_, hs.step h hd used edge⟩
      · rw [convert_impl]
        exact edge
      · exact (hs.chooses_iff h used edge.lt).mp chooses

theorem runs_of_convert {mem : M} {b : ℕ} {l : List ℕ}
    (run : (convertLoopExitForSsa L f d).Runs J mem b l s') :
  ∃ s, f.Runs J mem b l s ∧ Sim L f d b s s'
  := by
  induction run with
  | start => exact ⟨_, .start, sim_start h hd used mem⟩
  | step _ edge chooses ih =>
      obtain ⟨s, run', hs⟩ := ih
      rw [convert_impl] at edge
      exact ⟨_, run'.step edge ((hs.chooses_iff h used edge.lt).mpr chooses),
        hs.step h hd used edge⟩

omit used in
theorem sameRuns_convert :
  SameRuns f (convertLoopExitForSsa L f d)
  := by
  by_cases used : usedOutside L f d = true
  case neg =>
    rw [convert_of_not used]
    exact .refl f
  case pos =>
    intro V M J mem b l
    constructor
    · intro s run
      obtain ⟨s', run', hs⟩ := runs_convert h hd used run
      exact ⟨s', run', hs.agree⟩
    · intro s' run'
      obtain ⟨s, run, hs⟩ := runs_of_convert h hd used run'
      exact ⟨s, run, hs.agree⟩

end Blocks

theorem Agree.trans {m : ℕ} {s s' s'' : State V M} (hs : Agree m s s') (hs' : Agree n s' s'')
    (hle : m ≤ n) :
  Agree m s s''
  := ⟨hs.mem.trans hs'.mem, fun x hx => (hs.env x hx).trans (hs'.env x (hx.trans_le hle))⟩

theorem SameRuns.trans {f f' f'' : Function ι} (h : SameRuns f f') (h' : SameRuns f' f'')
    (hle : f.ssaAlloc ≤ f'.ssaAlloc) :
  SameRuns f f''
  := by
  intro V M J mem b l
  constructor
  · intro s run
    obtain ⟨s', run', hs⟩ := (h V M J mem b l).1 s run
    obtain ⟨s'', run'', hs'⟩ := (h' V M J mem b l).1 s' run'
    exact ⟨s'', run'', hs.trans hs' hle⟩
  · intro s'' run''
    obtain ⟨s', run', hs'⟩ := (h' V M J mem b l).2 s'' run''
    obtain ⟨s, run, hs⟩ := (h V M J mem b l).2 s' run'
    exact ⟨s, run, hs.trans hs' hle⟩

end Lcssa

end Nir
