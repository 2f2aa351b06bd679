import Mathlib.Tactic.Common

/-!
# Behaviours of structured code

A behaviour takes a state to the state in which control leaves the code, together with the
way it leaves: `Beh S` is the type of behaviours over states `S`.  Behaviours are composed
by `seq`, `branch` and `loop`, and these operations satisfy the equations one expects of
sequencing, branching and iterating.

A loop is given a bound on the number of its passes.  A loop that would make more passes
leaves with `Exit.stuck`, which nothing catches, so that the state it carries is the state
reached when the bound ran out.  Two pieces of code that agree at every bound therefore
agree on terminating and on non-terminating runs alike.
-/

universe u v

namespace Flow

/-- How control leaves a piece of code. -/
inductive Exit where
  /-- Off its end. -/
  | fall
  /-- Out of the innermost loop. -/
  | brk
  /-- To the next pass of the innermost loop. -/
  | cont
  /-- Out of the function. -/
  | ret
  /-- Nowhere, the bound on the passes of some loop having been reached. -/
  | stuck
deriving DecidableEq, Repr

/-- A behaviour over states `S`. -/
abbrev Beh (S : Type u) : Type u := S → Exit × S

namespace Beh

variable {S : Type u}

/-- Do nothing. -/
def skip : Beh S := fun s => (.fall, s)

/-- Leave at once by `e`. -/
def leave (e : Exit) : Beh S := fun s => (e, s)

/-- Update the state. -/
def act (f : S → S) : Beh S := fun s => (.fall, f s)

/-- Behave as `f`, and if control falls off its end, go on as `g`. -/
def seq (f g : Beh S) : Beh S := fun s =>
  match f s with
  | (.fall, s') => g s'
  | r => r

/-- Behave as `f` where `c` holds, as `g` where it does not. -/
def branch (c : S → Bool) (f g : Beh S) : Beh S := fun s =>
  if c s then f s else g s

/-- Repeat `body` until it breaks or leaves the loop otherwise, for at most `n` passes. -/
def loop : ℕ → Beh S → Beh S
  | 0, _ => leave .stuck
  | n + 1, body => fun s =>
      match body s with
      | (.fall, s') => loop n body s'
      | (.cont, s') => loop n body s'
      | (.brk, s') => (.fall, s')
      | r => r

/-! ### Equations -/

@[simp]
theorem skip_apply (s : S) :
  skip s = (.fall, s)
  := rfl

@[simp]
theorem leave_apply (e : Exit) (s : S) :
  leave e s = (e, s)
  := rfl

@[simp]
theorem act_apply (f : S → S) (s : S) :
  act f s = (.fall, f s)
  := rfl

theorem branch_apply (c : S → Bool) (f g : Beh S) (s : S) :
  branch c f g s = if c s then f s else g s
  := rfl

/-- Where the first behaviour falls off its end, the second takes over. -/
theorem seq_of_fall {f : Beh S} {s s' : S} (h : f s = (.fall, s')) (g : Beh S) :
  f.seq g s = g s'
  := by
  simp only [seq, h]

/-- Where the first behaviour leaves, the second does not run. -/
theorem seq_of_ne_fall {f : Beh S} {s : S} (h : (f s).1 ≠ .fall) (g : Beh S) :
  f.seq g s = f s
  := by
  unfold seq
  split
  · rename_i heq
    rw [heq] at h
    contradiction
  · rfl

@[simp]
theorem skip_seq (f : Beh S) :
  skip.seq f = f
  := rfl

@[simp]
theorem seq_skip (f : Beh S) :
  f.seq skip = f
  := by
  funext s
  rcases h : f s with ⟨e, s'⟩
  cases e <;> simp [seq, h]

/-- Code after a jump does not run. -/
theorem leave_seq {e : Exit} (h : e ≠ .fall) (f : Beh S) :
  (leave e).seq f = leave e
  := by
  funext s
  apply seq_of_ne_fall h

theorem seq_assoc (f g h : Beh S) :
  (f.seq g).seq h = f.seq (g.seq h)
  := by
  funext s
  rcases hf : f s with ⟨e, s'⟩
  cases e <;> simp [seq, hf]

theorem branch_seq (c : S → Bool) (f g h : Beh S) :
  (branch c f g).seq h = branch c (f.seq h) (g.seq h)
  := by
  funext s
  cases hc : c s <;> simp [seq, branch, hc]

/-- Sequencing only looks at the first behaviour in the state it starts from. -/
theorem seq_congr_left {f f' : Beh S} {s : S} (h : f s = f' s) (g : Beh S) :
  f.seq g s = f'.seq g s
  := by
  simp only [seq, h]

/-- Sequencing only looks at the second behaviour where the first falls off its end. -/
theorem seq_eq_seq_iff {f g g' : Beh S} {s : S} :
  f.seq g s = f.seq g' s ↔ ∀ s', f s = (.fall, s') → g s' = g' s'
  := by
  constructor
  · intro h s' hs'
    rwa [seq_of_fall hs', seq_of_fall hs'] at h
  · intro h
    rcases hf : f s with ⟨e, s'⟩
    cases e
    case fall => rw [seq_of_fall hf, seq_of_fall hf, h s' hf]
    all_goals rw [seq_of_ne_fall (by simp [hf]), seq_of_ne_fall (by simp [hf])]

theorem seq_eq_fall_iff {f g : Beh S} {s s' : S} :
  f.seq g s = (.fall, s') ↔ ∃ t, f s = (.fall, t) ∧ g t = (.fall, s')
  := by
  rcases hf : f s with ⟨e, t⟩
  cases e
  case fall => simp [seq_of_fall hf]
  all_goals
    rw [seq_of_ne_fall (by simp [hf]), hf]
    simp

theorem seq_eq_cont_iff {f g : Beh S} {s s' : S} :
  f.seq g s = (.cont, s') ↔ f s = (.cont, s') ∨ ∃ t, f s = (.fall, t) ∧ g t = (.cont, s')
  := by
  rcases hf : f s with ⟨e, t⟩
  cases e
  case fall => simp [seq_of_fall hf]
  all_goals
    rw [seq_of_ne_fall (by simp [hf]), hf]
    simp

/-- Behave as `f`, `n` times in a row. -/
def iter (f : Beh S) : ℕ → Beh S
  | 0 => skip
  | n + 1 => f.seq (iter f n)

theorem iter_succ (f : Beh S) (n : ℕ) :
  iter f (n + 1) = (iter f n).seq f
  := by
  induction n with
  | zero => simp [iter]
  | succ n ih =>
      calc iter f (n + 2) = f.seq (iter f (n + 1)) := rfl
        _ = f.seq ((iter f n).seq f) := by rw [ih]
        _ = (iter f (n + 1)).seq f := by rw [← seq_assoc, iter]

theorem iter_seq (f g : Beh S) (n : ℕ) :
  (iter (f.seq g) n).seq f = f.seq (iter (g.seq f) n)
  := by
  induction n with
  | zero => simp [iter]
  | succ n ih => simp [iter, seq_assoc, ih]

/-- A behaviour that never leaves by `brk` or `cont`. -/
def Closed (f : Beh S) : Prop := ∀ s, (f s).1 ≠ .brk ∧ (f s).1 ≠ .cont

theorem closed_of_fall {f : Beh S} (h : ∀ s, (f s).1 = .fall) :
  f.Closed
  := by
  intro s
  simp [h s]

theorem Closed.seq {f g : Beh S} (hf : f.Closed) (hg : g.Closed) :
  (f.seq g).Closed
  := by
  intro s
  rcases h : f s with ⟨e, s'⟩
  by_cases he : e = .fall
  · cases he
    rw [seq_of_fall h]
    apply hg
  · rw [seq_of_ne_fall (by simpa [h] using he)]
    apply hf

theorem Closed.branch {c : S → Bool} {f g : Beh S} (hf : f.Closed) (hg : g.Closed) :
  (branch c f g).Closed
  := by
  intro s
  rw [branch_apply]
  split_ifs
  · apply hf
  · apply hg

/-! ### Continuing -/

/-- Behave as `f`, and update the state before continuing. -/
def mapCont (g : S → S) (f : Beh S) : Beh S := fun s =>
  match f s with
  | (.cont, s') => (.cont, g s')
  | r => r

theorem mapCont_of_ne_cont {g : S → S} {f : Beh S} {s : S} (h : (f s).1 ≠ .cont) :
  f.mapCont g s = f s
  := by
  rcases hf : f s with ⟨e, s'⟩
  cases e <;> simp_all [mapCont]

theorem mapCont_of_closed {g : S → S} {f : Beh S} (h : f.Closed) :
  f.mapCont g = f
  := by
  funext s
  apply mapCont_of_ne_cont (h s).2

theorem mapCont_seq (g : S → S) (f f' : Beh S) :
  (f.seq f').mapCont g = (f.mapCont g).seq (f'.mapCont g)
  := by
  funext s
  rcases h : f s with ⟨e, s'⟩
  cases e <;> simp [mapCont, Beh.seq, h]

theorem mapCont_branch (g : S → S) (c : S → Bool) (f f' : Beh S) :
  (Beh.branch c f f').mapCont g = Beh.branch c (f.mapCont g) (f'.mapCont g)
  := by
  funext s
  simp only [mapCont, branch_apply]
  split_ifs <;> rfl

/-! ### Loops -/

/-- What a loop does after a pass that ended as `r`, with `next` for the passes to come. -/
@[simp]
def after (next : Beh S) : Exit × S → Exit × S
  | (.fall, s') => next s'
  | (.cont, s') => next s'
  | (.brk, s') => (.fall, s')
  | r => r

theorem loop_zero (body : Beh S) (s : S) :
  loop 0 body s = (.stuck, s)
  := rfl

theorem loop_succ (n : ℕ) (body : Beh S) (s : S) :
  loop (n + 1) body s = after (loop n body) (body s)
  := by
  rcases h : body s with ⟨e, s'⟩
  cases e <;> simp [loop, after, h]

/-- A loop never leaves by `brk` or `cont`: it catches both. -/
theorem loop_exit (n : ℕ) (body : Beh S) (s : S) :
  (loop n body s).1 = .fall ∨ (loop n body s).1 = .ret ∨ (loop n body s).1 = .stuck
  := by
  induction n generalizing s with
  | zero => simp [loop_zero]
  | succ n ih =>
      rw [loop_succ]
      rcases h : body s with ⟨e, s'⟩
      cases e <;> simp [after, ih]

/-- A loop whose body never breaks does not fall off its end. -/
theorem loop_ne_fall {body : Beh S} (h : ∀ s, (body s).1 ≠ .brk) (n : ℕ) (s : S) :
  (loop n body s).1 ≠ .fall
  := by
  induction n generalizing s with
  | zero => simp [loop_zero]
  | succ n ih =>
      rw [loop_succ]
      have hs := h s
      rcases hb : body s with ⟨e, s'⟩
      rw [hb] at hs
      cases e <;> simp_all [after]

/-- A loop whose body never returns does not return. -/
theorem loop_ne_ret {body : Beh S} (h : ∀ s, (body s).1 ≠ .ret) (n : ℕ) (s : S) :
  (loop n body s).1 ≠ .ret
  := by
  induction n generalizing s with
  | zero => simp [loop_zero]
  | succ n ih =>
      rw [loop_succ]
      have hs := h s
      rcases hb : body s with ⟨e, s'⟩
      rw [hb] at hs
      cases e <;> simp_all [after]

theorem closed_loop (n : ℕ) (body : Beh S) :
  (loop n body).Closed
  := by
  intro s
  rcases loop_exit n body s with h | h | h <;> simp [h]

/-- A pass of a loop with body `f`, and then `next`. -/
def pass (f next : Beh S) : Beh S := fun s => after next (f s)

theorem pass_of_closed {f : Beh S} (hf : f.Closed) (next : Beh S) :
  f.pass next = f.seq next
  := by
  funext s
  have hs := hf s
  rcases h : f s with ⟨e, s'⟩
  cases e <;> simp_all [pass, after, Beh.seq]

theorem pass_seq {f : Beh S} (hf : f.Closed) (g next : Beh S) :
  (f.seq g).pass next = f.seq (g.pass next)
  := by
  funext s
  have hs := hf s
  rcases h : f s with ⟨e, s'⟩
  cases e <;> simp_all [pass, after, Beh.seq]

theorem seq_pass_of_ne_cont {k : Beh S} (hk : ∀ s, (k s).1 ≠ .cont) (r next : Beh S) :
  (k.seq r).pass next = k.pass (r.pass next)
  := by
  funext s
  have hs := hk s
  rcases h : k s with ⟨e, s'⟩
  cases e <;> simp_all [Beh.pass, after, Beh.seq]

theorem loop_succ_eq (n : ℕ) (body : Beh S) :
  loop (n + 1) body = body.pass (loop n body)
  := by
  funext s
  apply loop_succ

theorem pass_branch (c : S → Bool) (f g next : Beh S) :
  (branch c f g).pass next = branch c (f.pass next) (g.pass next)
  := by
  funext s
  simp only [pass, branch_apply]
  split_ifs <;> rfl

/-- A pass only looks at what comes next where it falls off its end or continues. -/
theorem pass_congr {f next next' : Beh S} {s : S}
    (h : ∀ s', f s = (.fall, s') ∨ f s = (.cont, s') → next s' = next' s') :
  f.pass next s = f.pass next' s
  := by
  rcases hf : f s with ⟨e, s'⟩
  have hs' := h s'
  cases e <;> simp_all [pass, after]

/-- A pass that ends in a break ends the loop. -/
theorem pass_seq_brk {f : Beh S} (hf : f.Closed) (next : Beh S) :
  (f.seq (leave .brk)).pass next = f
  := by
  rw [pass_seq hf]
  apply seq_skip

/-- A pass may as well fall off its end as continue there. -/
theorem pass_seq_cont (f next : Beh S) :
  (f.seq (leave .cont)).pass next = f.pass next
  := by
  funext s
  rcases h : f s with ⟨e, s'⟩
  cases e <;> simp [pass, after, Beh.seq, h]

/-- A loop only looks at its body in the states that satisfy an invariant. -/
theorem loop_eq_of_invariant {f g : Beh S} {P : S → Prop} (heq : ∀ s, P s → f s = g s)
    (hstep : ∀ s s', f s = (.fall, s') ∨ f s = (.cont, s') → P s') (n : ℕ) {s : S} (hs : P s) :
  loop n f s = loop n g s
  := by
  induction n generalizing s with
  | zero => rfl
  | succ n ih =>
      rw [loop_succ_eq, loop_succ_eq]
      calc f.pass (loop n f) s = f.pass (loop n g) s := by
            apply pass_congr
            intro s' hs'
            apply ih (hstep s s' hs')
        _ = g.pass (loop n g) s := by simp only [pass, heq s hs]

/-- The passes of a loop, unrolled.  Let `At k s` say that pass `k` may start in state `s`,
and let `U j` be what is left of the loop when it has `j` passes to complete.  If the pass
with nothing left to complete ends the loop, and each pass before it goes on to the next, then
the loop does what `U` does, provided its bound exceeds the number of passes. -/
theorem loop_eq_unrolled {body : Beh S} {U : ℕ → Beh S} {At : ℕ → S → Prop} {m : ℕ}
    (hlast : ∀ s next, At m s → body.pass next s = U 0 s)
    (hstep : ∀ k j s next, k + (j + 1) = m → At k s →
      (∀ s', At (k + 1) s' → next s' = U j s') → body.pass next s = U (j + 1) s)
    {j k n : ℕ} {s : S} (hm : k + j = m) (hs : At k s) (hn : j < n) :
  loop n body s = U j s
  := by
  induction j generalizing k n s with
  | zero =>
      obtain ⟨n, rfl⟩ : ∃ n', n = n' + 1 := ⟨n - 1, by omega⟩
      rw [loop_succ]
      apply hlast
      rwa [← hm]
  | succ j ih =>
      obtain ⟨n, rfl⟩ : ∃ n', n = n' + 1 := ⟨n - 1, by omega⟩
      rw [loop_succ]
      apply hstep k j s _ hm hs
      intro s' hs'
      apply ih (by omega) hs' (by omega)

/-! ### Relations between states -/

/-- A behaviour leaves in a state that is related to the one it started from. -/
def Keeps (R : S → S → Prop) (f : Beh S) : Prop := ∀ s, R s (f s).2

theorem Keeps.seq {R : S → S → Prop} (htrans : ∀ s s' s'', R s s' → R s' s'' → R s s'')
    {f g : Beh S} (hf : f.Keeps R) (hg : g.Keeps R) :
  (f.seq g).Keeps R
  := by
  intro s
  have hs := hf s
  rcases h : f s with ⟨e, s'⟩
  rw [h] at hs
  by_cases he : e = .fall
  · cases he
    rw [seq_of_fall h]
    apply htrans _ _ _ hs (hg s')
  · rw [seq_of_ne_fall (by simpa [h] using he), h]
    exact hs

theorem Keeps.branch {R : S → S → Prop} {c : S → Bool} {f g : Beh S} (hf : f.Keeps R)
    (hg : g.Keeps R) :
  (branch c f g).Keeps R
  := by
  intro s
  rw [branch_apply]
  split_ifs
  · apply hf
  · apply hg

theorem Keeps.loop {R : S → S → Prop} (hrefl : ∀ s, R s s)
    (htrans : ∀ s s' s'', R s s' → R s' s'' → R s s'') {body : Beh S} (h : body.Keeps R) (n : ℕ) :
  (loop n body).Keeps R
  := by
  induction n with
  | zero =>
      intro s
      apply hrefl
  | succ n ih =>
      intro s
      have hs := h s
      rw [loop_succ]
      rcases hb : body s with ⟨e, s'⟩
      rw [hb] at hs
      cases e
      case fall => apply htrans _ _ _ hs (ih s')
      case cont => apply htrans _ _ _ hs (ih s')
      all_goals exact hs

/-- A pass of a loop with body `body` that is entered in the first state may start in the second
one. -/
inductive Passes (body : Beh S) (s : S) : S → Prop where
  | first : Passes body s s
  | next {s' s'' : S} (h : Passes body s s') (hs' : body s' = (.fall, s'') ∨ body s' = (.cont, s'')) :
      Passes body s s''

theorem Passes.after_first {body : Beh S} {s s' s'' : S} (h : Passes body s' s'')
    (hs : body s = (.fall, s') ∨ body s = (.cont, s')) :
  Passes body s s''
  := by
  induction h with
  | first => exact Passes.first.next hs
  | next _ hstep ih => exact ih.next hstep

/-- Bodies that agree where passes start start passes in the same states. -/
theorem Passes.congr {f g : Beh S} {s s' : S} (h : ∀ t, f.Passes s t → f t = g t)
    (hs' : g.Passes s s') :
  f.Passes s s'
  := by
  induction hs' with
  | first => exact Passes.first
  | next _ hstep ih =>
      rw [← h _ ih] at hstep
      exact ih.next hstep

/-- Loops whose bodies agree where passes start do the same. -/
theorem loop_eq_of_passes {f g : Beh S} (n : ℕ) {s : S} (h : ∀ t, f.Passes s t → f t = g t) :
  loop n f s = loop n g s
  := by
  induction n generalizing s with
  | zero => rfl
  | succ n ih =>
      rw [loop_succ_eq, loop_succ_eq]
      calc f.pass (loop n f) s = f.pass (loop n g) s := by
            apply pass_congr
            intro s' hs'
            apply ih
            intro t ht
            exact h t (ht.after_first hs')
        _ = g.pass (loop n g) s := by simp only [pass, h s Passes.first]

/-- The states in which passes start are related to the one in which the loop is entered. -/
theorem Keeps.passes {R : S → S → Prop} (hrefl : ∀ s, R s s)
    (htrans : ∀ s s' s'', R s s' → R s' s'' → R s s'') {body : Beh S} (h : body.Keeps R) {s s' : S}
    (hs' : body.Passes s s') :
  R s s'
  := by
  induction hs' with
  | first => apply hrefl
  | @next s' s'' hpasses hs' ih =>
      apply htrans _ _ _ ih
      have hstep := h s'
      rcases hs' with hs' | hs'
      · rwa [hs'] at hstep
      · rwa [hs'] at hstep

end Beh

end Flow
