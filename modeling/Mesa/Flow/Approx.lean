import Mesa.Flow.Behaviour
import Mathlib.Order.Basic

/-!
# Approximation of behaviours

Two pieces of code may do the same and yet not need the same number of passes, so that the one
reaches its bound a little later than the other.  To compare them, let the states be ordered by
their histories, so that code only moves up in the order.  Then `f` approximates `g` if `f`
does what `g` does, or reaches its bound at a state that `g` reaches as well.

If each of two behaviours approximates the other, up to a change of the bound, then they
terminate in the same states by the same exits, and when they do not terminate, each gets as
far as the other.
-/

universe u

namespace Flow

variable {S : Type u} [Preorder S]

/-- The outcome `r` is the outcome `r'`, or the bound was reached on the way to it. -/
def Approx (r r' : Exit × S) : Prop := r = r' ∨ r.1 = .stuck ∧ r.2 ≤ r'.2

theorem Approx.refl (r : Exit × S) :
  Approx r r
  := Or.inl rfl

theorem Approx.trans {r r' r'' : Exit × S} (h : Approx r r') (h' : Approx r' r'') :
  Approx r r''
  := by
  obtain rfl | ⟨hr, hle⟩ := h
  · exact h'
  · obtain rfl | ⟨-, hle'⟩ := h'
    · exact Or.inr ⟨hr, hle⟩
    · exact Or.inr ⟨hr, hle.trans hle'⟩

namespace Beh

/-- A behaviour that only moves up. -/
def Grows (f : Beh S) : Prop := ∀ s, s ≤ (f s).2

/-- The behaviour `f` approximates the behaviour `g` in every state. -/
def Below (f g : Beh S) : Prop := ∀ s, Approx (f s) (g s)

theorem Below.refl (f : Beh S) :
  f.Below f
  := fun s => Approx.refl (f s)

theorem Below.trans {f g h : Beh S} (hfg : f.Below g) (hgh : g.Below h) :
  f.Below h
  := fun s => (hfg s).trans (hgh s)

/-! ### Growth -/

theorem grows_leave (e : Exit) :
  (leave e : Beh S).Grows
  := fun s => le_refl s

theorem Grows.seq {f g : Beh S} (hf : f.Grows) (hg : g.Grows) :
  (f.seq g).Grows
  := by
  intro s
  have hs := hf s
  rcases h : f s with ⟨e, s'⟩
  rw [h] at hs
  by_cases he : e = .fall
  · cases he
    rw [seq_of_fall h]
    apply le_trans hs (hg s')
  · rw [seq_of_ne_fall (by simpa [h] using he), h]
    exact hs

theorem Grows.branch {c : S → Bool} {f g : Beh S} (hf : f.Grows) (hg : g.Grows) :
  (branch c f g).Grows
  := by
  intro s
  rw [branch_apply]
  split_ifs
  · apply hf
  · apply hg

theorem Grows.pass {f next : Beh S} (hf : f.Grows) (hnext : next.Grows) :
  (f.pass next).Grows
  := by
  intro s
  have hs := hf s
  rcases h : f s with ⟨e, s'⟩
  rw [h] at hs
  cases e
  case fall | cont =>
    simp only [Beh.pass, h, after]
    apply le_trans hs (hnext s')
  all_goals simpa only [Beh.pass, h, after] using hs

theorem Grows.loop {f : Beh S} (hf : f.Grows) (n : ℕ) :
  (loop n f).Grows
  := by
  induction n with
  | zero => exact grows_leave .stuck
  | succ n ih =>
      intro s
      rw [loop_succ]
      apply hf.pass ih

/-! ### Monotonicity -/

/-- Being stuck at once approximates everything. -/
theorem leave_stuck_below {f : Beh S} (hf : f.Grows) :
  (leave .stuck).Below f
  := fun s => Or.inr ⟨rfl, hf s⟩

theorem Below.seq {f f' g g' : Beh S} (hf : f.Below f') (hg : g.Below g') (hgrows : g'.Grows) :
  (f.seq g).Below (f'.seq g')
  := by
  intro s
  rcases h : f s with ⟨e, t⟩
  rcases h' : f' s with ⟨e', t'⟩
  have hs := hf s
  rw [h, h'] at hs
  obtain heq | ⟨he, hle⟩ := hs
  · cases heq
    by_cases he : e = .fall
    · cases he
      rw [seq_of_fall h, seq_of_fall h']
      apply hg
    · rw [seq_of_ne_fall (by simpa [h] using he), seq_of_ne_fall (by simpa [h'] using he), h, h']
      apply Approx.refl
  · cases he
    rw [seq_of_ne_fall (by simp [h]), h]
    refine Or.inr ⟨rfl, le_trans hle ?_⟩
    by_cases he' : e' = .fall
    · cases he'
      rw [seq_of_fall h']
      apply hgrows
    · rw [seq_of_ne_fall (by simpa [h'] using he'), h']

theorem Below.branch {c : S → Bool} {f f' g g' : Beh S} (hf : f.Below f') (hg : g.Below g') :
  (branch c f g).Below (branch c f' g')
  := by
  intro s
  rw [branch_apply, branch_apply]
  split_ifs
  · apply hf
  · apply hg

theorem Below.pass {f f' next next' : Beh S} (hf : f.Below f') (hnext : next.Below next')
    (hgrows : next'.Grows) :
  (f.pass next).Below (f'.pass next')
  := by
  intro s
  rcases h : f s with ⟨e, t⟩
  rcases h' : f' s with ⟨e', t'⟩
  have hs := hf s
  rw [h, h'] at hs
  obtain heq | ⟨he, hle⟩ := hs
  · cases heq
    cases e
    case fall | cont =>
      simp only [Beh.pass, h, h', after]
      apply hnext
    all_goals simp only [Beh.pass, h, h', after, Approx.refl]
  · cases he
    simp only [Beh.pass, h, h', after]
    refine Or.inr ⟨rfl, le_trans hle ?_⟩
    cases e'
    case fall | cont => apply hgrows
    all_goals exact le_refl t'

/-- With a better body and a higher bound, a loop gets at least as far. -/
theorem Below.loop {f f' : Beh S} (hf : f.Below f') (hgrows : f'.Grows) {n n' : ℕ} (h : n ≤ n') :
  (loop n f).Below (loop n' f')
  := by
  induction n generalizing n' with
  | zero => apply leave_stuck_below (hgrows.loop n')
  | succ n ih =>
      obtain ⟨n', rfl⟩ : ∃ m, n' = m + 1 := ⟨n' - 1, by omega⟩
      intro s
      rw [loop_succ, loop_succ]
      apply hf.pass (ih (by omega)) (hgrows.loop n')

/-! ### Rotation -/

section Rotation

-- `r'` is `r` with `k` moved in front of the back edge.
variable {k r r' : Beh S}
  (hr' : ∀ next, r'.pass next = r.pass (k.pass next)) (hk : ∀ s, (k s).1 ≠ .cont)
include hr'

theorem grows_rotated (hkg : k.Grows) (hrg : r.Grows) (n : ℕ) :
  (loop n r').Grows
  := by
  induction n with
  | zero => exact grows_leave .stuck
  | succ n ih =>
      rw [loop_succ_eq, hr']
      apply hrg.pass (hkg.pass ih)

include hk

/-- The loop over `k; r`, entered after its `k`, makes no more passes than the loop over
`r; k`. -/
theorem pass_loop_below_rotated (hkg : k.Grows) (hrg : r.Grows) (n : ℕ) :
  (r.pass (loop n (k.seq r))).Below (loop (n + 1) r')
  := by
  have hgrows := grows_rotated hr' hkg hrg
  induction n with
  | zero =>
      rw [loop_succ_eq, hr']
      apply (Below.refl r).pass
      · apply leave_stuck_below (hkg.pass (hgrows 0))
      · apply hkg.pass (hgrows 0)
  | succ n ih =>
      rw [loop_succ_eq n, seq_pass_of_ne_cont hk, loop_succ_eq (n + 1), hr']
      apply (Below.refl r).pass
      · apply (Below.refl k).pass ih (hgrows (n + 1))
      · apply hkg.pass (hgrows (n + 1))

/-- The loop over `r; k` gets no further than one more pass of the loop over `k; r`. -/
theorem rotated_below_pass_loop (hkg : k.Grows) (hrg : r.Grows) (n : ℕ) :
  (loop n r').Below (r.pass (loop n (k.seq r)))
  := by
  induction n with
  | zero => apply leave_stuck_below (hrg.pass (grows_leave .stuck))
  | succ n ih =>
      have hgrows : (r.pass (loop n (k.seq r))).Grows := hrg.pass ((hkg.seq hrg).loop n)
      rw [loop_succ_eq n r', hr', loop_succ_eq n, seq_pass_of_ne_cont hk]
      apply (Below.refl r).pass
      · apply (Below.refl k).pass ih hgrows
      · apply hkg.pass hgrows

end Rotation

end Beh

end Flow
