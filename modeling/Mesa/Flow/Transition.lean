import Mathlib.Tactic.Common

/-!
# Transition systems

A system of parties that take steps in any order.  A step is an action that is enabled in a state; a
run is a list of actions, each of which is enabled where it is taken.  Runs may be restricted to
those whose actions all meet a condition in the state in which they are taken.
-/

namespace Flow

variable {σ α : Type}

/-- The state after the actions of a run, if each is enabled. -/
def runActions (step : σ → α → Option σ) (s : σ) : List α → Option σ
  | [] => some s
  | a :: as => (step s a).bind fun s => runActions step s as

/-- All actions of a run meet a condition in the states in which they are taken. -/
def Meets (step : σ → α → Option σ) (ok : σ → α → Prop) (s : σ) : List α → Prop
  | [] => True
  | a :: as => ok s a ∧ ∀ s', step s a = some s' → Meets step ok s' as

/-- Every run meets the condition that is always met. -/
theorem meets_true {step : σ → α → Option σ} {s : σ} (as : List α) :
  Meets step (fun _ _ => True) s as
  := by
  induction as generalizing s with
  | nil => trivial
  | cons a as ih => exact ⟨trivial, fun _ _ => ih⟩

/-- Whether a run meets a condition can be found out by taking its steps. -/
instance decidableMeets (step : σ → α → Option σ) (ok : σ → α → Prop) [∀ s a, Decidable (ok s a)] :
    (s : σ) → (as : List α) → Decidable (Meets step ok s as)
  | _, [] => .isTrue trivial
  | s, a :: as =>
    match h : step s a with
    | none =>
      decidable_of_iff (ok s a) (by simp [Meets, h])
    | some s' =>
      have := decidableMeets step ok s' as
      decidable_of_iff (ok s a ∧ Meets step ok s' as) (by simp [Meets, h])

/-- What holds at first and is kept by every step that meets the condition holds in the end. -/
theorem invariant_of_run {step : σ → α → Option σ} {ok : σ → α → Prop} {I : σ → Prop}
    (keeps : ∀ s a s', I s → ok s a → step s a = some s' → I s') {s s' : σ} {as : List α}
    (init : I s) (meets : Meets step ok s as) (ran : runActions step s as = some s') :
  I s'
  := by
  induction as generalizing s with
  | nil =>
    obtain rfl := Option.some.inj ran
    exact init
  | cons a as ih =>
    obtain ⟨s₁, stepped, rest⟩ := Option.bind_eq_some_iff.1 ran
    exact ih (keeps s a s₁ init meets.1 stepped) (meets.2 s₁ stepped) rest

end Flow
