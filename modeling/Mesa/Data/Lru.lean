import Mathlib.Data.List.Perm.Basic

/-!
# Bounded maps that forget what was used least recently

The pairs of such a map are a list, from the one that was used last to the one that was used least
recently.  A pair that is put into the map may take the place of the last pair of the list; it has to
when the map is full.  Keys are compared with a function that need not be equality.
-/

namespace Lru

variable {K V : Type}

/-- What can be done with a map. -/
inductive Op (K V : Type) where
  | set (key : K) (value : V)
  | get (key : K)
  | remove (key : K)
  | clear

variable (eq : K → K → Bool)

/-- The pair of a key. -/
def find (key : K) (l : List (K × V)) : Option (K × V) := l.find? fun p => eq key p.1

/-- The pairs of a key. -/
def having (key : K) (l : List (K × V)) : List (K × V) := l.filter fun p => eq key p.1

/-- The pairs of other keys. -/
def without (key : K) (l : List (K × V)) : List (K × V) := l.filter fun p => !eq key p.1

/-- An operation on a map, with what is returned, and the pairs that are taken out of the map. -/
inductive Step (capacity : ℕ) :
    List (K × V) → Op K V → Option V → List (K × V) → List (K × V) → Prop where
  /-- a pair that is found was used last -/
  | get (l : List (K × V)) (key : K) :
    Step capacity l (.get key) ((find eq key l).map Prod.snd) []
      ((find eq key l).toList ++ without eq key l)
  | remove (l : List (K × V)) (key : K) :
    Step capacity l (.remove key) none (having eq key l) (without eq key l)
  | clear (l out : List (K × V)) (perm : out.Perm l) : Step capacity l .clear none out []
  /-- a pair takes the place of that of its key -/
  | set (l : List (K × V)) (key : K) (value : V) (room : l.length < capacity) :
    Step capacity l (.set key value) none (having eq key l) ((key, value) :: without eq key l)
  /-- a pair also takes the place of the one that was used least recently -/
  | evict (l : List (K × V)) (last : K × V) (key : K) (value : V) :
    Step capacity (l ++ [last]) (.set key value) none (last :: having eq key l)
      ((key, value) :: without eq key l)

/-- A sequence of operations. -/
inductive Run (capacity : ℕ) :
    List (K × V) → List (Op K V) → List (Option V) → List (K × V) → List (K × V) → Prop where
  | nil (l : List (K × V)) : Run capacity l [] [] [] l
  | cons {l l' l'' : List (K × V)} {op : Op K V} {ops : List (Op K V)} {result : Option V}
    {results : List (Option V)} {out outs : List (K × V)} (step : Step eq capacity l op result out l')
    (run : Run capacity l' ops results outs l'') :
    Run capacity l (op :: ops) (result :: results) (out ++ outs) l''

variable {eq}

/-! ### Pairs of a key -/

/-- Keys without a pair. -/
theorem without_eq_self {key : K} {l : List (K × V)} (none : ∀ p ∈ l, eq key p.1 = false) :
  without eq key l = l ∧ having eq key l = []
  := by
  constructor
  · apply List.filter_eq_self.2
    intro p mem
    rw [none p mem]
    rfl
  · apply List.filter_eq_nil_iff.2
    intro p mem
    rw [none p mem]
    exact Bool.false_ne_true

/-- A key with one pair. -/
theorem without_append_cons {key : K} {before after : List (K × V)} (pair : K × V)
    (here : eq key pair.1 = true)
    (elsewhere : ∀ p ∈ before ++ after, eq key p.1 = false) :
  without eq key (before ++ pair :: after) = before ++ after
    ∧ having eq key (before ++ pair :: after) = [pair]
    ∧ find eq key (before ++ pair :: after) = some pair
  := by
  obtain ⟨before_self, before_nil⟩ :=
    without_eq_self fun p mem => elsewhere p (List.mem_append_left after mem)
  obtain ⟨after_self, after_nil⟩ :=
    without_eq_self fun p mem => elsewhere p (List.mem_append_right before mem)
  unfold without having at *
  refine ⟨?_, ?_, ?_⟩
  · rw [List.filter_append, List.filter_cons_of_neg (by rw [here]; exact Bool.false_ne_true),
      before_self, after_self]
  · rw [List.filter_append, List.filter_cons_of_pos (p := fun p : K × V => eq key p.1) here, before_nil, after_nil]
    rfl
  · unfold find
    rw [List.find?_append, List.find?_eq_none.2, Option.none_or, List.find?_cons_of_pos (p := fun p : K × V => eq key p.1) here]
    intro p mem
    rw [elsewhere p (List.mem_append_left after mem)]
    exact Bool.false_ne_true

theorem find_eq_none {key : K} {l : List (K × V)} (nowhere : ∀ p ∈ l, eq key p.1 = false) :
  find eq key l = none
  := by
  apply List.find?_eq_none.2
  intro p mem
  rw [nowhere p mem]
  exact Bool.false_ne_true

/-! ### Runs -/

/-- What is returned for a key. -/
theorem Step.result_of_get {capacity : ℕ} {l l' out : List (K × V)} {key : K} {result : Option V}
    (step : Step eq capacity l (.get key) result out l') :
  result = (find eq key l).map Prod.snd
  := by
  cases step
  rfl

/-- A pair that is put into a map is in it. -/
theorem Step.mem_of_set {capacity : ℕ} {l l' out : List (K × V)} {key : K} {value : V}
    {result : Option V} (step : Step eq capacity l (.set key value) result out l') :
  (key, value) ∈ l'
  := by
  cases step with
  | set => exact List.mem_cons_self
  | evict => exact List.mem_cons_self

/-- No key has two pairs. -/
def Distinct (eq : K → K → Bool) (l : List (K × V)) : Prop :=
  l.Pairwise fun p q => eq p.1 q.1 = false

section

variable (symm : ∀ k k', eq k k' = true → eq k' k = true)
variable (trans : ∀ k k' k'', eq k k' = true → eq k' k'' = true → eq k k'' = true)

include symm trans

omit symm in
/-- In a map, a key has one pair at most. -/
theorem Step.distinct {capacity : ℕ} {l l' out : List (K × V)} {op : Op K V} {result : Option V}
    (step : Step eq capacity l op result out l') (distinct : Distinct eq l) :
  Distinct eq l'
  := by
  have others : ∀ (key : K) (l : List (K × V)), ∀ q ∈ without eq key l, eq key q.1 = false := by
    intro key l q mem
    simpa using (List.mem_filter.1 mem).2
  cases step with
  | get l key =>
    cases found : find eq key l with
    | none => exact distinct.sublist List.filter_sublist
    | some p =>
      apply List.Pairwise.cons _ (distinct.sublist List.filter_sublist)
      intro q mem
      have here : eq key p.1 = true := List.find?_some (p := fun p : K × V => eq key p.1) found
      apply Bool.eq_false_iff.2
      intro same
      have there := others key l q mem
      rw [trans _ _ _ here same] at there
      cases there
  | remove l key => exact distinct.sublist List.filter_sublist
  | clear l out perm => exact .nil
  | set l key value room =>
    exact List.Pairwise.cons (others key l) (distinct.sublist List.filter_sublist)
  | evict l last key value =>
    apply List.Pairwise.cons (others key l)
    exact (distinct.sublist (List.sublist_append_left l [last])).sublist List.filter_sublist

/-- Whether an operation leaves the pair of a key in the map, if it is not the one that was used
least recently. -/
def Op.Keeps (eq : K → K → Bool) (key : K) : Op K V → Prop
  | .set key' _ | .remove key' => eq key' key = false
  | .get _ => True
  | .clear => False

/-- A pair stays in a map until it is taken out. -/
theorem Step.mem_or_out {capacity : ℕ} {l l' out : List (K × V)} {op : Op K V} {result : Option V}
    (step : Step eq capacity l op result out l') (distinct : Distinct eq l) {pair : K × V}
    (mem : pair ∈ l) (keeps : op.Keeps eq pair.1) :
  pair ∈ l' ∨ pair ∈ out
  := by
  have stays : ∀ (key : K) (l : List (K × V)), pair ∈ l → eq key pair.1 = false →
      pair ∈ without eq key l := by
    intro key l mem other
    apply List.mem_filter.2 ⟨mem, _⟩
    rw [other]
    rfl
  cases step with
  | get l key =>
    left
    by_cases here : eq key pair.1 = true
    · obtain ⟨before, after, rfl⟩ := List.append_of_mem mem
      have elsewhere : ∀ p ∈ before ++ after, eq key p.1 = false := by
        intro p other
        apply Bool.eq_false_iff.2
        intro there
        obtain ⟨-, right, apart⟩ := List.pairwise_append.1 distinct
        rcases List.mem_append.1 other with other | other
        · have ne := apart p other pair List.mem_cons_self
          rw [trans _ _ _ (symm _ _ there) here] at ne
          cases ne
        · have ne := (List.pairwise_cons.1 right).1 p other
          rw [trans _ _ _ (symm _ _ here) there] at ne
          cases ne
      rw [(without_append_cons pair here elsewhere).2.2]
      exact List.mem_cons_self
    · exact List.mem_append_right _ (stays key l mem (Bool.eq_false_iff.2 here))
  | remove l key => exact .inl (stays key l mem keeps)
  | clear l out perm => exact .inr (perm.mem_iff.2 mem)
  | set l key value room => exact .inl (List.mem_cons_of_mem _ (stays key l mem keeps))
  | evict l last key value =>
    rcases List.mem_append.1 mem with mem | mem
    · exact .inl (List.mem_cons_of_mem _ (stays key l mem keeps))
    · rw [List.mem_singleton.1 mem]
      exact .inr List.mem_cons_self

/-- A pair stays in a map until it is taken out, in a sequence of operations. -/
theorem Run.mem_or_out {capacity : ℕ} {l l' outs : List (K × V)} {ops : List (Op K V)}
    {results : List (Option V)} (run : Run eq capacity l ops results outs l')
    (distinct : Distinct eq l) {pair : K × V} (mem : pair ∈ l)
    (keeps : ∀ op ∈ ops, op.Keeps eq pair.1) :
  pair ∈ l' ∨ pair ∈ outs
  := by
  induction run with
  | nil l => exact .inl mem
  | cons step run ih =>
    rcases step.mem_or_out symm trans distinct mem (keeps _ List.mem_cons_self) with mem | out
    · have later := ih (step.distinct trans distinct) mem
        fun op mem => keeps op (List.mem_cons_of_mem _ mem)
      exact later.imp_right (List.mem_append_right _)
    · exact .inr (List.mem_append_left _ out)

end

end Lru
