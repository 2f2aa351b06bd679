import Mathlib.Data.List.Basic

/-!
# A walk with a stack of open elements

The elements of a list are looked at one after the other.  Those that do not cover the current
element are popped from a stack, which leaves the nearest element that covers it, and the two are
compared; then the current element is pushed.  If covering is transitive and a clash with an element
goes down to all that is between, then the walk finds out whether two elements clash of which the
first covers all up to the second one.
-/

namespace Data.Nesting

variable {α : Type*} (cov clash : α → α → Bool)

/-- The elements that do not cover the current one are popped. -/
def pop (c : α) (stack : List α) : List α := stack.dropWhile (fun d => !cov d c)

/-- The current element clashes with the top of a stack. -/
def meets (c : α) : List α → Bool
  | [] => false
  | d :: _ => clash c d

/-- The walk. -/
def scan : List α → List α → Bool
  | [], _ => false
  | c :: m, stack => meets clash c (pop cov c stack) || scan m (c :: pop cov c stack)

/-- An element of the list clashes with `q`, and `q` covers all up to it. -/
def Reaches (q : α) (m : List α) : Prop :=
  ∃ l w r, m = l ++ w :: r ∧ (∀ y ∈ l, cov q y) ∧ cov q w ∧ clash w q

/-- An element of the list clashes with a later one, and covers all up to it. -/
def Exposed (m : List α) : Prop := ∃ l q r, m = l ++ q :: r ∧ Reaches cov clash q r

section Cons

variable {cov clash}

theorem reaches_cons_iff {q c : α} {m : List α} :
  Reaches cov clash q (c :: m) ↔ cov q c ∧ (clash c q ∨ Reaches cov clash q m)
  := by
  constructor
  · rintro ⟨l, w, r, heq, hl, hw, hclash⟩
    cases l with
    | nil =>
        obtain ⟨rfl, rfl⟩ := List.cons.inj heq
        exact ⟨hw, Or.inl hclash⟩
    | cons y l =>
        obtain ⟨rfl, rfl⟩ := List.cons.inj heq
        use hl c List.mem_cons_self
        right
        exact ⟨l, w, r, rfl, fun z hz => hl z (List.mem_cons_of_mem _ hz), hw, hclash⟩
  · rintro ⟨hc, hclash | ⟨l, w, r, rfl, hl, hw, hclash⟩⟩
    · exact ⟨[], c, m, rfl, fun y hy => absurd hy List.not_mem_nil, hc, hclash⟩
    · have hcons : ∀ y ∈ c :: l, cov q y := by
        intro y hy
        rcases List.mem_cons.mp hy with rfl | hy
        · exact hc
        · exact hl y hy
      exact ⟨c :: l, w, r, rfl, hcons, hw, hclash⟩

theorem exposed_cons_iff {c : α} {m : List α} :
  Exposed cov clash (c :: m) ↔ Reaches cov clash c m ∨ Exposed cov clash m
  := by
  constructor
  · rintro ⟨l, q, r, heq, hreach⟩
    cases l with
    | nil =>
        obtain ⟨rfl, rfl⟩ := List.cons.inj heq
        exact Or.inl hreach
    | cons y l =>
        obtain ⟨rfl, rfl⟩ := List.cons.inj heq
        exact Or.inr ⟨l, q, r, rfl, hreach⟩
  · rintro (hreach | ⟨l, q, r, rfl, hreach⟩)
    · exact ⟨[], c, m, rfl, hreach⟩
    · exact ⟨c :: l, q, r, rfl, hreach⟩

theorem not_reaches_nil {q : α} :
  ¬Reaches cov clash q []
  := by
  rintro ⟨l, w, r, heq, -⟩
  exact List.append_ne_nil_of_right_ne_nil l (List.cons_ne_nil w r) heq.symm

theorem not_exposed_nil :
  ¬Exposed cov clash []
  := by
  rintro ⟨l, q, r, heq, -⟩
  exact List.append_ne_nil_of_right_ne_nil l (List.cons_ne_nil q r) heq.symm

end Cons

/-- In the order `R` of the elements covering is transitive, and an element that clashes with one
that it covers clashes with all between the two that cover the second. -/
structure Nests (R : α → α → Prop) : Prop where
  trans : ∀ {q p c}, R q p → R p c → cov q p → cov p c → cov q c
  clash : ∀ {q p c}, R q p → R p c → R q c → cov q p → cov p c → clash c q → clash p q

variable {cov clash} {R : α → α → Prop}

/-- On a stack whose elements cover those above them, all that cover the current element are
left. -/
theorem mem_pop_iff (hR : Nests cov clash R) {c : α} {stack : List α}
  (hchain : stack.Pairwise (fun t q => R q t ∧ cov q t)) (hc : ∀ q ∈ stack, R q c) {q : α} :
  q ∈ pop cov c stack ↔ q ∈ stack ∧ cov q c
  := by
  unfold pop
  induction stack with
  | nil => simp
  | cons t stack ih =>
      obtain ⟨ht, hchain⟩ := List.pairwise_cons.mp hchain
      by_cases hcov : cov t c
      · rw [List.dropWhile_cons_of_neg (by simp [hcov])]
        constructor
        · intro hq
          use hq
          rcases List.mem_cons.mp hq with rfl | hmem
          · exact hcov
          · obtain ⟨hRt, hcovt⟩ := ht q hmem
            exact hR.trans hRt (hc t List.mem_cons_self) hcovt hcov
        · exact And.left
      · rw [List.dropWhile_cons_of_pos (by simp [hcov]),
          ih hchain (fun q hq => hc q (List.mem_cons_of_mem _ hq)), List.mem_cons]
        constructor
        · rintro ⟨hq, hcovq⟩
          exact ⟨Or.inr hq, hcovq⟩
        · rintro ⟨rfl | hq, hcovq⟩
          · exact absurd hcovq hcov
          · exact ⟨hq, hcovq⟩

/-- The walk from a stack without clashes finds the clashes of elements of the stack, and those in
the list, of which the first element covers all up to the second one. -/
theorem scan_iff (hR : Nests cov clash R) {m stack : List α}
  (hchain : stack.Pairwise (fun t q => (R q t ∧ cov q t) ∧ ¬clash t q))
  (hsorted : m.Pairwise R) (hbefore : ∀ q ∈ stack, ∀ c ∈ m, R q c) :
  scan cov clash m stack = true
    ↔ (∃ q ∈ stack, Reaches cov clash q m) ∨ Exposed cov clash m
  := by
  induction m generalizing stack with
  | nil =>
      constructor
      · intro h
        exact absurd h Bool.false_ne_true
      · rintro (⟨q, -, h⟩ | h)
        · exact absurd h not_reaches_nil
        · exact absurd h not_exposed_nil
  | cons c m ih =>
      obtain ⟨hcm, hsorted⟩ := List.pairwise_cons.mp hsorted
      have hc : ∀ q ∈ stack, R q c := fun q hq => hbefore q hq c List.mem_cons_self
      have hpop : ∀ q, q ∈ pop cov c stack ↔ q ∈ stack ∧ cov q c :=
        fun q => mem_pop_iff hR (hchain.imp And.left) hc
      have hsub : (pop cov c stack).Sublist stack := List.dropWhile_sublist _
      rw [scan, Bool.or_eq_true, exposed_cons_iff]
      simp only [reaches_cons_iff]
      by_cases hmeets : meets clash c (pop cov c stack)
      · -- the top clashes with the current element
        apply iff_of_true (Or.inl hmeets)
        left
        cases hst : pop cov c stack with
        | nil =>
            rw [hst] at hmeets
            exact absurd hmeets Bool.false_ne_true
        | cons t rest =>
            rw [hst] at hmeets
            obtain ⟨hmem, hcov⟩ := (hpop t).mp (hst ▸ List.mem_cons_self)
            exact ⟨t, hmem, hcov, Or.inl hmeets⟩
      · -- then no element of the stack that covers the current one clashes with it
        have hfree : ∀ q ∈ pop cov c stack, ¬clash c q := by
          intro q hq hclash
          cases hst : pop cov c stack with
          | nil =>
              rw [hst] at hq
              exact absurd hq List.not_mem_nil
          | cons t rest =>
              rw [hst] at hmeets hq hsub
              rcases List.mem_cons.mp hq with rfl | hrest
              · exact hmeets hclash
              · obtain ⟨hmem, hcov⟩ := (hpop t).mp (hst ▸ List.mem_cons_self)
                obtain ⟨⟨hRt, hcovt⟩, hno⟩ :=
                  (List.pairwise_cons.mp (hchain.sublist hsub)).1 q hrest
                have hRq := hc q (hsub.subset (List.mem_cons_of_mem _ hrest))
                exact hno (hR.clash hRt (hc t hmem) hRq hcovt hcov hclash)
        have hrec : scan cov clash m (c :: pop cov c stack) = true
            ↔ (∃ q ∈ c :: pop cov c stack, Reaches cov clash q m) ∨ Exposed cov clash m := by
          apply ih
          · apply List.pairwise_cons.mpr
            use fun q hq => ⟨⟨hc q ((hpop q).mp hq).1, ((hpop q).mp hq).2⟩, hfree q hq⟩
            exact hchain.sublist hsub
          · exact hsorted
          · intro q hq w hw
            rcases List.mem_cons.mp hq with rfl | hmem
            · exact hcm w hw
            · exact hbefore q ((hpop q).mp hmem).1 w (List.mem_cons_of_mem _ hw)
        rw [or_iff_right hmeets, hrec]
        constructor
        · rintro (⟨q, hq, hreach⟩ | hexp)
          · rcases List.mem_cons.mp hq with rfl | hmem
            · exact Or.inr (Or.inl hreach)
            · obtain ⟨hmem, hcov⟩ := (hpop q).mp hmem
              exact Or.inl ⟨q, hmem, hcov, Or.inr hreach⟩
          · exact Or.inr (Or.inr hexp)
        · rintro (⟨q, hq, hcov, hclash | hreach⟩ | hreach | hexp)
          · exact absurd hclash (hfree q ((hpop q).mpr ⟨hq, hcov⟩))
          · exact Or.inl ⟨q, List.mem_cons_of_mem _ ((hpop q).mpr ⟨hq, hcov⟩), hreach⟩
          · exact Or.inl ⟨c, List.mem_cons_self, hreach⟩
          · exact Or.inr hexp

/-- From an empty stack. -/
theorem scan_nil_iff (hR : Nests cov clash R) {m : List α} (hsorted : m.Pairwise R) :
  scan cov clash m [] = true ↔ Exposed cov clash m
  := by
  rw [scan_iff hR List.Pairwise.nil hsorted (fun q hq => absurd hq List.not_mem_nil)]
  simp

/-- In a list where an element that covers a later one covers all between the two, and that covers
all it clashes with, every clash is exposed. -/
theorem exposed_of_preorder {l l' r : List α} {q w : α}
  (hpre : cov q w → ∀ y ∈ l', cov q y) (hcov : clash w q → cov q w) (hclash : clash w q) :
  Exposed cov clash (l ++ q :: (l' ++ w :: r))
  := by
  have hqw := hcov hclash
  exact ⟨l, q, l' ++ w :: r, rfl, l', w, r, rfl, hpre hqw, hqw, hclash⟩

end Data.Nesting
