import Mathlib.Order.Nat
import Mathlib.Tactic.Common

/-!
# Operator precedence

Expressions of unary and left associative binary operators with parentheses.  The grammar has a
level for each precedence; the machine has one stack, and compares the precedence of an operator it
has read with that of the operator on the stack to decide between a reduction and a shift.  What an
operator does is an action in a monad: the machine runs the actions of an expression from left to
right, operands before their operator.
-/

namespace Precedence

/-- What a token is where an operand is expected. -/
inductive Start (A U : Type) where
  | atom (a : A)
  | unary (u : U)
  | left

/-- What a token is behind an operand. -/
inductive Next (B : Type) where
  | binary (b : B)
  | right

/-- The tokens of expressions. -/
structure Language (T A U B : Type) where
  start : T → Option (Start A U)
  next : T → Option (Next B)
  /-- the precedence of a binary operator; an unary one binds tighter than all of them -/
  prec : B → ℕ

/-- An expression. -/
inductive Tree (A U B : Type) where
  | leaf (a : A)
  | unary (u : U) (e : Tree A U B)
  | binary (b : B) (l r : Tree A U B)

/-- What is done with an operand and with an operator. -/
structure Actions (M : Type → Type) (V A U B : Type) where
  leaf : A → M V
  unary : U → V → M V
  binary : B → V → V → M V

variable {M : Type → Type} [Monad M] {T V A U B : Type}

/-- The value of an expression. -/
def Actions.eval (act : Actions M V A U B) : Tree A U B → M V
  | .leaf a => act.leaf a
  | .unary u e => do
    let v ← act.eval e
    act.unary u v
  | .binary b l r => do
    let v ← act.eval l
    let w ← act.eval r
    act.binary b v w

/-! ### The grammar -/

/-- The tokens are an expression of a level: all its operators outside of parentheses have at least
this precedence. -/
inductive Derives (L : Language T A U B) : ℕ → List T → Tree A U B → Prop where
  | atom {k : ℕ} {t : T} {a : A} (token : L.start t = some (.atom a)) : Derives L k [t] (.leaf a)
  | paren {k : ℕ} {t t' : T} {ts : List T} {e : Tree A U B} (opening : L.start t = some .left)
    (inner : Derives L 0 ts e) (closing : L.next t' = some .right) :
    Derives L k (t :: (ts ++ [t'])) e
  /-- the operand of an unary operator has no binary operator outside of parentheses -/
  | unary {k m : ℕ} {t : T} {u : U} {ts : List T} {e : Tree A U B}
    (token : L.start t = some (.unary u)) (above : ∀ b, L.prec b < m)
    (operand : Derives L m ts e) : Derives L k (t :: ts) (.unary u e)
  | binary {k : ℕ} {t : T} {b : B} {ls rs : List T} {l r : Tree A U B} (level : k ≤ L.prec b)
    (left : Derives L (L.prec b) ls l) (token : L.next t = some (.binary b))
    (right : Derives L (L.prec b + 1) rs r) : Derives L k (ls ++ t :: rs) (.binary b l r)

/-! ### The machine -/

/-- What is on the stack below an operand. -/
inductive Frame (V U B : Type) where
  | paren
  | unary (u : U)
  | binary (v : V) (b : B)

/-- Reduce while the operator on the stack binds at least as tight as the given precedence. -/
@[simp]
def reduce (L : Language T A U B) (act : Actions M V A U B) (k : ℕ) :
    List (Frame V U B) → V → M (List (Frame V U B) × V)
  | .unary u :: stack, v => do
    let v' ← act.unary u v
    reduce L act k stack v'
  | .binary v b :: stack, w =>
    if k ≤ L.prec b then do
      let v' ← act.binary b v w
      reduce L act k stack v'
    else pure (.binary v b :: stack, w)
  | stack, v => pure (stack, v)

/-- Read the tokens; an operand is expected when there is none on top of the stack.  The result is
nothing when the tokens are no expression. -/
@[simp]
def run (L : Language T A U B) (act : Actions M V A U B) :
    List T → List (Frame V U B) → Option V → M (Option V)
  | [], _, none => pure none
  | [], stack, some v => do
    match ← reduce L act 0 stack v with
    | ([], v') => pure (some v')
    | _ => pure none
  | t :: ts, stack, none =>
    match L.start t with
    | some (.atom a) => do
      let v ← act.leaf a
      run L act ts stack (some v)
    | some (.unary u) => run L act ts (.unary u :: stack) none
    | some .left => run L act ts (.paren :: stack) none
    | none => pure none
  | t :: ts, stack, some v =>
    match L.next t with
    | some (.binary b) => do
      let (stack', v') ← reduce L act (L.prec b) stack v
      run L act ts (.binary v' b :: stack') none
    | some .right => do
      match ← reduce L act 0 stack v with
      | (.paren :: stack', v') => run L act ts stack' (some v')
      | _ => pure none
    | none => pure none

/-- Read an expression. -/
def parse (L : Language T A U B) (act : Actions M V A U B) (ts : List T) : M (Option V) :=
  run L act ts [] none

/-! ### The machine follows the grammar -/

variable {L : Language T A U B} {act : Actions M V A U B}

/-- No operator on top of the stack is reduced before one of the level. -/
def Barred (L : Language T A U B) (k : ℕ) : List (Frame V U B) → Prop
  | [] | .paren :: _ => True
  | .unary _ :: _ => ∀ b, L.prec b < k
  | .binary _ b :: _ => L.prec b < k

/-- What follows an expression of the level: nothing, a parenthesis, or an operator that does not
bind tighter. -/
def Follows (L : Language T A U B) (k : ℕ) : List T → Prop
  | [] => True
  | t :: _ => L.next t = some .right ∨ ∃ b, L.next t = some (.binary b) ∧ L.prec b ≤ k

theorem Barred.mono {k m : ℕ} (h : k ≤ m) :
    ∀ {stack : List (Frame V U B)}, Barred L k stack → Barred L m stack
  | [], _ => trivial
  | .paren :: _, _ => trivial
  | .unary _ :: _, barred => fun b => lt_of_lt_of_le (barred b) h
  | .binary _ _ :: _, barred => lt_of_lt_of_le barred h

theorem Follows.mono {k m : ℕ} (h : k ≤ m) :
    ∀ {ts : List T}, Follows L k ts → Follows L m ts
  | [], _ => trivial
  | _ :: _, .inl right => .inl right
  | _ :: _, .inr ⟨b, binary, le⟩ => .inr ⟨b, binary, le.trans h⟩

/-- An operator leaves a stack that is barred as it is. -/
theorem reduce_of_barred {b : B} {stack : List (Frame V U B)} (v : V)
    (barred : Barred L (L.prec b) stack) :
  reduce L act (L.prec b) stack v = pure (stack, v)
  := by
  match stack, barred with
  | [], _ => rfl
  | .paren :: _, _ => rfl
  | .unary _ :: _, barred => exact absurd (barred b) (lt_irrefl _)
  | .binary _ _ :: _, barred =>
    rw [reduce, if_neg (not_le.mpr barred)]

variable [LawfulMonad M]

/-- An unary operator on the stack is applied, whatever follows. -/
theorem run_unary {k : ℕ} {ts : List T} (follows : Follows L k ts) (u : U)
    (stack : List (Frame V U B)) (v : V) :
  run L act ts (.unary u :: stack) (some v) = (do
    let v' ← act.unary u v
    run L act ts stack (some v'))
  := by
  cases ts with
  | nil =>
    simp only [run, reduce, bind_assoc]
  | cons t ts =>
    rcases follows with right | ⟨b, binary, -⟩
    · simp only [run, right, reduce, bind_assoc]
    · simp only [run, binary, reduce, bind_assoc]

/-- A binary operator on the stack is applied when what follows does not bind tighter. -/
theorem run_binary {b : B} {ts : List T} (follows : Follows L (L.prec b) ts) (v : V)
    (stack : List (Frame V U B)) (w : V) :
  run L act ts (.binary v b :: stack) (some w) = (do
    let v' ← act.binary b v w
    run L act ts stack (some v'))
  := by
  cases ts with
  | nil =>
    simp only [run, reduce, Nat.zero_le, if_true, bind_assoc]
  | cons t ts =>
    rcases follows with right | ⟨b', binary, le⟩
    · simp only [run, right, reduce, Nat.zero_le, if_true, bind_assoc]
    · simp only [run, binary, reduce, le, if_true, bind_assoc]

/-- The machine reads an expression of a level as the grammar does, and goes on with its value. -/
theorem Derives.run {k : ℕ} {ts : List T} {e : Tree A U B} (derives : Derives L k ts e)
    (rest : List T) (stack : List (Frame V U B)) (barred : Barred L k stack)
    (follows : Follows L k rest) :
  run L act (ts ++ rest) stack none = (do
    let v ← act.eval e
    Precedence.run L act rest stack (some v))
  := by
  induction derives generalizing rest stack with
  | atom token => simp only [List.singleton_append, Precedence.run, token, Actions.eval]
  | @paren k t t' ts e opening _ closing ih =>
    have closes : Follows L 0 (t' :: rest) := .inl closing
    have reads : ∀ v : V, Precedence.run L act (t' :: rest) (.paren :: stack) (some v) =
        Precedence.run L act rest stack (some v) := by
      intro v
      simp only [Precedence.run, closing, reduce, pure_bind]
    calc
      _ = Precedence.run L act (ts ++ (t' :: rest)) (.paren :: stack) none := by
        simp only [List.cons_append, List.append_assoc, List.nil_append, Precedence.run, opening]
      _ = _ := by
        rw [ih (t' :: rest) (.paren :: stack) trivial closes]
        simp only [reads]
  | @unary k m t u ts e token above _ ih =>
    have follows' : Follows L m rest := by
      cases rest with
      | nil => trivial
      | cons t' rest =>
        rcases follows with right | ⟨b, binary, -⟩
        · exact .inl right
        · exact .inr ⟨b, binary, (above b).le⟩
    calc
      _ = Precedence.run L act (ts ++ rest) (.unary u :: stack) none := by
        simp only [List.cons_append, Precedence.run, token]
      _ = _ := by
        rw [ih rest (.unary u :: stack) above follows']
        simp only [run_unary follows', Actions.eval, bind_assoc]
  | @binary k t b ls rs l r level _ token _ ihl ihr =>
    have follows' : Follows L (L.prec b) rest := follows.mono level
    have barred' : Barred L (L.prec b) stack := barred.mono level
    have shifts : ∀ v : V, Precedence.run L act (t :: (rs ++ rest)) stack (some v) =
        Precedence.run L act (rs ++ rest) (.binary v b :: stack) none := by
      intro v
      simp only [Precedence.run, token, reduce_of_barred v barred', pure_bind]
    have right : ∀ v : V, Precedence.run L act (rs ++ rest) (.binary v b :: stack) none = (do
        let w ← act.eval r
        let v' ← act.binary b v w
        Precedence.run L act rest stack (some v')) := by
      intro v
      rw [ihr rest (.binary v b :: stack) (Nat.lt_succ_self _) (follows'.mono (Nat.le_succ _))]
      simp only [run_binary follows']
    calc
      _ = Precedence.run L act (ls ++ (t :: (rs ++ rest))) stack none := by
        simp only [List.append_assoc, List.cons_append]
      _ = _ := by
        rw [ihl (t :: (rs ++ rest)) stack barred' (.inr ⟨b, token, le_rfl⟩)]
        simp only [shifts, right, Actions.eval, bind_assoc]

/-- The machine computes the value of every expression of the grammar. -/
theorem parse_eq {ts : List T} {e : Tree A U B} (derives : Derives L 0 ts e) :
  parse L act ts = some <$> act.eval e
  := by
  calc
    parse L act ts = Precedence.run L act (ts ++ []) [] none := by
      rw [List.append_nil, parse]
    _ = _ := by
      rw [derives.run [] [] trivial trivial]
      simp only [Precedence.run, reduce, pure_bind, map_eq_pure_bind]

end Precedence
