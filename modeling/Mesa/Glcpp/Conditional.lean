import Mesa.Glcpp.Expression
import Mathlib.Data.List.Induction
import Mathlib.Data.Nat.Digits.Defs

/-!
# The conditions that glcpp computes are those of C

The meaning of an expression in C: the grammar of the standard with its precedences, literals in
their bases, and operands that are not evaluated.  A line of glcpp takes its group as C does when
all the operations are defined, literals are in the range of `intmax_t` and their prefix is `0x`,
and the value is no multiple of `2 ^ 32`.
-/

namespace Glcpp

/-! ### The meaning in C -/

/-- The precedences of C, from `logical-OR-expression` to `multiplicative-expression`. -/
def cPrecedence : Binary → ℕ
  | .or => 0
  | .and => 1
  | .bitOr => 2
  | .bitXor => 3
  | .bitAnd => 4
  | .equal | .notEqual => 5
  | .less | .greater | .lessOrEqual | .greaterOrEqual => 6
  | .leftShift | .rightShift => 7
  | .plus | .minus => 8
  | .times | .divide | .modulus => 9

def cLanguage : Precedence.Language Lexeme Atom Unary Binary :=
  { language with prec := cPrecedence }

/-- An expression. -/
abbrev Expression := Precedence.Tree Atom Unary Binary

/-- The number that digits stand for, with a suffix that does not count. -/
def positional (base : ℕ) (s : Text) : ℕ :=
  Nat.ofDigits base
    ((s.filter fun c => c ≠ 'u' ∧ c ≠ 'U').map fun c => (digitValue c).getD 0).reverse

/-- The number that a literal stands for. -/
def cLiteral : Text → ℕ
  | '0' :: 'x' :: cs | '0' :: 'X' :: cs => positional 16 cs
  | '0' :: cs => positional 8 cs
  | cs => positional 10 cs

/-- The value of a token; a literal has none when it is too large for `intmax_t`. -/
def cAtom : Atom → Option Int64
  | .integerString str => Signed.checked (cLiteral str)
  | .integer ival => some ival.toInt64
  | .identifier _ => some 0

def cUnary : Unary → Int64 → Option Int64
  | .not, a => some (Signed.truth (a = 0))
  | .complement, a => some (~~~a)
  | .minus, a => Signed.neg a
  | .plus, a => some a

/-- The value of an operation whose operands have been evaluated. -/
def cBinary : Binary → Int64 → Int64 → Option Int64
  | .or, a, c => some (Signed.truth (a ≠ 0 ∨ c ≠ 0))
  | .and, a, c => some (Signed.truth (a ≠ 0 ∧ c ≠ 0))
  | .bitOr, a, c => some (a ||| c)
  | .bitXor, a, c => some (a ^^^ c)
  | .bitAnd, a, c => some (a &&& c)
  | .equal, a, c => some (Signed.truth (a = c))
  | .notEqual, a, c => some (Signed.truth (a ≠ c))
  | .less, a, c => some (Signed.truth (a < c))
  | .greater, a, c => some (Signed.truth (c < a))
  | .lessOrEqual, a, c => some (Signed.truth (a ≤ c))
  | .greaterOrEqual, a, c => some (Signed.truth (c ≤ a))
  | .leftShift, a, c => Signed.shiftLeft a c
  | .rightShift, a, c => Signed.shiftRight a c
  | .plus, a, c => Signed.add a c
  | .minus, a, c => Signed.sub a c
  | .times, a, c => Signed.mul a c
  | .divide, a, c => Signed.div a c
  | .modulus, a, c => Signed.mod a c

/-- The value in C: the second operand of `||` and of `&&` is only evaluated when the first one does
not decide. -/
def cValue : Expression → Option Int64
  | .leaf a => cAtom a
  | .unary op e => (cValue e).bind (cUnary op)
  | .binary .or l r => (cValue l).bind fun a =>
    if a ≠ 0 then some 1 else (cValue r).bind (cBinary .or a)
  | .binary .and l r => (cValue l).bind fun a =>
    if a = 0 then some 0 else (cValue r).bind (cBinary .and a)
  | .binary op l r => (cValue l).bind fun a => (cValue r).bind (cBinary op a)

/-- All operations of an expression, also of operands that C does not evaluate. -/
def cActions : Precedence.Actions Option Int64 Atom Unary Binary where
  leaf := cAtom
  unary := cUnary
  binary := cBinary

/-- The value of an expression all of whose operations are defined, also those of operands that C
does not evaluate. -/
def definedValue (e : Expression) : Option Int64 := cActions.eval e

/-- The literals of an expression. -/
def literals : Expression → List Text
  | .leaf (.integerString str) => [str]
  | .leaf _ => []
  | .unary _ e => literals e
  | .binary _ l r => literals l ++ literals r

/-- There is no division and no modulus by zero. -/
def NoZeroDivisor : Expression → Prop
  | .leaf _ => True
  | .unary _ e => NoZeroDivisor e
  | .binary op l r => NoZeroDivisor l ∧ NoZeroDivisor r ∧
    (op = .divide ∨ op = .modulus → definedValue r ≠ some 0)

/-- The tokens are an expression of C with literals of the lexer. -/
structure Valid (tokens : List Lexeme) (e : Expression) : Prop where
  derives : Precedence.Derives cLanguage 0 tokens e
  literals : ∀ s ∈ literals e, lexerInteger s

/-- The condition of a line is evaluated: for `#if` in a group that is read, for `#elif` when no
group before it has been taken. -/
def Evaluates (directive : Directive) (parser : Parser) : Prop :=
  match directive with
  | .ifLine => parser.reads
  | .elifLine => parser.skipStack.head?.map SkipNode.type = some .toElse

/-- The group behind a line is taken. -/
def Taken (parser : Parser) : Prop :=
  parser.skipStack.head?.map SkipNode.type = some .noSkip

/-- What a line should do. -/
structure FollowsC (directive : Directive) (parser : Parser) (expanded : List Token)
    (log : List Text) (e : Expression) : Prop where
  /-- no operation of the computation is undefined -/
  defined : conditionalLine directive parser expanded log ≠ none
  literals : ∀ s ∈ literals e, (integerConstant s).toInt = cLiteral s
  taken : ∃ v parser' log', cValue e = some v ∧
    conditionalLine directive parser expanded log = some (some parser', log') ∧
    (Taken parser' ↔ v ≠ 0)

/-- The expressions that do what they should. -/
structure Ordinary (e : Expression) : Prop where
  /-- literals are in the range of `intmax_t`, and do not start with `0X` unless they are zero -/
  literals : ∀ s ∈ literals e,
    cLiteral s < 2 ^ 63 ∧ (s.take 2 = ['0', 'X'] → cLiteral s = 0)
  /-- all operations are defined, also those that C does not evaluate -/
  operations : definedValue e ≠ none
  /-- the value does not vanish in an `int` -/
  remains : ∀ v, definedValue e = some v → v ≠ 0 → ¬ (2 ^ 32 : ℤ) ∣ v.toInt

/-! ### Literals -/

theorem foldl_eq_ofDigits (base : ℕ) (ds : List ℕ) :
  ds.foldl (fun n d => n * base + d) 0 = Nat.ofDigits base ds.reverse
  := by
  induction ds using List.reverseRecOn with
  | nil => rfl
  | append_singleton ds d ih =>
    rw [List.foldl_append, List.reverse_append, ih]
    simp only [List.foldl_cons, List.foldl_nil, List.reverse_singleton, List.singleton_append,
      Nat.ofDigits_cons]
    ring

/-- The characters that a predicate accepts are digits of a base. -/
def DigitsOf (base : ℕ) (digit : Char → Bool) : Prop :=
  ∀ c, digit c → (∃ d, digitValue c = some d ∧ d < base) ∧ c ≠ 'u' ∧ c ≠ 'U'

theorem char_le_iff (c d : Char) : c ≤ d ↔ c.toNat ≤ d.toNat := Iff.rfl

theorem digitsOf_decimal {base : ℕ} (large : 10 ≤ base) : DigitsOf base isDecimal := by
  intro c digit
  simp only [isDecimal, Bool.and_eq_true, decide_eq_true_eq] at digit
  refine ⟨⟨c.toNat - '0'.toNat, if_pos digit, ?_⟩, ?_, ?_⟩
  · have upper : c.toNat ≤ 57 := digit.2
    have zero : '0'.toNat = 48 := rfl
    omega
  · rintro rfl
    revert digit
    decide
  · rintro rfl
    revert digit
    decide

theorem digitsOf_octal : DigitsOf 8 isOctal := by
  intro c digit
  simp only [isOctal, Bool.and_eq_true, decide_eq_true_eq] at digit
  have upper : c.toNat ≤ 55 := digit.2
  have decimal : isDecimal c := by
    simp only [isDecimal, Bool.and_eq_true, decide_eq_true_eq]
    refine ⟨digit.1, ?_⟩
    rw [char_le_iff]
    exact upper.trans (by decide)
  obtain ⟨⟨d, value, -⟩, suffix⟩ := digitsOf_decimal le_rfl c decimal
  refine ⟨⟨d, value, ?_⟩, suffix⟩
  simp only [isDecimal, Bool.and_eq_true, decide_eq_true_eq] at decimal
  rw [digitValue, if_pos decimal] at value
  have zero : '0'.toNat = 48 := rfl
  simp only [Option.some.injEq] at value
  omega

theorem digitsOf_hexadecimal : DigitsOf 16 isHexadecimal := by
  intro c digit
  simp only [isHexadecimal, Bool.or_eq_true, Bool.and_eq_true, decide_eq_true_eq, char_le_iff]
    at digit
  rcases digit with (decimal | lower) | upper
  · apply digitsOf_decimal (by omega) c decimal
  · have a : 'a'.toNat = 97 := rfl
    have f : 'f'.toNat = 102 := rfl
    have notDecimal : ¬ ('0' ≤ c ∧ c ≤ '9') := by
      rw [char_le_iff, char_le_iff]
      have nine : '9'.toNat = 57 := rfl
      omega
    have letter : 'a' ≤ c ∧ c ≤ 'z' := by
      rw [char_le_iff, char_le_iff]
      have z : 'z'.toNat = 122 := rfl
      omega
    refine ⟨⟨c.toNat - 'a'.toNat + 10, ?_, by omega⟩, ?_, ?_⟩
    · rw [digitValue, if_neg notDecimal, if_pos letter]
    · rintro rfl
      revert lower
      decide
    · rintro rfl
      revert lower
      decide
  · have a : 'A'.toNat = 65 := rfl
    have f : 'F'.toNat = 70 := rfl
    have notDecimal : ¬ ('0' ≤ c ∧ c ≤ '9') := by
      rw [char_le_iff, char_le_iff]
      have nine : '9'.toNat = 57 := rfl
      omega
    have notLower : ¬ ('a' ≤ c ∧ c ≤ 'z') := by
      rw [char_le_iff, char_le_iff]
      have lower : 'a'.toNat = 97 := rfl
      omega
    have letter : 'A' ≤ c ∧ c ≤ 'Z' := by
      rw [char_le_iff, char_le_iff]
      have z : 'Z'.toNat = 90 := rfl
      omega
    refine ⟨⟨c.toNat - 'A'.toNat + 10, ?_, by omega⟩, ?_, ?_⟩
    · rw [digitValue, if_neg notDecimal, if_neg notLower, if_pos letter]
    · rintro rfl
      revert upper
      decide
    · rintro rfl
      revert upper
      decide

theorem leadingDigits_cons_of_digit
    {base d : ℕ} {c : Char} (cs : Text) (value : digitValue c = some d) (lt : d < base) :
  leadingDigits base (c :: cs) = d :: leadingDigits base cs
  := by
  rw [leadingDigits, value]
  exact if_pos lt

/-- Neither form of the suffix is a digit. -/
theorem leadingDigits_suffix
    {base : ℕ} (small : base ≤ 16) {c : Char} (suffix : c = 'u' ∨ c = 'U') :
  leadingDigits base [c] = []
  := by
  have value : digitValue c = some 30 := by
    rcases suffix with rfl | rfl
    · rfl
    · rfl
  rw [leadingDigits, value]
  apply if_neg
  omega

/-- The digits that are read from a literal are those in front of its suffix. -/
theorem leadingDigits_eq
    {base : ℕ} {digit : Char → Bool} (digits : DigitsOf base digit) (small : base ≤ 16) (cs : Text)
    (accepted : digitsAndSuffix digit cs) :
  leadingDigits base cs =
    (cs.filter fun c => c ≠ 'u' ∧ c ≠ 'U').map fun c => (digitValue c).getD 0
  := by
  have one : ∀ (c : Char) (cs : Text), digit c →
      leadingDigits base cs =
        (cs.filter fun c => c ≠ 'u' ∧ c ≠ 'U').map (fun c => (digitValue c).getD 0) →
      leadingDigits base (c :: cs) =
        ((c :: cs).filter fun c => c ≠ 'u' ∧ c ≠ 'U').map fun c => (digitValue c).getD 0 := by
    intro c cs hc ih
    obtain ⟨⟨d, value, lt⟩, suffix⟩ := digits c hc
    rw [leadingDigits_cons_of_digit cs value lt, ih,
      List.filter_cons_of_pos (by simpa using suffix)]
    simp [value]
  fun_induction digitsAndSuffix digit cs with
  | case1 => rfl
  | case2 c =>
    simp only [Bool.or_eq_true, beq_iff_eq, or_assoc] at accepted
    rcases accepted with hc | suffix
    · apply one c [] hc rfl
    · rw [leadingDigits_suffix small suffix, List.filter_cons_of_neg]
      · rfl
      · rcases suffix with rfl | rfl
        · decide
        · decide
  | case3 c cs _ ih =>
    simp only [Bool.and_eq_true] at accepted
    apply one c cs accepted.1 (ih accepted.2)

theorem digitsAndSuffix_cons {digit : Char → Bool} {c : Char} {cs : Text}
    (first : digit c) (rest : digitsAndSuffix digit cs) :
  digitsAndSuffix digit (c :: cs)
  := by
  cases cs with
  | nil => simp [digitsAndSuffix, first]
  | cons => simp [digitsAndSuffix, first, rest]

/-- A number in the range of `intmax_t`, or the largest one. -/
def saturated (n : ℕ) : Int64 := if n < 2 ^ 63 then Int64.ofInt n else Int64.maxValue

/-- `strtoll` on a string that starts with a digit. -/
theorem strtoll_eq
    {base : ℕ} {digit : Char → Bool} (digits : DigitsOf base digit) (small : base ≤ 16) (c : Char)
    (cs : Text) (first : isHexadecimal c) (accepted : digitsAndSuffix digit (c :: cs))
    (bare : base = 16 → withoutPrefix (c :: cs) = c :: cs) :
  strtoll (c :: cs) base = saturated (positional base (c :: cs))
  := by
  have notSpace : ¬ isSpace c = true := by
    intro space
    simp only [isSpace, isHexadecimal, isDecimal, Bool.or_eq_true, Bool.and_eq_true,
      decide_eq_true_eq, beq_iff_eq, char_le_iff] at space first
    have t : '\t'.toNat = 9 := rfl
    have r : '\r'.toNat = 13 := rfl
    have zero : '0'.toNat = 48 := rfl
    have a : 'a'.toNat = 97 := rfl
    have A : 'A'.toNat = 65 := rfl
    rcases space with rfl | space
    · revert first
      decide
    · omega
  have notSign : ∀ d : Char, isHexadecimal d = false → (c :: cs).head? ≠ some d := by
    rintro d other head
    obtain rfl := Option.some.inj head
    rw [first] at other
    contradiction
  have minus := notSign '-' (by decide)
  have plus := notSign '+' (by decide)
  have noPrefix : (if base = 16 then withoutPrefix (c :: cs) else c :: cs) = c :: cs := by
    split
    · apply bare ‹_›
    · rfl
  unfold strtoll
  rw [List.dropWhile_cons_of_neg notSpace]
  simp only [minus, plus, or_self, if_false, noPrefix, foldl_eq_ofDigits]
  rw [leadingDigits_eq digits small (c :: cs) accepted]
  rfl

theorem positional_zero (base : ℕ) (cs : Text) :
  positional base ('0' :: cs) = positional base cs
  := by
  have zero : digitValue '0' = some 0 := rfl
  unfold positional
  rw [List.filter_cons_of_pos (by decide), List.map_cons, List.reverse_cons, zero]
  apply Nat.ofDigits_append_zero

/-! #### The three forms of literals -/

theorem integerConstant_decimal {s : Text} (accepted : decimalInteger s) :
  integerConstant s = saturated (cLiteral s)
  := by
  cases s with
  | nil => contradiction
  | cons c cs =>
    simp only [decimalInteger, Bool.and_eq_true, decide_eq_true_eq] at accepted
    obtain ⟨⟨one, nine⟩, rest⟩ := accepted
    have decimal : isDecimal c := by
      simp only [isDecimal, Bool.and_eq_true, decide_eq_true_eq]
      refine ⟨?_, nine⟩
      rw [char_le_iff] at one ⊢
      exact le_trans (by decide) one
    have nonzero : c ≠ '0' := by
      rintro rfl
      revert one
      decide
    have value : cLiteral (c :: cs) = positional 10 (c :: cs) := by
      unfold cLiteral
      split
      all_goals simp_all
    have notHexadecimal : ¬ (3 ≤ (c :: cs).length ∧ (c :: cs).take 2 = ['0', 'x']) := by
      rintro ⟨-, front⟩
      simp only [List.take_succ_cons, List.cons.injEq] at front
      exact nonzero front.1
    have notOctal : ¬ (c :: cs).head? = some '0' := by
      intro head
      exact nonzero (Option.some.inj head)
    rw [integerConstant, if_neg notHexadecimal, if_neg notOctal, value]
    apply strtoll_eq (digitsOf_decimal le_rfl) (by omega)
    · simp [isHexadecimal, decimal]
    · apply digitsAndSuffix_cons decimal rest
    · intro base
      contradiction

theorem integerConstant_octal {s : Text} (accepted : octalInteger s) :
  integerConstant s = saturated (cLiteral s) ∧ s.take 2 ≠ ['0', 'X']
  := by
  cases s with
  | nil => contradiction
  | cons c cs =>
    unfold octalInteger at accepted
    split at accepted
    case h_2 => contradiction
    case h_1 _ cs h =>
      obtain ⟨rfl, rfl⟩ := List.cons.inj h
      have second : ∀ x : Char, isOctal x = false → x ≠ 'u' → x ≠ 'U' → cs.head? ≠ some x := by
        intro x notOctal u U head
        cases cs with
        | nil => contradiction
        | cons y cs =>
          obtain rfl := Option.some.inj head
          cases cs with
          | nil => simp [digitsAndSuffix, notOctal, u, U] at accepted
          | cons => simp [digitsAndSuffix, notOctal] at accepted
      have x := second 'x' (by decide) (by decide) (by decide)
      have X := second 'X' (by decide) (by decide) (by decide)
      have value : cLiteral ('0' :: cs) = positional 8 ('0' :: cs) := by
        rw [positional_zero]
        unfold cLiteral
        split
        all_goals simp_all
      have notHexadecimal : ∀ y : Char, cs.head? ≠ some y → ('0' :: cs).take 2 ≠ ['0', y] := by
        intro y head front
        cases cs with
        | nil => simp at front
        | cons z cs =>
          simp only [List.take_succ_cons, List.cons.injEq] at front
          exact head (congrArg some front.2.1)
      refine ⟨?_, notHexadecimal 'X' X⟩
      rw [integerConstant, if_neg (fun h => notHexadecimal 'x' x h.2),
        if_pos List.head?_cons, value]
      apply strtoll_eq digitsOf_octal (by omega)
      · decide
      · apply digitsAndSuffix_cons (by decide) accepted
      · intro base
        contradiction

theorem integerConstant_hexadecimal {s : Text} (accepted : hexadecimalInteger s) :
  integerConstant s = if s.take 2 = ['0', 'X'] then 0 else saturated (cLiteral s)
  := by
  unfold hexadecimalInteger at accepted
  split at accepted
  case h_2 => contradiction
  case h_1 x c cs =>
    simp only [Bool.and_eq_true, Bool.or_eq_true, beq_iff_eq] at accepted
    obtain ⟨⟨rfl | rfl, first⟩, rest⟩ := accepted
    · have bare : withoutPrefix (c :: cs) = c :: cs := by
        unfold withoutPrefix
        split
        case h_2 => rfl
        case h_1 y d ds h =>
          obtain ⟨rfl, rfl⟩ := List.cons.inj h
          have digit : isHexadecimal y := by
            simp only [digitsAndSuffix, Bool.and_eq_true] at rest
            exact rest.1
          apply if_neg
          rintro ⟨rfl | rfl, -⟩
          · revert digit
            decide
          · revert digit
            decide
      have front : ¬ ('0' :: 'x' :: c :: cs).take 2 = ['0', 'X'] := by
        intro h
        simp only [List.take_succ_cons, List.take_zero] at h
        revert h
        decide
      have isHex : 3 ≤ ('0' :: 'x' :: c :: cs).length ∧
          ('0' :: 'x' :: c :: cs).take 2 = ['0', 'x'] := by
        refine ⟨?_, rfl⟩
        simp only [List.length_cons]
        omega
      rw [integerConstant, if_pos isHex, if_neg front]
      apply strtoll_eq digitsOf_hexadecimal le_rfl c cs first
      · apply digitsAndSuffix_cons first rest
      · intro _
        exact bare
    · -- in base 8 the digits end in front of the `X`
      rfl

theorem toInt_saturated (n : ℕ) : (saturated n).toInt = n ↔ n < 2 ^ 63 := by
  unfold saturated
  split
  case isTrue small =>
    have value : (Int64.ofInt n).toInt = n := by
      apply Int64.toInt_ofInt_of_le
      · omega
      · omega
    simp only [value, small]
  case isFalse large =>
    have value : Int64.maxValue.toInt = 2 ^ 63 - 1 := rfl
    rw [value]
    omega

/-- A literal has its value when it is in the range of `intmax_t` and does not start with `0X`. -/
theorem toInt_integerConstant {s : Text} (accepted : lexerInteger s) :
  (integerConstant s).toInt = cLiteral s ↔
    cLiteral s < 2 ^ 63 ∧ (s.take 2 = ['0', 'X'] → cLiteral s = 0)
  := by
  simp only [lexerInteger, Bool.or_eq_true] at accepted
  rcases accepted with (decimal | octal) | hexadecimal
  · have front : s.take 2 ≠ ['0', 'X'] := by
      intro h
      cases s with
      | nil => contradiction
      | cons c cs =>
        simp only [List.take_succ_cons, List.cons.injEq] at h
        obtain ⟨rfl, -⟩ := h
        simp [decimalInteger] at decimal
    rw [integerConstant_decimal decimal, toInt_saturated]
    simp [front]
  · obtain ⟨value, front⟩ := integerConstant_octal octal
    rw [value, toInt_saturated]
    simp [front]
  · rw [integerConstant_hexadecimal hexadecimal]
    split
    case isTrue front =>
      have zero : (0 : Int64).toInt = 0 := rfl
      rw [zero]
      simp only [front, true_implies]
      omega
    case isFalse front =>
      rw [toInt_saturated]
      simp [front]

/-! ### The computation -/

/-- Precedences are declared as those of C. -/
theorem language_eq : language = cLanguage := by
  unfold cLanguage language
  congr 1
  funext op
  cases op
  all_goals decide

/-- A computation has this value, reports some macro, and writes nothing to the log. -/
def Computes (x : Eval ExpressionValue) (value : Option Int64) (log : List Text) : Prop :=
  ∃ m, x.run log = value.map fun v => (⟨v, m⟩, log)

theorem Computes.bind
    {x : Eval ExpressionValue} {f : ExpressionValue → Eval ExpressionValue} {value : Option Int64}
    {g : Int64 → Option Int64} {log : List Text} (first : Computes x value log)
    (next : ∀ v m, value = some v → Computes (f ⟨v, m⟩) (g v) log) :
  Computes (x >>= f) (value.bind g) log
  := by
  obtain ⟨m, hx⟩ := first
  cases value with
  | none =>
    use m
    rw [StateT.run_bind, hx]
    rfl
  | some v =>
    obtain ⟨m', hf⟩ := next v m rfl
    use m'
    rw [StateT.run_bind, hx]
    exact hf

theorem computes_pure (v : Int64) (m : Option Text) (log : List Text) :
  Computes (pure ⟨v, m⟩) (some v) log
  := by
  use m
  rfl

theorem computes_lift (value : Option Int64) (m : Option Text) (log : List Text) :
  Computes (do
    let v ← (value : Option Int64)
    pure ⟨v, m⟩) value log
  := by
  use m
  cases value with
  | none => rfl
  | some v => rfl

theorem computes_atom
    {a : Atom} (exact : ∀ s ∈ literals (.leaf a), (integerConstant s).toInt = cLiteral s)
    (isGles : Bool) (log : List Text) :
  Computes (expressionAtom isGles a) (cAtom a) log
  := by
  cases a with
  | integerString s =>
    have value : (integerConstant s).toInt = cLiteral s := exact s (List.mem_singleton_self s)
    have inRange : -2 ^ 63 ≤ (cLiteral s : ℤ) ∧ (cLiteral s : ℤ) < 2 ^ 63 := by
      rw [← value]
      exact ⟨Int64.le_toInt _, Int64.toInt_lt _⟩
    have checks : Signed.checked (cLiteral s) = some (integerConstant s) := by
      rw [Signed.checked, if_pos inRange, ← value, Int64.ofInt_toInt]
    rw [cAtom, checks]
    apply computes_pure
  | integer ival => apply computes_pure
  | identifier str => apply computes_pure

theorem computes_unary (op : Unary) (a : ExpressionValue) (log : List Text) :
  Computes (expressionUnary op a) (cUnary op a.value) log
  := by
  cases op with
  | not => apply computes_pure
  | complement => apply computes_pure
  | minus => apply computes_lift
  | plus => apply computes_pure

theorem computes_operate
    {op : Int64 → Int64 → Option Int64} {a c : ExpressionValue} {value : Option Int64}
    (result : op a.value c.value = value) (log : List Text) :
  Computes (operate op a c) value log
  := by
  rw [← result]
  apply computes_lift

theorem computes_operateNonzero
    {op : Int64 → Int64 → Option Int64} (message : Text) {a c : ExpressionValue}
    (nonzero : c.value ≠ 0) (log : List Text) :
  Computes (operateNonzero op message a c) (op a.value c.value) log
  := by
  rw [operateNonzero, if_neg nonzero]
  apply computes_operate rfl

/-- The same proposition has the same truth value. -/
theorem truth_congr {p q : Prop} [Decidable p] [Decidable q] (h : p ↔ q) :
  Signed.truth p = Signed.truth q
  := by
  unfold Signed.truth
  simp only [h]

theorem computes_compare
    {r : Int64 → Int64 → Bool} {a c : ExpressionValue} {p : Prop} [Decidable p]
    (h : r a.value c.value ↔ p) (log : List Text) :
  Computes (operate (compare r) a c) (some (Signed.truth p)) log
  := by
  apply computes_operate
  exact congrArg some (truth_congr h)

theorem computes_binary
    (op : Binary) (a c : ExpressionValue)
    (nonzero : op = .divide ∨ op = .modulus → c.value ≠ 0) (log : List Text) :
  Computes (expressionBinary op a c) (cBinary op a.value c.value) log
  := by
  cases op with
  | or => apply computes_pure
  | and => apply computes_pure
  | divide => apply computes_operateNonzero _ (nonzero (.inl rfl))
  | modulus => apply computes_operateNonzero _ (nonzero (.inr rfl))
  | equal | notEqual | less | greater | lessOrEqual | greaterOrEqual =>
    apply computes_compare
    simp
  | _ =>
    rw [expressionBinary]
    apply computes_operate rfl

/-- The actions compute the value of an expression, and write nothing to the log, when literals have
their values and no divisor is zero. -/
theorem computes_eval
    {e : Expression} (exact : ∀ s ∈ literals e, (integerConstant s).toInt = cLiteral s)
    (nonzero : NoZeroDivisor e) (isGles : Bool) (log : List Text) :
  Computes ((expressionActions isGles).eval e) (definedValue e) log
  := by
  induction e with
  | leaf a => apply computes_atom exact
  | unary op e ih =>
    apply (ih exact nonzero).bind
    intro v m _
    apply computes_unary op ⟨v, m⟩
  | binary op l r ihl ihr =>
    have left := ihl (fun s hs => exact s (List.mem_append_left _ hs)) nonzero.1
    have right := ihr (fun s hs => exact s (List.mem_append_right _ hs)) nonzero.2.1
    apply left.bind
    intro v m _
    apply right.bind
    intro w n value
    apply computes_binary op ⟨v, m⟩ ⟨w, n⟩
    rintro division rfl
    exact nonzero.2.2 division value

/-- Operands that are not evaluated do not matter when they are defined. -/
theorem cValue_of_definedValue {e : Expression} {v : Int64} (h : definedValue e = some v) :
  cValue e = some v
  := by
  induction e generalizing v with
  | leaf a => exact h
  | unary op e ih =>
    obtain ⟨a, value, result⟩ := Option.bind_eq_some_iff.mp h
    rw [cValue, ih value]
    exact result
  | binary op l r ihl ihr =>
    obtain ⟨a, left, h⟩ := Option.bind_eq_some_iff.mp h
    obtain ⟨c, right, result⟩ := Option.bind_eq_some_iff.mp h
    have hl := ihl left
    have hr := ihr right
    change cBinary op a c = some v at result
    cases op with
    | or =>
      rw [cValue, hl, hr, Option.bind_some]
      split
      case isTrue ha =>
        rw [← result]
        simp [cBinary, Signed.truth, ha]
      case isFalse => exact result
    | and =>
      rw [cValue, hl, hr, Option.bind_some]
      split
      case isTrue ha =>
        rw [← result]
        simp [cBinary, Signed.truth, ha]
      case isFalse => exact result
    | _ =>
      rw [cValue, hl, hr]
      · exact result
      all_goals
        intro h
        cases h

/-! ### The line -/

theorem toInt32_eq_zero (v : Int64) : v.toInt32 = 0 ↔ (2 ^ 32 : ℤ) ∣ v.toInt := by
  rw [← Int32.toInt_inj, Int64.toInt_toInt32, Int32.toInt_zero]
  apply Int.dvd_iff_bmod_eq_zero.symm

/-- What is done with the value of an expression. -/
def handOver (directive : Directive) (parser : Parser) (v : ExpressionValue) :
    Eval (Option Parser) := do
  if parser.isGles then
    if let some undefinedMacro := v.undefinedMacro then
      glcppError ("undefined macro ".toList ++ undefinedMacro ++
        " in expression (illegal in GLES)".toList)
  let condition := v.value.toInt32
  match directive with
  | .ifLine => pure (some (skipStackPushIf parser condition))
  | .elifLine => some <$> skipStackChangeIf parser "elif".toList condition

theorem expandedLine_eq
    {directive : Directive} {parser : Parser} {tokens : List Lexeme} {e : Expression}
    (derives : Precedence.Derives cLanguage 0 tokens e) :
  expandedLine directive parser tokens =
    (expressionActions parser.isGles).eval e >>= handOver directive parser
  := by
  rw [← language_eq] at derives
  rw [expandedLine, Precedence.parse_eq derives, bind_map_left]
  rfl

theorem conditionalLine_eq
    {directive : Directive} {parser : Parser} {expanded : List Token} {e : Expression}
    (evaluates : Evaluates directive parser) (valid : Valid (lexFrom expanded) e) :
  conditionalLine directive parser expanded =
    (expressionActions parser.isGles).eval e >>= handOver directive parser
  := by
  rw [← expandedLine_eq valid.derives]
  cases directive with
  | ifLine =>
    have reads : parser.reads = true := evaluates
    apply if_pos reads
  | elifLine =>
    have toElse : parser.skipStack.head?.map SkipNode.type = some .toElse := evaluates
    apply if_pos toElse

theorem taken_skipStackPushIf {parser : Parser} (reads : parser.reads) (condition : Int32) :
  Taken (skipStackPushIf parser condition) ↔ condition ≠ 0
  := by
  by_cases zero : condition = 0
  · simp [Taken, skipStackPushIf, reads, zero]
  · simp [Taken, skipStackPushIf, reads, zero]

theorem taken_skipStackChangeIf
    {parser : Parser} (toElse : parser.skipStack.head?.map SkipNode.type = some .toElse)
    (type : Text) (condition : Int32) (log : List Text) :
  ∃ parser', (skipStackChangeIf parser type condition).run log = some (parser', log) ∧
    (Taken parser' ↔ condition ≠ 0)
  := by
  obtain ⟨stack, isGles⟩ := parser
  cases stack with
  | nil => contradiction
  | cons node stack =>
    have top : node.type = .toElse := Option.some.inj toElse
    by_cases zero : condition = 0
    · refine ⟨⟨node :: stack, isGles⟩, ?_, ?_⟩
      · simp [skipStackChangeIf, top, zero]
      · simp [Taken, top, zero]
    · refine ⟨⟨{ node with type := .noSkip } :: stack, isGles⟩, ?_, ?_⟩
      · simp [skipStackChangeIf, top, zero]
      · simp [Taken, zero]

/-- The group is taken when the value does not vanish in an `int`. -/
theorem handOver_taken
    {directive : Directive} {parser : Parser} (evaluates : Evaluates directive parser)
    (v : ExpressionValue) (log : List Text) :
  ∃ parser' log', (handOver directive parser v).run log = some (some parser', log') ∧
    (Taken parser' ↔ ¬ (2 ^ 32 : ℤ) ∣ v.value.toInt)
  := by
  have stack : ∀ log : List Text, ∃ parser' log',
      (match directive with
        | .ifLine => (pure (some (skipStackPushIf parser v.value.toInt32)) : Eval (Option Parser))
        | .elifLine => some <$> skipStackChangeIf parser "elif".toList v.value.toInt32).run log =
          some (some parser', log') ∧ (Taken parser' ↔ ¬ (2 ^ 32 : ℤ) ∣ v.value.toInt) := by
    intro log
    rw [← toInt32_eq_zero]
    cases directive with
    | ifLine =>
      refine ⟨_, log, rfl, ?_⟩
      apply taken_skipStackPushIf evaluates
    | elifLine =>
      obtain ⟨parser', run, taken⟩ :=
        taken_skipStackChangeIf evaluates "elif".toList v.value.toInt32 log
      refine ⟨parser', log, ?_, taken⟩
      rw [StateT.run_map, run]
      rfl
  obtain ⟨value, m⟩ := v
  unfold handOver
  cases parser.isGles with
  | false => apply stack log
  | true =>
    cases m with
    | none => apply stack log
    | some m => apply stack

/-- A line whose literals have their values has no result when some operation is undefined, and else
takes its group when the value does not vanish in an `int`. -/
theorem conditionalLine_cases
    {directive : Directive} {parser : Parser} {expanded : List Token} {e : Expression}
    (evaluates : Evaluates directive parser) (valid : Valid (lexFrom expanded) e)
    (nonzero : NoZeroDivisor e)
    (exact : ∀ s ∈ literals e, (integerConstant s).toInt = cLiteral s) (log : List Text) :
  (definedValue e = none ∧ conditionalLine directive parser expanded log = none) ∨
  ∃ v parser' log', definedValue e = some v ∧
    conditionalLine directive parser expanded log = some (some parser', log') ∧
    (Taken parser' ↔ ¬ (2 ^ 32 : ℤ) ∣ v.toInt)
  := by
  obtain ⟨m, computes⟩ := computes_eval exact nonzero parser.isGles log
  rw [conditionalLine_eq evaluates valid]
  cases value : definedValue e with
  | none =>
    left
    rw [value] at computes
    refine ⟨rfl, ?_⟩
    change StateT.run _ log = none
    rw [StateT.run_bind, computes]
    rfl
  | some v =>
    right
    rw [value] at computes
    obtain ⟨parser', log', run, taken⟩ := handOver_taken evaluates ⟨v, m⟩ log
    refine ⟨v, parser', log', rfl, ?_, taken⟩
    change StateT.run _ log = _
    rw [StateT.run_bind, computes]
    exact run

/-- A line does what C says when and only when its expression is an ordinary one. -/
theorem conditionalLine_followsC
    {directive : Directive} {parser : Parser} {expanded : List Token} {e : Expression}
    (evaluates : Evaluates directive parser) (valid : Valid (lexFrom expanded) e)
    (nonzero : NoZeroDivisor e) (log : List Text) :
  FollowsC directive parser expanded log e ↔ Ordinary e
  := by
  constructor
  · intro follows
    have literals : ∀ s ∈ Glcpp.literals e,
        cLiteral s < 2 ^ 63 ∧ (s.take 2 = ['0', 'X'] → cLiteral s = 0) := by
      intro s hs
      apply (toInt_integerConstant (valid.literals s hs)).mp (follows.literals s hs)
    rcases conditionalLine_cases evaluates valid nonzero follows.literals log with
      ⟨-, undefined⟩ | ⟨v, parser', log', value, line, taken⟩
    · exact absurd undefined follows.defined
    · refine ⟨literals, ?_, ?_⟩
      · rw [value]
        simp
      · intro w hw hz
        obtain rfl := Option.some.inj (value.symm.trans hw)
        obtain ⟨w, parser'', log'', cvalue, line', taken'⟩ := follows.taken
        obtain rfl := Option.some.inj ((cValue_of_definedValue value).symm.trans cvalue)
        obtain ⟨rfl, rfl⟩ : parser' = parser'' ∧ log' = log'' := by
          simpa using line.symm.trans line'
        exact taken.mp (taken'.mpr hz)
  · intro ordinary
    have exact : ∀ s ∈ literals e, (integerConstant s).toInt = cLiteral s := by
      intro s hs
      apply (toInt_integerConstant (valid.literals s hs)).mpr (ordinary.literals s hs)
    rcases conditionalLine_cases evaluates valid nonzero exact log with
      ⟨undefined, -⟩ | ⟨v, parser', log', value, line, taken⟩
    · exact absurd undefined ordinary.operations
    · refine ⟨?_, exact, v, parser', log', cValue_of_definedValue value, line, ?_⟩
      · rw [line]
        simp
      · rw [taken]
        constructor
        · rintro remains rfl
          exact remains (dvd_zero _)
        · intro hz
          apply ordinary.remains v value hz

/-- The line `#elif 0x10 == 8 << 1` when no group before it has been taken. -/
theorem conditionalLine_followsC_shift :
  FollowsC .elifLine ⟨[⟨.toElse, false⟩], false⟩
    [⟨.integerString ['0', 'x', '1', '0'], ⟨2, 0⟩⟩, ⟨.space, ⟨2, 0⟩⟩, ⟨.equal, ⟨2, 0⟩⟩,
      ⟨.integerString ['8'], ⟨2, 0⟩⟩, ⟨.leftShift, ⟨2, 0⟩⟩, ⟨.integerString ['1'], ⟨2, 0⟩⟩] []
    (.binary .equal (.leaf (.integerString ['0', 'x', '1', '0']))
      (.binary .leftShift (.leaf (.integerString ['8'])) (.leaf (.integerString ['1']))))
  := by
  apply (conditionalLine_followsC ?_ ?_ ?_ []).mpr
  · refine ⟨by decide, by decide, ?_⟩
    intro v value _
    have one : v = 1 := by
      apply Option.some.inj (value.symm.trans _)
      decide
    rw [one]
    decide
  · rfl
  · refine ⟨?_, by decide⟩
    apply Precedence.Derives.binary (Nat.zero_le _) (.atom rfl) rfl
    change Precedence.Derives cLanguage _ ([_] ++ _ :: [_]) _
    apply Precedence.Derives.binary (by decide) (.atom rfl) rfl (.atom rfl)
  · simp [NoZeroDivisor]

/-- The group behind `#if 4294967296` is not taken, the shift in `#if 1 << 64` is undefined, and the
literal in `#if 0X10` is read as zero. -/
theorem conditions_lost :
  (Evaluates .ifLine ⟨[], false⟩ ∧
    Valid (lexFrom [⟨.integerString ['4', '2', '9', '4', '9', '6', '7', '2', '9', '6'], ⟨1, 0⟩⟩])
      (.leaf (.integerString ['4', '2', '9', '4', '9', '6', '7', '2', '9', '6'])) ∧
    ¬ FollowsC .ifLine ⟨[], false⟩
      [⟨.integerString ['4', '2', '9', '4', '9', '6', '7', '2', '9', '6'], ⟨1, 0⟩⟩] []
      (.leaf (.integerString ['4', '2', '9', '4', '9', '6', '7', '2', '9', '6']))) ∧
  (Valid (lexFrom [⟨.integerString ['1'], ⟨1, 0⟩⟩, ⟨.leftShift, ⟨1, 0⟩⟩,
      ⟨.integerString ['6', '4'], ⟨1, 0⟩⟩])
      (.binary .leftShift (.leaf (.integerString ['1'])) (.leaf (.integerString ['6', '4']))) ∧
    conditionalLine .ifLine ⟨[], false⟩ [⟨.integerString ['1'], ⟨1, 0⟩⟩, ⟨.leftShift, ⟨1, 0⟩⟩,
      ⟨.integerString ['6', '4'], ⟨1, 0⟩⟩] [] = none) ∧
  (lexerInteger ['0', 'X', '1', '0'] ∧ cLiteral ['0', 'X', '1', '0'] = 16 ∧
    integerConstant ['0', 'X', '1', '0'] = 0)
  := by
  refine ⟨⟨rfl, ⟨.atom rfl, by decide⟩, ?_⟩, ⟨⟨?_, by decide⟩, by decide⟩, by decide⟩
  · rintro ⟨-, -, v, parser', log', value, line, taken⟩
    have skipped : conditionalLine .ifLine ⟨[], false⟩
        [⟨.integerString ['4', '2', '9', '4', '9', '6', '7', '2', '9', '6'], ⟨1, 0⟩⟩] [] =
        some (some ⟨[⟨.toElse, false⟩], false⟩, []) := by
      decide
    obtain ⟨rfl, -⟩ : parser' = ⟨[⟨.toElse, false⟩], false⟩ ∧ log' = [] := by
      simpa using line.symm.trans skipped
    have nonzero : v ≠ 0 := by
      rintro rfl
      revert value
      decide
    have taken := taken.mpr nonzero
    simp [Taken] at taken
  · change Precedence.Derives cLanguage _ ([_] ++ _ :: [_]) _
    apply Precedence.Derives.binary (Nat.zero_le _) (.atom rfl) rfl (.atom rfl)

end Glcpp
