import Mesa.Data.Precedence
import Mesa.Bits.Signed
import Mesa.Glcpp.Token
import Mathlib.Data.List.Basic

/-!
# Conditions of `#if` and `#elif`

The value of an expression is computed by the actions of the grammar of `glcpp-parse.y`, and handed
over to the stack that says which groups of lines are skipped.  Where the behaviour of C is
undefined, the computation has no result.
-/

namespace Glcpp

/-- A computation that writes messages to the log. -/
abbrev Eval := StateT (List Text) Option

/-- `glcpp_error` and `yyerror`. -/
def glcppError (message : Text) : Eval Unit := modify (· ++ [message])

/-! ### Integer constants -/

def isDecimal (c : Char) : Bool := '0' ≤ c && c ≤ '9'

def isOctal (c : Char) : Bool := '0' ≤ c && c ≤ '7'

def isHexadecimal (c : Char) : Bool :=
  isDecimal c || ('a' ≤ c && c ≤ 'f') || ('A' ≤ c && c ≤ 'F')

/-- Digits, and an optional suffix. -/
def digitsAndSuffix (digit : Char → Bool) : Text → Bool
  | [] => true
  | [c] => digit c || c == 'u' || c == 'U'
  | c :: cs => digit c && digitsAndSuffix digit cs

/-- `DECIMAL_INTEGER` -/
def decimalInteger : Text → Bool
  | c :: cs => '1' ≤ c && c ≤ '9' && digitsAndSuffix isDecimal cs
  | [] => false

/-- `OCTAL_INTEGER` -/
def octalInteger : Text → Bool
  | '0' :: cs => digitsAndSuffix isOctal cs
  | _ => false

/-- `HEXADECIMAL_INTEGER` -/
def hexadecimalInteger : Text → Bool
  | '0' :: x :: c :: cs => (x == 'x' || x == 'X') && isHexadecimal c &&
    digitsAndSuffix isHexadecimal cs
  | _ => false

/-- The strings that the lexer returns as an `INTEGER_STRING`. -/
def lexerInteger (s : Text) : Bool :=
  decimalInteger s || octalInteger s || hexadecimalInteger s

/-- `isspace` -/
def isSpace (c : Char) : Bool := c == ' ' || ('\t' ≤ c && c ≤ '\r')

/-- The value of a digit or of a letter. -/
def digitValue (c : Char) : Option ℕ :=
  if '0' ≤ c ∧ c ≤ '9' then some (c.toNat - '0'.toNat)
  else if 'a' ≤ c ∧ c ≤ 'z' then some (c.toNat - 'a'.toNat + 10)
  else if 'A' ≤ c ∧ c ≤ 'Z' then some (c.toNat - 'A'.toNat + 10)
  else none

/-- The digits in front, in a base. -/
def leadingDigits (base : ℕ) : Text → List ℕ
  | [] => []
  | c :: cs =>
    match digitValue c with
    | some d => if d < base then d :: leadingDigits base cs else []
    | none => []

/-- A string without the prefix that `strtoll` accepts in base 16. -/
def withoutPrefix : Text → Text
  | '0' :: x :: c :: cs =>
    if (x = 'x' ∨ x = 'X') ∧ leadingDigits 16 [c] ≠ [] then c :: cs else '0' :: x :: c :: cs
  | s => s

/-- `strtoll`: white space and a sign may precede the digits, what follows them is not read, and a
number that is too large is replaced by the largest one. -/
def strtoll (s : Text) (base : ℕ) : Int64 :=
  let s := s.dropWhile isSpace
  let negative := s.head? = some '-'
  let s := if s.head? = some '-' ∨ s.head? = some '+' then s.tail else s
  let s := if base = 16 then withoutPrefix s else s
  let n : ℕ := (leadingDigits base s).foldl (fun n d => n * base + d) 0
  if negative then
    if n ≤ 2 ^ 63 then Int64.ofInt (-n) else Int64.minValue
  else if n < 2 ^ 63 then Int64.ofInt n else Int64.maxValue

/-- The action of `integer_constant` for `INTEGER_STRING`. -/
def integerConstant (str : Text) : Int64 :=
  if 3 ≤ str.length ∧ str.take 2 = ['0', 'x'] then strtoll (str.drop 2) 16
  else if str.head? = some '0' then strtoll str 8
  else strtoll str 10

/-! ### The tokens of expressions -/

/-- The tokens that are expressions. -/
inductive Atom where
  | integerString (str : Text)
  | integer (ival : Int32)
  | identifier (str : Text)
  deriving DecidableEq

inductive Unary where
  | not
  | complement
  | minus
  | plus
  deriving DecidableEq

inductive Binary where
  | or
  | and
  | bitOr
  | bitXor
  | bitAnd
  | equal
  | notEqual
  | less
  | greater
  | lessOrEqual
  | greaterOrEqual
  | leftShift
  | rightShift
  | plus
  | minus
  | times
  | divide
  | modulus
  deriving DecidableEq

/-- What a token is at the start of an expression. -/
def startToken : Lexeme → Option (Precedence.Start Atom Unary)
  | .integerString str => some (.atom (.integerString str))
  | .integer ival => some (.atom (.integer ival))
  | .identifier str => some (.atom (.identifier str))
  | .punctuation '!' => some (.unary .not)
  | .punctuation '~' => some (.unary .complement)
  | .punctuation '-' => some (.unary .minus)
  | .punctuation '+' => some (.unary .plus)
  | .punctuation '(' => some .left
  | _ => none

/-- What a token is behind an expression. -/
def nextToken : Lexeme → Option (Precedence.Next Binary)
  | .or => some (.binary .or)
  | .and => some (.binary .and)
  | .punctuation '|' => some (.binary .bitOr)
  | .punctuation '^' => some (.binary .bitXor)
  | .punctuation '&' => some (.binary .bitAnd)
  | .notEqual => some (.binary .notEqual)
  | .equal => some (.binary .equal)
  | .greaterOrEqual => some (.binary .greaterOrEqual)
  | .lessOrEqual => some (.binary .lessOrEqual)
  | .punctuation '>' => some (.binary .greater)
  | .punctuation '<' => some (.binary .less)
  | .rightShift => some (.binary .rightShift)
  | .leftShift => some (.binary .leftShift)
  | .punctuation '-' => some (.binary .minus)
  | .punctuation '+' => some (.binary .plus)
  | .punctuation '%' => some (.binary .modulus)
  | .punctuation '/' => some (.binary .divide)
  | .punctuation '*' => some (.binary .times)
  | .punctuation ')' => some .right
  | _ => none

/-- The `%left` declarations, `%right UNARY` is the last one. -/
def precedences : List (List Binary) := [
  [.or],
  [.and],
  [.bitOr],
  [.bitXor],
  [.bitAnd],
  [.equal, .notEqual],
  [.less, .greater, .lessOrEqual, .greaterOrEqual],
  [.leftShift, .rightShift],
  [.plus, .minus],
  [.times, .divide, .modulus]]

/-- The grammar of `expression`; its conflicts are resolved by the declared precedences. -/
def language : Precedence.Language Lexeme Atom Unary Binary where
  start := startToken
  next := nextToken
  prec b := precedences.findIdx (b ∈ ·)

/-! ### The actions -/

structure ExpressionValue where
  value : Int64
  undefinedMacro : Option Text
  deriving DecidableEq

/-- The macro that most operators report: that of the first operand that has one. -/
def firstUndefined (a c : ExpressionValue) : Option Text :=
  if a.undefinedMacro.isSome then a.undefinedMacro else c.undefinedMacro

/-- The action of most binary operators. -/
def operate (op : Int64 → Int64 → Option Int64) (a c : ExpressionValue) : Eval ExpressionValue := do
  let value ← (op a.value c.value : Option Int64)
  pure { value, undefinedMacro := firstUndefined a c }

/-- The action of `%` and `/`; where the second operand is zero, the result still holds the value of
the first one. -/
def operateNonzero (op : Int64 → Int64 → Option Int64) (message : Text) (a c : ExpressionValue) :
    Eval ExpressionValue :=
  if c.value = 0 then do
    glcppError message
    pure { value := a.value, undefinedMacro := firstUndefined a c }
  else operate op a c

/-- A comparison. -/
def compare (r : Int64 → Int64 → Bool) (a c : Int64) : Option Int64 := some (Signed.truth (r a c))

def expressionAtom (isGles : Bool) : Atom → Eval ExpressionValue
  | .integerString str => pure { value := integerConstant str, undefinedMacro := none }
  | .integer ival => pure { value := ival.toInt64, undefinedMacro := none }
  | .identifier str =>
    pure { value := 0, undefinedMacro := if isGles then some str else none }

def expressionUnary (op : Unary) (b : ExpressionValue) : Eval ExpressionValue :=
  match op with
  | .not => pure { b with value := Signed.truth (b.value = 0) }
  | .complement => pure { b with value := ~~~b.value }
  | .minus => do
    let value ← (Signed.neg b.value : Option Int64)
    pure { b with value }
  | .plus => pure b

def expressionBinary (op : Binary) (a c : ExpressionValue) : Eval ExpressionValue :=
  match op with
  | .or =>
    -- both operands have been evaluated, only their macros are reported as if they had not been
    pure {
      value := Signed.truth (a.value ≠ 0 ∨ c.value ≠ 0)
      undefinedMacro :=
        if a.undefinedMacro.isSome then a.undefinedMacro
        else if a.value = 0 then c.undefinedMacro else a.undefinedMacro }
  | .and =>
    pure {
      value := Signed.truth (a.value ≠ 0 ∧ c.value ≠ 0)
      undefinedMacro :=
        if a.undefinedMacro.isSome then a.undefinedMacro
        else if a.value ≠ 0 then c.undefinedMacro else a.undefinedMacro }
  | .bitOr => operate (fun x y => some (x ||| y)) a c
  | .bitXor => operate (fun x y => some (x ^^^ y)) a c
  | .bitAnd => operate (fun x y => some (x &&& y)) a c
  | .notEqual => operate (compare (· ≠ ·)) a c
  | .equal => operate (compare (· = ·)) a c
  | .greaterOrEqual => operate (compare (· ≥ ·)) a c
  | .lessOrEqual => operate (compare (· ≤ ·)) a c
  | .greater => operate (compare (· > ·)) a c
  | .less => operate (compare (· < ·)) a c
  | .rightShift => operate Signed.shiftRight a c
  | .leftShift => operate Signed.shiftLeft a c
  | .minus => operate Signed.sub a c
  | .plus => operate Signed.add a c
  | .modulus => operateNonzero Signed.mod "zero modulus in preprocessor directive".toList a c
  | .divide => operateNonzero Signed.div "division by 0 in preprocessor directive".toList a c
  | .times => operate Signed.mul a c

def expressionActions (isGles : Bool) :
    Precedence.Actions Eval ExpressionValue Atom Unary Binary where
  leaf := expressionAtom isGles
  unary := expressionUnary
  binary := expressionBinary

/-! ### The stack of conditionals -/

inductive SkipType where
  | noSkip
  | toElse
  | toEndif
  deriving DecidableEq

structure SkipNode where
  type : SkipType
  hasElse : Bool
  deriving DecidableEq

structure Parser where
  skipStack : List SkipNode
  isGles : Bool
  deriving DecidableEq

/-- `parser->skip_stack == NULL || parser->skip_stack->type == SKIP_NO_SKIP` -/
def Parser.reads (parser : Parser) : Bool :=
  match parser.skipStack with
  | [] => true
  | node :: _ => node.type = .noSkip

/-- `_glcpp_parser_skip_stack_push_if` -/
def skipStackPushIf (parser : Parser) (condition : Int32) : Parser :=
  let type : SkipType :=
    if parser.reads then
      if condition ≠ 0 then .noSkip else .toElse
    else .toEndif
  { parser with skipStack := { type, hasElse := false } :: parser.skipStack }

/-- `_glcpp_parser_skip_stack_change_if` -/
def skipStackChangeIf (parser : Parser) (type : Text) (condition : Int32) : Eval Parser :=
  match parser.skipStack with
  | [] => do
    glcppError ("#".toList ++ type ++ " without #if\n".toList)
    pure parser
  | node :: stack =>
    if node.type = .toElse then
      if condition ≠ 0 then
        pure { parser with skipStack := { node with type := .noSkip } :: stack }
      else pure parser
    else pure { parser with skipStack := { node with type := .toEndif } :: stack }

/-! ### The lines -/

inductive Directive where
  | ifLine
  | elifLine
  deriving DecidableEq

/-- `glcpp_parser_lex_from`: the tokens that are not spaces are read again. -/
def lexFrom (list : List Token) : List Lexeme :=
  (list.map Token.lexeme).filter (· ≠ .space)

/-- The actions of `expanded_line`.  The result is nothing when the tokens are no expression. -/
def expandedLine (directive : Directive) (parser : Parser) (expression : List Lexeme) :
    Eval (Option Parser) := do
  match ← Precedence.parse language (expressionActions parser.isGles) expression with
  | none => pure none
  | some v =>
    if parser.isGles then
      if let some undefinedMacro := v.undefinedMacro then
        glcppError ("undefined macro ".toList ++ undefinedMacro ++
          " in expression (illegal in GLES)".toList)
    -- the value becomes an `int` here
    let condition := v.value.toInt32
    match directive with
    | .ifLine => pure (some (skipStackPushIf parser condition))
    | .elifLine => some <$> skipStackChangeIf parser "elif".toList condition

/-- The action for `#if`, with the tokens that its line is expanded to. -/
def ifLine (parser : Parser) (expanded : List Token) : Eval (Option Parser) :=
  if parser.reads then expandedLine .ifLine parser (lexFrom expanded)
  else
    let parser := skipStackPushIf parser 0
    let skip (node : SkipNode) : SkipNode := { node with type := .toEndif }
    pure (some { parser with skipStack := parser.skipStack.modifyHead skip })

/-- The action for `#elif`, with the tokens that its line is expanded to. -/
def elifLine (parser : Parser) (expanded : List Token) : Eval (Option Parser) :=
  if (parser.skipStack.head?.map SkipNode.type) = some .toElse then
    expandedLine .elifLine parser (lexFrom expanded)
  else if (parser.skipStack.head?.map SkipNode.hasElse) = some true then do
    glcppError "#elif after #else".toList
    pure (some parser)
  else some <$> skipStackChangeIf parser "elif".toList 0

/-- The action for a line. -/
def conditionalLine (directive : Directive) (parser : Parser) (expanded : List Token) :
    Eval (Option Parser) :=
  match directive with
  | .ifLine => ifLine parser expanded
  | .elifLine => elifLine parser expanded

end Glcpp
