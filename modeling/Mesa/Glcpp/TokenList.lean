import Mesa.Glcpp.Token
import Mathlib.Data.List.DropRight

/-!
# Token lists of the preprocessor

A list of `glcpp-parse.y` is linked through its nodes, and has pointers to its first node, its last
node and the last of its nodes that is not a space.  Here the first pointer is given by the nodes
that are reached from it.  A node is known by its address, and addresses are never used twice.
-/

namespace Glcpp

structure Node where
  id : ℕ
  token : Token
  deriving DecidableEq

def Node.isSpace (node : Node) : Bool := node.token.lexeme = .space

/-- The nodes that are reached after the `next` pointer of a node is set, with the nodes that are
reached through the new pointer. -/
def setNext : List Node → ℕ → List Node → List Node
  | [], _, _ => []
  | node :: nodes, id, more =>
    if node.id = id then node :: more else node :: setNext nodes id more

structure TokenList where
  /-- the nodes that are reached from `head` -/
  nodes : List Node
  tail : Option ℕ
  nonSpaceTail : Option ℕ
  deriving DecidableEq

/-- `_token_list_create` -/
def TokenList.create : TokenList := ⟨[], none, none⟩

/-- The nodes after `list->tail->next` is set. -/
def TokenList.link (list : TokenList) (more : List Node) : List Node :=
  match list.tail with
  | some tail => setNext list.nodes tail more
  | none => list.nodes

/-- A macro that is being expanded, with the node behind its expansion. -/
structure ActiveNode where
  id : ℕ
  identifier : Text
  marker : Option ℕ
  deriving DecidableEq

/-- What expansion changes of a parser, with the next unused address. -/
structure ExpandState where
  active : List ActiveNode
  fresh : ℕ
  infoLog : List Text
  deriving DecidableEq

/-- `glcpp_error` -/
def ExpandState.error (s : ExpandState) (message : Text) : ExpandState :=
  { s with infoLog := s.infoLog ++ [message] }

/-- `_token_list_append` -/
def tokenListAppend (list : TokenList) (token : Token) (s : ExpandState) :
    TokenList × ExpandState :=
  let node : Node := ⟨s.fresh, token⟩
  ({ nodes := if list.nodes = [] then [node] else list.link [node]
     tail := some node.id
     nonSpaceTail := if node.isSpace then list.nonSpaceTail else some node.id },
   { s with fresh := s.fresh + 1 })

/-- `_token_list_append_list` -/
def tokenListAppendList (list tail : TokenList) : TokenList :=
  if tail.nodes = [] then list
  else
    { nodes := if list.nodes = [] then tail.nodes else list.link tail.nodes
      tail := tail.tail
      nonSpaceTail := tail.nonSpaceTail }

/-- Append tokens one by one. -/
def tokenListAppendAll (list : TokenList) : List Token → ExpandState → TokenList × ExpandState
  | [], s => (list, s)
  | token :: tokens, s =>
    let (list, s) := tokenListAppend list token s
    tokenListAppendAll list tokens s

/-- `_token_list_copy` -/
def tokenListCopy (tokens : List Token) (s : ExpandState) : TokenList × ExpandState :=
  tokenListAppendAll .create tokens s

/-- `_token_list_trim_trailing_space` -/
def trimTrailingSpace (list : TokenList) : TokenList :=
  match list.nonSpaceTail with
  | some last => { list with nodes := setNext list.nodes last [], tail := some last }
  | none => list

/-- A list with one token that is made for it, which has no location. -/
def tokenListCreateWithOne (lexeme : Lexeme) (s : ExpandState) : TokenList × ExpandState :=
  tokenListAppend .create ⟨lexeme, ⟨0, 0⟩⟩ s

/-! ### Pasting -/

/-- The text of an integer. -/
def decimal (ival : Int32) : Text := (toString ival.toInt).toList

/-- `_token_print` -/
def tokenPrint : Lexeme → Text
  | .punctuation c => [c]
  | .integer ival => decimal ival
  | .identifier str | .integerString str | .other str => str
  | .space => [' ']
  | .leftShift => ['<', '<']
  | .rightShift => ['>', '>']
  | .lessOrEqual => ['<', '=']
  | .greaterOrEqual => ['>', '=']
  | .equal => ['=', '=']
  | .notEqual => ['!', '=']
  | .and => ['&', '&']
  | .or => ['|', '|']
  | .paste => ['#', '#']
  | .plusPlus => ['+', '+']
  | .minusMinus => ['-', '-']
  | .defined => "defined".toList
  | .placeholder => []

/-- The punctuators that are pasted to one token. -/
def combinePunctuation : Char → Char → Option Lexeme
  | '<', '<' => some .leftShift
  | '<', '=' => some .lessOrEqual
  | '>', '>' => some .rightShift
  | '>', '=' => some .greaterOrEqual
  | '=', '=' => some .equal
  | '!', '=' => some .notEqual
  | '&', '&' => some .and
  | '|', '|' => some .or
  | _, _ => none

/-- The text of a token that can be mashed together with another one. -/
def mashText : Lexeme → Option Text
  | .identifier str | .other str | .integerString str => some str
  | .integer ival => some (decimal ival)
  | _ => none

/-- Nothing but digits may be pasted onto an integer. -/
def pasteable : Lexeme → Lexeme → Bool
  | .integerString _, .integerString str | .integer _, .integerString str =>
    match str with
    | c :: _ => '0' ≤ c && c ≤ '9'
    | [] => false
  | .integerString _, .integer ival | .integer _, .integer ival => 0 ≤ ival
  | .integerString _, _ | .integer _, _ => false
  | _, _ => true

/-- A token of the type of another one, which is the type of a string. -/
def withText : Lexeme → Text → Lexeme
  | .identifier _, str => .identifier str
  | .other _, str => .other str
  | _, str => .integerString str

/-- The token that two tokens are combined to, when they can be. -/
def combine (token other : Lexeme) : Option Lexeme :=
  match token, other with
  | .punctuation c, .punctuation d => combinePunctuation c d
  | _, _ =>
    match mashText token, mashText other with
    | some str, some str' =>
      if pasteable token other then some (withText token (str ++ str')) else none
    | _, _ => none

/-- `_token_paste`, with the message when the tokens can not be pasted. -/
def tokenPaste (token other : Token) : Token × Option Text :=
  if other.lexeme = .placeholder then (token, none)
  else if token.lexeme = .placeholder then (other, none)
  else
    match combine token.lexeme other.lexeme with
    | some lexeme => (⟨lexeme, token.location⟩, none)
    | none =>
      (token, some ("Pasting \"".toList ++ tokenPrint token.lexeme ++ "\" and \"".toList ++
        tokenPrint other.lexeme ++ "\" does not give a valid preprocessing token.\n".toList))

/-- What is left of a list from a node on, when its pastes have been applied. -/
structure Pasted where
  nodes : List Node
  tail : Option ℕ
  messages : List Text
  /-- whether the end of the list was reached -/
  complete : Bool

/-- Put a node and the nodes behind it in front. -/
def Pasted.before (front : List Node) (p : Pasted) : Pasted := { p with nodes := front ++ p.nodes }

/-- The loop of `_glcpp_parser_apply_pastes` at a node, when `skipped` has been read behind it.  The
token of the node is pasted with the next one when there was a `PASTE`. -/
def pasteLoop (tail : Option ℕ) (node : Node) (skipped : List Node) (pasting : Bool) :
    List Node → Pasted
  | [] =>
    if pasting then
      { nodes := node :: skipped, tail, complete := false
        messages := ["'##' cannot appear at either end of a macro expansion\n".toList] }
    else { nodes := node :: skipped, tail, complete := true, messages := [] }
  | next :: rest =>
    if next.isSpace then pasteLoop tail node (skipped ++ [next]) pasting rest
    else if pasting then
      let (token, message) := tokenPaste node.token next.token
      let tail := if some next.id = tail then some node.id else tail
      let pasted := pasteLoop tail { node with token } [] false rest
      { pasted with messages := message.toList ++ pasted.messages }
    else if next.token.lexeme = .paste then
      pasteLoop tail node (skipped ++ [next]) true rest
    else (pasteLoop tail next [] false rest).before (node :: skipped)

/-- `_glcpp_parser_apply_pastes` -/
def applyPastes (list : TokenList) (s : ExpandState) : TokenList × ExpandState :=
  match list.nodes with
  | [] => ({ list with nonSpaceTail := list.tail }, s)
  | node :: rest =>
    let pasted := pasteLoop list.tail node [] false rest
    ({ nodes := pasted.nodes, tail := pasted.tail
       nonSpaceTail := if pasted.complete then pasted.tail else list.nonSpaceTail },
     { s with infoLog := s.infoLog ++ pasted.messages })

/-! ### Arguments -/

inductive FunctionStatus where
  /-- the arguments, the nodes up to the closing parenthesis, and those behind it -/
  | success (arguments : List (List Token)) (consumed rest : List Node)
  | notAFunction
  | unbalancedParentheses

/-- The loop of `_arguments_parse`, with the arguments before the current one. -/
def argumentsLoop (parenCount : ℕ) (arguments : List (List Token)) (argument : List Token)
    (consumed : List Node) : List Node → FunctionStatus
  | [] => .unbalancedParentheses
  | node :: nodes =>
    let consumed := consumed ++ [node]
    -- white space at the start is not part of an argument
    let longer := if argument = [] ∧ node.isSpace then [] else argument ++ [node.token]
    match node.token.lexeme with
    | .punctuation '(' => argumentsLoop (parenCount + 1) arguments longer consumed nodes
    | .punctuation ')' =>
      if parenCount = 1 then .success (arguments ++ [argument]) consumed nodes
      else argumentsLoop (parenCount - 1) arguments longer consumed nodes
    | .punctuation ',' =>
      if parenCount = 1 then
        let trimmed := argument.rdropWhile (·.lexeme = .space)
        argumentsLoop parenCount (arguments ++ [trimmed]) [] consumed nodes
      else argumentsLoop parenCount arguments longer consumed nodes
    | _ => argumentsLoop parenCount arguments longer consumed nodes

/-- `_arguments_parse`, on the nodes behind the name of the macro. -/
def argumentsParse (nodes : List Node) : FunctionStatus :=
  let spaces := nodes.takeWhile Node.isSpace
  match nodes.dropWhile Node.isSpace with
  | [] => .notAFunction
  | node :: rest =>
    if node.token.lexeme = .punctuation '(' then
      argumentsLoop 1 [] [] (spaces ++ [node]) rest
    else .notAFunction

end Glcpp
