import Mesa.Glcpp.Expression

/-!
# Skipped lines

The lexer does not return the tokens of a line that is skipped.  Whether it skips is derived from
the stack that the directives `#if`, `#ifdef`, `#ifndef`, `#elif`, `#else` and `#endif` of
`glcpp-parse.y` keep, unless the line is such a directive itself.  The stack is compared with the
groups of lines that conditional inclusion in C selects.
-/

namespace Glcpp

/-! ### The lines and the lexer -/

/-- The condition of `#if` or `#elif`: its tokens, and the `int` that they are evaluated to and the
messages that are written meanwhile, should they be evaluated. -/
structure Condition where
  tokens : List Token
  value : Int32
  messages : List Text

/-- A line that is a directive of a conditional, or any other line. -/
inductive Line where
  | text
  | ifLine (condition : Condition)
  | ifdefLine (defined : Bool) (junk : List Token)
  | ifndefLine (defined : Bool) (junk : List Token)
  | elifLine (condition : Condition)
  | elseLine
  | endifLine

/-- The members of `glcpp_parser` that decide about skipping, with the conditions that have been
expanded and evaluated, and the warnings. -/
structure Lexer where
  parser : Parser
  lexingDirective : Bool
  skipping : Bool
  expanded : List (List Token)
  warnings : List Text

/-- What is done before a token is read. -/
def Lexer.setUp (lexer : Lexer) : Lexer :=
  { lexer with skipping := !lexer.parser.reads && !lexer.lexingDirective }

/-- The tokens in front of the end of the line, those that are returned to the parser. -/
def Lexer.lexTokens (lexer : Lexer) : List Token → Lexer × List Token
  | [] => (lexer, [])
  | token :: tokens =>
    let lexer := lexer.setUp
    let (lexer', returned) := lexer.lexTokens tokens
    (lexer', if lexer.skipping then returned else token :: returned)

/-- `NEWLINE` -/
def Lexer.newline (lexer : Lexer) : Lexer := { lexer.setUp with lexingDirective := false }

/-- `HASH_TOKEN`, and the name of a directive that has tokens behind it. -/
def Lexer.directive (lexer : Lexer) : Lexer := { lexer.setUp.setUp with lexingDirective := true }

/-! ### The actions -/

/-- `_glcpp_parser_skip_stack_pop` -/
def skipStackPop (parser : Parser) : Eval Parser :=
  match parser.skipStack with
  | [] => do
    glcppError "#endif without #if\n".toList
    pure parser
  | _ :: stack => pure { parser with skipStack := stack }

/-- A condition is expanded and evaluated. -/
def Lexer.expand (lexer : Lexer) (tokens : List Token) (condition : Condition) : Eval Lexer := do
  modify (· ++ condition.messages)
  pure { lexer with expanded := lexer.expanded ++ [tokens] }

/-- `HASH_TOKEN IF pp_tokens NEWLINE` and `HASH_TOKEN IF NEWLINE`. -/
def ifAction (lexer : Lexer) (tokens : List Token) (condition : Condition) : Eval Lexer :=
  if tokens ≠ [] then
    if lexer.parser.reads then do
      let lexer ← lexer.expand tokens condition
      pure { lexer with parser := skipStackPushIf lexer.parser condition.value }
    else
      let parser := skipStackPushIf lexer.parser 0
      let skip (node : SkipNode) : SkipNode := { node with type := .toEndif }
      pure { lexer with
        parser := { parser with skipStack := parser.skipStack.modifyHead skip } }
  else do
    if lexer.parser.reads then
      glcppError "#if with no expression".toList
    pure { lexer with parser := skipStackPushIf lexer.parser 0 }

/-- `HASH_TOKEN ELIF pp_tokens NEWLINE` and `HASH_TOKEN ELIF NEWLINE`. -/
def elifAction (lexer : Lexer) (tokens : List Token) (condition : Condition) : Eval Lexer :=
  if tokens ≠ [] then
    if lexer.parser.skipStack.head?.map SkipNode.type = some .toElse then do
      let lexer ← lexer.expand tokens condition
      let parser ← skipStackChangeIf lexer.parser "elif".toList condition.value
      pure { lexer with parser }
    else if lexer.parser.skipStack.head?.map SkipNode.hasElse = some true then do
      glcppError "#elif after #else".toList
      pure lexer
    else do
      let parser ← skipStackChangeIf lexer.parser "elif".toList 0
      pure { lexer with parser }
  else
    if lexer.parser.skipStack.head?.map SkipNode.type = some .toElse then do
      glcppError "#elif with no expression".toList
      pure lexer
    else if lexer.parser.skipStack.head?.map SkipNode.hasElse = some true then do
      glcppError "#elif after #else".toList
      pure lexer
    else do
      let parser ← skipStackChangeIf lexer.parser "elif".toList 0
      pure { lexer with
        parser
        warnings := lexer.warnings ++ ["ignoring illegal #elif without expression".toList] }

/-- The second action of `HASH_TOKEN ELSE NEWLINE`. -/
def elseAction (lexer : Lexer) : Eval Lexer :=
  if lexer.parser.skipStack.head?.map SkipNode.hasElse = some true then do
    glcppError "multiple #else".toList
    pure lexer
  else do
    let parser ← skipStackChangeIf lexer.parser "else".toList 1
    let close (node : SkipNode) : SkipNode := { node with hasElse := true }
    pure { lexer with
      parser := { parser with skipStack := parser.skipStack.modifyHead close } }

/-- `junk`, with what precedes it on the line and with the end of the line. -/
def Lexer.junk (lexer : Lexer) (tokens : List Token) : Eval Lexer := do
  let (lexer, tokens) := lexer.directive.lexTokens tokens
  if tokens ≠ [] then
    glcppError "extra tokens at end of directive".toList
  pure lexer.newline

/-- The lexer and the parser at a line. -/
def readLine (lexer : Lexer) : Line → Eval Lexer
  | .text => pure lexer.setUp.newline
  | .ifLine condition =>
    let (lexer, tokens) := lexer.directive.lexTokens condition.tokens
    ifAction lexer.newline tokens condition
  | .ifdefLine defined junk => do
    let lexer ← lexer.junk junk
    pure { lexer with
      parser := skipStackPushIf lexer.parser (if defined then 1 else 0) }
  | .ifndefLine defined junk => do
    let lexer ← lexer.junk junk
    pure { lexer with
      parser := skipStackPushIf lexer.parser (if defined then 0 else 1) }
  | .elifLine condition =>
    let (lexer, tokens) := lexer.directive.lexTokens condition.tokens
    elifAction lexer.newline tokens condition
  -- the parser sets the bit before the lexer goes on behind the name
  | .elseLine => elseAction lexer.directive.newline
  -- the stack is popped before the end of the line is read
  | .endifLine => do
    let lexer := lexer.setUp.setUp
    let parser ← skipStackPop lexer.parser
    pure { lexer with parser }.newline

/-- The lexer and the parser at some lines. -/
def readLines (lines : List Line) (lexer : Lexer) : Eval Lexer := lines.foldlM readLine lexer

/-- `glcpp_parser_create` -/
def Lexer.create (isGles : Bool) : Lexer where
  parser := { skipStack := [], isGles }
  lexingDirective := false
  skipping := false
  expanded := []
  warnings := []

/-! ### Conditional inclusion -/

/-- A conditional that is open: the conditions of its groups so far, the latest one first, where
that of `#else` holds.  A conditional that has a group behind `#else` has a condition that holds. -/
structure Conditional where
  groups : List Bool
  hasElse : Bool
  closed : hasElse = true → true ∈ groups

/-- The latest group is taken: its condition is the first one that holds. -/
def Conditional.Selected (c : Conditional) : Prop :=
  c.groups.head? = some true ∧ true ∉ c.groups.tail

instance (c : Conditional) : Decidable c.Selected := inferInstanceAs (Decidable (_ ∧ _))

/-- A line is included when the group that it is in is taken, and those around it. -/
def Included (opened : List Conditional) : Prop := ∀ c ∈ opened, c.Selected

instance (opened : List Conditional) : Decidable (Included opened) :=
  inferInstanceAs (Decidable (∀ c ∈ opened, c.Selected))

/-- The condition of a directive holds. -/
def Condition.holds (condition : Condition) : Bool := condition.tokens ≠ [] ∧ condition.value ≠ 0

/-- A conditional with its first group. -/
def Conditional.first (condition : Bool) : Conditional where
  groups := [condition]
  hasElse := false
  closed := by simp

/-- A conditional at `#elif`.  The directive is ignored behind `#else`. -/
def Conditional.next (condition : Bool) (c : Conditional) : Conditional :=
  if c.hasElse then c
  else { c with
    groups := condition :: c.groups
    closed := fun h => List.mem_cons_of_mem _ (c.closed h) }

/-- A conditional at `#else`.  The directive is ignored behind another `#else`. -/
def Conditional.last (c : Conditional) : Conditional :=
  if c.hasElse then c
  else { groups := true :: c.groups, hasElse := true, closed := by simp }

/-- The conditionals that are open behind a line. -/
def follow (opened : List Conditional) : Line → List Conditional
  | .text => opened
  | .ifLine condition => .first condition.holds :: opened
  | .ifdefLine defined _ => .first defined :: opened
  | .ifndefLine defined _ => .first (!defined) :: opened
  | .elifLine condition => opened.modifyHead (.next condition.holds)
  | .elseLine => opened.modifyHead .last
  | .endifLine => opened.tail

/-- The groups around a directive are taken, and no earlier group of its conditional is. -/
def Decides (opened : List Conditional) : Line → Prop
  | .ifLine _ => Included opened
  | .elifLine _ =>
    match opened with
    | [] => False
    | c :: enclosing => Included enclosing ∧ true ∉ c.groups
  | _ => False

instance (opened : List Conditional) (line : Line) : Decidable (Decides opened line) :=
  match line with
  | .ifLine _ => inferInstanceAs (Decidable (Included opened))
  | .elifLine _ =>
    match opened with
    | [] => instDecidableFalse
    | _ :: _ => inferInstanceAs (Decidable (_ ∧ _))
  | .text | .ifdefLine .. | .ifndefLine .. | .elseLine | .endifLine => instDecidableFalse

/-- The condition of a line, when there is one. -/
def Line.condition : Line → List (List Token)
  | .ifLine condition | .elifLine condition =>
    if condition.tokens ≠ [] then [condition.tokens] else []
  | .text | .ifdefLine .. | .ifndefLine .. | .elseLine | .endifLine => []

/-- What is wrong with a directive that continues or closes a conditional. -/
def misplaced (opened : List Conditional) : Line → Option Text
  | .elifLine _ =>
    match opened with
    | [] => some "#elif without #if\n".toList
    | c :: _ => if c.hasElse then some "#elif after #else".toList else none
  | .elseLine =>
    match opened with
    | [] => some "#else without #if\n".toList
    | c :: _ => if c.hasElse then some "multiple #else".toList else none
  | .endifLine =>
    match opened with
    | [] => some "#endif without #if\n".toList
    | _ :: _ => none
  | .text | .ifLine _ | .ifdefLine .. | .ifndefLine .. => none

/-- At a line, the lexer and the parser do what conditional inclusion asks for. -/
structure Conforms (opened : List Conditional) (line : Line) (before after : Lexer)
    (reports : List Text) : Prop where
  skipping : line = .text → (after.skipping = true ↔ ¬ Included opened)
  expanded : after.expanded = before.expanded ++ if Decides opened line then line.condition else []
  misplaced : ∀ message, misplaced opened line = some message →
    message ∈ reports ∧ after.parser = before.parser

/-! ### The evaluation of a condition -/

theorem bind_eq {α β : Type} {x : Eval α} {f : α → Eval β} {a : α} {log log' : List Text}
    (run : x log = some (a, log')) :
  (x >>= f) log = f a log'
  := by
  change (x log).bind _ = _
  rw [run]
  rfl

theorem expand_eq (lexer : Lexer) (tokens : List Token) (condition : Condition) (log : List Text) :
  lexer.expand tokens condition log =
    some ({ lexer with expanded := lexer.expanded ++ [tokens] }, log ++ condition.messages)
  := by
  rfl

/-! ### The stack and the groups -/

/-- The node of a conditional. -/
def nodeOf (enclosing : List Conditional) (c : Conditional) : SkipNode where
  type :=
    if ¬ Included enclosing then .toEndif
    else if c.Selected then .noSkip
    else if true ∈ c.groups then .toEndif
    else .toElse
  hasElse := c.hasElse

def skipNodes : List Conditional → List SkipNode
  | [] => []
  | c :: enclosing => nodeOf enclosing c :: skipNodes enclosing

theorem included_cons {c : Conditional} {enclosing : List Conditional} :
  Included (c :: enclosing) ↔ c.Selected ∧ Included enclosing
  := by
  apply List.forall_mem_cons

/-- A group that is taken has a condition that holds. -/
theorem Conditional.Selected.mem {c : Conditional} (selected : c.Selected) :
  true ∈ c.groups
  := by
  apply List.mem_of_mem_head?
  rw [selected.1]
  rfl

theorem nodeOf_type_noSkip {enclosing : List Conditional} {c : Conditional} :
  (nodeOf enclosing c).type = .noSkip ↔ Included (c :: enclosing)
  := by
  rw [included_cons]
  by_cases included : Included enclosing
  · by_cases selected : c.Selected
    · simp [nodeOf, included, selected]
    · by_cases taken : true ∈ c.groups <;> simp [nodeOf, included, selected, taken]
  · simp [nodeOf, included]

theorem nodeOf_type_toElse {enclosing : List Conditional} {c : Conditional} :
  (nodeOf enclosing c).type = .toElse ↔ Included enclosing ∧ true ∉ c.groups
  := by
  by_cases included : Included enclosing
  · by_cases taken : true ∈ c.groups
    · by_cases selected : c.Selected <;> simp [nodeOf, included, selected, taken]
    · have unselected : ¬ c.Selected := fun selected => taken selected.mem
      simp [nodeOf, included, unselected, taken]
  · simp [nodeOf, included]

/-- The parser reads what is included. -/
theorem reads_iff {parser : Parser} {opened : List Conditional}
    (stack : parser.skipStack = skipNodes opened) :
  parser.reads = true ↔ Included opened
  := by
  unfold Parser.reads
  rw [stack]
  cases opened with
  | nil => simp [skipNodes, Included]
  | cons c enclosing =>
    rw [← nodeOf_type_noSkip]
    simp [skipNodes]

theorem selected_first {condition : Bool} :
  (Conditional.first condition).Selected ↔ condition = true
  := by
  simp [Conditional.Selected, Conditional.first]

theorem groups_first {condition : Bool} :
  (Conditional.first condition).groups = [condition]
  := by
  rfl

theorem groups_next {c : Conditional} (condition : Bool) (isOpen : c.hasElse = false) :
  (c.next condition).groups = condition :: c.groups
  := by
  simp [Conditional.next, isOpen]

theorem hasElse_next {c : Conditional} (condition : Bool) :
  (c.next condition).hasElse = c.hasElse
  := by
  unfold Conditional.next
  split <;> rfl

theorem groups_last {c : Conditional} (isOpen : c.hasElse = false) :
  c.last.groups = (c.next true).groups
  := by
  simp [Conditional.last, Conditional.next, isOpen]

theorem hasElse_last {c : Conditional} :
  c.last.hasElse = true
  := by
  unfold Conditional.last
  split
  · assumption
  · rfl

/-- The node that is pushed is that of a conditional with its first group. -/
theorem skipStack_pushIf {parser : Parser} {opened : List Conditional} (value : Int32)
    (stack : parser.skipStack = skipNodes opened) :
  (skipStackPushIf parser value).skipStack = skipNodes (.first (value ≠ 0) :: opened)
  := by
  have reads := reads_iff stack
  rw [skipNodes, ← stack]
  apply congrArg (List.cons · _)
  by_cases included : Included opened
  · rw [if_pos (reads.mpr included)]
    by_cases zero : value = 0
    · simp [nodeOf, included, zero, selected_first, groups_first]
      rfl
    · simp [nodeOf, included, zero, selected_first]
      rfl
  · rw [if_neg (mt reads.mp included)]
    simp [nodeOf, included]
    rfl

/-- A group behind one that has been taken, or in lines that are skipped, is skipped whatever its
condition is. -/
theorem nodeOf_next_of_taken {enclosing : List Conditional} {c : Conditional} (condition : Bool)
    (isOpen : c.hasElse = false) (taken : ¬ (Included enclosing ∧ true ∉ c.groups)) :
  nodeOf enclosing (c.next condition) = { nodeOf enclosing c with type := .toEndif }
  := by
  by_cases included : Included enclosing
  · have mem : true ∈ c.groups := by
      by_contra absent
      apply taken ⟨included, absent⟩
    have unselected : ¬ (c.next condition).Selected := by
      simp [Conditional.Selected, groups_next condition isOpen, mem]
    simp [nodeOf, included, unselected, groups_next condition isOpen, mem, hasElse_next]
  · simp [nodeOf, included, hasElse_next]

/-- A group behind groups that have not been taken is taken when its condition holds. -/
theorem nodeOf_next_of_untaken {enclosing : List Conditional} {c : Conditional} (condition : Bool)
    (isOpen : c.hasElse = false) (included : Included enclosing) (untaken : true ∉ c.groups) :
  nodeOf enclosing (c.next condition) =
    { nodeOf enclosing c with type := if condition then .noSkip else .toElse }
  := by
  have selected : (c.next condition).Selected ↔ condition = true := by
    simp [Conditional.Selected, groups_next condition isOpen, untaken]
  cases condition <;>
    simp [nodeOf, included, selected, groups_next _ isOpen, untaken, hasElse_next]

/-- What `#elif` and `#else` do to a conditional without `#else`; the value of the condition matters
only where no group has been taken. -/
theorem changeIf_next {parser : Parser} {enclosing : List Conditional} {c : Conditional}
    (condition : Bool) (value : Int32) (type : Text) (log : List Text)
    (stack : parser.skipStack = skipNodes (c :: enclosing)) (isOpen : c.hasElse = false)
    (agrees : Included enclosing → true ∉ c.groups → (condition = true ↔ value ≠ 0)) :
  skipStackChangeIf parser type value log =
    some ({ parser with skipStack := skipNodes (c.next condition :: enclosing) }, log)
  := by
  rw [skipNodes] at stack
  simp only [skipStackChangeIf, stack, nodeOf_type_toElse]
  by_cases untaken : Included enclosing ∧ true ∉ c.groups
  · rw [if_pos untaken, skipNodes, nodeOf_next_of_untaken condition isOpen untaken.1 untaken.2]
    by_cases zero : value = 0
    · have unmet : condition = false := by
        simpa [zero] using agrees untaken.1 untaken.2
      have toElse := nodeOf_type_toElse.mpr untaken
      simp only [zero, ne_eq, not_true, ↓reduceIte, unmet, Bool.false_eq_true, ← toElse, ← stack]
      rfl
    · have met : condition = true := (agrees untaken.1 untaken.2).mpr zero
      rw [if_pos zero, met]
      rfl
  · rw [if_neg untaken, skipNodes, nodeOf_next_of_taken condition isOpen untaken]
    rfl

/-! ### The lines -/

/-- Between two lines, the stack is that of the open conditionals. -/
structure Simulates (lexer : Lexer) (opened : List Conditional) : Prop where
  stack : lexer.parser.skipStack = skipNodes opened
  lexingDirective : lexer.lexingDirective = false

/-- No token is skipped behind the name of a directive. -/
theorem lexTokens_returned (lexer : Lexer) (directive : lexer.lexingDirective = true)
    (tokens : List Token) :
  ∃ skipping, lexer.lexTokens tokens = ({ lexer with skipping }, tokens)
  := by
  induction tokens generalizing lexer with
  | nil =>
    use lexer.skipping
    rfl
  | cons token tokens ih =>
    obtain ⟨skipping, rest⟩ := ih lexer.setUp directive
    use skipping
    have reads : lexer.setUp.skipping = false := by
      simp [Lexer.setUp, directive]
    simp only [Lexer.lexTokens, rest, reads, Bool.false_eq_true, ↓reduceIte]
    rfl

/-- The tokens of a directive are read up to the end of the line. -/
theorem directive_lexTokens (lexer : Lexer) (tokens : List Token) :
  (lexer.directive.lexTokens tokens).2 = tokens ∧
  (lexer.directive.lexTokens tokens).1.newline =
    { lexer with lexingDirective := false, skipping := false }
  := by
  obtain ⟨skipping, returned⟩ := lexTokens_returned lexer.directive rfl tokens
  rw [returned]
  constructor
  · rfl
  · simp [Lexer.newline, Lexer.setUp, Lexer.directive]

/-- The run of a line, what it leaves, and what it reports. -/
def Follows (opened : List Conditional) (line : Line) (before : Lexer) (log : List Text) : Prop :=
  ∃ after reports, readLine before line log = some (after, log ++ reports) ∧
    Simulates after (follow opened line) ∧ Conforms opened line before after reports

theorem text_follows {lexer : Lexer} {opened : List Conditional}
    (simulates : Simulates lexer opened) (log : List Text) :
  Follows opened .text lexer log
  := by
  use lexer.setUp.newline, []
  refine ⟨?_, ⟨simulates.stack, rfl⟩, ?_, ?_, ?_⟩
  · rw [List.append_nil]
    rfl
  · intro _
    rw [← reads_iff simulates.stack]
    simp [Lexer.newline, Lexer.setUp, simulates.lexingDirective]
  · simp [Lexer.newline, Lexer.setUp, Line.condition]
  · intro _ h
    cases h

/-- A directive that is in its place conforms when the right conditions are expanded. -/
theorem conforms_of_placed {opened : List Conditional} {line : Line} {before after : Lexer}
    {reports : List Text} (directive : line ≠ .text) (placed : misplaced opened line = none)
    (expanded :
      after.expanded = before.expanded ++ if Decides opened line then line.condition else []) :
  Conforms opened line before after reports
  := by
  refine ⟨fun h => absurd h directive, expanded, ?_⟩
  intro message h
  rw [placed] at h
  cases h

/-- A directive that is not in its place conforms when it is reported and does nothing. -/
theorem conforms_of_misplaced {opened : List Conditional} {line : Line} {before after : Lexer}
    {reports : List Text} {message : Text} (wrong : misplaced opened line = some message)
    (reported : message ∈ reports) (parser : after.parser = before.parser)
    (directive : line ≠ .text) (undecided : ¬ Decides opened line)
    (expanded : after.expanded = before.expanded) :
  Conforms opened line before after reports
  := by
  refine ⟨fun h => absurd h directive, ?_, ?_⟩
  · rw [if_neg undecided, List.append_nil]
    apply expanded
  · intro message' h
    obtain rfl := Option.some.inj (wrong.symm.trans h)
    apply And.intro reported parser

/-- The node that is pushed in lines that are skipped, whatever the condition is. -/
theorem skipStack_pushIf_skipped {parser : Parser} {opened : List Conditional} (condition : Bool)
    (stack : parser.skipStack = skipNodes opened) (excluded : ¬ Included opened) :
  (skipStackPushIf parser 0).skipStack.modifyHead (fun node => { node with type := .toEndif }) =
    skipNodes (.first condition :: opened)
  := by
  rw [skipStack_pushIf 0 stack]
  simp [skipNodes, nodeOf, excluded]
  rfl

/-- `#if` -/
theorem ifLine_follows {lexer : Lexer} {opened : List Conditional}
    (simulates : Simulates lexer opened) (condition : Condition) (log : List Text) :
  Follows opened (.ifLine condition) lexer log
  := by
  have reads := reads_iff simulates.stack
  have directive : Line.ifLine condition ≠ .text := by
    intro h
    cases h
  obtain ⟨returned, newline⟩ := directive_lexTokens lexer condition.tokens
  unfold Follows
  simp only [readLine]
  rw [returned, newline]
  unfold ifAction
  by_cases tokens : condition.tokens = []
  · have unmet : condition.holds = false := by
      simp [Condition.holds, tokens]
    rw [if_neg (not_not.mpr tokens)]
    have pushed := skipStack_pushIf 0 simulates.stack
    by_cases included : Included opened
    · rw [if_pos (reads.mpr included)]
      refine ⟨_, _, rfl, ⟨?_, rfl⟩, conforms_of_placed directive rfl ?_⟩
      · rw [follow, unmet]
        apply pushed
      · simp [Line.condition, tokens]
    · rw [if_neg (mt reads.mp included)]
      refine ⟨_, [], by rw [List.append_nil]; rfl, ⟨?_, rfl⟩, conforms_of_placed directive rfl ?_⟩
      · rw [follow, unmet]
        apply pushed
      · simp [Line.condition, tokens]
  · rw [if_pos tokens]
    by_cases included : Included opened
    · rw [if_pos (reads.mpr included)]
      refine ⟨_, condition.messages, rfl, ⟨?_, rfl⟩, conforms_of_placed directive rfl ?_⟩
      · have holds : condition.holds = decide (condition.value ≠ 0) := by
          simp [Condition.holds, tokens]
        rw [follow, holds]
        apply skipStack_pushIf condition.value simulates.stack
      · simp [Decides, included, Line.condition, tokens]
    · rw [if_neg (mt reads.mp included)]
      refine ⟨_, [], by rw [List.append_nil]; rfl, ⟨?_, rfl⟩, conforms_of_placed directive rfl ?_⟩
      · apply skipStack_pushIf_skipped condition.holds simulates.stack included
      · simp [Decides, included]

/-- `#ifdef` and `#ifndef`, whose condition is a number. -/
theorem defined_follows {lexer : Lexer} {opened : List Conditional}
    (simulates : Simulates lexer opened) {line : Line} (junk : List Token) (value : Int32)
    (follows : follow opened line = .first (value ≠ 0) :: opened)
    (directive : line ≠ .text) (placed : misplaced opened line = none)
    (unconditional : line.condition = [])
    (reads : readLine lexer line = do
      let lexer ← lexer.junk junk
      pure { lexer with parser := skipStackPushIf lexer.parser value })
    (log : List Text) :
  Follows opened line lexer log
  := by
  obtain ⟨returned, newline⟩ := directive_lexTokens lexer junk
  have pushed := skipStack_pushIf value simulates.stack
  unfold Follows
  rw [reads, follows]
  unfold Lexer.junk
  simp only [newline, returned]
  by_cases tokens : junk = []
  · rw [if_neg (not_not.mpr tokens)]
    refine ⟨_, [], by rw [List.append_nil]; rfl, ⟨?_, rfl⟩, conforms_of_placed directive placed ?_⟩
    · apply pushed
    · simp [unconditional]
  · rw [if_pos tokens]
    refine ⟨_, _, rfl, ⟨?_, rfl⟩, conforms_of_placed directive placed ?_⟩
    · apply pushed
    · simp [unconditional]

theorem head_type {parser : Parser} {opened : List Conditional}
    (stack : parser.skipStack = skipNodes opened) (condition : Condition) :
  parser.skipStack.head?.map SkipNode.type = some .toElse ↔ Decides opened (.elifLine condition)
  := by
  rw [stack]
  cases opened with
  | nil => simp [skipNodes, Decides]
  | cons c enclosing => simp [skipNodes, Decides, nodeOf_type_toElse]

theorem head_hasElse {parser : Parser} {c : Conditional} {enclosing : List Conditional}
    (stack : parser.skipStack = skipNodes (c :: enclosing)) :
  parser.skipStack.head?.map SkipNode.hasElse = some true ↔ c.hasElse = true
  := by
  simp [stack, skipNodes, nodeOf]

/-- `#elif` outside of all conditionals. -/
theorem elifLine_follows_nil {lexer : Lexer} (simulates : Simulates lexer [])
    (condition : Condition) (log : List Text) :
  Follows [] (.elifLine condition) lexer log
  := by
  have empty : lexer.parser.skipStack = [] := simulates.stack
  obtain ⟨returned, newline⟩ := directive_lexTokens lexer condition.tokens
  unfold Follows
  simp only [readLine]
  rw [returned, newline]
  simp only [elifAction, empty, List.head?_nil, Option.map_none, reduceCtorEq, ↓reduceIte,
    skipStackChangeIf]
  have conforms (after : Lexer) (parser : after.parser = lexer.parser)
      (expanded : after.expanded = lexer.expanded) :
      Conforms [] (.elifLine condition) lexer after ["#elif without #if\n".toList] := by
    apply conforms_of_misplaced rfl (List.mem_singleton_self _) parser _ _ expanded
    · intro h
      cases h
    · apply not_false
  by_cases tokens : condition.tokens = []
  · rw [if_neg (not_not.mpr tokens)]
    refine ⟨_, _, rfl, ⟨simulates.stack, rfl⟩, conforms _ rfl rfl⟩
  · rw [if_pos tokens]
    refine ⟨_, _, rfl, ⟨simulates.stack, rfl⟩, conforms _ rfl rfl⟩

/-- `#elif` in a conditional, where the condition decides. -/
theorem elifAction_decides {lexer : Lexer} {c : Conditional} {enclosing : List Conditional}
    {condition : Condition} (simulates : Simulates lexer (c :: enclosing))
    (decides : Decides (c :: enclosing) (.elifLine condition)) (log : List Text) :
  ∃ after reports, elifAction lexer condition.tokens condition log = some (after, log ++ reports) ∧
    Simulates after (c.next condition.holds :: enclosing) ∧
    after.expanded = lexer.expanded ++ (Line.elifLine condition).condition
  := by
  -- no group behind `#else` is reached without a group that has been taken
  have isOpen : c.hasElse = false := by
    by_contra hasElse
    apply decides.2 (c.closed (eq_true_of_ne_false hasElse))
  unfold elifAction
  simp only [if_pos ((head_type simulates.stack condition).mpr decides)]
  by_cases tokens : condition.tokens = []
  · have unmet : condition.holds = false := by
      simp [Condition.holds, tokens]
    have same : nodeOf enclosing (c.next false) = nodeOf enclosing c := by
      rw [nodeOf_next_of_untaken false isOpen decides.1 decides.2]
      simp only [Bool.false_eq_true, ↓reduceIte, ← nodeOf_type_toElse.mpr decides]
    rw [if_neg (not_not.mpr tokens)]
    refine ⟨_, _, rfl, ⟨?_, simulates.lexingDirective⟩, ?_⟩
    · rw [unmet, skipNodes, same]
      apply simulates.stack
    · simp [Line.condition, tokens]
  · have met : condition.holds = true ↔ condition.value ≠ 0 := by
      simp [Condition.holds, tokens]
    have changed := changeIf_next condition.holds condition.value "elif".toList
      (log ++ condition.messages) simulates.stack isOpen fun _ _ => met
    rw [if_pos tokens, bind_eq (expand_eq lexer _ condition log), bind_eq changed]
    refine ⟨_, _, rfl, ⟨rfl, simulates.lexingDirective⟩, ?_⟩
    simp [Line.condition, tokens]

/-- `#elif` in a conditional, behind `#else`. -/
theorem elifAction_closed {lexer : Lexer} {c : Conditional} {enclosing : List Conditional}
    {condition : Condition} (simulates : Simulates lexer (c :: enclosing))
    (closed : c.hasElse = true) (log : List Text) :
  elifAction lexer condition.tokens condition log =
    some (lexer, log ++ ["#elif after #else".toList])
  := by
  have undecided : ¬ Decides (c :: enclosing) (.elifLine condition) :=
    fun decides => decides.2 (c.closed closed)
  unfold elifAction
  simp only [if_neg (mt (head_type simulates.stack condition).mp undecided),
    if_pos ((head_hasElse simulates.stack).mpr closed)]
  split <;> rfl

/-- `#elif` in a conditional, behind a group that has been taken or in lines that are skipped. -/
theorem elifAction_skipped {lexer : Lexer} {c : Conditional} {enclosing : List Conditional}
    {condition : Condition} (simulates : Simulates lexer (c :: enclosing))
    (undecided : ¬ Decides (c :: enclosing) (.elifLine condition)) (isOpen : c.hasElse = false)
    (log : List Text) :
  ∃ after, elifAction lexer condition.tokens condition log = some (after, log) ∧
    Simulates after (c.next condition.holds :: enclosing) ∧ after.expanded = lexer.expanded
  := by
  have changed := changeIf_next condition.holds 0 "elif".toList log simulates.stack
    isOpen fun included untaken => absurd ⟨included, untaken⟩ undecided
  have notClosed : ¬ c.hasElse = true := by
    simp [isOpen]
  unfold elifAction
  simp only [if_neg (mt (head_type simulates.stack condition).mp undecided),
    if_neg (mt (head_hasElse simulates.stack).mp notClosed)]
  by_cases tokens : condition.tokens = []
  · rw [if_neg (not_not.mpr tokens), bind_eq changed]
    exact ⟨_, rfl, ⟨rfl, simulates.lexingDirective⟩, rfl⟩
  · rw [if_pos tokens, bind_eq changed]
    exact ⟨_, rfl, ⟨rfl, simulates.lexingDirective⟩, rfl⟩

/-- `#elif` in a conditional. -/
theorem elifLine_follows_cons {lexer : Lexer} {c : Conditional} {enclosing : List Conditional}
    (simulates : Simulates lexer (c :: enclosing)) (condition : Condition) (log : List Text) :
  Follows (c :: enclosing) (.elifLine condition) lexer log
  := by
  have directive : Line.elifLine condition ≠ .text := by
    intro h
    cases h
  have between : Simulates { lexer with lexingDirective := false, skipping := false }
      (c :: enclosing) := by
    constructor
    · apply simulates.stack
    · rfl
  obtain ⟨returned, newline⟩ := directive_lexTokens lexer condition.tokens
  unfold Follows
  simp only [readLine]
  rw [returned, newline]
  by_cases closed : c.hasElse = true
  · have undecided : ¬ Decides (c :: enclosing) (.elifLine condition) :=
      fun decides => decides.2 (c.closed closed)
    have ignored : c.next condition.holds = c := by
      rw [Conditional.next, if_pos closed]
    refine ⟨_, _, elifAction_closed between closed log, ?_, ?_⟩
    · rw [follow, List.modifyHead_cons, ignored]
      apply between
    · have wrong : misplaced (c :: enclosing) (.elifLine condition) =
          some "#elif after #else".toList := by
        rw [misplaced, if_pos closed]
      apply conforms_of_misplaced wrong (List.mem_singleton_self _) _ directive undecided <;> rfl
  · have isOpen : c.hasElse = false := eq_false_of_ne_true closed
    have placed : misplaced (c :: enclosing) (.elifLine condition) = none := by
      rw [misplaced, if_neg closed]
    by_cases decides : Decides (c :: enclosing) (.elifLine condition)
    · obtain ⟨after, reports, run, simulates', expanded⟩ :=
        elifAction_decides between decides log
      refine ⟨after, reports, run, simulates', conforms_of_placed directive placed ?_⟩
      rw [if_pos decides]
      apply expanded
    · obtain ⟨after, run, simulates', expanded⟩ := elifAction_skipped between decides isOpen log
      refine ⟨after, [], ?_, simulates', conforms_of_placed directive placed ?_⟩
      · rw [List.append_nil]
        apply run
      · rw [if_neg decides, List.append_nil]
        apply expanded

/-- `#else` -/
theorem elseLine_follows {lexer : Lexer} {opened : List Conditional}
    (simulates : Simulates lexer opened) (log : List Text) :
  Follows opened .elseLine lexer log
  := by
  have directive : Line.elseLine ≠ .text := by
    intro h
    cases h
  have newline : lexer.directive.newline =
      { lexer with lexingDirective := false, skipping := false } :=
    (directive_lexTokens lexer []).2
  unfold Follows
  simp only [readLine, newline, elseAction]
  cases opened with
  | nil =>
    have empty : lexer.parser.skipStack = [] := simulates.stack
    simp only [empty, List.head?_nil, Option.map_none, reduceCtorEq, ↓reduceIte, skipStackChangeIf]
    refine ⟨_, _, rfl, ⟨?_, rfl⟩, ?_⟩
    · simp [empty, follow, skipNodes]
    · have wrong : misplaced [] .elseLine =
          some ("#".toList ++ "else".toList ++ " without #if\n".toList) := by
        rfl
      apply conforms_of_misplaced wrong (List.mem_singleton_self _) _ directive not_false
      · rfl
      · simp only [empty, List.modifyHead_nil]
        rw [← empty]
  | cons c enclosing =>
    by_cases closed : c.hasElse = true
    · have ignored : c.last = c := by
        rw [Conditional.last, if_pos closed]
      simp only [if_pos ((head_hasElse simulates.stack).mpr closed)]
      refine ⟨_, _, rfl, ⟨?_, rfl⟩, ?_⟩
      · rw [follow, List.modifyHead_cons, ignored]
        apply simulates.stack
      · have wrong : misplaced (c :: enclosing) .elseLine = some "multiple #else".toList := by
          rw [misplaced, if_pos closed]
        apply conforms_of_misplaced wrong (List.mem_singleton_self _) _ directive not_false <;> rfl
    · have isOpen : c.hasElse = false := eq_false_of_ne_true closed
      have placed : misplaced (c :: enclosing) .elseLine = none := by
        rw [misplaced, if_neg closed]
      have changed := changeIf_next true 1 "else".toList log simulates.stack
        isOpen fun _ _ => by decide
      have last : nodeOf enclosing c.last =
          { nodeOf enclosing (c.next true) with hasElse := true } := by
        have selected : c.last.Selected ↔ (c.next true).Selected := by
          rw [Conditional.Selected, Conditional.Selected, groups_last isOpen]
        simp only [nodeOf, selected, groups_last isOpen, hasElse_last]
      simp only [if_neg (mt (head_hasElse simulates.stack).mp closed)]
      rw [bind_eq changed]
      refine ⟨_, [], by rw [List.append_nil]; rfl, ⟨?_, rfl⟩, ?_⟩
      · change _ = nodeOf enclosing c.last :: skipNodes enclosing
        rw [last]
        rfl
      · apply conforms_of_placed directive placed
        rw [if_neg, List.append_nil]
        apply not_false

/-- `#endif` -/
theorem endifLine_follows {lexer : Lexer} {opened : List Conditional}
    (simulates : Simulates lexer opened) (log : List Text) :
  Follows opened .endifLine lexer log
  := by
  have directive : Line.endifLine ≠ .text := by
    intro h
    cases h
  unfold Follows
  simp only [readLine, skipStackPop]
  cases opened with
  | nil =>
    have empty : lexer.parser.skipStack = [] := simulates.stack
    simp only [Lexer.setUp, empty]
    refine ⟨_, _, rfl, ⟨empty, rfl⟩, ?_⟩
    have wrong : misplaced [] .endifLine = some "#endif without #if\n".toList := by
      rfl
    apply conforms_of_misplaced wrong (List.mem_singleton_self _) _ directive not_false <;> rfl
  | cons c enclosing =>
    have stack : lexer.parser.skipStack = nodeOf enclosing c :: skipNodes enclosing :=
      simulates.stack
    simp only [Lexer.setUp, stack]
    refine ⟨_, [], by rw [List.append_nil]; rfl, ⟨rfl, rfl⟩, conforms_of_placed directive rfl ?_⟩
    simp [Line.condition, Lexer.newline, Lexer.setUp]

/-! ### All lines -/

/-- What one line does. -/
theorem readLine_follows {lexer : Lexer} {opened : List Conditional}
    (simulates : Simulates lexer opened) (line : Line) (log : List Text) :
  Follows opened line lexer log
  := by
  cases line with
  | text => apply text_follows simulates
  | ifLine condition => apply ifLine_follows simulates
  | ifdefLine defined junk =>
    apply defined_follows simulates junk (if defined then 1 else 0) _ _ rfl rfl rfl
    · cases defined <;> rfl
    · intro h
      cases h
  | ifndefLine defined junk =>
    apply defined_follows simulates junk (if defined then 0 else 1) _ _ rfl rfl rfl
    · cases defined <;> rfl
    · intro h
      cases h
  | elifLine condition =>
    cases opened with
    | nil => apply elifLine_follows_nil simulates
    | cons c enclosing => apply elifLine_follows_cons simulates
  | elseLine => apply elseLine_follows simulates
  | endifLine => apply endifLine_follows simulates

/-- What some lines do. -/
theorem readLines_simulates {lexer : Lexer} {opened : List Conditional}
    (simulates : Simulates lexer opened) (lines : List Line) (log : List Text) :
  ∃ after log', readLines lines lexer log = some (after, log') ∧
    Simulates after (lines.foldl follow opened)
  := by
  induction lines generalizing lexer opened log with
  | nil => exact ⟨lexer, log, rfl, simulates⟩
  | cons line lines ih =>
    obtain ⟨middle, reports, step, simulates', -⟩ := readLine_follows simulates line log
    obtain ⟨after, log', run, simulates''⟩ := ih simulates' (log ++ reports)
    refine ⟨after, log', ?_, simulates''⟩
    rw [readLines, List.foldlM_cons, bind_eq step]
    apply run

end Glcpp
