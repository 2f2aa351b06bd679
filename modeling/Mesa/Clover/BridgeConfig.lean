import Mathlib.Data.List.TakeWhile
import Mathlib.Tactic.Common

/-!
# The configuration of the compiler bridge

The function `load_config_from_file` of `platform.cpp`: lines of the form `param = value`, each of
which changes a setting, and reports of the lines that are malformed.

The names of architectures and devices are looked up by functions of a library, which are parameters
and have no result where the library throws an exception.
-/

namespace Clover

namespace BridgeConfig

/-! ### Streams -/

/-- `std::ifstream`: what is left, and the bits `eofbit` and `failbit`. -/
structure Stream where
  rest : List Char
  eof : Bool
  fail : Bool

/-- A file that has been opened. -/
def Stream.ofFile (text : List Char) : Stream := ⟨text, false, false⟩

/-- `std::getline`. -/
def Stream.getline (s : Stream) : List Char × Stream :=
  if s.eof || s.fail then ([], { s with fail := true })
  else
    let line := s.rest.takeWhile (· != '\n')
    match s.rest.dropWhile (· != '\n') with
    | [] => (line, ⟨[], true, line.isEmpty⟩)
    | _ :: rest => (line, ⟨rest, false, false⟩)

/-! ### Settings -/

/-- `comp_bridge`. -/
inductive CompBridge where
  | none | rocm | amdocl2
deriving DecidableEq

/-- The settings of `platform` that a configuration changes. -/
structure Settings (Arch Dev : Type) where
  amdocl2Path : List Char
  allowAmdocl2ForGcn14 : Bool
  archBridgeMap : Arch → Option CompBridge
  devBridgeMap : Dev → Option CompBridge

/-- `ParseException`. -/
structure ParseException where
  lineNo : ℕ
  message : String
deriving DecidableEq

/-- The lookups of the library. -/
structure Names (Arch Dev : Type) where
  archFromName : List Char → Option Arch
  devFromName : List Char → Option Dev

/-! ### Lines -/

/-- One of the characters that are trimmed. -/
def isSpace (c : Char) : Bool :=
  c == ' ' || c == '\n' || c == '\t' || c == '\r' || c == '\x0b' || c == '\x0c'

/-- `trimLeftSpaces`. -/
def trimLeftSpaces (s : List Char) : List Char := s.dropWhile isSpace

/-- `trimSpaces`. -/
def trimSpaces (s : List Char) : List Char :=
  ((trimLeftSpaces s).reverse.dropWhile isSpace).reverse

variable {Arch Dev : Type} [DecidableEq Arch] [DecidableEq Dev]

/-- `parse_bridge_value`. -/
def parseBridgeValue {T : Type} [DecidableEq T] (map : T → Option CompBridge) (param : T)
    (invalue : List Char) (lineNo : ℕ) : Except ParseException (T → Option CompBridge) :=
  let value := trimSpaces invalue
  if value = "rocm".toList then .ok (Function.update map param (some .rocm))
  else if value = "amdocl2".toList then .ok (Function.update map param (some .amdocl2))
  else .error ⟨lineNo, "Wrong bridge name"⟩

/-- The body of the loop from the line on: the settings, and the exception that is thrown. -/
def parseLine (names : Names Arch Dev) (lineNo : ℕ) (line : List Char) (st : Settings Arch Dev) :
    Settings Arch Dev × Option ParseException :=
  match line.findIdx? (· == '=') with
  | none => (st, some ⟨lineNo, "No param line"⟩)
  | some inequal =>
    let param := trimSpaces (line.take inequal)
    let value := trimLeftSpaces (line.drop (inequal + 1))
    if value = [] then (st, some ⟨lineNo, "No value in param line"⟩)
    else
      let st := if param = "amdocl2_path".toList then { st with amdocl2Path := value } else st
      if param = "allow_amdocl2_for_gcn14".toList then
        let value := trimSpaces value
        ({ st with
          allowAmdocl2ForGcn14 := decide (value = "true".toList ∨ value = "1".toList) }, none)
      else if param.take 9 = "archcomp_".toList then
        match names.archFromName (param.drop 9) with
        | none => (st, some ⟨lineNo, "Wrong GPU architecture name"⟩)
        | some arch =>
          match parseBridgeValue st.archBridgeMap arch value lineNo with
          | .error e => (st, some e)
          | .ok map => ({ st with archBridgeMap := map }, none)
      else if param.take 8 = "devcomp_".toList then
        match names.devFromName (param.drop 8) with
        | none => (st, some ⟨lineNo, "Wrong GPU device type name"⟩)
        | some devtype =>
          match parseBridgeValue st.devBridgeMap devtype value lineNo with
          | .error e => (st, some e)
          | .ok map => ({ st with devBridgeMap := map }, none)
      else (st, none)

/-- The loop of `load_config_from_file`: the settings, and the exceptions that are reported.  It has
no result if it does not end within the given number of rounds. -/
def loadLoop (names : Names Arch Dev) :
    ℕ → Stream → ℕ → Settings Arch Dev → Option (Settings Arch Dev × List ParseException)
  | 0, _, _, _ => none
  | fuel + 1, ifs, lineNo, st =>
    if ifs.fail then some (st, [])
    else
      let (line, ifs) := ifs.getline
      if line = [] then loadLoop names fuel ifs lineNo st
      else
        match parseLine names lineNo line st with
        | (st, none) => loadLoop names fuel ifs (lineNo + 1) st
        | (st, some e) => (loadLoop names fuel ifs lineNo st).map fun r => (r.1, e :: r.2)

/-- `load_config_from_file`. -/
def loadConfigFromFile (names : Names Arch Dev) (text : List Char) (st : Settings Arch Dev) :
    Option (Settings Arch Dev × List ParseException) :=
  loadLoop names (text.length + 3) (Stream.ofFile text) 1 st

/-! ### What lines mean -/

/-- A line is blank, or it is malformed for the given reason, or it changes the settings. -/
inductive LineKind (Arch Dev : Type) where
  | blank
  | malformed (message : String)
  | wellFormed (apply : Settings Arch Dev → Settings Arch Dev)

namespace LineKind

def isWellFormed : LineKind Arch Dev → Bool
  | wellFormed _ => true
  | _ => false

def isMalformed : LineKind Arch Dev → Bool
  | malformed _ => true
  | _ => false

/-- The settings after a line. -/
def effect : LineKind Arch Dev → Settings Arch Dev → Settings Arch Dev
  | wellFormed apply => apply
  | _ => id

/-- The error of the line with the given number. -/
def errors (n : ℕ) : LineKind Arch Dev → List ParseException
  | malformed message => [⟨n, message⟩]
  | _ => []

end LineKind

/-- The bridge with the given name. -/
def bridgeOf (value : List Char) : Option CompBridge :=
  if value = "rocm".toList then some .rocm
  else if value = "amdocl2".toList then some .amdocl2
  else none

/-- What a parameter with a value means. -/
def setting (names : Names Arch Dev) (param value : List Char) : LineKind Arch Dev :=
  if param = "amdocl2_path".toList then .wellFormed fun st => { st with amdocl2Path := value }
  else if param = "allow_amdocl2_for_gcn14".toList then
    .wellFormed fun st => { st with
      allowAmdocl2ForGcn14 :=
        decide (trimSpaces value = "true".toList ∨ trimSpaces value = "1".toList) }
  else if param.take 9 = "archcomp_".toList then
    match names.archFromName (param.drop 9), bridgeOf (trimSpaces value) with
    | none, _ => .malformed "Wrong GPU architecture name"
    | some _, none => .malformed "Wrong bridge name"
    | some arch, some bridge => .wellFormed fun st =>
        { st with archBridgeMap := Function.update st.archBridgeMap arch (some bridge) }
  else if param.take 8 = "devcomp_".toList then
    match names.devFromName (param.drop 8), bridgeOf (trimSpaces value) with
    | none, _ => .malformed "Wrong GPU device type name"
    | some _, none => .malformed "Wrong bridge name"
    | some devtype, some bridge => .wellFormed fun st =>
        { st with devBridgeMap := Function.update st.devBridgeMap devtype (some bridge) }
  else .wellFormed id

/-- What a line means. -/
def classify (names : Names Arch Dev) (line : List Char) : LineKind Arch Dev :=
  if line = [] then .blank
  else if line.contains '=' = false then .malformed "No param line"
  else
    let param := trimSpaces (line.takeWhile (· != '='))
    let value := trimLeftSpaces ((line.dropWhile (· != '=')).drop 1)
    if value = [] then .malformed "No value in param line" else setting names param value

/-- The lines of a text. -/
def lines (text : List Char) : List (List Char) := text.splitOn '\n'

/-- The well-formed lines are applied in order. -/
def applyLines (names : Names Arch Dev) (ls : List (List Char)) (st : Settings Arch Dev) :
    Settings Arch Dev :=
  ls.foldl (fun st line => (classify names line).effect st) st

/-- The errors of lines, where the lines of the given kinds are counted. -/
def errorsFrom (counts : LineKind Arch Dev → Bool) (names : Names Arch Dev) :
    ℕ → List (List Char) → List ParseException
  | _, [] => []
  | n, line :: ls =>
    (classify names line).errors n ++
      errorsFrom counts names (if counts (classify names line) then n + 1 else n) ls

/-- The errors of lines with the numbers of the lines. -/
def lineErrors (names : Names Arch Dev) (n : ℕ) (ls : List (List Char)) : List ParseException :=
  errorsFrom (fun _ => true) names n ls

/-- Before a malformed line there are well-formed lines only. -/
def Undisturbed (names : Names Arch Dev) (ls : List (List Char)) : Prop :=
  ∀ before line after, ls = before ++ line :: after → (classify names line).isMalformed = true →
    ∀ l ∈ before, (classify names l).isWellFormed = true

/-! ### One line -/

theorem findIdx?_eq (line : List Char) :
  line.findIdx? (· == '=') =
    if line.contains '=' = false then none else some (line.takeWhile (· != '=')).length
  := by
  induction line with
  | nil => rfl
  | cons c line ih =>
      rw [List.findIdx?_cons, List.contains_cons, List.takeWhile_cons, ih]
      by_cases hc : c = '='
      · simp [hc]
      · have hne : ('=' == c) = false := by simpa using fun h => hc h.symm
        simp [hc, hne]

theorem parseBridgeValue_eq {T : Type} [DecidableEq T] (map : T → Option CompBridge) (param : T)
    (value : List Char) (lineNo : ℕ) :
  parseBridgeValue map param value lineNo =
    match bridgeOf (trimSpaces value) with
    | some bridge => .ok (Function.update map param (some bridge))
    | none => .error ⟨lineNo, "Wrong bridge name"⟩
  := by
  unfold parseBridgeValue bridgeOf
  simp only
  split_ifs <;> rfl

theorem take_findIdx (line : List Char) :
  line.take (line.takeWhile (· != '=')).length = line.takeWhile (· != '=')
  := (List.prefix_iff_eq_take.mp (List.takeWhile_prefix _)).symm

theorem drop_findIdx (line : List Char) :
  line.drop ((line.takeWhile (· != '=')).length + 1) = (line.dropWhile (· != '=')).drop 1
  := by
  have hsplit : (line.takeWhile (· != '=') ++ line.dropWhile (· != '=')).drop
      (line.takeWhile (· != '=')).length = line.dropWhile (· != '=') := List.drop_left
  rw [List.takeWhile_append_dropWhile] at hsplit
  rw [← List.drop_drop, hsplit]

/-- A line that is not blank does what it means. -/
theorem parseLine_eq (names : Names Arch Dev) (n : ℕ) {line : List Char} (h : line ≠ [])
    (st : Settings Arch Dev) :
  parseLine names n line st =
    ((classify names line).effect st, ((classify names line).errors n).head?)
  := by
  unfold parseLine classify
  rw [findIdx?_eq, if_neg h]
  by_cases hcontains : line.contains '=' = false
  · rw [if_pos hcontains, if_pos hcontains]
    rfl
  · rw [if_neg hcontains, if_neg hcontains]
    simp only [take_findIdx, drop_findIdx]
    generalize trimSpaces (line.takeWhile (· != '=')) = param
    generalize trimLeftSpaces ((line.dropWhile (· != '=')).drop 1) = value
    by_cases hvalue : value = []
    · rw [if_pos hvalue, if_pos hvalue]
      rfl
    · rw [if_neg hvalue, if_neg hvalue]
      unfold setting
      by_cases hpath : param = "amdocl2_path".toList
      · subst hpath
        rfl
      · rw [if_neg hpath, if_neg hpath]
        split_ifs
        · rfl
        · cases names.archFromName (param.drop 9) with
          | none => rfl
          | some arch =>
              simp only [parseBridgeValue_eq]
              cases bridgeOf (trimSpaces value) <;> rfl
        · cases names.devFromName (param.drop 8) with
          | none => rfl
          | some devtype =>
              simp only [parseBridgeValue_eq]
              cases bridgeOf (trimSpaces value) <;> rfl
        · rfl

theorem classify_ne_blank (names : Names Arch Dev) {line : List Char} (h : line ≠ []) :
  classify names line ≠ .blank
  := by
  unfold classify setting
  rw [if_neg h]
  dsimp only
  repeat' split
  all_goals nofun

/-! ### The loop -/

/-- The end of the file has been reached. -/
theorem loadLoop_eof (names : Names Arch Dev) {fuel : ℕ} (hfuel : 2 ≤ fuel) {ifs : Stream}
    (heof : ifs.eof = true) (n : ℕ) (st : Settings Arch Dev) :
  loadLoop names fuel ifs n st = some (st, [])
  := by
  obtain ⟨fuel, rfl⟩ := Nat.exists_eq_add_of_le' hfuel
  by_cases hfail : ifs.fail = true
  · simp [loadLoop, hfail]
  · simp [loadLoop, hfail, Stream.getline, heof]

/-- A line is executed, and then the rest of the file. -/
theorem loadLoop_line (names : Names Arch Dev) {fuel : ℕ} {ifs ifs' : Stream} {line : List Char}
    (hfail : ifs.fail = false) (hline : ifs.getline = (line, ifs')) {n : ℕ}
    {st : Settings Arch Dev} {ls : List (List Char)}
    (hrest : ∀ n st, loadLoop names fuel ifs' n st =
      some (applyLines names ls st, errorsFrom LineKind.isWellFormed names n ls)) :
  loadLoop names (fuel + 1) ifs n st = some (applyLines names (line :: ls) st,
    errorsFrom LineKind.isWellFormed names n (line :: ls))
  := by
  unfold loadLoop
  rw [hline]
  simp only [hfail, Bool.false_eq_true, if_false, errorsFrom, applyLines, List.foldl_cons]
  by_cases hblank : line = []
  · have hkind : classify names line = .blank := if_pos hblank
    rw [if_pos hblank, hrest, hkind]
    rfl
  · have hkind := classify_ne_blank names hblank
    rw [if_neg hblank, parseLine_eq names n hblank]
    revert hkind
    cases classify names line with
    | blank => exact fun hkind => absurd rfl hkind
    | malformed message =>
        intro _
        simp only [LineKind.errors, List.head?_cons, hrest, Option.map_some]
        rfl
    | wellFormed apply =>
        intro _
        simp only [LineKind.errors, List.head?_nil, hrest]
        rfl

/-- The loop executes all lines that are left. -/
theorem loadLoop_eq (names : Names Arch Dev) {fuel : ℕ} {text : List Char}
    (hfuel : text.length + 3 ≤ fuel) (n : ℕ) (st : Settings Arch Dev) :
  loadLoop names fuel (.ofFile text) n st = some (applyLines names (lines text) st,
    errorsFrom LineKind.isWellFormed names n (lines text))
  := by
  induction fuel generalizing text n st with
  | zero => omega
  | succ fuel ih =>
      have hsplit := List.takeWhile_append_dropWhile (p := (· != '\n')) (l := text)
      have hline : ∀ c ∈ text.takeWhile (· != '\n'), (c == '\n') = false := by
        intro c hc
        simpa using List.mem_takeWhile_imp hc
      cases hrest : text.dropWhile (· != '\n') with
      | nil =>
          have hlines : lines text = [text.takeWhile (· != '\n')] := by
            rw [hrest, List.append_nil] at hsplit
            rw [hsplit] at hline ⊢
            exact List.splitOn_eq_singleton_of_beq_eq_false hline
          have hgetline : (Stream.ofFile text).getline = (text.takeWhile (· != '\n'),
              ⟨[], true, (text.takeWhile (· != '\n')).isEmpty⟩) := by
            simp [Stream.getline, Stream.ofFile, hrest]
          rw [hlines]
          apply loadLoop_line names rfl hgetline
          intro n st
          exact loadLoop_eof names (by omega) rfl n st
      | cons c rest =>
          have hc : c = '\n' := by
            have hhead := List.head?_dropWhile_not (· != '\n') text
            rw [hrest] at hhead
            simpa using hhead
          have hlines : lines text = text.takeWhile (· != '\n') :: lines rest := by
            have happ := List.splitOnP_append_cons_of_forall_mem hline c (by simp [hc]) rest
            rw [← hrest, hsplit] at happ
            exact happ
          have hgetline : (Stream.ofFile text).getline = (text.takeWhile (· != '\n'),
              Stream.ofFile rest) := by
            simp [Stream.getline, Stream.ofFile, hrest]
          have hlen : rest.length < text.length := by
            have hdrop := (List.dropWhile_suffix (· != '\n') (l := text)).length_le
            rw [hrest] at hdrop
            exact hdrop
          rw [hlines]
          apply loadLoop_line names rfl hgetline
          intro n st
          exact ih (by omega) n st

/-! ### Line numbers -/

section Numbers

variable (names : Names Arch Dev)

theorem lineErrors_cons (n : ℕ) (line : List Char) (ls : List (List Char)) :
  lineErrors names n (line :: ls) =
    (classify names line).errors n ++ lineErrors names (n + 1) ls
  := rfl

/-- If the numbers of the lines are behind, they are right just if no line is malformed. -/
theorem errorsFrom_eq_lineErrors_of_lt {n m : ℕ} (h : n < m) (ls : List (List Char)) :
  errorsFrom LineKind.isWellFormed names n ls = lineErrors names m ls ↔
    ∀ l ∈ ls, (classify names l).isMalformed = false
  := by
  induction ls generalizing n m with
  | nil => simp [errorsFrom, lineErrors]
  | cons line ls ih =>
      rw [List.forall_mem_cons, lineErrors_cons, errorsFrom]
      cases classify names line with
      | blank =>
          rw [← ih (Nat.lt_succ_of_lt h)]
          simp [LineKind.errors, LineKind.isMalformed, LineKind.isWellFormed]
      | malformed message =>
          have hne : n ≠ m := h.ne
          simp [LineKind.errors, LineKind.isMalformed, hne]
      | wellFormed apply =>
          rw [← ih (Nat.succ_lt_succ h)]
          simp [LineKind.errors, LineKind.isMalformed, LineKind.isWellFormed]

theorem undisturbed_of_forall {ls : List (List Char)}
    (h : ∀ l ∈ ls, (classify names l).isMalformed = false) :
  Undisturbed names ls
  := by
  rintro before line after rfl hmal
  rw [h line (by simp)] at hmal
  cases hmal

theorem undisturbed_cons {line : List Char} {ls : List (List Char)} :
  Undisturbed names (line :: ls) ↔
    ((classify names line).isWellFormed = false →
      ∀ l ∈ ls, (classify names l).isMalformed = false) ∧ Undisturbed names ls
  := by
  constructor
  · intro h
    constructor
    · intro hline l hl
      by_contra hmal
      obtain ⟨before, after, rfl⟩ := List.append_of_mem hl
      have hall := h (line :: before) l after rfl (by simpa using hmal) line List.mem_cons_self
      rw [hall] at hline
      cases hline
    · rintro before l after rfl hmal x hx
      exact h (line :: before) l after rfl hmal x (List.mem_cons_of_mem _ hx)
  · rintro ⟨hline, hrest⟩ before l after heq hmal x hx
    cases before with
    | nil => cases hx
    | cons y before =>
        obtain ⟨rfl, rfl⟩ := List.cons.inj heq
        rcases List.mem_cons.mp hx with rfl | hx
        · by_contra hwell
          have hno := hline (by simpa using hwell) l (by simp)
          rw [hmal] at hno
          cases hno
        · exact hrest before l after rfl hmal x hx

/-- The numbers of the lines are right just if every malformed line comes after well-formed lines
only. -/
theorem errorsFrom_eq_lineErrors_iff (n : ℕ) (ls : List (List Char)) :
  errorsFrom LineKind.isWellFormed names n ls = lineErrors names n ls ↔ Undisturbed names ls
  := by
  induction ls generalizing n with
  | nil =>
      constructor
      · rintro - before line after heq
        simp at heq
      · intro _
        rfl
  | cons line ls ih =>
      rw [undisturbed_cons, lineErrors_cons, errorsFrom]
      cases hwell : (classify names line).isWellFormed with
      | false =>
          -- the number stays behind from here on
          simp only [Bool.false_eq_true, if_false, List.append_cancel_left_eq, forall_const]
          rw [errorsFrom_eq_lineErrors_of_lt names (Nat.lt_succ_self n)]
          exact (and_iff_left_of_imp (undisturbed_of_forall names)).symm
      | true =>
          simp only [if_true, List.append_cancel_left_eq, Bool.true_eq_false, false_implies,
            true_and]
          exact ih (n + 1)

end Numbers

/-- Loading a configuration ends with the well-formed lines applied in order; the errors that are
reported are those of the malformed lines with their numbers just if every malformed line comes after
well-formed lines only. -/
theorem loadConfigFromFile_iff (names : Names Arch Dev) (text : List Char)
    (st : Settings Arch Dev) :
  (∃ errors, loadConfigFromFile names text st =
    some (applyLines names (lines text) st, errors)) ∧
  (loadConfigFromFile names text st =
      some (applyLines names (lines text) st, lineErrors names 1 (lines text)) ↔
    Undisturbed names (lines text))
  := by
  unfold loadConfigFromFile
  rw [loadLoop_eq names (Nat.le_refl _)]
  refine ⟨⟨_, rfl⟩, ?_⟩
  rw [← errorsFrom_eq_lineErrors_iff names 1, Option.some.injEq, Prod.mk.injEq]
  exact and_iff_right rfl

/-- The second line, which is malformed, is reported as the first one, which is blank. -/
theorem loadConfigFromFile_blank :
  ¬∀ (Arch Dev : Type) [DecidableEq Arch] [DecidableEq Dev] (names : Names Arch Dev)
    (text : List Char) (st : Settings Arch Dev),
    loadConfigFromFile names text st =
      some (applyLines names (lines text) st, lineErrors names 1 (lines text))
  := by
  intro h
  have hload := h Unit Unit ⟨fun _ => none, fun _ => none⟩ "\nrocm\n".toList
    ⟨[], false, fun _ => none, fun _ => none⟩
  have herrors := congrArg (Option.map Prod.snd) hload
  revert herrors
  decide

end BridgeConfig

end Clover
