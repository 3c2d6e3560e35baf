import Avii.CommandLine.Source
import Avii.CommandLine.Switch
import Avii.Grammar.Build
import Avii.Prompt.Session

/-!
# The command that parses by the grammar

It shows the outline of a program text as the grammar reads it. A text that the grammar or the
checks on its trees refuse is reported, but for a bad escape in a string literal, which ends the
command.
-/

namespace Avii.CommandLine

/-- The switches of the command. -/
inductive CheckSwitch where
  | help | grammar
deriving DecidableEq

/-- The names of the switches. -/
def checkSwitches : List (Switch CheckSwitch) :=
  [⟨["-h", "--help"], .help, false, true⟩, ⟨["-g", "--grammar"], .grammar, true, false⟩]

/-- How the command ends. -/
inductive CheckEnd where
  | code (n : Nat)
  | exit (e : Exit)
  /-- A program text or a grammar that cannot be had. -/
  | noText (cause : NoText)
  /-- The separator stands where the path of a grammar is wanted. -/
  | noGrammar
  /-- A bad escape in a string literal. -/
  | badLiteral (error : LexError)
  /-- A text that nests too deeply. -/
  | nesting

/-- What the command comes to. -/
structure CheckReport where
  console : Console
  ending : CheckEnd

/-- The program text: from the standard input for a dash, from a file if the operand names one, and
the operand itself otherwise. -/
def checkText (w : Surroundings) (operand : String) : Except NoText String :=
  if operand = "-" then .ok w.input
  else
    match w.textAt operand with
    | .ok text => .ok text
    | .error .pathTooLong => .error .pathTooLong
    | .error .directory => .error .directory
    | .error _ => .ok operand

/-- Parses a program text and shows its outline, within a limit of nested calls. -/
def checkSource (limit : Nat) (source : String) : CheckReport :=
  match Grammar.parseTree limit source with
  | .ok t =>
    match t.outline? limit with
    | some text => ⟨.outLine text, .code 0⟩
    | none => ⟨.empty, .nesting⟩
  | .error (.scan e) => ⟨.errLine ("Parse error: " ++ e.message), .code 1⟩
  | .error (.build (.invalid e)) => ⟨.errLine ("Parse error: " ++ e.message), .code 1⟩
  | .error (.build (.badLiteral e)) => ⟨.empty, .badLiteral e⟩
  | .error (.build .tooDeep) => ⟨.empty, .nesting⟩

/-- Why the grammar cannot be had from the last value given for its path. No value, and an empty
path, mean the built-in grammar. -/
def grammarProblem (w : Surroundings) : Option (Option String) → Option CheckEnd
  | none | some (some "") => none
  | some none => some .noGrammar
  | some (some path) =>
    match w.textAt path with
    | .ok _ => none
    | .error cause => some (.noText cause)

/-- Carries the command out, within a limit of nested calls. -/
def check (limit : Nat) (w : Surroundings) (words : List String) : CheckReport :=
  match read checkSwitches words with
  | .error e => ⟨.empty, .exit e⟩
  | .ok r =>
    match checkText w (r.operand.getD "-") with
    | .error cause => ⟨.empty, .noText cause⟩
    | .ok source =>
      let path := (r.given.filter (·.1 = .grammar)).getLast?.map (·.2)
      match grammarProblem w path with
      | some problem => ⟨.empty, problem⟩
      | none => checkSource limit source

end Avii.CommandLine
