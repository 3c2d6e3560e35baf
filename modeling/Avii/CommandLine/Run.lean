import Avii.CommandLine.Source
import Avii.CommandLine.Switch
import Avii.Prompt.Keys

/-!
# The command that runs programs

It runs a program text, or shows its tokens or its tree instead; without an operand at a terminal it
starts the prompt. Mistakes of the program are reported and make the command fail.
-/

namespace Avii.CommandLine

/-- The switches of the command. -/
inductive RunSwitch where
  | help | ast | tokens | printResult | verbose
deriving DecidableEq

/-- The names of the switches. -/
def runSwitches : List (Switch RunSwitch) :=
  [⟨["-h", "--help"], .help, false, true⟩,
    ⟨["--ast"], .ast, false, false⟩,
    ⟨["--tokens"], .tokens, false, false⟩,
    ⟨["-p", "--print-result"], .printResult, false, false⟩,
    ⟨["-v", "--verbose"], .verbose, false, false⟩]

/-- How a command ends: with an exit code, without being carried out, for want of a program text, or
by a failure that it does not report. -/
inductive RunEnd where
  | code (n : Nat)
  | exit (e : Exit)
  | noText (cause : NoText)
  | escaped (f : Failure)

/-- What a command comes to. -/
structure RunReport where
  console : Console
  ending : RunEnd

/-- The program text: from the standard input for no operand or a dash, from a file if the operand
names one, and the operand itself otherwise. -/
def sourceText (w : Surroundings) : Option String → Except NoText String
  | none | some "-" => if w.input = "" then .error .noInput else .ok w.input
  | some operand =>
    match w.textAt operand with
    | .ok text => .ok text
    | .error .pathTooLong => .error .pathTooLong
    | .error _ => .ok operand

/-- The log of a run, if it is wanted. -/
def logLines (wanted : Bool) (events : List Event) : String :=
  if wanted then String.join (events.map fun e => e.line ++ "\n") else ""

/-- The text that the command writes once all has gone well; `limit` is the limit of nested calls in
force, and `budget` the one for an evaluation. -/
def job (given : RunSwitch → Bool) (limit : Nat) (budget : Except LimitError Nat)
    (source : String) : Run String :=
  if given .tokens then do
    let ts ← Program.tokens source
    return String.join (ts.map fun t => t.describe ++ "\n")
  else if given .ast then do
    let t ← Program.read limit source
    let text ← Program.outline limit t
    return text ++ "\n"
  else do
    let t ← Program.read limit source
    let n ← Program.granted budget
    let v ← Run.ofEval (evaluate n Machine.globalId t)
    if given .printResult then
      let text ← Program.displayed n v
      return text ++ "\n"
    else
      return ""

/-- Carries the command out on a program text, where a limit of nested calls is in force. -/
def runSource (settings : Settings) (limit : Nat) (given : RunSwitch → Bool) (source : String) :
    RunReport :=
  let logged := given .verbose || settings.showsEvents
  match job given limit (settings.raise limit) source .fresh with
  | .ok text m => ⟨⟨m.output ++ text, logLines logged m.history⟩, .code 0⟩
  | .error f m =>
    if f.isReported then
      ⟨⟨m.output, logLines logged (m.history ++ [.runFailed])⟩ ++ .report settings f, .code 1⟩
    else ⟨⟨m.output, logLines logged m.history⟩, .escaped f⟩

/-- Carries the command out, where a limit of nested calls is in force; `keys` are what is typed if
it starts the prompt. -/
def run (settings : Settings) (limit : Nat) (w : Surroundings) (keys : List Char)
    (words : List String) : RunReport :=
  match read runSwitches words with
  | .error e => ⟨.empty, .exit e⟩
  | .ok r =>
    if r.operand.isNone && w.isTerminal then
      let c := Prompt.converse settings limit keys
      match c.escaped with
      | none => ⟨c.console, .code 0⟩
      | some f => ⟨c.console, .escaped f⟩
    else
      match sourceText w r.operand with
      | .error cause => ⟨.empty, .noText cause⟩
      | .ok source => runSource settings limit (fun s => r.given.any (·.1 = s)) source

end Avii.CommandLine
