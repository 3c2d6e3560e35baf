import Avii.Settings
import Avii.Tree.Show

/-!
# Sessions at the prompt

A session takes one submission after the other. A submission is a program text, which runs in the
session's scope, or a command, which starts with a slash. Mistakes are reported and the session goes
on; the failures that are not the program's doing end it.

The host's limit of nested calls is part of a session: texts are read and outlines are written
within the limit in force, an evaluation may raise it, and nothing lowers it, a reset included.
-/

namespace Avii

/-- What is written to the two output streams. -/
structure Console where
  out : String
  err : String
deriving DecidableEq

namespace Console

/-- Nothing written. -/
def empty : Console := ⟨"", ""⟩

/-- A line on the standard output. -/
def outLine (s : String) : Console := ⟨s ++ "\n", ""⟩

/-- A line on the standard error stream. -/
def errLine (s : String) : Console := ⟨"", s ++ "\n"⟩

/-- One console after another. -/
def append (a b : Console) : Console := ⟨a.out ++ b.out, a.err ++ b.err⟩

instance : Append Console := ⟨append⟩

/-- How a mistake is reported: its message, and the heading of a traceback if tracebacks are
shown. -/
def report (s : Settings) (f : Failure) : Console :=
  errLine ("Error: " ++ f.message)
    ++ if s.showsTraceback then errLine "\nPython traceback:" else empty

end Console

namespace Prompt

/-- A session: the machine, the scope that submissions run in, the settings, and the limit of nested
calls that is in force. -/
structure Session where
  machine : Machine
  scope : ScopeId
  settings : Settings
  limit : Nat

/-- A new session, started where a limit of nested calls is in force. -/
def Session.start (settings : Settings) (limit : Nat) : Session :=
  ⟨.fresh, Machine.globalId, settings, limit⟩

/-- What a step of a session comes to: the session after it, what it wrote, and the failure that it
did not survive. -/
structure Step where
  session : Session
  console : Console
  escaped : Option Failure

/-- A step that only writes. -/
def Session.writes (s : Session) (c : Console) : Step := ⟨s, c, none⟩

/-! ## Texts -/

/-- The characters that a submission loses: those without width, the no-break space and the carriage
return. -/
def isInvisible (c : Char) : Bool :=
  let n := c.toNat
  n == 0x200B || n == 0x200C || n == 0x200D || n == 0xFEFF || n == 0xA0 || n == 13

/-- A submission without its invisible characters. -/
def normalize (text : String) : String :=
  String.ofList (text.toList.filter (!isInvisible ·))

/-- The depth of open brackets after some tokens; a closing bracket too many does not count. -/
def openDepth (ts : List Token) : Nat :=
  ts.foldl (fun d t => if t.kind.opens then d + 1 else if t.kind.closes then d - 1 else d) 0

/-- Does a text go on: is a bracket open, or a string literal? -/
def needsContinuation (text : String) : Bool :=
  match tokenize text with
  | .ok ts => 0 < openDepth ts
  | .error (.unterminatedString ..) => true
  | .error _ => false

/-! ## Commands -/

/-- The commands. -/
inductive Command where
  | ast
  | clear
  | traceback
  | reset
deriving DecidableEq

namespace Command

/-- Every command, in the order in which they are listed. -/
def all : List Command := [ast, clear, traceback, reset]

/-- What is typed for a command. -/
def name : Command → String
  | ast => "/ast"
  | clear => "/clear"
  | traceback => "/py-traceback"
  | reset => "/reset"

/-- What a command does, in words. -/
def description : Command → String
  | ast => "Print the parse tree of the given code"
  | clear => "Clear the terminal screen"
  | traceback => "Toggle Python traceback on errors"
  | reset => "Reset the REPL environment"

/-- The command that a word is. -/
def ofName? (s : String) : Option Command :=
  all.find? (·.name = s)

end Command

/-- The answer to a wish about tracebacks: on, off, the other way round, or not understood. -/
def wantsTraceback? (shown : Bool) (arg : String) : Option Bool :=
  let word := Text.lower arg
  if ["on", "1", "true", "yes"].contains word then some true
  else if ["off", "0", "false", "no"].contains word then some false
  else if arg = "" then some !shown
  else none

/-- Switches tracebacks. -/
def switchTraceback (s : Session) (arg : String) : Step :=
  match wantsTraceback? s.settings.showsTraceback arg with
  | none => s.writes (.errLine "Usage: /py-traceback [on|off]")
  | some shown =>
    let s := { s with settings := s.settings.withTraceback shown }
    let state := if s.settings.showsTraceback then "on" else "off"
    s.writes (.outLine ("Python traceback: " ++ state))

/-- Shows the outline of a program text. A text that nests too deeply for the limit in force ends
the session. -/
def showOutline (s : Session) (code : String) : Step :=
  if code = "" then s.writes (.errLine "Usage: /ast <code>")
  else
    match tokenize code with
    | .error e => s.writes (.report s.settings (.lexical e))
    | .ok ts =>
      match parseTokens s.limit ts with
      | .ok t =>
        match t.outline? s.limit with
        | some text => s.writes (.outLine text)
        | none => ⟨s, .empty, some .nesting⟩
      | .error (.invalid e) => s.writes (.report s.settings (.grammatical e))
      | .error .tooDeep => ⟨s, .empty, some .nesting⟩

/-- Gives a session a new outermost scope. -/
def reset (s : Session) : Step :=
  let m := s.machine
  let s := { s with machine := { m with store := m.store.createGlobal }, scope := m.store.next }
  s.writes (.outLine "Environment reset.")

/-- Carries a command out. -/
def perform (s : Session) (c : Command) (arg : String) : Step :=
  match c with
  | .ast => showOutline s arg
  | .clear => s.writes .empty
  | .traceback => switchTraceback s arg
  | .reset => reset s

/-- Carries out the command that a line is, if it is one. -/
def command? (s : Session) (line : String) : Option Step :=
  let stripped := Text.strip line
  if stripped.toList.head? = some '/' then
    let (name, arg) := Text.splitFirst stripped
    match Command.ofName? name with
    | some c => some (perform s c arg)
    | none => some (s.writes (.errLine ("Unknown command: " ++ name)))
  else none

/-! ## Submissions -/

/-- What is written once a submission has run: its value on a line, but nothing for null. -/
def shownValue (limit : Nat) : Value → Run String
  | .null => return ""
  | v => do
    let text ← Program.displayed limit v
    return text ++ "\n"

/-- The step that a failed run is: a mistake is reported, any other failure ends the session. -/
def Session.fails (s : Session) (f : Failure) (m : Machine) : Step :=
  let s := { s with machine := m }
  if f.isReported then ⟨s, ⟨m.output, ""⟩ ++ .report s.settings f, none⟩
  else ⟨s, ⟨m.output, ""⟩, some f⟩

/-- A failed run changes nothing of a session but its machine. -/
@[simp] theorem Session.fails_session (s : Session) (f : Failure) (m : Machine) :
    (s.fails f m).session = { s with machine := m } := by
  unfold Session.fails
  simp only
  split <;> rfl

/-- Evaluates a tree in the session's scope and writes its value. -/
def runTree (s : Session) (t : Tree) : Step :=
  let job : Run String := do
    let v ← Run.ofEval (evaluate s.limit s.scope t)
    shownValue s.limit v
  match job s.machine with
  | .ok text m => ⟨{ s with machine := m }, ⟨m.output ++ text, ""⟩, none⟩
  | .error f m => s.fails f m

/-- Runs a program text in the session's scope. Once the text has a tree, the limit in force is
raised for its evaluation, and stays raised. -/
def runProgram (s : Session) (source : String) : Step :=
  match Program.read s.limit source { s.machine with output := "" } with
  | .error f m => s.fails f m
  | .ok t m =>
    match s.settings.raise s.limit with
    | .error e => s.fails (.budget e) m
    | .ok n => runTree { s with machine := m, limit := n } t

/-- Takes a submission. -/
def submit (s : Session) (text : String) : Step :=
  let text := normalize text
  if Text.strip text = "" then s.writes .empty
  else
    match command? s text with
    | some step => step
    | none => runProgram s text

/-- The names that a session's scope binds beyond the built-in ones, sorted. -/
def Session.names (s : Session) : List String :=
  (s.machine.store.ownListing s.scope).map (·.name)

end Prompt

end Avii
