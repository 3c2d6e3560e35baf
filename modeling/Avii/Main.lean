import Avii.CommandLine.Run

/-!
# The program

Reads the environment, the standard input and the files that the command line names, carries the
command out and writes what it says. At a terminal the prompt reads lines.
-/

namespace Avii.Main

open CommandLine (Entry)

/-- What stands at a path, if it can be read. -/
def entryAt? (path : String) : IO (Option Entry) := do
  try
    return some (.file (← IO.FS.readFile path))
  catch
    | .inappropriateType .. => return some .directory
    | _ => return none

/-- What stands at the paths that are looked up for some words. -/
def entriesFor (words : List String) : IO (List (String × Entry)) :=
  (words.flatMap CommandLine.lookups).filterMapM fun path => do
    return (← entryAt? path).map (path, ·)

/-- The limit of nested calls that a new process has. -/
def startingLimit : Nat := 1000

/-- The settings of the process. -/
def settings : IO Settings := do
  let logLevel ← IO.getEnv Settings.logLevelVariable
  let traceback ← IO.getEnv Settings.tracebackVariable
  let recursionLimit ← IO.getEnv Settings.recursionLimitVariable
  return ⟨logLevel, traceback, recursionLimit⟩

/-- Writes to the two output streams. -/
def write (c : Console) : IO Unit := do
  IO.print c.out
  IO.eprint c.err

/-- Takes submissions line by line until the input ends; `text` is what has been typed of the next
one. -/
partial def converse (input : IO.FS.Stream) (s : Prompt.Session) (text : String) : IO UInt32 := do
  IO.print (if text = "" then ">>> " else "... ")
  let line ← input.getLine
  if line.isEmpty then
    write (.outLine "")
    return 0
  let text := text ++ String.ofList (line.toList.filter (· ≠ '\n'))
  if Prompt.submits text then
    let step := Prompt.submit s text
    write step.console
    match step.escaped with
    | some f => throw (IO.userError f.message)
    | none => converse input step.session ""
  else converse input s (text ++ "\n")

end Avii.Main

open Avii Main CommandLine in
/-- Runs the command that the words are. -/
def main (words : List String) : IO UInt32 := do
  let input ← IO.getStdin
  let isTerminal ← input.isTty
  let settings ← settings
  match read runSwitches words with
  | .error .help => return 0
  | .error .usage => return 2
  | .ok r =>
    if r.operand.isNone && isTerminal then
      IO.println Prompt.banner
      converse input (.start settings startingLimit) ""
    else
      let text ← if r.operand.isNone || r.operand = some "-" then input.readToEnd else pure ""
      let entries ← entriesFor words
      let report :=
        run settings startingLimit ⟨text, isTerminal, fun path => entries.lookup path⟩ [] words
      write report.console
      match report.ending with
      | .code n => return n.toUInt32
      | .exit .help => return 0
      | .exit .usage => return 2
      | .noText .noInput =>
        IO.eprintln NoText.noInput.message
        return 1
      | .noText cause => throw (IO.userError cause.message)
      | .escaped f => throw (IO.userError f.message)
