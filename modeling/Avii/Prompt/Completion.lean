import Avii.Prompt.Session

/-!
# Completion

At the prompt a text that starts with a slash is completed to the commands that start with it.
-/

namespace Avii.Prompt

/-- A proposal: what to put in place of the text, how far back it starts, and what it does. -/
structure Completion where
  text : String
  start : Int
  description : String
deriving DecidableEq

/-- The proposals for the text before the cursor. -/
def completions (text : String) : List Completion :=
  if text.toList.head? = some '/' then
    (Command.all.filter fun c => text.toList.isPrefixOf c.name.toList).map fun c =>
      ⟨c.name, -(text.length : Int), c.description⟩
  else []

end Avii.Prompt
