import Avii.Prompt.Session

/-!
# Keys at the prompt

What is typed at the prompt, key by key. Enter submits a text that does not go on, or that starts
with a slash, and starts a new line in any other; the backspace takes the last character away;
Control-C drops the text, and Control-D ends the session if there is none. The session also ends
when no more keys come.
-/

namespace Avii.Prompt

/-- What a key does. -/
inductive Key where
  | enter
  | backspace
  | interrupt
  | endOfInput
  | character (c : Char)
deriving DecidableEq

/-- The key that sends a character. -/
def Key.ofChar (c : Char) : Key :=
  if c = '\r' ∨ c = '\n' then enter
  else if c.toNat = 0x7F ∨ c.toNat = 8 then backspace
  else if c.toNat = 3 then interrupt
  else if c.toNat = 4 then endOfInput
  else character c

/-- The text typed so far, last character first. -/
abbrev Buffer := List Char

/-- The text of a buffer. -/
def Buffer.text (b : Buffer) : String := String.ofList b.reverse

/-- What a session at the prompt comes to: what it wrote, and the failure that ended it if it did
not end by itself. -/
structure Conversation where
  console : Console
  escaped : Option Failure

/-- Does Enter submit this text? -/
def submits (text : String) : Bool :=
  text.toList.head? = some '/' || !needsContinuation text

/-- Types keys in a session that has already written something. -/
def typeKeys (s : Session) (buffer : Buffer) (written : Console) : List Char → Conversation
  | [] => ⟨written ++ .outLine "", none⟩
  | c :: rest =>
    match Key.ofChar c with
    | .character c => typeKeys s (c :: buffer) written rest
    | .backspace => typeKeys s (buffer.drop 1) written rest
    | .interrupt => typeKeys s [] (written ++ .outLine "KeyboardInterrupt") rest
    | .endOfInput =>
      if buffer.isEmpty then ⟨written ++ .outLine "", none⟩ else typeKeys s buffer written rest
    | .enter =>
      let text := buffer.text
      if submits text then
        let step := submit s text
        let written := written ++ step.console
        match step.escaped with
        | some f => ⟨written, some f⟩
        | none => typeKeys step.session [] written rest
      else typeKeys s ('\n' :: buffer) written rest

/-- What the prompt greets with. -/
def banner : String := "avii repl, Ctrl-D to exit, / for commands"

/-- A session in which keys are typed, started where a limit of nested calls is in force. -/
def converse (settings : Settings) (limit : Nat) (keys : List Char) : Conversation :=
  typeKeys (.start settings limit) [] (.outLine banner) keys

end Avii.Prompt
