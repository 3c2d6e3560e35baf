/-!
# Events

What a run notes down while it goes on, for whoever asks to see it.
-/

namespace Avii

/-- Something worth noting. -/
inductive Event where
  | tokenized (characters tokens : Nat)
  | parsed (statements : Nat)
  | evaluating (what : String)
  | called (function : String) (params : List String)
  | runFailed
deriving DecidableEq

/-- The line that a log shows for an event. -/
def Event.line : Event → String
  | tokenized characters tokens =>
    "DEBUG avii_ref.lexer_rd: tokenized " ++ toString characters ++ " chars into "
      ++ toString tokens ++ " tokens"
  | parsed statements =>
    "DEBUG avii_ref.parser_rd: parsed " ++ toString statements ++ " top-level statements"
  | evaluating what => "DEBUG avii_ref.evaluator: evaluate " ++ what
  | called function params =>
    "DEBUG avii_ref.runtime: call " ++ function ++ "(" ++ ", ".intercalate params ++ ")"
  | runFailed => "DEBUG avii_ref.runner: run failed"

end Avii
