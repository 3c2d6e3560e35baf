import Avii.Program
import Avii.Text.Blank
import Avii.Text.Case
import Avii.Text.Digit

/-!
# Settings

Three environment variables set how much is logged, whether tracebacks are shown, and how deeply
evaluation may nest. The last is a wish: the host has a limit of nested calls of its own, which an
evaluation raises to the wanted one where that is larger, and which nothing lowers again.
-/

namespace Avii

/-- The texts of the variables that are set. -/
structure Settings where
  logLevel : Option String
  traceback : Option String
  recursionLimit : Option String

namespace Settings

/-- The variable that names the level of logging. -/
def logLevelVariable : String := "AVII_LOG_LEVEL"

/-- The variable that switches tracebacks on. -/
def tracebackVariable : String := "AVII_DEBUG_PY_TRACE"

/-- The variable that sets how deeply evaluation may nest. -/
def recursionLimitVariable : String := "AVII_RECURSION_LIMIT"

/-- The settings in an environment. -/
def ofEnvironment (valueOf? : String → Option String) : Settings where
  logLevel := valueOf? logLevelVariable
  traceback := valueOf? tracebackVariable
  recursionLimit := valueOf? recursionLimitVariable

/-! ## Tracebacks -/

/-- The words that switch tracebacks on. -/
def affirmative : List String := ["1", "true", "yes", "on"]

/-- Are tracebacks shown? -/
def showsTraceback (s : Settings) : Bool :=
  affirmative.contains (Text.lower (Text.strip (s.traceback.getD "")))

/-- Switches tracebacks on or off. -/
def withTraceback (s : Settings) (shown : Bool) : Settings :=
  { s with traceback := if shown then some "1" else none }

/-! ## Logging -/

/-- A level of logging, or the text that names none. -/
inductive LogLevel where
  | known (n : Nat)
  | unknown (name : String)
deriving DecidableEq

/-- The level with a given name. -/
def levelNamed? (name : String) : Option Nat :=
  if name = "CRITICAL" ∨ name = "FATAL" then some 50
  else if name = "ERROR" then some 40
  else if name = "WARNING" ∨ name = "WARN" then some 30
  else if name = "INFO" then some 20
  else if name = "DEBUG" then some 10
  else if name = "NOTSET" then some 0
  else none

/-- The capital of a letter that a level's name may be written with: besides the small ASCII
letters, the dotless i and the long s have ASCII capitals. -/
def capital (c : Char) : Char :=
  if c.toNat = 0x131 then 'I' else if c.toNat = 0x17F then 'S' else c.toUpper

/-- The level that a text names, white space around it and case apart. -/
def levelOf? (text : String) : Option Nat :=
  levelNamed? (String.ofList ((Text.strip text).toList.map capital))

/-- The level of logging, with the name of the level to use where the variable names none. -/
def level (s : Settings) (default : String) : LogLevel :=
  match levelOf? (s.logLevel.getD default) with
  | some n => .known n
  | none =>
    match levelNamed? default with
    | some n => .known n
    | none => .unknown default

/-- Are the notes of a run shown? -/
def showsEvents (s : Settings) : Bool :=
  match s.level "WARNING" with
  | .known n => n ≤ 10
  | .unknown _ => false

/-! ## Depth of evaluation -/

/-- The depth of evaluation that is wanted where nothing is set. -/
def defaultLimit : Nat := 5000

/-- The most digits of a limit that are read. -/
def limitDigits : Nat := 4300

/-- The limit that is wanted: a number above zero, or the default. -/
def limit (s : Settings) : Except LimitError Nat :=
  let ds := (Text.strip (s.recursionLimit.getD "")).toList
  if !ds.isEmpty && ds.all Text.isDigit then
    if limitDigits < ds.length then .error .unreadable
    else
      match Text.decimalOf? ds with
      | none => .error .unreadable
      | some 0 => .ok defaultLimit
      | some n => .ok n
  else .ok defaultLimit

/-- The largest limit that can be granted. -/
def greatestLimit : Nat := Nat.pow 2 31 - 1

/-- The limit that an evaluation has where `current` is the limit in force: the wanted one if that
is larger. It is also in force afterwards. -/
def raise (s : Settings) (current : Nat) : Except LimitError Nat :=
  match s.limit with
  | .error e => .error e
  | .ok n =>
    if n ≤ current then .ok current
    else if greatestLimit < n then .error .tooLarge
    else .ok n

/-- An evaluation never lowers the limit in force. -/
theorem le_of_raise {s : Settings} {current n : Nat} (h : s.raise current = .ok n) :
    current ≤ n := by
  unfold raise at h
  cases hlimit : s.limit with
  | error e => simp [hlimit] at h
  | ok wanted =>
    simp only [hlimit] at h
    split at h
    next => cases h; exact Nat.le_refl _
    next hlarger =>
      split at h
      · cases h
      · cases h; omega

end Settings

end Avii
