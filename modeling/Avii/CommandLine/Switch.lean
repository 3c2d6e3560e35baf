import Avii.Text.Digit

/-!
# Switches and operands

How the words of a command line are told apart. A word that starts with a dash is a switch if it is
one of the names of a switch, the beginning of just one long name, or a short name with something
attached to it; a long name may have something attached after an equals sign too. What is attached
is the value of the switch if it takes one, and otherwise, for a short name, more short names. A
lone dash, a negative number and a word with a space that is no switch are operands, and so is every
word after the first `--`. A command takes at most one operand, and a `--` must not stand behind it
with a switch between.

The switches of a word take effect once the whole word has been read. A word that starts with a dash
and is no switch makes the command line wrong only at its end, so that a call for help after it is
still heard.
-/

namespace Avii.CommandLine

/-- A switch with its names; `key` tells it from the others. -/
structure Switch (κ : Type) where
  names : List String
  key : κ
  takesValue : Bool
  isHelp : Bool

/-- Why a command is not carried out: its help was asked for, or it was used wrongly. -/
inductive Exit where
  | help
  | usage
deriving DecidableEq

/-- What a word is. -/
inductive Word (κ : Type) where
  | switch (s : Switch κ) (isLong : Bool) (attached : Option (List Char))
  | unknown
  | operand (text : String)
  | separator

/-- What the words of a command line come to: the switches in order, each with its value if it has
one, the operand, whether a switch came after it, and whether something was left over. -/
structure Reading (κ : Type) where
  given : List (κ × Option String)
  operand : Option String
  passed : Bool
  surplus : Bool

variable {κ : Type}

/-- The switch with a given name. -/
def named? (switches : List (Switch κ)) (name : List Char) : Option (Switch κ) :=
  switches.find? fun s => s.names.any (·.toList = name)

/-- The text before the first equals sign, and the text after it if there is one. -/
def atEquals (cs : List Char) : List Char × Option (List Char) :=
  match cs.dropWhile (· ≠ '=') with
  | [] => (cs, none)
  | _ :: rest => (cs.takeWhile (· ≠ '='), some rest)

/-- A text without the line feed at its end, if it has one there. -/
def withoutLineEnd (cs : List Char) : List Char :=
  if cs.getLast? = some '\n' then cs.dropLast else cs

/-- Does a word look like a negative number? A line feed at its end does not count. -/
def isNegativeNumber (cs : List Char) : Bool :=
  match withoutLineEnd cs with
  | '-' :: ds =>
    let isDecimal (c : Char) := (Text.digitValue? c).isSome
    match ds.dropWhile isDecimal with
    | [] => !ds.isEmpty
    | '.' :: fraction => !fraction.isEmpty && fraction.all isDecimal
    | _ => false
  | _ => false

/-- Does a name have two dashes in front? -/
def isLongName : List Char → Bool
  | '-' :: '-' :: _ => true
  | _ => false

/-- The switches that a word may abbreviate, or whose short name it starts with. -/
def candidates (switches : List (Switch κ)) (cs : List Char) : List (Word κ) :=
  if isLongName cs then
    let (front, value) := atEquals cs
    switches.flatMap fun s =>
      (s.names.filter fun n => front.isPrefixOf n.toList).map fun _ =>
        .switch s true value
  else
    switches.flatMap fun s =>
      (s.names.filter fun n => n.toList = cs.take 2).map fun _ =>
        .switch s false (some (cs.drop 2))

/-- What a word before the separator is. -/
def classify (switches : List (Switch κ)) (word : String) : Except Exit (Word κ) :=
  let cs := word.toList
  if cs.head? ≠ some '-' ∨ cs.length = 1 then .ok (.operand word)
  else
    match named? switches cs, atEquals cs with
    | some s, _ => .ok (.switch s (isLongName cs) none)
    | none, (front, value) =>
      match if value.isSome then named? switches front else none with
      | some s => .ok (.switch s (isLongName front) value)
      | none =>
        match candidates switches cs with
        | [w] => .ok w
        | _ :: _ :: _ => .error .usage
        | [] =>
          if isNegativeNumber cs || cs.contains ' ' then .ok (.operand word) else .ok .unknown

/-- What each word is. -/
def classifyAll (switches : List (Switch κ)) : List String → Except Exit (List (Word κ))
  | [] => .ok []
  | word :: rest =>
    if word = "--" then .ok (.separator :: rest.map .operand)
    else
      match classify switches word with
      | .error e => .error e
      | .ok w => (classifyAll switches rest).map (w :: ·)

/-- The switches that a word gives, with their values; the value of the last one may be the next
word. -/
structure Group (κ : Type) where
  given : List (Switch κ × Option String)
  wants : Option (Switch κ)

/-- The value that a text is; the separator is none. -/
def valueOf (text : List Char) : Option String :=
  if text = ['-', '-'] then none else some (String.ofList text)

/-- The group of a switch with nothing attached to it. -/
def Group.alone (s : Switch κ) : Group κ :=
  if s.takesValue then ⟨[], some s⟩ else ⟨[(s, none)], none⟩

/-- The group of a switch and what is attached to it: a value if it takes one, and otherwise, if its
name is short, more short names. -/
def Group.attached (switches : List (Switch κ)) (s : Switch κ) (isLong : Bool) (text : List Char) :
    Except Exit (Group κ) :=
  if s.takesValue then .ok ⟨[(s, valueOf text)], none⟩
  else
    match isLong, text with
    | false, c :: rest =>
      match named? switches ['-', c] with
      | none => .error .usage
      | some next =>
        let tail := if rest.isEmpty then .ok (alone next) else attached switches next false rest
        tail.map fun g => { g with given := (s, none) :: g.given }
    | _, _ => .error .usage

/-- The group of a switch. -/
def Group.of (switches : List (Switch κ)) (s : Switch κ) (isLong : Bool) :
    Option (List Char) → Except Exit (Group κ)
  | none => .ok (alone s)
  | some text => attached switches s isLong text

/-- Adds switches, and stops if one of them asks for help. -/
def Reading.add (r : Reading κ) (given : List (Switch κ × Option String)) :
    Except Exit (Reading κ) :=
  if given.any (·.1.isHelp) then .error .help
  else
    .ok { r with
      given := r.given ++ given.map fun (s, v) => (s.key, v)
      passed := r.operand.isSome }

/-- Reads words in order. -/
def readWords (switches : List (Switch κ)) (r : Reading κ) :
    List (Word κ) → Except Exit (Reading κ)
  | [] => .ok r
  | .operand text :: rest =>
    match r.operand with
    | none => readWords switches { r with operand := some text } rest
    | some _ => readWords switches { r with surplus := true } rest
  | .separator :: rest => readWords switches { r with surplus := r.surplus || r.passed } rest
  | .unknown :: rest => readWords switches { r with surplus := true } rest
  | .switch s isLong text :: rest =>
    match Group.of switches s isLong text with
    | .error e => .error e
    | .ok g =>
      match g.wants, rest with
      | none, rest =>
        match r.add g.given with
        | .error e => .error e
        | .ok r => readWords switches r rest
      | some s, .operand value :: rest =>
        match r.add (g.given ++ [(s, some value)]) with
        | .error e => .error e
        | .ok r => readWords switches r rest
      | some _, _ => .error .usage

/-- Reads a command line: no word may be left over. -/
def read (switches : List (Switch κ)) (words : List String) : Except Exit (Reading κ) :=
  match classifyAll switches words with
  | .error e => .error e
  | .ok ws =>
    match readWords switches ⟨[], none, false, false⟩ ws with
    | .error e => .error e
    | .ok r => if r.surplus then .error .usage else .ok r

end Avii.CommandLine
