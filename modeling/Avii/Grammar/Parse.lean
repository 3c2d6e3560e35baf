import Avii.Grammar.Scan

/-!
# Parsing by the grammar

The table-driven parser keeps a stack of frames, each with a state and the parts read so far. On a
lexeme it ends all rules that the lexeme ends, then takes the lexeme. The terminals that are tried
at a place are those with an action in the state on top of the stack when the last lexeme had been
taken.
-/

namespace Avii.Grammar

/-- A tree of the grammar: a lexeme, or a node made by a rule. -/
inductive Parse where
  | lexeme (l : Lexeme)
  | node (form : Form) (parts : List Parse)

instance : Inhabited Parse := ⟨.node .program []⟩

/-- Why a text is not a program of the grammar. -/
inductive ScanError where
  /-- A lexeme that cannot stand where it does. -/
  | unexpectedLexeme (l : Lexeme)
  /-- A character that starts no lexeme. -/
  | unexpectedCharacter (c : Char) (line column : Int)
deriving DecidableEq

namespace ScanError

/-- The line of the error. -/
def line : ScanError → Int
  | unexpectedLexeme l => l.line
  | unexpectedCharacter _ line _ => line

/-- The column of the error. -/
def column : ScanError → Int
  | unexpectedLexeme l => l.column
  | unexpectedCharacter _ _ column => column

/-- What is wrong, in words. -/
def message : ScanError → String
  | unexpectedLexeme l =>
    "Unexpected token Token(" ++ Text.quote l.terminal.name ++ ", " ++ Text.quote l.text
      ++ ") at line " ++ toString l.line ++ ", column " ++ toString l.column ++ "."
  | unexpectedCharacter c line column =>
    "No terminal matches '" ++ c.toString ++ "' in the current parser context, at line "
      ++ toString line ++ " col " ++ toString column

end ScanError

/-- A state of the parser, and the parts of the symbol that led to it, the last first. -/
structure Frame where
  state : Nat
  parts : List Parse

/-- The stack of a parser, the top first. -/
abbrev Stack := List Frame

/-- The state on top of a stack. -/
def Stack.top (s : Stack) : Nat :=
  match s with
  | [] => 0
  | f :: _ => f.state

/-- The parts of some frames, the last first. Those of the lowest frame are not copied, so that a
rule whose head also starts its body takes no longer the more parts there are. -/
def Stack.parts : Stack → List Parse
  | [] => []
  | [f] => f.parts
  | f :: below => f.parts ++ Stack.parts below

section Table

-- any table will do for the parser itself; the grammar's own is the one for programs
variable (table : Lalr.Table)

/-- Ends a rule: the frames of its body give way to one for its head. -/
def Stack.reduce? (s : Stack) (r : Rule) : Option Stack :=
  let parts := Stack.parts (s.take r.body.length)
  let below := s.drop r.body.length
  let made :=
    match r.shape with
    | .node form => [.node form parts.reverse]
    | .splice => parts
  (table.goto? (Stack.top below) r.head.code).map fun state => ⟨state, made⟩ :: below

/-- Ends rules, at most a number of them, until the terminal is taken: the stack below it, and the
state that it leads to. -/
def Stack.settle (terminal : Terminal) : Nat → Stack → Option (Stack × Nat)
  | 0, _ => none
  | rounds + 1, s =>
    match table.action? (Stack.top s) terminal.code with
    | none => none
    | some (.shift state) => some (s, state)
    | some (.reduce rule) =>
      match rules[rule]? with
      | none => none
      | some r =>
        match s.reduce? table r with
        | none => none
        | some s => Stack.settle terminal rounds s

/-- How many rules can end between two lexemes: a rule that does not shorten the stack has a head
that is not yet on top of it. -/
def Stack.rounds (s : Stack) : Nat :=
  (s.length + 1) * (Variable.count + 1)

/-- Takes a lexeme. -/
def Stack.take? (s : Stack) (l : Lexeme) : Option Stack :=
  (Stack.settle table l.terminal (Stack.rounds s) s).map fun (below, state) =>
    ⟨state, if l.terminal.isPart then [.lexeme l] else []⟩ :: below

/-- The terminals with an action in the state on top. -/
def Stack.accepts (s : Stack) (t : Terminal) : Bool :=
  table.accepts (Stack.top s) t.code

/-- What a text that does not go on as the parser can use is refused for: a lexeme, if it starts
with one of any terminal, or else its first character. -/
def refusalAt (pos : Position) (c : Char) (rest : List Char) : ScanError :=
  match lexemeAt? (fun _ => true) (c :: rest) with
  | some (t, n) => .unexpectedLexeme ⟨t, String.ofList ((c :: rest).take n), pos.line, pos.column⟩
  | none => .unexpectedCharacter c pos.line pos.column

/-- Ends a program: the tree, or the refusal at the place where the last lexeme started. -/
def Stack.finish (s : Stack) (last : Position) : Except ScanError Parse :=
  match Stack.settle table .finish (Stack.rounds s) s with
  | some (⟨_, p :: _⟩ :: _, _) => .ok p
  | _ => .error (.unexpectedLexeme ⟨.finish, "", last.line, last.column⟩)

/-- Parses the rest of a text in at most a number of steps, each of which takes a character or a
lexeme; `last` is where the last lexeme started. -/
def parseFrom : Nat → Stack → Position → Position → List Char → Except ScanError Parse
  | 0, s, last, _, _ => s.finish table last
  | _ + 1, s, last, _, [] => s.finish table last
  | steps + 1, s, last, pos, c :: rest =>
    if Scan.isGap c then parseFrom steps s last (pos.step c) rest
    else
      match lexemeAt? (s.accepts table) (c :: rest) with
      | none => .error (refusalAt pos c rest)
      | some (t, n) =>
        let lexeme := (c :: rest).take n
        let l : Lexeme := ⟨t, String.ofList lexeme, pos.line, pos.column⟩
        match s.take? table l with
        | none => .error (.unexpectedLexeme l)
        | some s => parseFrom steps s pos (pos.advance lexeme) ((c :: rest).drop n)

end Table

/-- The tree of a program text. -/
def parse (source : String) : Except ScanError Parse :=
  let cs := source.toList
  parseFrom table (cs.length + 1) [⟨0, []⟩] .start .start cs

end Avii.Grammar
