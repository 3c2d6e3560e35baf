import Avii.Token.Scan

/-!
# Highlighting

A line is cut into fragments with styles: one for each token, and unstyled ones for what stands
between tokens. A line that is not a list of tokens is one unstyled fragment. Places are columns, so
in a text of several lines a token may seem to lie before what has been shown; it is passed over.
-/

namespace Avii.Prompt

/-- A piece of text and its style. -/
structure Fragment where
  style : String
  text : String
deriving DecidableEq

/-- The groups of tokens that are shown alike. -/
inductive Group where
  | keyword | constant | number | string | identifier | function | operator | punctuation
  | none
deriving DecidableEq

/-- The style of a group. -/
def Group.style : Group → String
  | keyword => "bold ansicyan"
  | constant => "ansicyan"
  | number => "ansimagenta"
  | string => "ansigreen"
  | function => "bold ansiyellow"
  | identifier | operator | punctuation | none => ""

/-- The group of a kind of token. -/
def Group.ofKind : Kind → Group
  | .letWord | .constWord | .funcWord | .ifWord | .elseWord => keyword
  | .condop | .binop | .equals => operator
  | .number => number
  | .string => string
  | .ident => identifier
  | .lpar | .rpar | .lsqb | .rsqb | .lbrace | .rbrace | .dot | .comma | .colon | .semi =>
    punctuation
  | .eof => none

/-- The group of a token, given the one after it: word operators are keywords, the names of built-in
values are constants, and a name before a parenthesis is a function. -/
def Group.ofToken (t : Token) (next : Option Token) : Group :=
  if t.kind = .condop ∧ (t.text = "and" ∨ t.text = "or") then keyword
  else if t.kind = .ident ∧ ["true", "false", "null", "PI"].contains t.text then constant
  else if t.kind = .ident ∧ next.any (·.kind = .lpar) then function
  else ofKind t.kind

/-- How many characters of a text that starts inside a literal belong to the literal, the closing
quote included; all of them if it does not close. -/
def literalSpan : List Char → Nat
  | [] => 0
  | c :: rest =>
    if c = '\\' then
      match rest with
      | [] => 1
      | _ :: rest => literalSpan rest + 2
    else if c = Text.doubleQuote then 1
    else literalSpan rest + 1

/-- How many characters a token takes at the front of a text: literals are measured on the text,
since their own texts are decoded. -/
def tokenSpan (cs : List Char) (t : Token) : Nat :=
  if t.kind = .string then literalSpan (cs.drop 1) + 1 else t.text.length

/-- An unstyled fragment, unless it would be empty. -/
def plain (cs : List Char) : List Fragment :=
  if cs.isEmpty then [] else [⟨"", String.ofList cs⟩]

/-- The fragments of the part of a text that starts at a place. -/
def fragmentsFrom (cs : List Char) (pos : Nat) : List Token → List Fragment
  | [] => plain cs
  | t :: rest =>
    if t.kind = .eof then plain cs
    else
      let start := (t.column - 1).toNat
      if start < pos then fragmentsFrom cs pos rest
      else
        let shown := cs.drop (start - pos)
        let span := tokenSpan shown t
        plain (cs.take (start - pos))
          ++ ⟨(Group.ofToken t rest.head?).style, String.ofList (shown.take span)⟩
          :: fragmentsFrom (shown.drop span) (start + span) rest

/-- The fragments of a line. -/
def highlight (text : String) : List Fragment :=
  if text = "" then [⟨"", ""⟩]
  else
    match tokenize text with
    | .error _ => [⟨"", text⟩]
    | .ok ts =>
      match fragmentsFrom text.toList 0 ts with
      | [] => [⟨"", text⟩]
      | fs => fs

/-- The line of a document with a given number, counted from zero. A line past the end is empty. A
negative number counts from the end, where it may name no line. -/
def lineAt? (lines : List String) (n : Int) : Option String :=
  let place := if n < 0 then n + lines.length else n
  if place < 0 then none else some (lines[place.toNat]?.getD "")

/-- The fragments of a line of a document, by its number. -/
def highlightLine? (document : String) (n : Int) : Option (List Fragment) :=
  (lineAt? (document.splitOn "\n") n).map highlight

end Avii.Prompt
