import Avii.Grammar.Rules
import Avii.Token.Scan

/-!
# Lexemes in context

The lexemes of the grammar depend on what the parser can use: at each place only the terminals
that it accepts there are tried. So a keyword is a name wherever that keyword could not stand, and
the longest of the accepted operators is taken.
-/

namespace Avii.Grammar

open Avii.Scan (isWordStart isWordChar)

/-- A lexeme and the place where it starts. -/
structure Lexeme where
  terminal : Terminal
  text : String
  line : Int
  column : Int
deriving DecidableEq

/-- The keyword that a word is. -/
def keyword? (w : String) : Option Terminal :=
  if w = "let" then some .letWord
  else if w = "const" then some .constWord
  else if w = "func" then some .funcWord
  else if w = "if" then some .ifWord
  else if w = "else" then some .elseWord
  else if w = "and" then some .andWord
  else if w = "or" then some .orWord
  else none

/-- The terminals with only one lexeme, the longer lexemes first. -/
def fixed : List (Terminal × List Char) :=
  [(.constWord, ['c', 'o', 'n', 's', 't']), (.elseWord, ['e', 'l', 's', 'e']),
    (.funcWord, ['f', 'u', 'n', 'c']), (.andWord, ['a', 'n', 'd']), (.letWord, ['l', 'e', 't']),
    (.eq, ['=', '=']), (.neq, ['!', '=']), (.ifWord, ['i', 'f']), (.orWord, ['o', 'r']),
    (.plus, ['+']), (.minus, ['-']), (.star, ['*']), (.slash, ['/']), (.percent, ['%']),
    (.caret, ['^']), (.semicolon, [';']), (.equal, ['=']), (.lbrace, ['\x7b']),
    (.rbrace, ['\x7d']), (.comma, [',']), (.lpar, ['(']), (.rpar, [')']), (.dot, ['.']),
    (.lsqb, ['[']), (.rsqb, [']']), (.colon, [':'])]

/-- How many characters a literal's body and its closing quote take, from just past the opening
quote: a backslash takes the next character along, which must not be a line feed. -/
def literalLength? : List Char → Option Nat
  | [] => none
  | c :: rest =>
    if c = Text.doubleQuote then some 1
    else if c = '\\' then
      match rest with
      | [] => none
      | e :: rest => if e = '\n' then none else (literalLength? rest).map (· + 2)
    else (literalLength? rest).map (· + 1)

/-- How many characters a number takes: digits, and a point with digits if they follow. -/
def numberLength (cs : List Char) : Nat :=
  let whole := (cs.takeWhile Text.isAsciiDigit).length
  match cs.drop whole with
  | '.' :: rest =>
    match (rest.takeWhile Text.isAsciiDigit).length with
    | 0 => whole
    | n + 1 => whole + 1 + (n + 1)
  | _ => whole

/-- The accepted terminal with one lexeme that a text starts with, and how long that lexeme is. -/
def fixedAt? (accepts : Terminal → Bool) (cs : List Char) : Option (Terminal × Nat) :=
  (fixed.find? fun (t, lexeme) => accepts t && lexeme.isPrefixOf cs).map fun (t, lexeme) =>
    (t, lexeme.length)

/-- The terminal that a text starts with, and how long its lexeme is. -/
def lexemeAt? (accepts : Terminal → Bool) (cs : List Char) : Option (Terminal × Nat) :=
  match cs with
  | [] => none
  | c :: rest =>
    if c = Text.doubleQuote then
      if accepts .string then (literalLength? rest).map fun n => (.string, n + 1) else none
    else if Text.isAsciiDigit c then
      if accepts .number then some (.number, numberLength cs) else none
    else if isWordStart c && accepts .ident then
      let w := cs.takeWhile isWordChar
      match keyword? (String.ofList w) with
      | some k => some (if accepts k then k else .ident, w.length)
      | none => some (.ident, w.length)
    else fixedAt? accepts cs

end Avii.Grammar
