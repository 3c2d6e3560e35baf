import Avii.Token.Basic

/-!
# Escapes in string literals

Between the quotes of a literal a backslash and one of seven characters denote a character; a
backslash before anything else is refused. This module also holds the ways in which a text can fail
to be a list of tokens, since a bad escape is one of them.
-/

namespace Avii

/-- Why a text is not a list of tokens. -/
inductive LexError where
  /-- A literal that is never closed; its opening quote stands at the place. -/
  | unterminatedString (line column : Int)
  /-- A backslash before a text that no escape has. -/
  | badEscape (escape : String) (line : Int)
  /-- A literal's body that ends in a lone backslash. -/
  | unterminatedEscape (line : Int)
  /-- Digits and a point, the point standing at the place, with no digit after it. -/
  | malformedNumber (digits : String) (line column : Int)
  /-- A character that starts no token. -/
  | unexpectedCharacter (c : Char) (line column : Int)
deriving DecidableEq

namespace LexError

/-- What is wrong, without the place. -/
def text : LexError → String
  | unterminatedString .. => "Unterminated string"
  | badEscape e _ => "Invalid escape sequence '\\" ++ e ++ "'"
  | unterminatedEscape _ => "Unterminated escape sequence"
  | malformedNumber ds _ _ => "Malformed number '" ++ ds ++ ".'"
  | unexpectedCharacter c _ _ => "Unexpected character '" ++ c.toString ++ "'"

/-- The text that is to blame. -/
def culprit : LexError → String
  | unterminatedString .. => "\""
  | badEscape e _ => e
  | unterminatedEscape _ => "\\"
  | malformedNumber .. => "."
  | unexpectedCharacter c _ _ => c.toString

/-- The line of the error, zero if unknown. -/
def line : LexError → Int
  | unterminatedString l _ | badEscape _ l | unterminatedEscape l | malformedNumber _ l _
  | unexpectedCharacter _ l _ => l

/-- The column of the error; errors inside a literal have none, written zero. -/
def column : LexError → Int
  | unterminatedString _ c | malformedNumber _ _ c | unexpectedCharacter _ _ c => c
  | badEscape .. | unterminatedEscape _ => 0

/-- What is wrong, and the line where it is known. -/
def message (e : LexError) : String :=
  if e.line = 0 then e.text else e.text ++ " at line " ++ toString e.line

end LexError

namespace Escape

/-- The character that a backslash and this one denote. -/
def denoted? (c : Char) : Option Char :=
  if c = 'n' then some '\n'
  else if c = 'r' then some '\r'
  else if c = 't' then some '\t'
  else if c = '0' then some (Char.ofNat 0)
  else if c = Text.doubleQuote ∨ c = Text.apostrophe ∨ c = '\\' then some c
  else none

/-- What the text after a backslash denotes: only a single character can be an escape. -/
def decode (escape : String) (line : Int) : Except LexError String :=
  match escape.toList with
  | [c] =>
    match denoted? c with
    | some d => .ok (String.ofList [d])
    | none => .error (.badEscape escape line)
  | _ => .error (.badEscape escape line)

/-- What the characters between the quotes of a literal on a given line denote. -/
def decodeBody (line : Int) : List Char → Except LexError (List Char)
  | [] => .ok []
  | '\\' :: [] => .error (.unterminatedEscape line)
  | '\\' :: c :: rest =>
    match denoted? c with
    | some d => (decodeBody line rest).map (d :: ·)
    | none => .error (.badEscape (String.ofList [c]) line)
  | c :: rest => (decodeBody line rest).map (c :: ·)

end Escape

end Avii
