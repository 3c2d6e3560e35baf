import Avii.Tree.Basic

/-!
# Why tokens are not a program

Each way in which a list of tokens can fail to be a program, with its message and, where the parser
wanted something particular, what it wanted.
-/

namespace Avii

/-- What is wrong at the token where parsing stopped. -/
inductive ParseFault where
  /-- The list of tokens does not end in `eof`. -/
  | noEnd
  /-- Some kind was wanted and another found. -/
  | wanted (kind got : Kind)
  /-- A declaration's keyword without a name. -/
  | declarationName (keyword : String)
  /-- A constant without a value. -/
  | uninitialized (name : String)
  /-- Neither a value nor an end after a declared name. -/
  | declarationTail (name : String) (got : Kind)
  /-- A declaration that does not end. -/
  | declarationEnd (name : String) (got : Kind)
  /-- A block that does not start. -/
  | blockStart (got : Kind)
  /-- A block that does not end. -/
  | blockEnd (got : Kind)
  /-- Something else where a parameter should stand. -/
  | parameterName (got : Kind)
  /-- A parameter named twice. -/
  | duplicateParameter (name : String)
  /-- The left side of an assignment is not a name, as seen at the equals sign. -/
  | invalidTarget
  /-- The left side of an assignment is not a name, as seen on the finished tree. -/
  | unassignable
  /-- No name after a dot. -/
  | propertyName (got : Kind)
  /-- An array that does not end. -/
  | arrayEnd (got : Kind)
  /-- Something else where a property's key should stand. -/
  | propertyKey (got : Kind)
  /-- An object that does not end. -/
  | objectEnd (got : Kind)
  /-- A token that starts no expression. -/
  | noExpression (kind : Kind) (text : String)
  /-- Tokens left after an expression that should be all. -/
  | trailing (kind : Kind)
deriving DecidableEq

namespace ParseFault

/-- What is wrong, in words. -/
def text : ParseFault → String
  | noEnd => "Token stream must end with EOF"
  | wanted kind got => "Expected " ++ kind.name ++ ", got " ++ got.name
  | declarationName keyword => "Expected identifier after " ++ keyword
  | uninitialized name => "Constant '" ++ name ++ "' must have an initializer"
  | declarationTail name got => "Expected '=' or ';' after '" ++ name ++ "', got " ++ got.name
  | declarationEnd name got =>
    "Expected ';' after declaration of '" ++ name ++ "', got " ++ got.name
  | blockStart got => "Expected '\x7b', got " ++ got.name
  | blockEnd got => "Expected '\x7d', got " ++ got.name
  | parameterName got => "Expected parameter name, got " ++ got.name
  | duplicateParameter name => "Duplicate parameter '" ++ name ++ "'"
  | invalidTarget | unassignable => "Invalid assignment target"
  | propertyName got => "Expected property name after '.', got " ++ got.name
  | arrayEnd got => "Expected ']' or ',', got " ++ got.name
  | propertyKey got => "Expected property key, got " ++ got.name
  | objectEnd got => "Expected '\x7d' or ',', got " ++ got.name
  | noExpression kind text => "Unexpected token " ++ kind.name ++ " " ++ Text.quote text
  | trailing kind => "Unexpected trailing " ++ kind.name

/-- What the parser wanted instead. -/
def expected : ParseFault → Option String
  | noEnd | duplicateParameter _ | unassignable | trailing _ => none
  | wanted kind _ => some kind.name
  | declarationName _ | parameterName _ | invalidTarget | propertyName _ | propertyKey _ =>
    some Kind.ident.name
  | uninitialized _ | declarationTail .. => some Kind.equals.name
  | declarationEnd .. => some Kind.semi.name
  | blockStart _ => some Kind.lbrace.name
  | blockEnd _ | objectEnd _ => some Kind.rbrace.name
  | arrayEnd _ => some Kind.rsqb.name
  | noExpression .. => some "expression"

end ParseFault

/-- What is wrong, and where if that is known. -/
structure ParseError where
  fault : ParseFault
  place : Option Position
deriving DecidableEq

/-- What is wrong, with its place. -/
def ParseError.message (e : ParseError) : String :=
  match e.place with
  | none => e.fault.text
  | some p => e.fault.text ++ " at line " ++ toString p.line ++ ", col " ++ toString p.column

end Avii
