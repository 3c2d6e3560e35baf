import Avii.Text.Quoted

/-!
# Tokens

A program text is read as a list of tokens. A token has a kind, a text and the place where it
starts; the text of a string literal is what the literal denotes. Every list of tokens that the
scanner makes ends in one `eof`.
-/

namespace Avii

/-- The kinds of token. -/
inductive Kind where
  | number | string | ident
  | letWord | constWord | funcWord | ifWord | elseWord
  | binop | condop | equals
  | lpar | rpar | lbrace | rbrace | lsqb | rsqb
  | comma | colon | semi | dot
  | eof
deriving DecidableEq

namespace Kind

/-- The name of a kind in messages. -/
def name : Kind → String
  | number => "NUMBER"
  | string => "STRING"
  | ident => "IDENT"
  | letWord => "LET"
  | constWord => "CONST"
  | funcWord => "FUNC"
  | ifWord => "IF"
  | elseWord => "ELSE"
  | binop => "BINOP"
  | condop => "CONDOP"
  | equals => "EQUALS"
  | lpar => "LPAR"
  | rpar => "RPAR"
  | lbrace => "LBRACE"
  | rbrace => "RBRACE"
  | lsqb => "LSQB"
  | rsqb => "RSQB"
  | comma => "COMMA"
  | colon => "COLON"
  | semi => "SEMI"
  | dot => "DOT"
  | eof => "EOF"

/-- Every kind. -/
def all : List Kind :=
  [number, string, ident, letWord, constWord, funcWord, ifWord, elseWord, binop, condop, equals,
    lpar, rpar, lbrace, rbrace, lsqb, rsqb, comma, colon, semi, dot, eof]

/-- The kind with a given name. -/
def ofName? (s : String) : Option Kind :=
  all.find? (·.name == s)

/-- A bracket that opens. -/
def opens : Kind → Bool
  | lpar | lsqb | lbrace => true
  | _ => false

/-- A bracket that closes. -/
def closes : Kind → Bool
  | rpar | rsqb | rbrace => true
  | _ => false

end Kind

/-- A place in a text: its line and its column, both counted from one. Tokens that no scan has made
may name any place, so lines and columns are plain integers. -/
structure Position where
  line : Int
  column : Int
deriving DecidableEq

namespace Position

/-- Where a text starts. -/
def start : Position := ⟨1, 1⟩

/-- The place after a character: a line feed starts a line, anything else takes one column. -/
def step (p : Position) (c : Char) : Position :=
  if c = '\n' then ⟨p.line + 1, 1⟩ else ⟨p.line, p.column + 1⟩

/-- The place after a piece of text. -/
def advance (p : Position) (cs : List Char) : Position :=
  cs.foldl step p

end Position

/-- A token with the place where it starts. -/
structure Token where
  kind : Kind
  text : String
  line : Int
  column : Int
deriving DecidableEq

namespace Token

/-- The token that closes a text ending at a place. -/
def endAt (p : Position) : Token := ⟨.eof, "", p.line, p.column⟩

/-- How a listing shows a token. -/
def describe (t : Token) : String :=
  "Tok(" ++ t.kind.name ++ ", " ++ Text.quote t.text ++ ", " ++ toString t.line ++ ":"
    ++ toString t.column ++ ")"

end Token

end Avii
