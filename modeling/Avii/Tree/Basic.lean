import Avii.Token.Basic

/-!
# Trees

What a program text means is written down as a tree. An inner node has a label, perhaps the line it
stands on, and children; a leaf is a token that counts; an optional child that is not there is
`absent`. The children of a well-formed node, by label:

* `program`, `body`: statements
* `vardecl`: `LET` or `CONST` leaf, name, initial value or absent
* `fndecl`: name, `params`, `body`
* `ifstmt`: test, `body`, `body` or absent
* `binary`, `condition`: left operand, operator leaf, right operand
* `assign`: target, value
* `object`: `prop` nodes, each a key and a value or absent
* `array`, `args`: expressions
* `field`: target, name; `index`: target, key
* `call`: callee, `args`
* `fnliteral`: `params`, `body`; `params`: names

Trees from elsewhere need not be well formed, so labels and leaf kinds have a case for any other
name.
-/

namespace Avii

/-- What an inner node is. -/
inductive Label where
  | program | vardecl | fndecl | ifstmt
  | binary | condition | assign | object | prop | array | field | index | call | fnliteral
  | params | args | body
  | other (name : String)
deriving DecidableEq

namespace Label

/-- The name of a label. -/
def name : Label → String
  | program => "program"
  | vardecl => "vardecl"
  | fndecl => "fndecl"
  | ifstmt => "ifstmt"
  | binary => "binary"
  | condition => "condition"
  | assign => "assign"
  | object => "object"
  | prop => "prop"
  | array => "array"
  | field => "field"
  | index => "index"
  | call => "call"
  | fnliteral => "fnliteral"
  | params => "params"
  | args => "args"
  | body => "body"
  | other name => name

/-- The labels that well-formed trees have. -/
def known : List Label :=
  [program, vardecl, fndecl, ifstmt, binary, condition, assign, object, prop, array, field, index,
    call, fnliteral, params, args, body]

/-- The label with a given name. -/
def ofName (s : String) : Label :=
  (known.find? (·.name == s)).getD (other s)

end Label

/-- What a leaf is. -/
inductive LeafKind where
  | number | string | ident
  | letWord | constWord
  | binop | condop
  | other (name : String)
deriving DecidableEq

namespace LeafKind

/-- The name of a leaf's kind. -/
def name : LeafKind → String
  | number => "NUMBER"
  | string => "STRING"
  | ident => "IDENT"
  | letWord => "LET"
  | constWord => "CONST"
  | binop => "BINOP"
  | condop => "CONDOP"
  | other name => name

/-- The kinds that leaves of well-formed trees have. -/
def known : List LeafKind :=
  [number, string, ident, letWord, constWord, binop, condop]

/-- The leaf kind with a given name. -/
def ofName (s : String) : LeafKind :=
  (known.find? (·.name == s)).getD (other s)

/-- The kind that a token has as a leaf. -/
def ofKind : Kind → LeafKind
  | .number => number
  | .string => string
  | .ident => ident
  | .letWord => letWord
  | .constWord => constWord
  | .binop => binop
  | .condop => condop
  | k => other k.name

end LeafKind

/-- A leaf: a token that counts, with its place where that is known. -/
structure Leaf where
  kind : LeafKind
  text : String
  line : Option Int
  column : Option Int
deriving DecidableEq

/-- The leaf that a token becomes. -/
def Token.leaf (t : Token) : Leaf :=
  ⟨.ofKind t.kind, t.text, some t.line, some t.column⟩

/-- A tree, or the place of an optional child that is not there. -/
inductive Tree where
  | absent
  | leaf (leaf : Leaf)
  | node (label : Label) (line : Option Int) (children : List Tree)

namespace Tree

instance : Inhabited Tree := ⟨absent⟩

/-- The label of an inner node. -/
def label? : Tree → Option Label
  | node label _ _ => some label
  | _ => none

/-- The children of an inner node; nothing else has any. -/
def children : Tree → List Tree
  | node _ _ cs => cs
  | _ => []

/-- Is it an inner node? -/
def isNode : Tree → Bool
  | node .. => true
  | _ => false

/-- Is it a leaf? -/
def isLeaf : Tree → Bool
  | leaf _ => true
  | _ => false

mutual

/-- The line of a tree: its own, or else that of the first child that has one. -/
def sourceLine : Tree → Option Int
  | absent => none
  | leaf l => l.line
  | node _ (some n) _ => some n
  | node _ none cs => firstLine cs

/-- The line of the first tree that has one. -/
def firstLine : List Tree → Option Int
  | [] => none
  | t :: ts =>
    match t.sourceLine with
    | some n => some n
    | none => firstLine ts

end

mutual

/-- Do two trees agree but for places: the same labels, leaf kinds and leaf texts? -/
def sameShape : Tree → Tree → Bool
  | absent, absent => true
  | leaf a, leaf b => a.kind = b.kind && a.text = b.text
  | node a _ as, node b _ bs => a = b && sameShapes as bs
  | _, _ => false

/-- Do two lists of trees agree but for places? -/
def sameShapes : List Tree → List Tree → Bool
  | [], [] => true
  | a :: as, b :: bs => sameShape a b && sameShapes as bs
  | _, _ => false

end

end Tree

end Avii
