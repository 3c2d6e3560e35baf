import Avii.Grammar.Parse
import Avii.Token.Escape
import Avii.Tree.ParseError

/-!
# From parses to trees

A parse by the grammar becomes a tree node by node, parts before wholes and from left to right. The
grammar leaves three checks to this step: the escapes of string literals, the names of parameters,
which must differ, and the targets of assignments, which must be names. Nodes nest without bound, so
the step has a budget of nested nodes, and stops where it is used up.
-/

namespace Avii.Grammar

/-- Why a parse is not a program. -/
inductive BuildError where
  | invalid (error : ParseError)
  | badLiteral (error : LexError)
  | tooDeep
deriving DecidableEq

namespace BuildError

/-- The words around the error of a literal. -/
def literalMessage (e : LexError) : String :=
  "Error trying to process rule \"STRING\":\n\n" ++ e.message

end BuildError

/-- The kind of leaf that a lexeme becomes. -/
def Terminal.leafKind : Terminal → LeafKind
  | .number => .number
  | .string => .string
  | .ident => .ident
  | .letWord => .letWord
  | .constWord => .constWord
  | .plus | .minus | .star | .slash | .percent | .caret => .binop
  | .andWord | .orWord | .eq | .neq => .condop
  | t => .other t.name

/-- The leaf that a lexeme becomes; a string literal's is the text it denotes. -/
def buildLeaf (l : Lexeme) : Except BuildError Tree :=
  let leaf (text : String) : Tree := .leaf ⟨l.terminal.leafKind, text, some l.line, some l.column⟩
  match l.terminal with
  | .string =>
    match Escape.decodeBody l.line ((l.text.toList.drop 1).dropLast) with
    | .ok cs => .ok (leaf (String.ofList cs))
    | .error e => .error (.badLiteral e)
  | _ => .ok (leaf l.text)

/-- The line of a leaf. -/
def leafLine : Tree → Option Int
  | .leaf l => l.line
  | _ => none

/-- The place of a leaf whose text is not empty. -/
def leafPlace : Tree → Option Position
  | .leaf l =>
    if l.text = "" then none
    else
      match l.line, l.column with
      | some line, some column => some ⟨line, column⟩
      | _, _ => none
  | _ => none

/-- The first tree whose text is one of those seen before it. -/
def firstRepeated (seen : List String) : List Tree → Option Tree
  | [] => none
  | t :: ts =>
    match t with
    | .leaf l => if seen.contains l.text then some t else firstRepeated (l.text :: seen) ts
    | _ => firstRepeated seen ts

/-- A list of parameters, which must differ. -/
def buildParams (names : List Tree) : Except BuildError Tree :=
  match firstRepeated [] names with
  | some (.leaf l) => .error (.invalid ⟨.duplicateParameter l.text, leafPlace (.leaf l)⟩)
  | _ => .ok (.node .params none names)

/-- An assignment, whose target must be a name. -/
def buildAssignment (target value : Tree) : Except BuildError Tree :=
  match target with
  | .leaf l =>
    if l.kind = .ident then .ok (.node .assign l.line [target, value])
    else .error (.invalid ⟨.unassignable, leafPlace target⟩)
  | _ => .error (.invalid ⟨.unassignable, none⟩)

/-- The tree of a node, given those of its parts. -/
def buildNode (form : Form) (parts : List Tree) : Except BuildError Tree :=
  match form, parts with
  | .program, ts => .ok (.node .program none ts)
  | .bareDeclaration, [keyword, name] =>
    .ok (.node .vardecl (leafLine keyword) [keyword, name, .absent])
  | .initDeclaration, [keyword, name, value] =>
    .ok (.node .vardecl (leafLine keyword) [keyword, name, value])
  | .functionDeclaration, [_, name, params, body] =>
    .ok (.node .fndecl (leafLine name) [name, params, body])
  | .ifOnly, [word, test, consequent] =>
    .ok (.node .ifstmt (leafLine word) [test, consequent, .absent])
  | .ifElse, [word, test, consequent, _, alternate] =>
    .ok (.node .ifstmt (leafLine word) [test, consequent, alternate])
  | .ifElseIf, [word, test, consequent, _, nested] =>
    .ok (.node .ifstmt (leafLine word) [test, consequent, .node .body none [nested]])
  | .block, ts => .ok (.node .body none ts)
  | .params, ts => buildParams ts
  | .assignment, [target, value] => buildAssignment target value
  | .condition, [left, op, right] => .ok (.node .condition (leafLine op) [left, op, right])
  | .binary, [left, op, right] => .ok (.node .binary (leafLine op) [left, op, right])
  | .field, [target, name] => .ok (.node .field (leafLine name) [target, name])
  | .index, [target, key] => .ok (.node .index none [target, key])
  | .call, [callee] => .ok (.node .call none [callee, .node .args none []])
  | .call, [callee, args] => .ok (.node .call none [callee, args])
  | .args, ts => .ok (.node .args none ts)
  | .object, ts => .ok (.node .object none ts)
  | .prop, [key] => .ok (.node .prop (leafLine key) [key, .absent])
  | .prop, [key, value] => .ok (.node .prop (leafLine key) [key, value])
  | .array, ts => .ok (.node .array none ts)
  | .functionLiteral, [word, params, body] =>
    .ok (.node .fnliteral (leafLine word) [params, body])
  | _, ts => .ok (.node .body none ts)

mutual

/-- The tree of a parse, within a budget of nested nodes. -/
def build (budget : Nat) : Parse → Except BuildError Tree
  | .lexeme l => buildLeaf l
  | .node form parts =>
    match budget with
    | 0 => .error .tooDeep
    | n + 1 =>
      match buildAll n parts with
      | .ok ts => buildNode form ts
      | .error e => .error e

/-- The trees of some parses, from left to right. -/
def buildAll (budget : Nat) : List Parse → Except BuildError (List Tree)
  | [] => .ok []
  | p :: ps =>
    match build budget p with
    | .error e => .error e
    | .ok t =>
      match buildAll budget ps with
      | .error e => .error e
      | .ok ts => .ok (t :: ts)

end

/-- How many nested nodes a limit of nested calls admits: each takes two calls. -/
def nodesWithin (limit : Nat) : Nat := limit / 2

/-- Why a text has no tree by the grammar. -/
inductive Error where
  | scan (error : ScanError)
  | build (error : BuildError)
deriving DecidableEq

/-- The tree of a program text by the grammar, within a limit of nested calls. -/
def parseTree (limit : Nat) (source : String) : Except Error Tree :=
  match parse source with
  | .error e => .error (.scan e)
  | .ok p =>
    match build (nodesWithin limit) p with
    | .error e => .error (.build e)
    | .ok t => .ok t

end Avii.Grammar
