import Avii.Tree.ParseError

/-!
# From tokens to trees

The parser descends: each construct of the language has a parser that looks at the next token and
calls the parsers of its parts. From the loosest to the tightest binding, expressions are
assignments (to the right), `and` and `or`, `==` and `!=`, sums, products, powers (to the right),
chains of member access, indexing and calls, and primary expressions.

Constructs nest without bound, so each parser has a budget of nested calls, and a program that
needs more is refused as too deep. With enough budget the answer no longer depends on it. How large
the budget is depends on the limit that is in force where the program is parsed. What is counted are
the parsers of constructs; the calls by which one of them looks at a token or takes it are over
before the next begins, and are not.
-/

namespace Avii

/-- Why there is no tree: the tokens are wrong, or the program nests too deeply for the budget. -/
inductive Refusal where
  | invalid (error : ParseError)
  | tooDeep
deriving DecidableEq

/-- A parser reads tokens from the front of a list and gives the rest back. -/
abbrev Parser (α : Type) := StateT (List Token) (Except Refusal) α

namespace Parser

/-- The next token. A list that has run out counts as one that ends. -/
def current : Parser Token := fun ts =>
  match ts with
  | [] => .ok (.endAt .start, ts)
  | t :: _ => .ok (t, ts)

/-- Takes the next token; the closing `eof` stays. -/
def advance : Parser Token := fun ts =>
  match ts with
  | [] => .ok (.endAt .start, ts)
  | t :: rest => if t.kind = .eof then .ok (t, ts) else .ok (t, rest)

/-- Refuses the program at a token. -/
def refuse {α : Type} (fault : ParseFault) (t : Token) : Parser α := fun _ =>
  .error (.invalid ⟨fault, some ⟨t.line, t.column⟩⟩)

/-- Gives up for want of budget. -/
def giveUp {α : Type} : Parser α := fun _ => .error .tooDeep

/-- Takes the next token if it has a given kind, and says whether it did. -/
def accept (kind : Kind) : Parser Bool := do
  if (← current).kind = kind then
    let _ ← advance
    return true
  else
    return false

/-- Takes the next token, which must have a given kind. -/
def expect (kind : Kind) (fault : Kind → ParseFault) : Parser Token := do
  let t ← current
  if t.kind = kind then advance else refuse (fault t.kind) t

/-- Takes a token of a given kind where no construct has words of its own for its absence. -/
def expectKind (kind : Kind) : Parser Token :=
  expect kind (.wanted kind)

/-! ## Repetition

A repetition takes a token in every round, so as many rounds as there are tokens left are enough. -/

/-- Operands joined by operators of one level, grouped to the left, in at most `rounds` rounds. -/
def joinLeft (isOperator : Token → Bool) (label : Label) (operand : Parser Tree) :
    Nat → Tree → Parser Tree
  | 0, left => return left
  | rounds + 1, left => do
    let op ← current
    if isOperator op then
      let _ ← advance
      let right ← operand
      joinLeft isOperator label operand rounds
        (.node label (some op.line) [left, .leaf op.leaf, right])
    else
      return left

/-- An operand, and all that operators of its level join to it. -/
def leftGrouped (isOperator : Token → Bool) (label : Label) (operand : Parser Tree) :
    Parser Tree := do
  let left ← operand
  if isOperator (← current) then
    let ts ← get
    joinLeft isOperator label operand ts.length left
  else
    return left

/-- The items that follow commas, in at most `rounds` rounds. -/
def afterCommas (item : Parser Tree) : Nat → Parser (List Tree)
  | 0 => return []
  | rounds + 1 => do
    if ← accept .comma then
      let t ← item
      return t :: (← afterCommas item rounds)
    else
      return []

/-- One or more items with commas between them. -/
def separated (item : Parser Tree) : Parser (List Tree) := do
  let t ← item
  if (← current).kind = .comma then
    let ts ← get
    return t :: (← afterCommas item ts.length)
  else
    return [t]

/-- Statements up to a token at which `isEnd` holds, semicolons between them skipped, in at most
`rounds` rounds. -/
def statementsUpTo (isEnd : Kind → Bool) (statement : Parser Tree) : Nat → Parser (List Tree)
  | 0 => return []
  | rounds + 1 => do
    let t ← current
    if isEnd t.kind then
      return []
    else if t.kind = .semi then
      let _ ← advance
      statementsUpTo isEnd statement rounds
    else
      let s ← statement
      return s :: (← statementsUpTo isEnd statement rounds)

/-- Statements up to a token at which `isEnd` holds. -/
def statements (isEnd : Kind → Bool) (statement : Parser Tree) : Parser (List Tree) := do
  let ts ← get
  statementsUpTo isEnd statement ts.length

/-! ## Parameters -/

/-- A parameter, which must not be one of those seen. -/
def parameter (seen : List String) : Parser Leaf := do
  let t ← expect .ident .parameterName
  if seen.contains t.text then refuse (.duplicateParameter t.text) t else return t.leaf

/-- The parameters that follow commas, in at most `rounds` rounds. -/
def parametersAfter (seen : List String) : Nat → Parser (List Tree)
  | 0 => return []
  | rounds + 1 => do
    if ← accept .comma then
      let p ← parameter seen
      return .leaf p :: (← parametersAfter (p.text :: seen) rounds)
    else
      return []

/-- Parameters with commas between them, or none, up to a closing parenthesis. -/
def parameterNames : Parser (List Tree) := do
  if (← current).kind = .rpar then
    return []
  else
    let p ← parameter []
    let ts ← get
    return .leaf p :: (← parametersAfter [p.text] ts.length)

/-- A list of parameters in parentheses. -/
def parameters : Parser Tree := do
  let _ ← expectKind .lpar
  let names ← parameterNames
  let _ ← expectKind .rpar
  return .node .params none names

/-! ## Levels of operators -/

/-- A token that is one of some operators. -/
def isOneOf (kind : Kind) (texts : List String) (t : Token) : Bool :=
  t.kind = kind && texts.contains t.text

/-- A logical operator. -/
def isLogical : Token → Bool := isOneOf .condop ["and", "or"]

/-- A sign of equality or inequality. -/
def isEquality : Token → Bool := isOneOf .condop ["==", "!="]

/-- A sign between the terms of a sum. -/
def isSum : Token → Bool := isOneOf .binop ["+", "-"]

/-- A sign between the factors of a product. -/
def isProduct : Token → Bool := isOneOf .binop ["*", "/", "%"]

/-- The sign of a power. -/
def isPower : Token → Bool := isOneOf .binop ["^"]

/-- A tree that can be assigned to: a name. -/
def isName : Tree → Bool
  | .leaf l => l.kind = .ident
  | _ => false

/-! ## Pieces of constructs -/

/-- Member accesses, indexings and calls applied to a tree, in at most `rounds` rounds. -/
def links (expr : Parser Tree) (arguments : Parser (List Tree)) : Nat → Tree → Parser Tree
  | 0, target => return target
  | rounds + 1, target => do
    let t ← current
    match t.kind with
    | .dot =>
      let _ ← advance
      let name ← expect .ident .propertyName
      links expr arguments rounds (.node .field (some name.line) [target, .leaf name.leaf])
    | .lsqb =>
      let _ ← advance
      let key ← expr
      let _ ← expectKind .rsqb
      links expr arguments rounds (.node .index (some t.line) [target, key])
    | .lpar =>
      let _ ← advance
      let args ← arguments
      let _ ← expectKind .rpar
      links expr arguments rounds (.node .call (some t.line) [target, .node .args none args])
    | _ => return target

/-- Does a token go on with a chain? -/
def isLink (t : Token) : Bool :=
  t.kind = .dot ∨ t.kind = .lsqb ∨ t.kind = .lpar

/-- Expressions with commas between them, or none, up to a token that closes the list. -/
def listUpTo (close : Kind) (expr : Parser Tree) : Parser (List Tree) := do
  if (← current).kind = close then return [] else separated expr

/-- A property of an object: its key, and its value after a colon if it has one. -/
def property (expr : Parser Tree) : Parser Tree := do
  let key ← expect .ident .propertyKey
  if ← accept .colon then
    let value ← expr
    return .node .prop (some key.line) [.leaf key.leaf, value]
  else
    return .node .prop (some key.line) [.leaf key.leaf, .absent]

/-- Properties of an object up to its closing brace, a comma after the last one allowed, in at most
`rounds` rounds. -/
def properties (expr : Parser Tree) : Nat → Parser (List Tree)
  | 0 => return []
  | rounds + 1 => do
    let t ← current
    if t.kind = .rbrace ∨ t.kind = .eof then
      return []
    else
      let prop ← property expr
      if ← accept .comma then
        return prop :: (← properties expr rounds)
      else
        return [prop]

/-- A block of statements in braces. -/
def blockOf (statement : Parser Tree) : Parser Tree := do
  let _ ← expect .lbrace .blockStart
  let body ← statements (fun k => k = .rbrace || k = .eof) statement
  let _ ← expect .rbrace .blockEnd
  return .node .body none body

/-- A declaration of a variable or a constant. -/
def declaration (expr : Parser Tree) : Parser Tree := do
  let keyword ← advance
  let name ← expect .ident fun _ => .declarationName keyword.text
  let t ← current
  if t.kind = .semi then
    if keyword.kind = .constWord then refuse (.uninitialized name.text) t
    else
      let _ ← advance
      return .node .vardecl (some keyword.line) [.leaf keyword.leaf, .leaf name.leaf, .absent]
  else
    let _ ← expect .equals (.declarationTail name.text)
    let value ← expr
    let _ ← expect .semi (.declarationEnd name.text)
    return .node .vardecl (some keyword.line) [.leaf keyword.leaf, .leaf name.leaf, value]

/-- An array literal. -/
def arrayOf (expr : Parser Tree) : Parser Tree := do
  let t ← expectKind .lsqb
  let items ← listUpTo .rsqb expr
  let _ ← expect .rsqb .arrayEnd
  return .node .array (some t.line) items

/-- An object literal. -/
def objectOf (expr : Parser Tree) : Parser Tree := do
  let t ← expectKind .lbrace
  let ts ← get
  let props ← properties expr ts.length
  let _ ← expect .rbrace .objectEnd
  return .node .object (some t.line) props

/-- The other branch of a conditional, if there is one: a block, or another conditional, which is
then its only statement. -/
def alternative (conditional block : Parser Tree) : Parser Tree := do
  if ← accept .elseWord then
    if (← current).kind = .ifWord then
      let nested ← conditional
      return .node .body none [nested]
    else block
  else return .absent

/-- Does a declaration of a named function start here? -/
def startsFunctionDeclaration : Parser Bool := fun ts =>
  match ts with
  | t :: u :: _ => .ok (t.kind = .funcWord && u.kind = .ident, ts)
  | _ => .ok (false, ts)

/-! ## Constructs -/

mutual

/-- A statement. -/
def statement : Nat → Parser Tree
  | 0 => giveUp
  | n + 1 => do
    let t ← current
    if t.kind = .letWord ∨ t.kind = .constWord then variableDeclaration n
    else if ← startsFunctionDeclaration then functionDeclaration n
    else if t.kind = .ifWord then conditional n
    else expression n

/-- A declaration of a variable or a constant. -/
def variableDeclaration : Nat → Parser Tree
  | 0 => giveUp
  | n + 1 => declaration (expression n)

/-- A declaration of a function. -/
def functionDeclaration : Nat → Parser Tree
  | 0 => giveUp
  | n + 1 => do
    let _ ← expectKind .funcWord
    let name ← expectKind .ident
    let params ← parameters
    let body ← block n
    return .node .fndecl (some name.line) [.leaf name.leaf, params, body]

/-- A conditional. -/
def conditional : Nat → Parser Tree
  | 0 => giveUp
  | n + 1 => do
    let t ← expectKind .ifWord
    let test ← expression n
    let consequent ← block n
    let alternate ← alternative (conditional n) (block n)
    return .node .ifstmt (some t.line) [test, consequent, alternate]

/-- A block of statements. -/
def block : Nat → Parser Tree
  | 0 => giveUp
  | n + 1 => blockOf (statement n)

/-- An expression. -/
def expression : Nat → Parser Tree
  | 0 => giveUp
  | n + 1 => assignment n

/-- An assignment to a name, or anything that binds tighter. -/
def assignment : Nat → Parser Tree
  | 0 => giveUp
  | n + 1 => do
    let target ← logical n
    let t ← current
    if t.kind = .equals then
      let _ ← advance
      if isName target then
        let value ← assignment n
        return .node .assign (some t.line) [target, value]
      else refuse .invalidTarget t
    else return target

/-- Conditions joined by `and` and `or`. -/
def logical : Nat → Parser Tree
  | 0 => giveUp
  | n + 1 => leftGrouped isLogical .condition (equality n)

/-- Sums compared by `==` and `!=`. -/
def equality : Nat → Parser Tree
  | 0 => giveUp
  | n + 1 => leftGrouped isEquality .condition (sum n)

/-- Products joined by `+` and `-`. -/
def sum : Nat → Parser Tree
  | 0 => giveUp
  | n + 1 => leftGrouped isSum .binary (product n)

/-- Powers joined by `*`, `/` and `%`. -/
def product : Nat → Parser Tree
  | 0 => giveUp
  | n + 1 => leftGrouped isProduct .binary (power n)

/-- A chain raised to a power. -/
def power : Nat → Parser Tree
  | 0 => giveUp
  | n + 1 => do
    let base ← chain n
    let op ← current
    if isPower op then
      let _ ← advance
      let exponent ← power n
      return .node .binary (some op.line) [base, .leaf op.leaf, exponent]
    else return base

/-- A primary expression and the links that follow it. -/
def chain : Nat → Parser Tree
  | 0 => giveUp
  | n + 1 => do
    let target ← primary n
    if isLink (← current) then
      let ts ← get
      links (expression n) (arguments n) ts.length target
    else return target

/-- The arguments of a call. -/
def arguments : Nat → Parser (List Tree)
  | 0 => giveUp
  | n + 1 => listUpTo .rpar (expression n)

/-- A literal, a name, an expression in parentheses, an object, an array or a function. -/
def primary : Nat → Parser Tree
  | 0 => giveUp
  | n + 1 => do
    let t ← current
    match t.kind with
    | .number | .string | .ident =>
      let _ ← advance
      return .leaf t.leaf
    | .lpar =>
      let _ ← advance
      let e ← expression n
      let _ ← expectKind .rpar
      return e
    | .lbrace => object n
    | .lsqb => array n
    | .funcWord =>
      let _ ← advance
      let params ← parameters
      let body ← block n
      return .node .fnliteral (some t.line) [params, body]
    | _ => refuse (.noExpression t.kind t.text) t

/-- An object literal. -/
def object : Nat → Parser Tree
  | 0 => giveUp
  | n + 1 => objectOf (expression n)

/-- An array literal. -/
def array : Nat → Parser Tree
  | 0 => giveUp
  | n + 1 => arrayOf (expression n)

end

/-- A whole program. -/
def program (budget : Nat) : Parser Tree := do
  let body ← statements (· = .eof) (statement budget)
  return .node .program none body

/-- An expression that is all there is. -/
def onlyExpression (budget : Nat) : Parser Tree := do
  let e ← expression budget
  let t ← current
  if t.kind = .eof then return e else refuse (.trailing t.kind) t

/-- Runs a parser on a list of tokens, which must end in `eof`. -/
def run (p : Parser Tree) (tokens : List Token) : Except Refusal Tree :=
  match tokens.getLast? with
  | some t =>
    if t.kind = .eof then (p tokens).map (·.1) else .error (.invalid ⟨.noEnd, none⟩)
  | none => .error (.invalid ⟨.noEnd, none⟩)

end Parser

/-- The program that a list of tokens is, within a limit of nested calls. -/
def parseTokens (limit : Nat) (tokens : List Token) : Except Refusal Tree :=
  (Parser.program limit).run tokens

/-- The expression that a list of tokens is, within a limit of nested calls. -/
def parseExpression (limit : Nat) (tokens : List Token) : Except Refusal Tree :=
  (Parser.onlyExpression limit).run tokens

end Avii
