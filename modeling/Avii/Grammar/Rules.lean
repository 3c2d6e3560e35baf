import Avii.Lalr.Table

/-!
# The grammar of the language

The language once more, as a grammar: terminals, variables and rules. Each rule says what becomes of
the parts that its body stands for: they make a node of their own, or they are handed to the rule
that its head is part of. Punctuation is not a part.
-/

namespace Avii.Grammar

/-- The terminals: the classes of lexemes. -/
inductive Terminal where
  | number | string | ident
  | letWord | constWord | funcWord | ifWord | elseWord | andWord | orWord
  | eq | neq | plus | minus | star | slash | percent | caret
  | semicolon | equal | lbrace | rbrace | comma | lpar | rpar | dot | lsqb | rsqb | colon
  | finish
deriving DecidableEq

namespace Terminal

/-- Every terminal. -/
def all : List Terminal :=
  [number, string, ident, letWord, constWord, funcWord, ifWord, elseWord, andWord, orWord, eq, neq,
    plus, minus, star, slash, percent, caret, semicolon, equal, lbrace, rbrace, comma, lpar, rpar,
    dot, lsqb, rsqb, colon, finish]

/-- The name of a terminal in messages. -/
def name : Terminal → String
  | number => "NUMBER"
  | string => "STRING"
  | ident => "IDENT"
  | letWord => "LET"
  | constWord => "CONST"
  | funcWord => "FUNC"
  | ifWord => "IF"
  | elseWord => "ELSE"
  | andWord => "AND"
  | orWord => "OR"
  | eq => "EQ"
  | neq => "NEQ"
  | plus => "PLUS"
  | minus => "MINUS"
  | star => "STAR"
  | slash => "SLASH"
  | percent => "PERCENT"
  | caret => "CARET"
  | semicolon => "SEMICOLON"
  | equal => "EQUAL"
  | lbrace => "LBRACE"
  | rbrace => "RBRACE"
  | comma => "COMMA"
  | lpar => "LPAR"
  | rpar => "RPAR"
  | dot => "DOT"
  | lsqb => "LSQB"
  | rsqb => "RSQB"
  | colon => "COLON"
  | finish => "$END"

/-- Is a lexeme of this terminal a part of the tree? -/
def isPart : Terminal → Bool
  | semicolon | equal | lbrace | rbrace | comma | lpar | rpar | dot | lsqb | rsqb | colon
  | finish => false
  | _ => true

/-- The number of a terminal. -/
def code (t : Terminal) : Nat := t.ctorIdx

/-- How many terminals there are. -/
def count : Nat := all.length

end Terminal

/-- The variables. -/
inductive Variable where
  | root | start | items | item | stmt | vardecl | fndecl | ifstmt | block | params | moreParams
  | expr | assign | logical | equality | additive | multiplicative | power | chain | arglist
  | moreExprs | primary | object | moreProps | prop | array | fnliteral
deriving DecidableEq

namespace Variable

/-- Every variable. -/
def all : List Variable :=
  [root, start, items, item, stmt, vardecl, fndecl, ifstmt, block, params, moreParams, expr, assign,
    logical, equality, additive, multiplicative, power, chain, arglist, moreExprs, primary, object,
    moreProps, prop, array, fnliteral]

/-- The number of a variable; variables follow the terminals. -/
def code (v : Variable) : Nat := Terminal.count + v.ctorIdx

/-- How many variables there are. -/
def count : Nat := all.length

end Variable

/-- A symbol of the grammar. -/
inductive Symbol where
  | t (terminal : Terminal)
  | v (head : Variable)
deriving DecidableEq

/-- The number of a symbol. -/
def Symbol.code : Symbol → Nat
  | t terminal => terminal.code
  | v head => head.code

/-- The nodes that rules make. -/
inductive Form where
  | program | bareDeclaration | initDeclaration | functionDeclaration | ifOnly | ifElse | ifElseIf
  | block | params | assignment | condition | binary | field | index | call | args | object | prop
  | array | functionLiteral
deriving DecidableEq

/-- What becomes of the parts of a rule's body. -/
inductive Shape where
  /-- They become a node. -/
  | node (form : Form)
  /-- They become parts of the enclosing rule. -/
  | splice
deriving DecidableEq

/-- A rule: a variable, what it may be replaced by, and what becomes of the parts. -/
structure Rule where
  head : Variable
  body : List Symbol
  shape : Shape
deriving DecidableEq

open Grammar.Symbol in
/-- The rules for programs and statements. -/
def statementRules : List Rule := [
  ⟨.root, [v .start, t .finish], .splice⟩,
  ⟨.start, [v .items], .node .program⟩,
  ⟨.start, [], .node .program⟩,
  ⟨.items, [v .item], .splice⟩,
  ⟨.items, [v .items, v .item], .splice⟩,
  ⟨.item, [v .stmt], .splice⟩,
  ⟨.item, [t .semicolon], .splice⟩,
  ⟨.stmt, [v .vardecl], .splice⟩,
  ⟨.stmt, [v .fndecl], .splice⟩,
  ⟨.stmt, [v .ifstmt], .splice⟩,
  ⟨.stmt, [v .expr], .splice⟩,
  ⟨.vardecl, [t .letWord, t .ident, t .semicolon], .node .bareDeclaration⟩,
  ⟨.vardecl, [t .letWord, t .ident, t .equal, v .expr, t .semicolon], .node .initDeclaration⟩,
  ⟨.vardecl, [t .constWord, t .ident, t .equal, v .expr, t .semicolon], .node .initDeclaration⟩,
  ⟨.fndecl, [t .funcWord, t .ident, v .params, v .block], .node .functionDeclaration⟩,
  ⟨.ifstmt, [t .ifWord, v .expr, v .block], .node .ifOnly⟩,
  ⟨.ifstmt, [t .ifWord, v .expr, v .block, t .elseWord, v .block], .node .ifElse⟩,
  ⟨.ifstmt, [t .ifWord, v .expr, v .block, t .elseWord, v .ifstmt], .node .ifElseIf⟩,
  ⟨.block, [t .lbrace, t .rbrace], .node .block⟩,
  ⟨.block, [t .lbrace, v .items, t .rbrace], .node .block⟩,
  ⟨.params, [t .lpar, t .rpar], .node .params⟩,
  ⟨.params, [t .lpar, t .ident, t .rpar], .node .params⟩,
  ⟨.params, [t .lpar, t .ident, v .moreParams, t .rpar], .node .params⟩,
  ⟨.moreParams, [t .comma, t .ident], .splice⟩,
  ⟨.moreParams, [v .moreParams, t .comma, t .ident], .splice⟩]

open Grammar.Symbol in
/-- The rules for expressions. -/
def expressionRules : List Rule := [
  ⟨.expr, [v .assign], .splice⟩,
  ⟨.assign, [v .logical], .splice⟩,
  ⟨.assign, [v .logical, t .equal, v .assign], .node .assignment⟩,
  ⟨.logical, [v .equality], .splice⟩,
  ⟨.logical, [v .logical, t .andWord, v .equality], .node .condition⟩,
  ⟨.logical, [v .logical, t .orWord, v .equality], .node .condition⟩,
  ⟨.equality, [v .additive], .splice⟩,
  ⟨.equality, [v .equality, t .eq, v .additive], .node .condition⟩,
  ⟨.equality, [v .equality, t .neq, v .additive], .node .condition⟩,
  ⟨.additive, [v .multiplicative], .splice⟩,
  ⟨.additive, [v .additive, t .plus, v .multiplicative], .node .binary⟩,
  ⟨.additive, [v .additive, t .minus, v .multiplicative], .node .binary⟩,
  ⟨.multiplicative, [v .power], .splice⟩,
  ⟨.multiplicative, [v .multiplicative, t .star, v .power], .node .binary⟩,
  ⟨.multiplicative, [v .multiplicative, t .slash, v .power], .node .binary⟩,
  ⟨.multiplicative, [v .multiplicative, t .percent, v .power], .node .binary⟩,
  ⟨.power, [v .chain], .splice⟩,
  ⟨.power, [v .chain, t .caret, v .power], .node .binary⟩,
  ⟨.chain, [v .primary], .splice⟩,
  ⟨.chain, [v .chain, t .dot, t .ident], .node .field⟩,
  ⟨.chain, [v .chain, t .lsqb, v .expr, t .rsqb], .node .index⟩,
  ⟨.chain, [v .chain, t .lpar, t .rpar], .node .call⟩,
  ⟨.chain, [v .chain, t .lpar, v .arglist, t .rpar], .node .call⟩,
  ⟨.arglist, [v .expr], .node .args⟩,
  ⟨.arglist, [v .expr, v .moreExprs], .node .args⟩,
  ⟨.moreExprs, [t .comma, v .expr], .splice⟩,
  ⟨.moreExprs, [v .moreExprs, t .comma, v .expr], .splice⟩]

open Grammar.Symbol in
/-- The rules for primary expressions. -/
def primaryRules : List Rule := [
  ⟨.primary, [t .number], .splice⟩,
  ⟨.primary, [t .string], .splice⟩,
  ⟨.primary, [t .ident], .splice⟩,
  ⟨.primary, [t .lpar, v .expr, t .rpar], .splice⟩,
  ⟨.primary, [v .object], .splice⟩,
  ⟨.primary, [v .array], .splice⟩,
  ⟨.primary, [v .fnliteral], .splice⟩,
  ⟨.object, [t .lbrace, t .rbrace], .node .object⟩,
  ⟨.object, [t .lbrace, v .prop, t .rbrace], .node .object⟩,
  ⟨.object, [t .lbrace, v .prop, t .comma, t .rbrace], .node .object⟩,
  ⟨.object, [t .lbrace, v .prop, v .moreProps, t .rbrace], .node .object⟩,
  ⟨.object, [t .lbrace, v .prop, v .moreProps, t .comma, t .rbrace], .node .object⟩,
  ⟨.moreProps, [t .comma, v .prop], .splice⟩,
  ⟨.moreProps, [v .moreProps, t .comma, v .prop], .splice⟩,
  ⟨.prop, [t .ident], .node .prop⟩,
  ⟨.prop, [t .ident, t .colon, v .expr], .node .prop⟩,
  ⟨.array, [t .lsqb, t .rsqb], .node .array⟩,
  ⟨.array, [t .lsqb, v .expr, t .rsqb], .node .array⟩,
  ⟨.array, [t .lsqb, v .expr, v .moreExprs, t .rsqb], .node .array⟩,
  ⟨.fnliteral, [t .funcWord, v .params, v .block], .node .functionLiteral⟩]

/-- All rules; the first is the start rule. -/
def rules : List Rule :=
  statementRules ++ expressionRules ++ primaryRules

/-- The grammar by number. -/
def coded : Lalr.Grammar where
  terminals := Terminal.count
  symbols := Terminal.count + Variable.count
  rules := rules.map fun r => ⟨r.head.code, r.body.map Symbol.code⟩

/-- The table of the grammar's parser. -/
def table : Lalr.Table := coded.table

end Avii.Grammar
