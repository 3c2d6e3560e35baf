import Avii.Proofs.Syntax.Shape
import Avii.Proofs.Token.Writing

/-!
# Rendering trees

A tree is rendered as a text by writing down the words of its constructs one after the other, with
spaces between them (`render`). A semicolon closes each statement that is an expression. Parentheses
stand only around an operand that binds less tightly than its place asks for: how tightly a tree
binds is its rank (`rank`), the number of the level of the grammar that it is made on.

`Formed` says which trees the grammar can make: those with the right children everywhere, names
that are no keywords, plain numerals, any literals, operators that there are, constants with a
value, and parameters that differ. Lines and columns may be any, or none.
-/

namespace Avii.Syntax

open Scan (Readable unwords isWordStart isWordChar)

/-! ## Ranks -/

/-- The rank of a level of operators that group to the left. -/
def Level.rank : Level → Nat
  | logical => 1
  | equality => 2
  | sum => 3
  | product => 4

/-- The rank of powers, which group to the right. -/
def powerRank : Nat := 5

/-- The rank of chains of accesses and calls. -/
def chainRank : Nat := 6

/-- The rank of primary expressions. -/
def primaryRank : Nat := 7

/-- The phrase that is made at a rank. -/
def phraseAt : Nat → Phrase
  | 0 => .expression
  | 1 => .level .logical
  | 2 => .level .equality
  | 3 => .level .sum
  | 4 => .level .product
  | 5 => .power
  | 6 => .chain
  | _ => .primary

/-- The rank of what an operator makes. -/
def signRank (sign : String) : Nat :=
  if sign = "and" ∨ sign = "or" then Level.logical.rank
  else if sign = "==" ∨ sign = "!=" then Level.equality.rank
  else if sign = "+" ∨ sign = "-" then Level.sum.rank
  else if sign = "*" ∨ sign = "/" ∨ sign = "%" then Level.product.rank
  else powerRank

/-- How tightly a tree binds. -/
def rank : Tree → Nat
  | .node .assign _ _ => 0
  | .node .condition _ [_, op, _] | .node .binary _ [_, op, _] => signRank op.word
  | .node .field _ _ | .node .index _ _ | .node .call _ _ => chainRank
  | _ => primaryRank

/-- The rank that the left operand of an operator has to have. -/
def leftRank (r : Nat) : Nat := if r = powerRank then chainRank else r

/-- The rank that the right operand of an operator has to have. -/
def rightRank (r : Nat) : Nat := if r = powerRank then powerRank else r + 1

/-! ## Words -/

/-- The word that a keyword or a punctuation mark is. -/
def fixed (kind : Kind) : Kind × String :=
  (kind, match kind with
    | .funcWord => "func"
    | .ifWord => "if"
    | .elseWord => "else"
    | .equals => "="
    | .lpar => "("
    | .rpar => ")"
    | .lbrace => "\x7b"
    | .rbrace => "\x7d"
    | .lsqb => "["
    | .rsqb => "]"
    | .comma => ","
    | .colon => ":"
    | .semi => ";"
    | .dot => "."
    | _ => "")

/-- The kind that a leaf has as a token. -/
def leafToken : LeafKind → Kind
  | .number => .number
  | .string => .string
  | .ident => .ident
  | .letWord => .letWord
  | .constWord => .constWord
  | .binop => .binop
  | .condop => .condop
  | .other _ => .eof

/-- A child with its words. -/
structure Part where
  tree : Tree
  words : List (Kind × String)

namespace Part

/-- A child where at least a given rank is asked for. -/
def operand (r : Nat) (p : Part) : List (Kind × String) :=
  if rank p.tree < r then fixed .lpar :: (p.words ++ [fixed .rpar]) else p.words

/-- An optional child with the word that announces it. -/
def after (word : Kind × String) (p : Part) : List (Kind × String) :=
  match p.tree with
  | .absent => []
  | _ => word :: p.words

/-- A statement, with a semicolon if it is an expression. -/
def closed (p : Part) : List (Kind × String) :=
  match p.tree with
  | .node .vardecl _ _ | .node .fndecl _ _ | .node .ifstmt _ _ => p.words
  | _ => p.words ++ [fixed .semi]

/-- Children with commas between them. -/
def commas : List Part → List (Kind × String)
  | [] => []
  | p :: ps => p.words ++ ps.flatMap fun q => fixed .comma :: q.words

/-- The words of a node, given those of its children. -/
def arrange : Label → List Part → List (Kind × String)
  | .program, ps => ps.flatMap closed
  | .body, ps => fixed .lbrace :: (ps.flatMap closed ++ [fixed .rbrace])
  | .vardecl, [keyword, name, init] =>
    keyword.words ++ name.words ++ init.after (fixed .equals) ++ [fixed .semi]
  | .fndecl, [name, params, body] => fixed .funcWord :: (name.words ++ params.words ++ body.words)
  | .ifstmt, [test, body, alternate] =>
    fixed .ifWord :: (test.words ++ body.words ++ alternate.after (fixed .elseWord))
  | .binary, [a, op, b] | .condition, [a, op, b] =>
    let r := signRank op.tree.word
    a.operand (leftRank r) ++ op.words ++ b.operand (rightRank r)
  | .assign, [target, value] => target.words ++ fixed .equals :: value.words
  | .object, ps => fixed .lbrace :: (commas ps ++ [fixed .rbrace])
  | .prop, [key, value] => key.words ++ value.after (fixed .colon)
  | .array, ps => fixed .lsqb :: (commas ps ++ [fixed .rsqb])
  | .field, [target, name] => target.operand chainRank ++ fixed .dot :: name.words
  | .index, [target, key] =>
    target.operand chainRank ++ fixed .lsqb :: (key.words ++ [fixed .rsqb])
  | .call, [callee, args] => callee.operand chainRank ++ args.words
  | .args, ps | .params, ps => fixed .lpar :: (commas ps ++ [fixed .rpar])
  | .fnliteral, [params, body] => fixed .funcWord :: (params.words ++ body.words)
  | _, _ => []

end Part

mutual

/-- The words of a tree. -/
def words : Tree → List (Kind × String)
  | .absent => []
  | .leaf l => [(leafToken l.kind, l.text)]
  | .node label _ cs => Part.arrange label (parts cs)

/-- Some trees with their words. -/
def parts : List Tree → List Part
  | [] => []
  | t :: ts => ⟨t, words t⟩ :: parts ts

end

/-- The parts of a tree carry their words with them. -/
theorem parts_eq_map (ts : List Tree) : parts ts = ts.map fun t => ⟨t, words t⟩ := by
  induction ts with
  | nil => rfl
  | cons t ts ih => rw [parts, ih, List.map_cons]

theorem words_leaf (l : Leaf) : words (.leaf l) = [(leafToken l.kind, l.text)] := by
  rw [words]

/-- The text that a tree is rendered as. -/
def render (t : Tree) : String :=
  String.ofList (unwords (words t))

/-! ## Trees that the grammar can make -/

/-- A name that is no keyword. -/
structure IsIdentifier (l : Leaf) : Prop where
  kind : l.kind = .ident
  word : ∃ c cs, l.text.toList = c :: cs ∧ isWordStart c = true ∧ ∀ d ∈ cs, isWordChar d = true
  plain : Kind.ofWord l.text = .ident

/-- Parameters that differ. -/
structure IsParameters (ps : List Leaf) : Prop where
  names : ∀ p ∈ ps, IsIdentifier p
  differ : (ps.map Leaf.text).Nodup

/-- The keyword of a variable or of a constant. -/
def IsKeyword (l : Leaf) : Prop :=
  l.kind = .letWord ∧ l.text = "let" ∨ l.kind = .constWord ∧ l.text = "const"

/-- What a tree is in a program. -/
inductive Role where
  | expression
  | property
  | statement

/-- A tree is one that the grammar can make in a role, whatever its lines and columns. -/
inductive Formed : Role → Tree → Prop where
  | number {l : Leaf} (hk : l.kind = .number) (ht : Numeral.IsPlain l.text.toList) :
      Formed .expression (.leaf l)
  | string {l : Leaf} (hk : l.kind = .string) : Formed .expression (.leaf l)
  | name {l : Leaf} (h : IsIdentifier l) : Formed .expression (.leaf l)
  | assign {line : Option Int} {target : Leaf} {value : Tree} (ht : IsIdentifier target)
      (hv : Formed .expression value) :
      Formed .expression (.node .assign line [.leaf target, value])
  | condition {line : Option Int} {op : Leaf} {a b : Tree} (hk : op.kind = .condop)
      (ht : op.text ∈ conditionSigns) (ha : Formed .expression a) (hb : Formed .expression b) :
      Formed .expression (.node .condition line [a, .leaf op, b])
  | binary {line : Option Int} {op : Leaf} {a b : Tree} (hk : op.kind = .binop)
      (ht : op.text ∈ arithmeticSigns) (ha : Formed .expression a) (hb : Formed .expression b) :
      Formed .expression (.node .binary line [a, .leaf op, b])
  | field {line : Option Int} {target : Tree} {name : Leaf} (ht : Formed .expression target)
      (hn : IsIdentifier name) : Formed .expression (.node .field line [target, .leaf name])
  | index {line : Option Int} {target key : Tree} (ht : Formed .expression target)
      (hk : Formed .expression key) : Formed .expression (.node .index line [target, key])
  | call {line line' : Option Int} {callee : Tree} {es : List Tree}
      (hc : Formed .expression callee) (hes : ∀ e ∈ es, Formed .expression e) :
      Formed .expression (.node .call line [callee, .node .args line' es])
  | array {line : Option Int} {es : List Tree} (hes : ∀ e ∈ es, Formed .expression e) :
      Formed .expression (.node .array line es)
  | object {line : Option Int} {ps : List Tree} (hps : ∀ p ∈ ps, Formed .property p) :
      Formed .expression (.node .object line ps)
  | functionLiteral {line line' line'' : Option Int} {ps : List Leaf} {ss : List Tree}
      (hps : IsParameters ps) (hss : ∀ s ∈ ss, Formed .statement s) :
      Formed .expression
        (.node .fnliteral line [.node .params line' (ps.map .leaf), .node .body line'' ss])
  | shorthand {line : Option Int} {key : Leaf} (hk : IsIdentifier key) :
      Formed .property (.node .prop line [.leaf key, .absent])
  | property {line : Option Int} {key : Leaf} {value : Tree} (hk : IsIdentifier key)
      (hv : Formed .expression value) : Formed .property (.node .prop line [.leaf key, value])
  | expressionStatement {t : Tree} (h : Formed .expression t) : Formed .statement t
  | bareDeclaration {line : Option Int} {keyword name : Leaf} (hk : keyword.kind = .letWord)
      (ht : keyword.text = "let") (hn : IsIdentifier name) :
      Formed .statement (.node .vardecl line [.leaf keyword, .leaf name, .absent])
  | declaration {line : Option Int} {keyword name : Leaf} {init : Tree} (hk : IsKeyword keyword)
      (hn : IsIdentifier name) (hi : Formed .expression init) :
      Formed .statement (.node .vardecl line [.leaf keyword, .leaf name, init])
  | function {line line' line'' : Option Int} {name : Leaf} {ps : List Leaf} {ss : List Tree}
      (hn : IsIdentifier name) (hps : IsParameters ps) (hss : ∀ s ∈ ss, Formed .statement s) :
      Formed .statement
        (.node .fndecl line [.leaf name, .node .params line' (ps.map .leaf), .node .body line'' ss])
  | ifOnly {line line' : Option Int} {test : Tree} {ss : List Tree} (ht : Formed .expression test)
      (hss : ∀ s ∈ ss, Formed .statement s) :
      Formed .statement (.node .ifstmt line [test, .node .body line' ss, .absent])
  | ifElse {line line' line'' : Option Int} {test : Tree} {ss us : List Tree}
      (ht : Formed .expression test) (hss : ∀ s ∈ ss, Formed .statement s)
      (hus : ∀ s ∈ us, Formed .statement s) :
      Formed .statement (.node .ifstmt line [test, .node .body line' ss, .node .body line'' us])

/-- A tree is that of a program. -/
def IsProgramTree (t : Tree) : Prop :=
  ∃ line ss, t = .node .program line ss ∧ ∀ s ∈ ss, Formed .statement s

/-! ## All words can be read -/

/-- All words of a list can be read. -/
def Legible (ws : List (Kind × String)) : Prop :=
  ∀ word ∈ ws, Readable word

@[simp] theorem legible_nil : Legible [] := by simp [Legible]

@[simp] theorem legible_cons {word : Kind × String} {ws : List (Kind × String)} :
    Legible (word :: ws) ↔ Readable word ∧ Legible ws := by
  simp [Legible]

@[simp] theorem legible_append {ws us : List (Kind × String)} :
    Legible (ws ++ us) ↔ Legible ws ∧ Legible us :=
  List.forall_mem_append

/-- Texts that are legible one by one are so together. -/
theorem legible_flatMap {α : Type} {xs : List α} {f : α → List (Kind × String)}
    (h : ∀ x ∈ xs, Legible (f x)) : Legible (xs.flatMap f) := by
  intro word hword
  obtain ⟨x, hx, hword⟩ := List.mem_flatMap.mp hword
  exact h x hx word hword

/-- The keywords and marks that are written can be read. -/
theorem readable_fixed : ∀ kind ∈ [Kind.funcWord, .ifWord, .elseWord, .equals, .lpar, .rpar,
    .lbrace, .rbrace, .lsqb, .rsqb, .comma, .colon, .semi, .dot], Readable (fixed kind) := by
  have hfunc : Readable (fixed .funcWord) :=
    Scan.readable_word (rfl : "func".toList = 'f' :: ['u', 'n', 'c']) (by decide) (by decide)
  have hif : Readable (fixed .ifWord) :=
    Scan.readable_word (rfl : "if".toList = 'i' :: ['f']) (by decide) (by decide)
  have helse : Readable (fixed .elseWord) :=
    Scan.readable_word (rfl : "else".toList = 'e' :: ['l', 's', 'e']) (by decide) (by decide)
  simp only [List.forall_mem_cons, List.not_mem_nil, false_imp_iff, implies_true, and_true]
  refine ⟨hfunc, hif, helse, ?_, ?_, ?_, ?_, ?_, ?_, ?_, ?_, ?_, ?_, ?_⟩
  all_goals exact Scan.readable_mark rfl

/-- A name that is not a keyword can be read. -/
theorem IsIdentifier.readable {l : Leaf} (h : IsIdentifier l) :
    Readable (leafToken l.kind, l.text) := by
  obtain ⟨c, cs, htext, hc, hcs⟩ := h.word
  have hword := Scan.readable_word htext hc (List.all_eq_true.mpr hcs)
  rw [h.plain] at hword
  rwa [h.kind]

theorem IsKeyword.readable {l : Leaf} (h : IsKeyword l) : Readable (leafToken l.kind, l.text) := by
  rcases h with ⟨hk, ht⟩ | ⟨hk, ht⟩
  · rw [hk, ht]
    exact Scan.readable_word (rfl : "let".toList = 'l' :: ['e', 't']) (by decide) (by decide)
  · rw [hk, ht]
    exact Scan.readable_word (rfl : "const".toList = 'c' :: ['o', 'n', 's', 't']) (by decide)
      (by decide)

/-- The arithmetic signs can be read. -/
theorem readable_arithmetic {l : Leaf} (hk : l.kind = .binop) (ht : l.text ∈ arithmeticSigns) :
    Readable (leafToken l.kind, l.text) := by
  rw [hk]
  simp only [arithmeticSigns, List.mem_cons, List.not_mem_nil, or_false] at ht
  rcases ht with ht | ht | ht | ht | ht | ht
  all_goals
    rw [ht]
    exact Scan.readable_mark rfl

theorem readable_condition {l : Leaf} (hk : l.kind = .condop) (ht : l.text ∈ conditionSigns) :
    Readable (leafToken l.kind, l.text) := by
  rw [hk]
  simp only [conditionSigns, List.mem_cons, List.not_mem_nil, or_false] at ht
  rcases ht with ht | ht | ht | ht
  · rw [ht]
    exact Scan.readable_word (rfl : "and".toList = 'a' :: ['n', 'd']) (by decide) (by decide)
  · rw [ht]
    exact Scan.readable_word (rfl : "or".toList = 'o' :: ['r']) (by decide) (by decide)
  · rw [ht]
    exact .comparison (.inl rfl)
  · rw [ht]
    exact .comparison (.inr rfl)

namespace Part

variable {p : Part} (h : Legible p.words)

include h

/-- Parentheses can be read. -/
theorem legible_operand (r : Nat) : Legible (p.operand r) := by
  unfold operand
  split
  next => simp [h, readable_fixed]
  next => exact h

theorem legible_after {word : Kind × String} (hword : Readable word) : Legible (p.after word) := by
  unfold after
  split
  next => exact legible_nil
  next => exact legible_cons.mpr ⟨hword, h⟩

theorem legible_closed : Legible p.closed := by
  unfold closed
  split
  next => exact h
  next => exact h
  next => exact h
  next => simp [h, readable_fixed]

omit h in
theorem legible_commas {ps : List Part} (h : ∀ p ∈ ps, Legible p.words) : Legible (commas ps) := by
  cases ps with
  | nil => exact legible_nil
  | cons p ps =>
    rw [List.forall_mem_cons] at h
    refine legible_append.mpr ⟨h.1, legible_flatMap fun q hq => ?_⟩
    exact legible_cons.mpr ⟨readable_fixed _ (by decide), h.2 q hq⟩

end Part

/-- All words of a tree that the grammar can make can be read. -/
theorem formed_legible {role : Role} {t : Tree} (h : Formed role t) : Legible (words t) := by
  have hblock : ∀ {ss : List Tree}, (∀ s ∈ ss, Legible (words s)) →
      Legible ((parts ss).flatMap Part.closed) := by
    intro ss hss
    rw [parts_eq_map]
    refine legible_flatMap fun p hp => ?_
    obtain ⟨s, hs, rfl⟩ := List.mem_map.mp hp
    exact Part.legible_closed (hss s hs)
  have hlist : ∀ {es : List Tree}, (∀ e ∈ es, Legible (words e)) →
      Legible (Part.commas (parts es)) := by
    intro es hes
    rw [parts_eq_map]
    refine Part.legible_commas fun p hp => ?_
    obtain ⟨e, he, rfl⟩ := List.mem_map.mp hp
    exact hes e he
  have hnames : ∀ {ps : List Leaf}, IsParameters ps →
      Legible (Part.commas (parts (ps.map Tree.leaf))) := by
    intro ps hps
    refine hlist fun e he => ?_
    obtain ⟨p, hp, rfl⟩ := List.mem_map.mp he
    simp [words, (hps.names p hp).readable]
  -- the words of a node are those of its children and some that are always the same
  induction h with
  | number hk ht =>
    simp only [words, hk]
    exact legible_cons.mpr ⟨Scan.readable_number ht, legible_nil⟩
  | string hk =>
    simp only [words, hk]
    exact legible_cons.mpr ⟨Scan.readable_string _, legible_nil⟩
  | name h => simp [words, h.readable]
  | assign ht _ ihv => simp [words, parts, Part.arrange, readable_fixed, ht.readable, ihv]
  | condition hk ht _ _ iha ihb =>
    have hop := readable_condition hk ht
    simp [words, parts, Part.arrange, hop, Part.legible_operand, iha, ihb]
  | binary hk ht _ _ iha ihb =>
    have hop := readable_arithmetic hk ht
    simp [words, parts, Part.arrange, hop, Part.legible_operand, iha, ihb]
  | field _ hn iht =>
    simp [words, parts, Part.arrange, readable_fixed, hn.readable, Part.legible_operand, iht]
  | index _ _ iht ihk =>
    simp [words, parts, Part.arrange, readable_fixed, Part.legible_operand, iht, ihk]
  | call _ _ ihc ihes =>
    simp [words, parts, Part.arrange, readable_fixed, Part.legible_operand, ihc, hlist ihes]
  | array _ ihes => simp [words, Part.arrange, readable_fixed, hlist ihes]
  | object _ ihps => simp [words, Part.arrange, readable_fixed, hlist ihps]
  | functionLiteral hps _ ihss =>
    simp [words, parts, Part.arrange, readable_fixed, hnames hps, hblock ihss]
  | shorthand hk => simp [words, parts, Part.arrange, Part.after, hk.readable]
  | property hk _ ihv =>
    simp [words, parts, Part.arrange, readable_fixed, Part.legible_after, hk.readable, ihv]
  | expressionStatement _ ih => exact ih
  | bareDeclaration hk ht hn =>
    have hword := IsKeyword.readable (.inl ⟨hk, ht⟩)
    simp [words, parts, Part.arrange, readable_fixed, Part.after, hword, hn.readable]
  | declaration hk hn _ ihi =>
    simp [words, parts, Part.arrange, readable_fixed, Part.legible_after, hk.readable, hn.readable,
      ihi]
  | function hn hps _ ihss =>
    simp [words, parts, Part.arrange, readable_fixed, hn.readable, hnames hps, hblock ihss]
  | ifOnly _ _ iht ihss =>
    simp [words, parts, Part.arrange, readable_fixed, Part.after, iht, hblock ihss]
  | ifElse _ _ _ iht ihss ihus =>
    simp [words, parts, Part.arrange, readable_fixed, Part.after, iht, hblock ihss, hblock ihus]

/-- All words of a program can be read. -/
theorem program_legible {t : Tree} (h : IsProgramTree t) : Legible (words t) := by
  obtain ⟨line, ss, rfl, hss⟩ := h
  rw [words, parts_eq_map]
  refine legible_flatMap fun p hp => ?_
  obtain ⟨s, hs, rfl⟩ := List.mem_map.mp hp
  exact Part.legible_closed (formed_legible (hss s hs))

end Avii.Syntax
