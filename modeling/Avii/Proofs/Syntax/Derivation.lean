import Avii.Tree.Parse
import Avii.Tree.Show

/-!
# The grammar as derivations

The grammar of the language, alternative by alternative, as a relation that knows
nothing of a parser: `Derives φ ts out rest` says that the tokens of `ts` up to `rest`
are a phrase `φ` which contributes the trees `out`. In the notation of the grammar:

* `program := (statement | ';')* EOF`
* `statement := variableDecl | functionDecl | ifStmt | expression`
* `variableDecl := ('let' | 'const') IDENT ('=' expression)? ';'`, a constant with `'='`
* `functionDecl := 'func' IDENT '(' params ')' block`
* `ifStmt := 'if' expression block ('else' (ifStmt | block))?`
* `block := '{' (statement | ';')* '}'`
* `expression := logical ('=' expression)?`
* `logical`, `equality`, `additive`, `multiplicative`: operands of the next level with
  operators of this one between them, grouped to the left
* `power := callMember ('^' power)?`
* `callMember := primary ('(' args ')' | '.' IDENT | '[' expression ']')*`
* `primary`: a number, string or name, an expression in parentheses, an object, an array,
  a function literal

Three restrictions go with it. An expression that is a statement is not directly followed by
an opening parenthesis or bracket (`startsApart`), the parameters of one list differ, and the
target of an assignment is a name once its parentheses are gone. The grammar as it stands is
ambiguous exactly at the first of them: `a (b)` is a call and also two statements.

The leaves of a derived tree are the tokens that count, each once and in order
(`derives_leaves`).
-/

namespace Avii.Syntax

open Avii.Parser (isLogical isEquality isSum isProduct isPower isName)

/-! ## Phrases -/

/-- The levels of operators that group to the left, the loosest first. -/
inductive Level where
  | logical | equality | sum | product
deriving DecidableEq

namespace Level

/-- The operators of a level. -/
def isOperator : Level → Token → Bool
  | logical => isLogical
  | equality => isEquality
  | sum => isSum
  | product => isProduct

/-- The label of the nodes that a level makes. -/
def label : Level → Label
  | logical | equality => .condition
  | sum | product => .binary

end Level

/-- What the front of a list of tokens can be read as. -/
inductive Phrase where
  /-- Statements, and semicolons between them. -/
  | items
  /-- A statement other than an expression. -/
  | statement
  | conditional
  | block
  /-- A list of parameters in parentheses. -/
  | params
  /-- Parameters, each after a comma. -/
  | moreParams
  /-- An assignment or anything that binds tighter. -/
  | expression
  | level (ℓ : Level)
  | power
  /-- Member accesses, indexings and calls applied to a primary expression. -/
  | chain
  | primary
  /-- Expressions with commas between them, or none. -/
  | arguments
  /-- Expressions, each after a comma. -/
  | moreArguments
  /-- Properties with commas between them, one after the last allowed, or none. -/
  | properties
  | property
deriving DecidableEq

/-- What the operands of a level are. -/
def Level.operand : Level → Phrase
  | logical => .level .equality
  | equality => .level .sum
  | sum => .level .product
  | product => .power

/-- Does a list of tokens not start like the link of a chain? Then the expression before it
cannot take its first token along. -/
def startsApart (ts : List Token) : Prop :=
  ∀ t ∈ ts.head?, t.kind ≠ .lpar ∧ t.kind ≠ .lsqb

/-- A number, a string or a name. -/
def isAtom (t : Token) : Prop :=
  t.kind = .number ∨ t.kind = .string ∨ t.kind = .ident

/-! ## Derivations -/

/-- The tokens of a list up to a rest are a phrase that contributes some trees. -/
inductive Derives : Phrase → List Token → List Tree → List Token → Prop where
  -- statements
  | noItems {ts : List Token} : Derives .items ts [] ts
  | semicolon {t : Token} {ts rest : List Token} {ss : List Tree} (ht : t.kind = .semi)
      (h : Derives .items ts ss rest) : Derives .items (t :: ts) ss rest
  | item {ts mid rest : List Token} {s : Tree} {ss : List Tree}
      (hs : Derives .statement ts [s] mid) (h : Derives .items mid ss rest) :
      Derives .items ts (s :: ss) rest
  | expressionItem {ts mid rest : List Token} {e : Tree} {ss : List Tree}
      (he : Derives .expression ts [e] mid) (hmid : startsApart mid)
      (h : Derives .items mid ss rest) : Derives .items ts (e :: ss) rest
  | bareDeclaration {word name semi : Token} {rest : List Token} (hw : word.kind = .letWord)
      (hn : name.kind = .ident) (hs : semi.kind = .semi) :
      Derives .statement (word :: name :: semi :: rest)
        [.node .vardecl (some word.line) [.leaf word.leaf, .leaf name.leaf, .absent]] rest
  | declaration {word name eq semi : Token} {ts rest : List Token} {e : Tree}
      (hw : word.kind = .letWord ∨ word.kind = .constWord) (hn : name.kind = .ident)
      (heq : eq.kind = .equals) (he : Derives .expression ts [e] (semi :: rest))
      (hs : semi.kind = .semi) :
      Derives .statement (word :: name :: eq :: ts)
        [.node .vardecl (some word.line) [.leaf word.leaf, .leaf name.leaf, e]] rest
  | function {word name : Token} {ts mid rest : List Token} {ps b : Tree}
      (hw : word.kind = .funcWord) (hn : name.kind = .ident)
      (hps : Derives .params ts [ps] mid) (hb : Derives .block mid [b] rest) :
      Derives .statement (word :: name :: ts)
        [.node .fndecl (some name.line) [.leaf name.leaf, ps, b]] rest
  | conditional {ts rest : List Token} {s : Tree} (h : Derives .conditional ts [s] rest) :
      Derives .statement ts [s] rest
  | ifOnly {word : Token} {ts mid rest : List Token} {e b : Tree} (hw : word.kind = .ifWord)
      (he : Derives .expression ts [e] mid) (hb : Derives .block mid [b] rest) :
      Derives .conditional (word :: ts) [.node .ifstmt (some word.line) [e, b, .absent]] rest
  | ifElse {word other : Token} {ts mid us rest : List Token} {e b c : Tree}
      (hw : word.kind = .ifWord) (he : Derives .expression ts [e] mid)
      (hb : Derives .block mid [b] (other :: us)) (ho : other.kind = .elseWord)
      (hc : Derives .block us [c] rest) :
      Derives .conditional (word :: ts) [.node .ifstmt (some word.line) [e, b, c]] rest
  | ifElseIf {word other : Token} {ts mid us rest : List Token} {e b s : Tree}
      (hw : word.kind = .ifWord) (he : Derives .expression ts [e] mid)
      (hb : Derives .block mid [b] (other :: us)) (ho : other.kind = .elseWord)
      (hc : Derives .conditional us [s] rest) :
      Derives .conditional (word :: ts)
        [.node .ifstmt (some word.line) [e, b, .node .body none [s]]] rest
  | block {l r : Token} {ts rest : List Token} {ss : List Tree} (hl : l.kind = .lbrace)
      (h : Derives .items ts ss (r :: rest)) (hr : r.kind = .rbrace) :
      Derives .block (l :: ts) [.node .body none ss] rest
  -- parameters
  | noParams {l r : Token} {rest : List Token} (hl : l.kind = .lpar) (hr : r.kind = .rpar) :
      Derives .params (l :: r :: rest) [.node .params none []] rest
  | params {l p r : Token} {ts rest : List Token} {ps : List Tree} (hl : l.kind = .lpar)
      (hp : p.kind = .ident) (h : Derives .moreParams ts ps (r :: rest)) (hr : r.kind = .rpar)
      (hd : ((Tree.leaf p.leaf :: ps).map Tree.word).Nodup) :
      Derives .params (l :: p :: ts) [.node .params none (.leaf p.leaf :: ps)] rest
  | noMoreParams {ts : List Token} : Derives .moreParams ts [] ts
  | moreParams {c p : Token} {ts rest : List Token} {ps : List Tree} (hc : c.kind = .comma)
      (hp : p.kind = .ident) (h : Derives .moreParams ts ps rest) :
      Derives .moreParams (c :: p :: ts) (.leaf p.leaf :: ps) rest
  -- operators
  | value {ts rest : List Token} {e : Tree} (h : Derives (.level .logical) ts [e] rest) :
      Derives .expression ts [e] rest
  | assignment {eq : Token} {ts us rest : List Token} {target e : Tree}
      (ht : Derives (.level .logical) ts [target] (eq :: us)) (heq : eq.kind = .equals)
      (hn : isName target = true) (he : Derives .expression us [e] rest) :
      Derives .expression ts [.node .assign (some eq.line) [target, e]] rest
  | operand {ℓ : Level} {ts rest : List Token} {e : Tree} (h : Derives ℓ.operand ts [e] rest) :
      Derives (.level ℓ) ts [e] rest
  | join {ℓ : Level} {op : Token} {ts us rest : List Token} {a b : Tree}
      (ha : Derives (.level ℓ) ts [a] (op :: us)) (hop : ℓ.isOperator op = true)
      (hb : Derives ℓ.operand us [b] rest) :
      Derives (.level ℓ) ts [.node ℓ.label (some op.line) [a, .leaf op.leaf, b]] rest
  | base {ts rest : List Token} {e : Tree} (h : Derives .chain ts [e] rest) :
      Derives .power ts [e] rest
  | raise {op : Token} {ts us rest : List Token} {a b : Tree}
      (ha : Derives .chain ts [a] (op :: us)) (hop : isPower op = true)
      (hb : Derives .power us [b] rest) :
      Derives .power ts [.node .binary (some op.line) [a, .leaf op.leaf, b]] rest
  -- chains
  | primary {ts rest : List Token} {e : Tree} (h : Derives .primary ts [e] rest) :
      Derives .chain ts [e] rest
  | field {dot name : Token} {ts rest : List Token} {e : Tree}
      (he : Derives .chain ts [e] (dot :: name :: rest)) (hd : dot.kind = .dot)
      (hn : name.kind = .ident) :
      Derives .chain ts [.node .field (some name.line) [e, .leaf name.leaf]] rest
  | index {l r : Token} {ts us rest : List Token} {e k : Tree}
      (he : Derives .chain ts [e] (l :: us)) (hl : l.kind = .lsqb)
      (hk : Derives .expression us [k] (r :: rest)) (hr : r.kind = .rsqb) :
      Derives .chain ts [.node .index (some l.line) [e, k]] rest
  | call {l r : Token} {ts us rest : List Token} {e : Tree} {es : List Tree}
      (he : Derives .chain ts [e] (l :: us)) (hl : l.kind = .lpar)
      (hes : Derives .arguments us es (r :: rest)) (hr : r.kind = .rpar) :
      Derives .chain ts [.node .call (some l.line) [e, .node .args none es]] rest
  | noArguments {ts : List Token} : Derives .arguments ts [] ts
  | arguments {ts mid rest : List Token} {e : Tree} {es : List Tree}
      (he : Derives .expression ts [e] mid) (h : Derives .moreArguments mid es rest) :
      Derives .arguments ts (e :: es) rest
  | noMoreArguments {ts : List Token} : Derives .moreArguments ts [] ts
  | moreArguments {c : Token} {ts mid rest : List Token} {e : Tree} {es : List Tree}
      (hc : c.kind = .comma) (he : Derives .expression ts [e] mid)
      (h : Derives .moreArguments mid es rest) :
      Derives .moreArguments (c :: ts) (e :: es) rest
  -- primary expressions
  | atom {t : Token} {rest : List Token} (ht : isAtom t) :
      Derives .primary (t :: rest) [.leaf t.leaf] rest
  | parenthesized {l r : Token} {ts rest : List Token} {e : Tree} (hl : l.kind = .lpar)
      (he : Derives .expression ts [e] (r :: rest)) (hr : r.kind = .rpar) :
      Derives .primary (l :: ts) [e] rest
  | object {l r : Token} {ts rest : List Token} {ps : List Tree} (hl : l.kind = .lbrace)
      (h : Derives .properties ts ps (r :: rest)) (hr : r.kind = .rbrace) :
      Derives .primary (l :: ts) [.node .object (some l.line) ps] rest
  | array {l r : Token} {ts rest : List Token} {es : List Tree} (hl : l.kind = .lsqb)
      (h : Derives .arguments ts es (r :: rest)) (hr : r.kind = .rsqb) :
      Derives .primary (l :: ts) [.node .array (some l.line) es] rest
  | functionLiteral {word : Token} {ts mid rest : List Token} {ps b : Tree}
      (hw : word.kind = .funcWord) (hps : Derives .params ts [ps] mid)
      (hb : Derives .block mid [b] rest) :
      Derives .primary (word :: ts) [.node .fnliteral (some word.line) [ps, b]] rest
  | noProperties {ts : List Token} : Derives .properties ts [] ts
  | lastProperty {ts rest : List Token} {p : Tree} (hp : Derives .property ts [p] rest) :
      Derives .properties ts [p] rest
  | properties {c : Token} {ts us rest : List Token} {p : Tree} {ps : List Tree}
      (hp : Derives .property ts [p] (c :: us)) (hc : c.kind = .comma)
      (h : Derives .properties us ps rest) : Derives .properties ts (p :: ps) rest
  | shorthand {key : Token} {rest : List Token} (hk : key.kind = .ident) :
      Derives .property (key :: rest)
        [.node .prop (some key.line) [.leaf key.leaf, .absent]] rest
  | property {key colon : Token} {ts rest : List Token} {e : Tree} (hk : key.kind = .ident)
      (hc : colon.kind = .colon) (he : Derives .expression ts [e] rest) :
      Derives .property (key :: colon :: ts)
        [.node .prop (some key.line) [.leaf key.leaf, e]] rest

/-- A list of tokens is a program with a given tree: its statements take all tokens up to an
`eof` that is the last one. -/
def IsProgram (ts : List Token) (t : Tree) : Prop :=
  ∃ ss e, e.kind = Kind.eof ∧ Derives .items ts ss [e] ∧ t = .node .program none ss

/-! ## Progress -/

/-- A list of tokens leads to one of its ends over tokens that are not `eof`. -/
def Leads (ts rest : List Token) : Prop :=
  ∃ w, ts = w ++ rest ∧ ∀ t ∈ w, t.kind ≠ .eof

theorem Leads.refl (ts : List Token) : Leads ts ts :=
  ⟨[], rfl, by simp⟩

theorem Leads.trans {ts us vs : List Token} (h : Leads ts us) (h' : Leads us vs) :
    Leads ts vs := by
  obtain ⟨w, rfl, hw⟩ := h
  obtain ⟨w', rfl, hw'⟩ := h'
  refine ⟨w ++ w', by simp, ?_⟩
  intro t ht
  rcases List.mem_append.mp ht with ht | ht
  · exact hw t ht
  · exact hw' t ht

/-- Over one token of a known kind. -/
theorem Leads.over {t : Token} {k : Kind} {ts rest : List Token} (ht : t.kind = k)
    (h : Leads ts rest) (hk : k ≠ .eof := by decide) : Leads (t :: ts) rest := by
  refine Leads.trans ⟨[t], rfl, ?_⟩ h
  intro u hu
  rw [List.mem_singleton.mp hu, ht]
  exact hk

/-- Over a token of a known kind at the end. -/
theorem Leads.past {t : Token} {k : Kind} {ts rest : List Token} (h : Leads ts (t :: rest))
    (ht : t.kind = k) (hk : k ≠ .eof := by decide) : Leads ts rest :=
  h.trans (.over ht (.refl rest) hk)

theorem Leads.length_le {ts rest : List Token} (h : Leads ts rest) :
    rest.length ≤ ts.length := by
  obtain ⟨w, rfl, -⟩ := h
  simp

theorem of_isOneOf {k : Kind} {texts : List String} {t : Token}
    (h : Parser.isOneOf k texts t = true) : t.kind = k ∧ t.text ∈ texts := by
  simpa only [Parser.isOneOf, Bool.and_eq_true, decide_eq_true_eq, List.contains_eq_mem] using h

theorem kind_of_isOneOf {k : Kind} {texts : List String} {t : Token}
    (h : Parser.isOneOf k texts t = true) : t.kind = k :=
  (of_isOneOf h).1

/-- The operators of a level are operator tokens. -/
theorem isOperator_kind {ℓ : Level} {t : Token} (h : ℓ.isOperator t = true) :
    t.kind = .condop ∨ t.kind = .binop := by
  cases ℓ with
  | logical | equality => exact .inl (kind_of_isOneOf h)
  | sum | product => exact .inr (kind_of_isOneOf h)

/-- A derivation takes tokens from the front of a list, and never an `eof`. -/
theorem derives_leads {φ : Phrase} {ts rest : List Token} {out : List Tree}
    (h : Derives φ ts out rest) : Leads ts rest := by
  induction h with
  | noItems | noMoreParams | noArguments | noMoreArguments | noProperties => exact .refl _
  | semicolon ht _ ih => exact .over ht ih
  | item _ _ ihs ih | arguments _ _ ihs ih => exact ihs.trans ih
  | expressionItem _ _ _ ihe ih => exact ihe.trans ih
  | bareDeclaration hw hn hs => exact .over hw (.over hn (.over hs (.refl _)))
  | declaration hw hn heq _ hs ih =>
    rcases hw with hw | hw
    · exact .over hw (.over hn (.over heq (ih.past hs)))
    · exact .over hw (.over hn (.over heq (ih.past hs)))
  | function hw hn _ _ ihps ihb => exact .over hw (.over hn (ihps.trans ihb))
  | conditional _ ih | value _ ih | operand _ ih | base _ ih | primary _ ih
  | lastProperty _ ih => exact ih
  | ifOnly hw _ _ ihe ihb => exact .over hw (ihe.trans ihb)
  | ifElse hw _ _ ho _ ihe ihb ihc | ifElseIf hw _ _ ho _ ihe ihb ihc =>
    exact .over hw (ihe.trans ((ihb.past ho).trans ihc))
  | block hl _ hr ih | parenthesized hl _ hr ih | object hl _ hr ih | array hl _ hr ih =>
    exact .over hl (ih.past hr)
  | noParams hl hr => exact .over hl (.over hr (.refl _))
  | params hl hp _ hr _ ih => exact .over hl (.over hp (ih.past hr))
  | moreParams hc hp _ ih => exact .over hc (.over hp ih)
  | assignment _ heq _ _ iht ihe => exact (iht.past heq).trans ihe
  | join _ hop _ iha ihb =>
    rcases isOperator_kind hop with hk | hk
    · exact (iha.past hk).trans ihb
    · exact (iha.past hk).trans ihb
  | raise _ hop _ iha ihb => exact (iha.past (kind_of_isOneOf hop)).trans ihb
  | field _ hd hn ih => exact (ih.past hd).past hn
  | index _ hl _ hr ihe ihk | call _ hl _ hr ihe ihk =>
    exact (ihe.past hl).trans (ihk.past hr)
  | moreArguments hc _ _ ihe ih => exact .over hc (ihe.trans ih)
  | atom ht =>
    rcases ht with ht | ht | ht
    · exact .over ht (.refl _)
    · exact .over ht (.refl _)
    · exact .over ht (.refl _)
  | functionLiteral hw _ _ ihps ihb => exact .over hw (ihps.trans ihb)
  | properties _ hc _ ihp ih => exact (ihp.past hc).trans ih
  | shorthand hk => exact .over hk (.refl _)
  | property hk hc _ ih => exact .over hk (.over hc ih)

/-! ## First tokens -/

/-- The kinds of token that an expression may start with. -/
def startsExpression (k : Kind) : Prop :=
  k = .number ∨ k = .string ∨ k = .ident ∨ k = .lpar ∨ k = .lbrace ∨ k = .lsqb ∨ k = .funcWord

/-- The kinds of token that a phrase may start with, where it cannot be empty. -/
def Phrase.starts : Phrase → Kind → Prop
  | .statement, k => k = .letWord ∨ k = .constWord ∨ k = .funcWord ∨ k = .ifWord
  | .conditional, k => k = .ifWord
  | .block, k => k = .lbrace
  | .params, k => k = .lpar
  | .expression, k | .level _, k | .power, k | .chain, k | .primary, k => startsExpression k
  | .property, k => k = .ident
  | .items, _ | .moreParams, _ | .arguments, _ | .moreArguments, _ | .properties, _ => True

/-- The phrases that may be empty. -/
def Phrase.mayBeEmpty : Phrase → Prop
  | .items | .moreParams | .arguments | .moreArguments | .properties => True
  | _ => False

theorem operand_starts (ℓ : Level) (k : Kind) : ℓ.operand.starts k = startsExpression k := by
  cases ℓ <;> rfl

theorem operand_not_empty (ℓ : Level) : ¬ ℓ.operand.mayBeEmpty := by
  cases ℓ <;> exact id

/-- A phrase that is not empty takes at least one token, of a kind that it may start with. -/
theorem derives_starts {φ : Phrase} {ts rest : List Token} {out : List Tree}
    (h : Derives φ ts out rest) (hφ : ¬ φ.mayBeEmpty) :
    ∃ t us, ts = t :: us ∧ φ.starts t.kind := by
  -- down the first part of each phrase to its first token
  induction h with
  | noItems | semicolon | item | expressionItem | noMoreParams | moreParams | noArguments
  | arguments | noMoreArguments | moreArguments | noProperties | lastProperty | properties =>
    exact absurd trivial hφ
  | bareDeclaration hw => exact ⟨_, _, rfl, .inl hw⟩
  | declaration hw =>
    refine ⟨_, _, rfl, ?_⟩
    rcases hw with hw | hw
    · exact .inl hw
    · exact .inr (.inl hw)
  | function hw => exact ⟨_, _, rfl, .inr (.inr (.inl hw))⟩
  | conditional _ ih =>
    obtain ⟨t, us, rfl, ht⟩ := ih id
    exact ⟨t, us, rfl, .inr (.inr (.inr ht))⟩
  | ifOnly hw | ifElse hw | ifElseIf hw => exact ⟨_, _, rfl, hw⟩
  | block hl | noParams hl | params hl => exact ⟨_, _, rfl, hl⟩
  | value _ ih | base _ ih | primary _ ih => exact ih id
  | assignment _ _ _ _ ih | raise _ _ _ ih | field _ _ _ ih | index _ _ _ _ ih
  | call _ _ _ _ ih | join _ _ _ ih => exact ih id
  | operand _ ih =>
    rename_i ℓ _ _ _ _
    obtain ⟨t, us, hts, ht⟩ := ih (operand_not_empty ℓ)
    rw [operand_starts] at ht
    exact ⟨t, us, hts, ht⟩
  | atom ht =>
    refine ⟨_, _, rfl, ?_⟩
    rcases ht with ht | ht | ht
    · exact .inl ht
    · exact .inr (.inl ht)
    · exact .inr (.inr (.inl ht))
  | parenthesized hl => exact ⟨_, _, rfl, .inr (.inr (.inr (.inl hl)))⟩
  | object hl => exact ⟨_, _, rfl, .inr (.inr (.inr (.inr (.inl hl))))⟩
  | array hl => exact ⟨_, _, rfl, .inr (.inr (.inr (.inr (.inr (.inl hl)))))⟩
  | functionLiteral hw => exact ⟨_, _, rfl, .inr (.inr (.inr (.inr (.inr (.inr hw)))))⟩
  | shorthand hk | property hk => exact ⟨_, _, rfl, hk⟩

/-- A phrase that is not empty makes the list of tokens shorter. -/
theorem derives_shorter {φ : Phrase} {ts rest : List Token} {out : List Tree}
    (h : Derives φ ts out rest) (hφ : ¬ φ.mayBeEmpty) : rest.length < ts.length := by
  -- the first part that cannot be empty, or a token, makes the difference; the others take tokens
  induction h with
  | noItems | semicolon | item | expressionItem | noMoreParams | moreParams | noArguments
  | arguments | noMoreArguments | moreArguments | noProperties | lastProperty | properties =>
    exact absurd trivial hφ
  | conditional _ ih | value _ ih | base _ ih | primary _ ih => exact ih id
  | operand _ ih => exact ih (operand_not_empty _)
  | bareDeclaration | noParams | atom | shorthand =>
    simp only [List.length_cons]
    omega
  | declaration _ _ _ h _ | block _ h _ | params _ _ h _ _ | parenthesized _ h _
  | object _ h _ | array _ h _ | property _ _ h =>
    have := (derives_leads h).length_le
    simp only [List.length_cons] at *
    omega
  | function _ _ h h' | ifOnly _ h h' | functionLiteral _ h h' =>
    have := (derives_leads h).length_le
    have := (derives_leads h').length_le
    simp only [List.length_cons] at *
    omega
  | ifElse _ h h' _ h'' | ifElseIf _ h h' _ h'' =>
    have := (derives_leads h).length_le
    have := (derives_leads h').length_le
    have := (derives_leads h'').length_le
    simp only [List.length_cons] at *
    omega
  | field _ _ _ ih =>
    -- the chain before the link takes a token already
    have := ih id
    simp only [List.length_cons] at *
    omega
  | assignment _ _ _ h ih | join _ _ h ih | raise _ _ h ih | index _ _ h _ ih
  | call _ _ h _ ih =>
    have := ih id
    have := (derives_leads h).length_le
    simp only [List.length_cons] at *
    omega

/-- The phrases that are expressions, or parts of one. -/
def Phrase.isExpression : Phrase → Prop
  | .expression | .level _ | .power | .chain | .primary => True
  | _ => False

/-- An expression starts with a primary one. -/
theorem derives_primary_first {φ : Phrase} {ts rest : List Token} {out : List Tree}
    (h : Derives φ ts out rest) (hφ : φ.isExpression) :
    ∃ out' mid, Derives .primary ts out' mid := by
  induction h with
  | value _ ih | base _ ih | primary _ ih => exact ih trivial
  | operand _ ih =>
    rename_i ℓ _ _ _ _
    exact ih (by cases ℓ <;> trivial)
  | assignment _ _ _ _ ih | join _ _ _ ih | raise _ _ _ ih | field _ _ _ ih
  | index _ _ _ _ ih | call _ _ _ _ ih => exact ih trivial
  | atom ht => exact ⟨_, _, .atom ht⟩
  | parenthesized hl he hr => exact ⟨_, _, .parenthesized hl he hr⟩
  | object hl h hr => exact ⟨_, _, .object hl h hr⟩
  | array hl h hr => exact ⟨_, _, .array hl h hr⟩
  | functionLiteral hw hps hb => exact ⟨_, _, .functionLiteral hw hps hb⟩
  | _ => exact absurd hφ id

/-! ## Leaves -/

mutual

/-- The leaves of a tree, from left to right. -/
def leaves : Tree → List Leaf
  | .absent => []
  | .leaf l => [l]
  | .node _ _ cs => leavesOf cs

/-- The leaves of some trees, from left to right. -/
def leavesOf : List Tree → List Leaf
  | [] => []
  | t :: ts => leaves t ++ leavesOf ts

end

/-- The tokens that count: those that become leaves. -/
def counts (t : Token) : Bool :=
  t.kind = .number ∨ t.kind = .string ∨ t.kind = .ident ∨ t.kind = .letWord
    ∨ t.kind = .constWord ∨ t.kind = .binop ∨ t.kind = .condop

/-- The leaves that the tokens of a list become. -/
def leavesIn (ts : List Token) : List Leaf :=
  (ts.filter counts).map Token.leaf

theorem leavesIn_counted {t : Token} (h : counts t = true) (ts : List Token) :
    leavesIn (t :: ts) = t.leaf :: leavesIn ts := by
  simp [leavesIn, h]

theorem leavesIn_uncounted {t : Token} (h : counts t = false) (ts : List Token) :
    leavesIn (t :: ts) = leavesIn ts := by
  simp [leavesIn, h]

theorem counts_atom {t : Token} (h : isAtom t) : counts t = true := by
  rcases h with h | h | h <;> simp [counts, h]

theorem counts_operator {ℓ : Level} {t : Token} (h : ℓ.isOperator t = true) :
    counts t = true := by
  rcases isOperator_kind h with h | h <;> simp [counts, h]

theorem counts_power {t : Token} (h : isPower t = true) : counts t = true := by
  simp [counts, kind_of_isOneOf h]

/-- The tokens of a phrase that count are the leaves of its trees, in order. -/
theorem derives_leaves {φ : Phrase} {ts rest : List Token} {out : List Tree}
    (h : Derives φ ts out rest) : leavesIn ts = leavesOf out ++ leavesIn rest := by
  -- each case drops the tokens that do not count and puts the others where their leaves stand
  have drop : ∀ {t : Token} {k : Kind} (ts : List Token), t.kind = k →
      (counts ⟨k, "", 0, 0⟩ = false) → leavesIn (t :: ts) = leavesIn ts := by
    intro t k ts hk hc
    exact leavesIn_uncounted (by simpa [counts, hk] using hc) ts
  have keep : ∀ {t : Token} {k : Kind} (ts : List Token), t.kind = k →
      (counts ⟨k, "", 0, 0⟩ = true) → leavesIn (t :: ts) = t.leaf :: leavesIn ts := by
    intro t k ts hk hc
    exact leavesIn_counted (by simpa [counts, hk] using hc) ts
  induction h with
  | noItems | noMoreParams | noArguments | noMoreArguments | noProperties =>
    simp [leavesOf]
  | semicolon ht _ ih => rw [drop _ ht rfl, ih]
  | item _ _ ihs ih => simp [leavesOf, ihs, ih]
  | expressionItem _ _ _ ihe ih => simp [leavesOf, ihe, ih]
  | bareDeclaration hw hn hs =>
    rw [keep _ hw rfl, keep _ hn rfl, drop _ hs rfl]
    simp [leavesOf, leaves]
  | declaration hw hn heq _ hs ih =>
    rcases hw with hw | hw <;>
    · rw [keep _ hw rfl, keep _ hn rfl, drop _ heq rfl, ih, drop _ hs rfl]
      simp [leavesOf, leaves]
  | function hw hn _ _ ihps ihb =>
    rw [drop _ hw rfl, keep _ hn rfl, ihps, ihb]
    simp [leavesOf, leaves]
  | conditional _ ih | value _ ih | operand _ ih | base _ ih | primary _ ih
  | lastProperty _ ih => exact ih
  | ifOnly hw _ _ ihe ihb =>
    rw [drop _ hw rfl, ihe, ihb]
    simp [leavesOf, leaves]
  | ifElse hw _ _ ho _ ihe ihb ihc | ifElseIf hw _ _ ho _ ihe ihb ihc =>
    rw [drop _ hw rfl, ihe, ihb, drop _ ho rfl, ihc]
    simp [leavesOf, leaves]
  | block hl _ hr ih | object hl _ hr ih | array hl _ hr ih =>
    rw [drop _ hl rfl, ih, drop _ hr rfl]
    simp [leavesOf, leaves]
  | parenthesized hl _ hr ih => rw [drop _ hl rfl, ih, drop _ hr rfl]
  | noParams hl hr =>
    rw [drop _ hl rfl, drop _ hr rfl]
    simp [leavesOf, leaves]
  | params hl hp _ hr _ ih =>
    rw [drop _ hl rfl, keep _ hp rfl, ih, drop _ hr rfl]
    simp [leavesOf, leaves]
  | moreParams hc hp _ ih =>
    rw [drop _ hc rfl, keep _ hp rfl, ih]
    simp [leavesOf, leaves]
  | assignment _ heq _ _ iht ihe =>
    rw [iht, drop _ heq rfl, ihe]
    simp [leavesOf, leaves]
  | join _ hop _ iha ihb =>
    rw [iha, leavesIn_counted (counts_operator hop), ihb]
    simp [leavesOf, leaves]
  | raise _ hop _ iha ihb =>
    rw [iha, leavesIn_counted (counts_power hop), ihb]
    simp [leavesOf, leaves]
  | field _ hd hn ih =>
    rw [ih, drop _ hd rfl, keep _ hn rfl]
    simp [leavesOf, leaves]
  | index _ hl _ hr ihe ihk | call _ hl _ hr ihe ihk =>
    rw [ihe, drop _ hl rfl, ihk, drop _ hr rfl]
    simp [leavesOf, leaves]
  | arguments _ _ ihe ih => simp [leavesOf, ihe, ih]
  | moreArguments hc _ _ ihe ih =>
    rw [drop _ hc rfl, ihe, ih]
    simp [leavesOf]
  | atom ht =>
    rw [leavesIn_counted (counts_atom ht)]
    simp [leavesOf, leaves]
  | functionLiteral hw _ _ ihps ihb =>
    rw [drop _ hw rfl, ihps, ihb]
    simp [leavesOf, leaves]
  | properties _ hc _ ihp ih =>
    rw [ihp, drop _ hc rfl, ih]
    simp [leavesOf]
  | shorthand hk =>
    rw [keep _ hk rfl]
    simp [leavesOf, leaves]
  | property hk hc _ ih =>
    rw [keep _ hk rfl, drop _ hc rfl, ih]
    simp [leavesOf, leaves]

end Avii.Syntax
