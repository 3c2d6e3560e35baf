import Avii.Proofs.Grammar.Lowering
import Avii.Proofs.Syntax.Acceptance

/-!
# The two parsers agree

Every program text that the parser by descent has a tree for is also a program of the grammar, and
the parser by table gives it the same tree, but for the lines of inner nodes (`parsers_agree`).

The way leads over derivations. What the parser by descent accepts is derived from phrases
(`Syntax.program_reads`), and each phrase is covered by symbols of the grammar: `Covers` says that,
whatever lexemes stand for the tokens, the symbols derive them, and their parts become the trees of
the phrase. The phrases and the rules of the grammar differ in how they list things: a phrase has
its first item and then the others, a rule all but the last and then the last. `Grows` carries both
readings along, so that lists can be covered from the left (`grows_cons`).

A derivation by phrases may end an operand before `(` or `[` only where an expression as a whole
ends, and the phrases do not let it end there either. So the rule of the grammar that ends a chain
is never used before these.

The parser by table limits how deeply a tree nests once it is complete, the one by descent how
deeply its own calls nest. So agreement is up to the former, and stated with the exact limit.
-/

namespace Avii.Grammar

open Syntax (Phrase Level Derives startsApart)

/-! ## Covering -/

/-- A rule of the grammar that has a body, and ends whatever comes next. -/
def Rule.Plain (r : Rule) : Prop :=
  r ∈ rules ∧ r.body ≠ [] ∧ ¬ (r.head = .power ∧ r.body = [.v .chain])

instance (r : Rule) : Decidable r.Plain :=
  inferInstanceAs (Decidable (_ ∧ _ ∧ _))

/-- A plain rule ends before every terminal. -/
theorem Rule.Plain.refuses {r : Rule} (h : r.Plain) (a : Terminal) : r.refuses a = false := by
  have hother : (decide (r.head = .power) && decide (r.body = [.v .chain])) = false := by
    simpa using h.2.2
  rw [Rule.refuses, hother, Bool.false_and]

/-- A rule that makes a node. -/
theorem Yields.node {head : Variable} {form : Form} {xs : List Symbol} {ls rest : List Lexeme}
    {ps : List Parse} (h : Yields xs ls ps rest) (hr : (⟨head, xs, .node form⟩ : Rule).Plain) :
    Yields [.v head] ls [.node form ps] rest :=
  .rule hr.1 hr.2.1 h (hr.refuses _) .nil

/-- A rule that hands its parts on. -/
theorem Yields.splice {head : Variable} {xs : List Symbol} {ls rest : List Lexeme}
    {ps : List Parse} (h : Yields xs ls ps rest) (hr : (⟨head, xs, .splice⟩ : Rule).Plain) :
    Yields [.v head] ls ps rest := by
  have hall := Yields.rule hr.1 hr.2.1 h (hr.refuses _) .nil
  rw [List.append_nil] at hall
  exact hall

/-- Whatever lexemes stand for some tokens, symbols of the grammar derive those up to a rest, and
their parts become the given trees. -/
def Covers (xs : List Symbol) (ts : List Token) (out : List Tree) (rest : List Token) : Prop :=
  ∀ ls, List.Forall₂ Lexes ts ls → ∃ lrest ps, List.Forall₂ Lexes rest lrest ∧
    List.Forall₂ Lowers ps out ∧ Yields xs ls ps lrest

section Covering

variable {xs ys : List Symbol} {ts mid rest : List Token} {out out' : List Tree} {t : Token}
  {k : Kind}

/-- No symbols cover no tokens. -/
theorem Covers.nil : Covers [] ts [] ts :=
  fun ls hls => ⟨ls, [], hls, .nil, .nil⟩

/-- What symbols cover one after the other they cover together. -/
theorem Covers.append (h : Covers xs ts out mid) (h' : Covers ys mid out' rest) :
    Covers (xs ++ ys) ts (out ++ out') rest := by
  intro ls hls
  obtain ⟨lmid, ps, hmid, hps, hyields⟩ := h ls hls
  obtain ⟨lrest, qs, hrest, hqs, hyields'⟩ := h' lmid hmid
  exact ⟨lrest, ps ++ qs, hrest, List.rel_append hps hqs, hyields.append hyields'⟩

/-- A token that is no part of the tree. -/
theorem Covers.mark (ht : t.kind = k) (hm : (terminalOf k t.text).isPart = false)
    (h : Covers xs ts out rest) :
    Covers (.t (terminalOf k t.text) :: xs) (t :: ts) out rest := by
  intro ls hls
  obtain ⟨l, ls', hl, hls', rfl⟩ := List.forall₂_cons_left_iff.mp hls
  obtain ⟨lrest, ps, hrest, hps, hyields⟩ := h ls' hls'
  have hterminal : l.terminal = terminalOf k t.text := by rw [hl.terminal, ht]
  have hparts : l.parts = [] := by
    unfold Lexeme.parts
    rw [hterminal, hm, if_neg Bool.false_ne_true]
  refine ⟨lrest, ps, hrest, hps, ?_⟩
  have hall := Yields.terminal (l := l) hyields
  rw [hparts, hterminal] at hall
  exact hall

/-- A token that is a part of the tree. -/
theorem Covers.part (ht : t.kind = k) (hp : (terminalOf k t.text).isPart = true)
    (h : Covers xs ts out rest) :
    Covers (.t (terminalOf k t.text) :: xs) (t :: ts) (.leaf t.leaf :: out) rest := by
  intro ls hls
  obtain ⟨l, ls', hl, hls', rfl⟩ := List.forall₂_cons_left_iff.mp hls
  obtain ⟨lrest, ps, hrest, hps, hyields⟩ := h ls' hls'
  have hterminal : l.terminal = terminalOf k t.text := by rw [hl.terminal, ht]
  have hpart : l.terminal.isPart = true := by rw [hterminal, hp]
  have hparts : l.parts = [.lexeme l] := by
    unfold Lexeme.parts
    rw [if_pos hpart]
  refine ⟨lrest, .lexeme l :: ps, hrest, .cons (lowers_leaf hl hpart) hps, ?_⟩
  have hall := Yields.terminal (l := l) hyields
  rw [hparts, hterminal] at hall
  exact hall

/-- A rule that makes a node covers what its body does, as the node. -/
theorem Covers.node {head : Variable} {form : Form} {tree : Tree} (h : Covers xs ts out rest)
    (hr : (⟨head, xs, .node form⟩ : Rule).Plain) (hmakes : Makes form out tree) :
    Covers [.v head] ts [tree] rest := by
  intro ls hls
  obtain ⟨lrest, ps, hrest, hps, hyields⟩ := h ls hls
  exact ⟨lrest, [.node form ps], hrest, .cons (lowers_node hps hmakes) .nil, hyields.node hr⟩

/-- A rule that makes none hands on what its body comes to. -/
theorem Covers.splice {head : Variable} (h : Covers xs ts out rest)
    (hr : (⟨head, xs, .splice⟩ : Rule).Plain) : Covers [.v head] ts out rest := by
  intro ls hls
  obtain ⟨lrest, ps, hrest, hps, hyields⟩ := h ls hls
  exact ⟨lrest, ps, hrest, hps, hyields.splice hr⟩

/-- A chain ends where it cannot go on. -/
theorem Covers.base (h : Covers [.v .chain] ts out rest) (hrest : startsApart rest) :
    Covers [.v .power] ts out rest := by
  intro ls hls
  obtain ⟨lrest, ps, hlrest, hps, hyields⟩ := h ls hls
  -- this is the rule that the table does not always end
  have hnext : (⟨.power, [.v .chain], .splice⟩ : Rule).refuses (upcoming lrest) = false := by
    have hcases : upcoming lrest ≠ .lpar ∧ upcoming lrest ≠ .lsqb := by
      cases hlrest with
      | nil => exact ⟨by simp [upcoming], by simp [upcoming]⟩
      | @cons t l _ _ hl _ =>
        obtain ⟨hlpar, hlsqb⟩ := hrest t rfl
        show l.terminal ≠ .lpar ∧ l.terminal ≠ .lsqb
        rw [hl.terminal]
        exact ⟨terminalOf_ne hlpar, terminalOf_ne hlsqb⟩
    simp [Rule.refuses, hcases]
  refine ⟨lrest, ps, hlrest, hps, ?_⟩
  have hall := Yields.rule (r := ⟨.power, [.v .chain], .splice⟩) (by decide)
    (List.cons_ne_nil _ _) hyields hnext .nil
  rw [List.append_nil] at hall
  exact hall

end Covering

/-! ## Lists -/

/-- Tokens are covered as a list of items, which may be empty, and go on with any list of the same
items that ends where they start. -/
def Grows (v : Variable) (ts : List Token) (out : List Tree) (rest : List Token) : Prop :=
  (ts = rest ∧ out = [] ∨ Covers [.v v] ts out rest) ∧
    ∀ ts₀ out₀, Covers [.v v] ts₀ out₀ ts → Covers [.v v] ts₀ (out₀ ++ out) rest

section Lists

variable {v : Variable} {item : List Symbol} {ts mid rest : List Token} {out out' : List Tree}

/-- A list may be empty. -/
theorem grows_nil : Grows v ts [] ts := by
  refine ⟨.inl ⟨rfl, rfl⟩, ?_⟩
  intro ts₀ out₀ h
  rw [List.append_nil]
  exact h

/-- An item goes in front of a list. -/
theorem grows_cons (h : Covers item ts out mid) (h' : Grows v mid out' rest)
    (hv : (⟨v, item, .splice⟩ : Rule).Plain ∧ (⟨v, .v v :: item, .splice⟩ : Rule).Plain) :
    Grows v ts (out ++ out') rest := by
  refine ⟨.inr (h'.2 ts out (h.splice hv.1)), ?_⟩
  -- the item joins the list before it, and the rest of the items join both
  intro ts₀ out₀ h₀
  have hsnoc : Covers [.v v] ts₀ (out₀ ++ out) mid := (h₀.append h).splice hv.2
  rw [← List.append_assoc]
  exact h'.2 ts₀ (out₀ ++ out) hsnoc

/-- An item goes behind a list: the grammar puts it there. -/
theorem grows_snoc (h : Grows v ts out mid) (h' : Covers item mid out' rest)
    (hv : (⟨v, item, .splice⟩ : Rule).Plain ∧ (⟨v, .v v :: item, .splice⟩ : Rule).Plain) :
    Grows v ts (out ++ out') rest := by
  have hlast := grows_cons h' grows_nil hv
  rw [List.append_nil] at hlast
  refine ⟨.inr ?_, ?_⟩
  · rcases h.1 with ⟨rfl, rfl⟩ | h
    · exact h'.splice hv.1
    · exact hlast.2 ts out h
  · intro ts₀ out₀ h₀
    rw [← List.append_assoc]
    exact hlast.2 ts₀ (out₀ ++ out) (h.2 ts₀ out₀ h₀)

/-- Expressions with commas between them, or none. -/
def Listed (ts : List Token) (out : List Tree) (rest : List Token) : Prop :=
  ts = rest ∧ out = [] ∨ Covers [.v .expr] ts out rest ∨
    Covers [.v .expr, .v .moreExprs] ts out rest

/-- An expression and what follows commas are a list of expressions. -/
theorem listed_cons (h : Covers [.v .expr] ts out mid) (h' : Grows .moreExprs mid out' rest) :
    Listed ts (out ++ out') rest := by
  rcases h'.1 with ⟨rfl, rfl⟩ | h'
  · rw [List.append_nil]
    exact .inr (.inl h)
  · exact .inr (.inr (h.append h'))

/-- One or more properties with commas between them. -/
def Properties (ts : List Token) (out : List Tree) (rest : List Token) : Prop :=
  ∃ out₁ out₂ mid, out = out₁ ++ out₂ ∧ Covers [.v .prop] ts out₁ mid ∧
    Grows .moreProps mid out₂ rest

/-- One or more properties, perhaps with a comma after the last. -/
def Closing (ts : List Token) (out : List Tree) (rest : List Token) : Prop :=
  Properties ts out rest ∨ ∃ c, c.kind = .comma ∧ Properties ts out (c :: rest)

/-- What may come of properties after a comma, or where there are none before: nothing, or more
properties. -/
def MoreProperties (ts : List Token) (out : List Tree) (rest : List Token) : Prop :=
  (ts = rest ∧ out = [] ∨ Closing ts out rest) ∧
    ∀ ts₀ out₀ c, c.kind = .comma → Properties ts₀ out₀ (c :: ts) →
      Closing ts₀ (out₀ ++ out) rest

/-- One property is a list of them. -/
theorem properties_single (h : Covers [.v .prop] ts out rest) : Properties ts out rest :=
  ⟨out, [], rest, (List.append_nil out).symm, h, grows_nil⟩

/-- A comma and a property go behind a list of properties. -/
theorem properties_snoc {c : Token} (h : Properties ts out (c :: mid)) (hc : c.kind = .comma)
    (h' : Covers [.v .prop] mid out' rest) : Properties ts (out ++ out') rest := by
  obtain ⟨out₁, out₂, mid', rfl, h₁, h₂⟩ := h
  have hitem : Covers [.t .comma, .v .prop] (c :: mid) out' rest := .mark hc rfl h'
  exact ⟨out₁, out₂ ++ out', mid', List.append_assoc .., h₁,
    grows_snoc h₂ hitem (by decide)⟩

/-- After a comma there may be nothing. -/
theorem moreProperties_nil : MoreProperties ts [] ts := by
  refine ⟨.inl ⟨rfl, rfl⟩, ?_⟩
  intro ts₀ out₀ c hc h
  rw [List.append_nil]
  exact .inr ⟨c, hc, h⟩

/-- After a comma there may be one property. -/
theorem moreProperties_last (h : Covers [.v .prop] ts out rest) : MoreProperties ts out rest := by
  refine ⟨.inr (.inl (properties_single h)), ?_⟩
  intro ts₀ out₀ c hc h₀
  exact .inl (properties_snoc h₀ hc h)

/-- After a comma there may be a property and a comma, and then the same again. -/
theorem moreProperties_cons {c : Token} (h : Covers [.v .prop] ts out (c :: mid))
    (hc : c.kind = .comma) (h' : MoreProperties mid out' rest) :
    MoreProperties ts (out ++ out') rest := by
  refine ⟨.inr (h'.2 ts out c hc (properties_single h)), ?_⟩
  intro ts₀ out₀ c₀ hc₀ h₀
  rw [← List.append_assoc]
  exact h'.2 ts₀ (out₀ ++ out) c hc (properties_snoc h₀ hc₀ h)

end Lists

/-! ## Phrases -/

/-- The variable for a level of operators. -/
def levelVariable : Level → Variable
  | .logical => .logical
  | .equality => .equality
  | .sum => .additive
  | .product => .multiplicative

/-- The variable for the operands of a level. -/
def operandVariable : Level → Variable
  | .logical => .equality
  | .equality => .additive
  | .sum => .multiplicative
  | .product => .power

/-- The form of node that a level makes. -/
def levelForm : Level → Form
  | .logical | .equality => .condition
  | .sum | .product => .binary

/-- How a phrase is covered by the grammar. What may be followed by the links of a chain has to
stand apart from them. -/
def Covered : Phrase → List Token → List Tree → List Token → Prop
  | .items, ts, out, rest => Grows .items ts out rest
  | .statement, ts, out, rest => Covers [.v .stmt] ts out rest
  | .conditional, ts, out, rest => Covers [.v .ifstmt] ts out rest
  | .block, ts, out, rest => Covers [.v .block] ts out rest
  | .params, ts, out, rest => Covers [.v .params] ts out rest
  | .moreParams, ts, out, rest => Grows .moreParams ts out rest ∧ ∀ t ∈ out, ∃ l, t = .leaf l
  | .expression, ts, out, rest => startsApart rest → Covers [.v .assign] ts out rest
  | .level ℓ, ts, out, rest => startsApart rest → Covers [.v (levelVariable ℓ)] ts out rest
  | .power, ts, out, rest => startsApart rest → Covers [.v .power] ts out rest
  | .chain, ts, out, rest => Covers [.v .chain] ts out rest
  | .primary, ts, out, rest => Covers [.v .primary] ts out rest
  | .arguments, ts, out, rest => startsApart rest → Listed ts out rest
  | .moreArguments, ts, out, rest => startsApart rest → Grows .moreExprs ts out rest
  | .properties, ts, out, rest => startsApart rest → MoreProperties ts out rest
  | .property, ts, out, rest => startsApart rest → Covers [.v .prop] ts out rest

/-- A token of a kind that is no link stands apart. -/
theorem startsApart_cons {t : Token} {k : Kind} {rest : List Token} (ht : t.kind = k)
    (hk : k ≠ .lpar ∧ k ≠ .lsqb) : startsApart (t :: rest) := by
  rintro u ⟨⟩
  rw [ht]
  exact hk

/-- An assignment is an expression. -/
theorem Covers.expr {ts rest : List Token} {out : List Tree}
    (h : Covers [.v .assign] ts out rest) : Covers [.v .expr] ts out rest :=
  h.splice (by decide)

section Phrases

variable {ts mid us rest : List Token} {e b c : Tree} {es : List Tree} {ℓ : Level}

/-- The operand of a level is covered where nothing can be linked to it. -/
theorem operand_covered {out : List Tree} (h : Covered ℓ.operand ts out rest)
    (hrest : startsApart rest) : Covers [.v (operandVariable ℓ)] ts out rest := by
  cases ℓ with
  | logical | equality | sum | product => exact h hrest

/-- An operand stands for its level. -/
theorem covers_operand (h : Covers [.v (operandVariable ℓ)] ts [e] rest) :
    Covers [.v (levelVariable ℓ)] ts [e] rest := by
  cases ℓ with
  | logical => exact h.splice (by decide)
  | equality => exact h.splice (by decide)
  | sum => exact h.splice (by decide)
  | product => exact h.splice (by decide)

/-- Each operator of a level is one of the grammar's for that level. -/
theorem join_rule {op : Token} (h : ℓ.isOperator op = true) :
    (⟨levelVariable ℓ, [.v (levelVariable ℓ), .t (terminalOf op.kind op.text),
      .v (operandVariable ℓ)], .node (levelForm ℓ)⟩ : Rule).Plain := by
  cases ℓ with
  | logical | equality | sum =>
    obtain ⟨hkind, htext⟩ := Syntax.of_isOneOf h
    simp only [List.mem_cons, List.not_mem_nil, or_false] at htext
    rw [hkind]
    rcases htext with htext | htext
    all_goals
      rw [htext]
      decide
  | product =>
    obtain ⟨hkind, htext⟩ := Syntax.of_isOneOf h
    simp only [List.mem_cons, List.not_mem_nil, or_false] at htext
    rw [hkind]
    rcases htext with htext | htext | htext
    all_goals
      rw [htext]
      decide

/-- Operators are parts of the tree. -/
theorem operator_isPart {kind : Kind} {text : String} (h : kind = .condop ∨ kind = .binop) :
    (terminalOf kind text).isPart = true := by
  have hall : ∀ a : Terminal, a.kind = .condop ∨ a.kind = .binop → a.isPart = true := by
    intro a ha
    cases a <;> first | rfl | exact absurd ha (by decide)
  refine hall _ ?_
  rw [terminalOf_kind]
  exact h

/-- An operator of the level joins an operand to what is on its left. -/
theorem covers_join {op : Token} (ha : Covers [.v (levelVariable ℓ)] ts [e] (op :: us))
    (hop : ℓ.isOperator op = true) (hb : Covers [.v (operandVariable ℓ)] us [b] rest) :
    Covers [.v (levelVariable ℓ)] ts [.node ℓ.label (some op.line) [e, .leaf op.leaf, b]]
      rest := by
  have hpart := @operator_isPart op.kind op.text (Syntax.isOperator_kind hop)
  have hbody := ha.append (Covers.part rfl hpart hb)
  refine hbody.node (join_rule hop) (makes_operation _ ?_)
  cases ℓ <;> exact fun _ _ _ => rfl

/-- A chain is raised to a power. -/
theorem covers_raise {op : Token} (ha : Covers [.v .chain] ts [e] (op :: us))
    (hop : Parser.isPower op = true) (hb : Covers [.v .power] us [b] rest) :
    Covers [.v .power] ts [.node .binary (some op.line) [e, .leaf op.leaf, b]] rest := by
  obtain ⟨hkind, htext⟩ := Syntax.of_isOneOf hop
  have hterminal : terminalOf op.kind op.text = .caret := by
    rw [hkind, List.mem_singleton.mp htext]
    decide
  have hop' : Covers [.t .caret, .v .power] (op :: us) [.leaf op.leaf, b] rest := by
    rw [← hterminal]
    exact .part rfl (operator_isPart (.inr hkind)) hb
  exact (ha.append hop').node (by decide) (makes_operation .binary fun _ _ _ => rfl)

/-- A declaration without a value has it absent. -/
theorem covers_bareDeclaration {word name semi : Token} (hw : word.kind = .letWord)
    (hn : name.kind = .ident) (hs : semi.kind = .semi) :
    Covers [.v .vardecl] (word :: name :: semi :: rest)
      [.node .vardecl (some word.line) [.leaf word.leaf, .leaf name.leaf, .absent]] rest := by
  have hbody : Covers [.t .letWord, .t .ident, .t .semicolon] (word :: name :: semi :: rest)
      [.leaf word.leaf, .leaf name.leaf] rest := .part hw rfl (.part hn rfl (.mark hs rfl .nil))
  exact hbody.node (by decide) makes_bareDeclaration

theorem covers_declaration {word name eq semi : Token}
    (hw : word.kind = .letWord ∨ word.kind = .constWord) (hn : name.kind = .ident)
    (heq : eq.kind = .equals) (he : Covers [.v .expr] ts [e] (semi :: rest))
    (hs : semi.kind = .semi) :
    Covers [.v .vardecl] (word :: name :: eq :: ts)
      [.node .vardecl (some word.line) [.leaf word.leaf, .leaf name.leaf, e]] rest := by
  have hend : Covers [.t .semicolon] (semi :: rest) [] rest := .mark hs rfl .nil
  have htail : Covers [.t .ident, .t .equal, .v .expr, .t .semicolon] (name :: eq :: ts)
      [.leaf name.leaf, e] rest := .part hn rfl (.mark heq rfl (he.append hend))
  rcases hw with hw | hw
  · have hbody : Covers [.t .letWord, .t .ident, .t .equal, .v .expr, .t .semicolon]
        (word :: name :: eq :: ts) [.leaf word.leaf, .leaf name.leaf, e] rest := .part hw rfl htail
    exact hbody.node (by decide) makes_initDeclaration
  · have hbody : Covers [.t .constWord, .t .ident, .t .equal, .v .expr, .t .semicolon]
        (word :: name :: eq :: ts) [.leaf word.leaf, .leaf name.leaf, e] rest := .part hw rfl htail
    exact hbody.node (by decide) makes_initDeclaration

/-- A function declaration is covered from the word for functions on. -/
theorem covers_function {word name : Token} (hw : word.kind = .funcWord) (hn : name.kind = .ident)
    (hps : Covers [.v .params] ts [e] mid) (hb : Covers [.v .block] mid [b] rest) :
    Covers [.v .fndecl] (word :: name :: ts)
      [.node .fndecl (some name.line) [.leaf name.leaf, e, b]] rest := by
  have hbody : Covers [.t .funcWord, .t .ident, .v .params, .v .block] (word :: name :: ts)
      [.leaf word.leaf, .leaf name.leaf, e, b] rest := .part hw rfl (.part hn rfl (hps.append hb))
  exact hbody.node (by decide) makes_functionDeclaration

/-- A conditional without an alternative has it absent. -/
theorem covers_ifOnly {word : Token} (hw : word.kind = .ifWord) (he : Covers [.v .expr] ts [e] mid)
    (hb : Covers [.v .block] mid [b] rest) :
    Covers [.v .ifstmt] (word :: ts) [.node .ifstmt (some word.line) [e, b, .absent]] rest := by
  have hbody : Covers [.t .ifWord, .v .expr, .v .block] (word :: ts) [.leaf word.leaf, e, b]
      rest := .part hw rfl (he.append hb)
  exact hbody.node (by decide) makes_ifOnly

/-- A conditional has a block for its alternative. -/
theorem covers_ifElse {word other : Token} (hw : word.kind = .ifWord)
    (he : Covers [.v .expr] ts [e] mid) (hb : Covers [.v .block] mid [b] (other :: us))
    (ho : other.kind = .elseWord) (hc : Covers [.v .block] us [c] rest) :
    Covers [.v .ifstmt] (word :: ts) [.node .ifstmt (some word.line) [e, b, c]] rest := by
  have helse : Covers [.t .elseWord, .v .block] (other :: us) [.leaf other.leaf, c] rest :=
    .part ho rfl hc
  have hbody : Covers [.t .ifWord, .v .expr, .v .block, .t .elseWord, .v .block] (word :: ts)
      [.leaf word.leaf, e, b, .leaf other.leaf, c] rest :=
    .part hw rfl (he.append (hb.append helse))
  exact hbody.node (by decide) makes_ifElse

/-- A conditional as an alternative is the only statement of a block. -/
theorem covers_ifElseIf {word other : Token} (hw : word.kind = .ifWord)
    (he : Covers [.v .expr] ts [e] mid) (hb : Covers [.v .block] mid [b] (other :: us))
    (ho : other.kind = .elseWord) (hc : Covers [.v .ifstmt] us [c] rest) :
    Covers [.v .ifstmt] (word :: ts)
      [.node .ifstmt (some word.line) [e, b, .node .body none [c]]] rest := by
  have helse : Covers [.t .elseWord, .v .ifstmt] (other :: us) [.leaf other.leaf, c] rest :=
    .part ho rfl hc
  have hbody : Covers [.t .ifWord, .v .expr, .v .block, .t .elseWord, .v .ifstmt] (word :: ts)
      [.leaf word.leaf, e, b, .leaf other.leaf, c] rest :=
    .part hw rfl (he.append (hb.append helse))
  exact hbody.node (by decide) makes_ifElseIf

/-- A list of items between braces is a block. -/
theorem covers_block {l r : Token} (hl : l.kind = .lbrace) (h : Grows .items ts es (r :: rest))
    (hr : r.kind = .rbrace) :
    Covers [.v .block] (l :: ts) [.node .body none es] rest := by
  have hend : Covers [.t .rbrace] (r :: rest) [] rest := .mark hr rfl .nil
  rcases h.1 with ⟨rfl, rfl⟩ | h
  · have hbody : Covers [.t .lbrace, .t .rbrace] (l :: r :: rest) [] rest := .mark hl rfl hend
    exact hbody.node (by decide) (makes_all .block fun _ => rfl)
  · have hall := h.append hend
    rw [List.append_nil] at hall
    have hbody : Covers [.t .lbrace, .v .items, .t .rbrace] (l :: ts) es rest := .mark hl rfl hall
    exact hbody.node (by decide) (makes_all .block fun _ => rfl)

theorem covers_noParams {l r : Token} (hl : l.kind = .lpar) (hr : r.kind = .rpar) :
    Covers [.v .params] (l :: r :: rest) [.node .params none []] rest := by
  have hbody : Covers [.t .lpar, .t .rpar] (l :: r :: rest) [] rest :=
    .mark hl rfl (.mark hr rfl .nil)
  exact hbody.node (by decide) (makes_params (by simp) (by simp))

/-- Names between parentheses are the parameters, unless one is repeated. -/
theorem covers_params {l p r : Token} (hl : l.kind = .lpar) (hp : p.kind = .ident)
    (h : Grows .moreParams ts es (r :: rest)) (hes : ∀ t ∈ es, ∃ l, t = .leaf l)
    (hr : r.kind = .rpar) (hd : ((Tree.leaf p.leaf :: es).map Tree.word).Nodup) :
    Covers [.v .params] (l :: p :: ts) [.node .params none (.leaf p.leaf :: es)] rest := by
  have hend : Covers [.t .rpar] (r :: rest) [] rest := .mark hr rfl .nil
  have hmakes : Makes .params (.leaf p.leaf :: es) (.node .params none (.leaf p.leaf :: es)) := by
    refine makes_params ?_ hd
    intro t ht
    rcases List.mem_cons.mp ht with rfl | ht
    · exact ⟨_, rfl⟩
    · exact hes t ht
  rcases h.1 with ⟨rfl, rfl⟩ | h
  · have hbody : Covers [.t .lpar, .t .ident, .t .rpar] (l :: p :: r :: rest) [.leaf p.leaf]
        rest := .mark hl rfl (.part hp rfl hend)
    exact hbody.node (by decide) hmakes
  · have hall := h.append hend
    rw [List.append_nil] at hall
    have hbody : Covers [.t .lpar, .t .ident, .v .moreParams, .t .rpar] (l :: p :: ts)
        (.leaf p.leaf :: es) rest := .mark hl rfl (.part hp rfl hall)
    exact hbody.node (by decide) hmakes

/-- A dot and a name go behind a chain. -/
theorem covers_field {dot name : Token} (he : Covers [.v .chain] ts [e] (dot :: name :: rest))
    (hd : dot.kind = .dot) (hn : name.kind = .ident) :
    Covers [.v .chain] ts [.node .field (some name.line) [e, .leaf name.leaf]] rest := by
  have hlink : Covers [.t .dot, .t .ident] (dot :: name :: rest) [.leaf name.leaf] rest :=
    .mark hd rfl (.part hn rfl .nil)
  exact (he.append hlink).node (by decide) (makes_pair .field fun _ _ => ⟨_, rfl⟩)

theorem covers_index {l r : Token} (he : Covers [.v .chain] ts [e] (l :: us))
    (hl : l.kind = .lsqb) (hk : Covers [.v .expr] us [b] (r :: rest)) (hr : r.kind = .rsqb) :
    Covers [.v .chain] ts [.node .index (some l.line) [e, b]] rest := by
  have hend : Covers [.t .rsqb] (r :: rest) [] rest := .mark hr rfl .nil
  have hlink : Covers [.t .lsqb, .v .expr, .t .rsqb] (l :: us) [b] rest :=
    .mark hl rfl (hk.append hend)
  exact (he.append hlink).node (by decide) (makes_pair .index fun _ _ => ⟨_, rfl⟩)

theorem covers_call {l r : Token} (he : Covers [.v .chain] ts [e] (l :: us)) (hl : l.kind = .lpar)
    (hes : Listed us es (r :: rest)) (hr : r.kind = .rpar) :
    Covers [.v .chain] ts [.node .call (some l.line) [e, .node .args none es]] rest := by
  have hend : Covers [.t .rpar] (r :: rest) [] rest := .mark hr rfl .nil
  -- arguments that are there make a node of their own
  have hargs : Covers [.v .arglist] us [.node .args none es] (r :: rest) →
      Covers [.v .chain] ts [.node .call (some l.line) [e, .node .args none es]] rest := by
    intro h
    have hlink : Covers [.t .lpar, .v .arglist, .t .rpar] (l :: us) [.node .args none es] rest :=
      .mark hl rfl (h.append hend)
    exact (he.append hlink).node (by decide) (makes_pair .call fun _ _ => ⟨_, rfl⟩)
  rcases hes with ⟨rfl, rfl⟩ | hes | hes
  · have hlink : Covers [.t .lpar, .t .rpar] (l :: r :: rest) [] rest := .mark hl rfl hend
    exact (he.append hlink).node (by decide) makes_call
  · exact hargs (hes.node (by decide) (makes_all .args fun _ => rfl))
  · exact hargs (hes.node (by decide) (makes_all .args fun _ => rfl))

/-- A literal or a name stands for itself. -/
theorem covers_atom {t : Token} (ht : Syntax.isAtom t) :
    Covers [.v .primary] (t :: rest) [.leaf t.leaf] rest := by
  rcases ht with ht | ht | ht
  · have hbody : Covers [.t .number] (t :: rest) [.leaf t.leaf] rest := .part ht rfl .nil
    exact hbody.splice (by decide)
  · have hbody : Covers [.t .string] (t :: rest) [.leaf t.leaf] rest := .part ht rfl .nil
    exact hbody.splice (by decide)
  · have hbody : Covers [.t .ident] (t :: rest) [.leaf t.leaf] rest := .part ht rfl .nil
    exact hbody.splice (by decide)

/-- Parentheses contribute nothing. -/
theorem covers_parenthesized {l r : Token} (hl : l.kind = .lpar)
    (he : Covers [.v .expr] ts [e] (r :: rest)) (hr : r.kind = .rpar) :
    Covers [.v .primary] (l :: ts) [e] rest := by
  have hend : Covers [.t .rpar] (r :: rest) [] rest := .mark hr rfl .nil
  have hbody : Covers [.t .lpar, .v .expr, .t .rpar] (l :: ts) [e] rest :=
    .mark hl rfl (he.append hend)
  exact hbody.splice (by decide)

/-- A list of expressions between brackets is an array. -/
theorem covers_array {l r : Token} (hl : l.kind = .lsqb) (h : Listed ts es (r :: rest))
    (hr : r.kind = .rsqb) :
    Covers [.v .primary] (l :: ts) [.node .array (some l.line) es] rest := by
  have hend : Covers [.t .rsqb] (r :: rest) [] rest := .mark hr rfl .nil
  have harray : Covers [.v .array] (l :: ts) [.node .array (some l.line) es] rest := by
    rcases h with ⟨rfl, rfl⟩ | h | h
    · have hbody : Covers [.t .lsqb, .t .rsqb] (l :: r :: rest) [] rest := .mark hl rfl hend
      exact hbody.node (by decide) (makes_all .array fun _ => rfl)
    · have hall := h.append hend
      rw [List.append_nil] at hall
      have hbody : Covers [.t .lsqb, .v .expr, .t .rsqb] (l :: ts) es rest := .mark hl rfl hall
      exact hbody.node (by decide) (makes_all .array fun _ => rfl)
    · have hall := h.append hend
      rw [List.append_nil] at hall
      have hbody : Covers [.t .lsqb, .v .expr, .v .moreExprs, .t .rsqb] (l :: ts) es rest :=
        .mark hl rfl hall
      exact hbody.node (by decide) (makes_all .array fun _ => rfl)
  exact harray.splice (by decide)

/-- What covers no tree goes behind a list of properties, which is one property or more. -/
theorem properties_append {ys : List Symbol} (h : Properties ts es mid)
    (h' : Covers ys mid [] rest) :
    Covers (.v .prop :: ys) ts es rest ∨ Covers (.v .prop :: .v .moreProps :: ys) ts es rest := by
  obtain ⟨out₁, out₂, mid', rfl, h₁, h₂⟩ := h
  rcases h₂.1 with ⟨rfl, rfl⟩ | h₂
  · have hall := h₁.append h'
    rw [List.append_nil] at hall ⊢
    exact .inl hall
  · have hall := h₁.append (h₂.append h')
    rw [List.append_nil] at hall
    exact .inr hall

/-- Properties between braces are an object, whether or not a comma comes last. -/
theorem covers_object {l r : Token} (hl : l.kind = .lbrace) (h : MoreProperties ts es (r :: rest))
    (hr : r.kind = .rbrace) :
    Covers [.v .primary] (l :: ts) [.node .object (some l.line) es] rest := by
  have hend : Covers [.t .rbrace] (r :: rest) [] rest := .mark hr rfl .nil
  have hobject : Covers [.v .object] (l :: ts) [.node .object (some l.line) es] rest := by
    rcases h.1 with ⟨rfl, rfl⟩ | h | ⟨c, hc, h⟩
    · have hbody : Covers [.t .lbrace, .t .rbrace] (l :: r :: rest) [] rest := .mark hl rfl hend
      exact hbody.node (by decide) (makes_all .object fun _ => rfl)
    · rcases properties_append h hend with h | h
      · have hbody : Covers [.t .lbrace, .v .prop, .t .rbrace] (l :: ts) es rest := .mark hl rfl h
        exact hbody.node (by decide) (makes_all .object fun _ => rfl)
      · have hbody : Covers [.t .lbrace, .v .prop, .v .moreProps, .t .rbrace] (l :: ts) es rest :=
          .mark hl rfl h
        exact hbody.node (by decide) (makes_all .object fun _ => rfl)
    · have hcomma : Covers [.t .comma, .t .rbrace] (c :: r :: rest) [] rest := .mark hc rfl hend
      rcases properties_append h hcomma with h | h
      · have hbody : Covers [.t .lbrace, .v .prop, .t .comma, .t .rbrace] (l :: ts) es rest :=
          .mark hl rfl h
        exact hbody.node (by decide) (makes_all .object fun _ => rfl)
      · have hbody : Covers [.t .lbrace, .v .prop, .v .moreProps, .t .comma, .t .rbrace]
            (l :: ts) es rest := .mark hl rfl h
        exact hbody.node (by decide) (makes_all .object fun _ => rfl)
  exact hobject.splice (by decide)

/-- A function literal has parameters and a block. -/
theorem covers_functionLiteral {word : Token} (hw : word.kind = .funcWord)
    (hps : Covers [.v .params] ts [e] mid) (hb : Covers [.v .block] mid [b] rest) :
    Covers [.v .primary] (word :: ts) [.node .fnliteral (some word.line) [e, b]] rest := by
  have hbody : Covers [.t .funcWord, .v .params, .v .block] (word :: ts) [.leaf word.leaf, e, b]
      rest := .part hw rfl (hps.append hb)
  have hliteral : Covers [.v .fnliteral] (word :: ts)
      [.node .fnliteral (some word.line) [e, b]] rest :=
    hbody.node (by decide) makes_functionLiteral
  exact hliteral.splice (by decide)

/-- A property has a key and a value. -/
theorem covers_property {key colon : Token} (hk : key.kind = .ident) (hc : colon.kind = .colon)
    (he : Covers [.v .expr] ts [e] rest) :
    Covers [.v .prop] (key :: colon :: ts) [.node .prop (some key.line) [.leaf key.leaf, e]]
      rest := by
  have hbody : Covers [.t .ident, .t .colon, .v .expr] (key :: colon :: ts) [.leaf key.leaf, e]
      rest := .part hk rfl (.mark hc rfl he)
  exact hbody.node (by decide) (makes_pair .prop fun _ _ => ⟨_, rfl⟩)

/-- What comes before more arguments stands apart from what comes after them. -/
theorem startsApart_moreArguments (h : Derives .moreArguments mid es rest)
    (hrest : startsApart rest) : startsApart mid := by
  cases h with
  | noMoreArguments => exact hrest
  | moreArguments hc _ _ => exact startsApart_cons hc (by decide)

/-- No block is linked to what is before it. -/
theorem startsApart_block (h : Derives .block mid [b] rest) : startsApart mid := by
  obtain ⟨t, us, rfl, ht⟩ := Syntax.derives_starts h id
  exact startsApart_cons ht (by decide)

end Phrases

/-- Every phrase is covered by the grammar. -/
theorem derives_covered {φ : Phrase} {ts rest : List Token} {out : List Tree}
    (h : Derives φ ts out rest) : Covered φ ts out rest := by
  -- one case for each rule for phrases; where a part is an expression, what follows it stands apart
  induction h with
  | noItems => exact grows_nil
  | @semicolon t ts rest ss ht _ ih =>
    have hmark : Covers [.t .semicolon] (t :: ts) [] ts := .mark ht rfl .nil
    have hitem : Covers [.v .item] (t :: ts) [] ts := hmark.splice (by decide)
    exact grows_cons hitem ih (by decide)
  | @item ts mid _ s _ _ _ ihs ih =>
    have hitem : Covers [.v .item] ts [s] mid := Covers.splice ihs (by decide)
    exact grows_cons hitem ih (by decide)
  | @expressionItem ts mid _ e _ _ hmid _ ihe ih =>
    have hstmt : Covers [.v .stmt] ts [e] mid := (Covers.expr (ihe hmid)).splice (by decide)
    have hitem : Covers [.v .item] ts [e] mid := hstmt.splice (by decide)
    exact grows_cons hitem ih (by decide)
  | bareDeclaration hw hn hs => exact (covers_bareDeclaration hw hn hs).splice (by decide)
  | declaration hw hn heq _ hs ih =>
    have he := Covers.expr (ih (startsApart_cons hs (by decide)))
    exact (covers_declaration hw hn heq he hs).splice (by decide)
  | function hw hn _ _ ihps ihb => exact (covers_function hw hn ihps ihb).splice (by decide)
  | conditional _ ih => exact Covers.splice ih (by decide)
  | ifOnly hw _ hb ihe ihb =>
    exact covers_ifOnly hw (Covers.expr (ihe (startsApart_block hb))) ihb
  | ifElse hw _ hb ho _ ihe ihb ihc =>
    exact covers_ifElse hw (Covers.expr (ihe (startsApart_block hb))) ihb ho ihc
  | ifElseIf hw _ hb ho _ ihe ihb ihc =>
    exact covers_ifElseIf hw (Covers.expr (ihe (startsApart_block hb))) ihb ho ihc
  | block hl _ hr ih => exact covers_block hl ih hr
  | noParams hl hr => exact covers_noParams hl hr
  | params hl hp _ hr hd ih => exact covers_params hl hp ih.1 ih.2 hr hd
  | noMoreParams => exact ⟨grows_nil, by simp⟩
  | @moreParams c p ts rest ps hc hp _ ih =>
    have hitem : Covers [.t .comma, .t .ident] (c :: p :: ts) [.leaf p.leaf] ts :=
      .mark hc rfl (.part hp rfl .nil)
    refine ⟨grows_cons hitem ih.1 (by decide), ?_⟩
    intro t ht
    rcases List.mem_cons.mp ht with rfl | ht
    · exact ⟨_, rfl⟩
    · exact ih.2 t ht
  | value _ ih => exact fun hrest => (ih hrest).splice (by decide)
  | @assignment eq ts us rest target e _ heq hn _ iht ihe =>
    intro hrest
    have hvalue : Covers [.t .equal, .v .assign] (eq :: us) [e] rest := .mark heq rfl (ihe hrest)
    have hbody := (iht (startsApart_cons heq (by decide))).append hvalue
    exact hbody.node (by decide) (makes_assignment hn)
  | operand _ ih => exact fun hrest => covers_operand (operand_covered ih hrest)
  | join _ hop _ iha ihb =>
    intro hrest
    rcases Syntax.isOperator_kind hop with hk | hk
    · exact covers_join (iha (startsApart_cons hk (by decide))) hop (operand_covered ihb hrest)
    · exact covers_join (iha (startsApart_cons hk (by decide))) hop (operand_covered ihb hrest)
  | base _ ih => exact fun hrest => ih.base hrest
  | raise _ hop _ iha ihb => exact fun hrest => covers_raise iha hop (ihb hrest)
  | primary _ ih => exact Covers.splice ih (by decide)
  | field _ hd hn ih => exact covers_field ih hd hn
  | index _ hl _ hr ihe ihk =>
    exact covers_index ihe hl (Covers.expr (ihk (startsApart_cons hr (by decide)))) hr
  | call _ hl _ hr ihe ihes => exact covers_call ihe hl (ihes (startsApart_cons hr (by decide))) hr
  | noArguments => exact fun _ => .inl ⟨rfl, rfl⟩
  | arguments _ h ihe ih =>
    intro hrest
    exact listed_cons (Covers.expr (ihe (startsApart_moreArguments h hrest))) (ih hrest)
  | noMoreArguments => exact fun _ => grows_nil
  | @moreArguments c ts mid rest e es hc _ h ihe ih =>
    intro hrest
    have hitem : Covers [.t .comma, .v .expr] (c :: ts) [e] mid :=
      .mark hc rfl (Covers.expr (ihe (startsApart_moreArguments h hrest)))
    exact grows_cons hitem (ih hrest) (by decide)
  | atom ht => exact covers_atom ht
  | parenthesized hl _ hr ih =>
    exact covers_parenthesized hl (Covers.expr (ih (startsApart_cons hr (by decide)))) hr
  | object hl _ hr ih => exact covers_object hl (ih (startsApart_cons hr (by decide))) hr
  | array hl _ hr ih => exact covers_array hl (ih (startsApart_cons hr (by decide))) hr
  | functionLiteral hw _ _ ihps ihb => exact covers_functionLiteral hw ihps ihb
  | noProperties => exact fun _ => moreProperties_nil
  | lastProperty _ ih => exact fun hrest => moreProperties_last (ih hrest)
  | properties _ hc _ ihp ih =>
    exact fun hrest => moreProperties_cons (ihp (startsApart_cons hc (by decide))) hc (ih hrest)
  | @shorthand key rest hk =>
    intro _
    have hbody : Covers [.t .ident] (key :: rest) [.leaf key.leaf] rest := .part hk rfl .nil
    exact hbody.node (by decide) makes_shorthand
  | property hk hc _ ih => exact fun hrest => covers_property hk hc (Covers.expr (ih hrest))

/-! ## Agreement -/

section Programs

variable {t : Lalr.Table} {first : Variable → Lalr.Bits} {follow : Nat → Variable → Lalr.Bits}

/-- The lexemes of a program are taken, and what the parser finishes with becomes its tree. -/
theorem program_taken (hc : Certified t first follow) {ts : List Token} {ls : List Lexeme}
    {tree : Tree} (hls : List.Forall₂ Lexes ts ls) (hp : Syntax.IsProgram ts tree) :
    ∃ p u le, Takes t .initial ls u [le] ∧ (∀ last, u.finish t last = .ok p) ∧ Lowers p tree := by
  obtain ⟨ss, e, he, hitems, rfl⟩ := hp
  rcases (derives_covered hitems).1 with ⟨rfl, rfl⟩ | hcovers
  -- no items at all are not a list of the grammar, but a rule of their own
  · obtain ⟨le, _, -, hnil, rfl⟩ := List.forall₂_cons_left_iff.mp hls
    cases hnil
    exact ⟨_, .initial, le, .refl _ _, empty_finishes hc,
      lowers_node .nil (makes_all .program fun _ => rfl)⟩
  · have hstart : Covers [.v .start] ts [.node .program none ss] [e] :=
      hcovers.node (by decide) (makes_all .program fun _ => rfl)
    obtain ⟨lrest, ps, hlrest, hps, hyields⟩ := hstart ls hls
    obtain ⟨le, _, hle, hnil, rfl⟩ := List.forall₂_cons_left_iff.mp hlrest
    cases hnil
    obtain ⟨p, _, hlowers, hnone, rfl⟩ := List.forall₂_cons_right_iff.mp hps
    cases hnone
    have hfinish : le.terminal = .finish := by rw [hle.terminal, he]; rfl
    obtain ⟨u, htakes, hu⟩ := program_finishes hc hyields hfinish
    exact ⟨p, u, le, htakes, hu, hlowers⟩

/-- The tokens of a program are parsed, and the parse becomes its tree. -/
theorem program_parsed (hc : Certified t first follow) {cs : List Char} {ts : List Token}
    {tree : Tree} (hts : Scan.tokensFrom .start cs = .ok ts) (hp : Syntax.IsProgram ts tree) :
    ∃ p, parseFrom t (cs.length + 1) .initial .start .start cs = .ok p ∧ Lowers p tree := by
  obtain ⟨ls, hls, hparse⟩ := @tokens_parse t _ _ _ hts
  obtain ⟨p, u, le, htakes, hu, hlowers⟩ := program_taken hc hls hp
  obtain ⟨last, hlast⟩ := hparse .initial u le (cs.length + 1) .start htakes (Nat.lt_succ_self _)
  exact ⟨p, by rw [hlast, hu last], hlowers⟩

end Programs

/-- A program text that has a tree by descent has a parse by the grammar that becomes that tree. -/
theorem parse_lowers {source : String} {limit : Nat} {ts : List Token} {t : Tree}
    (hts : tokenize source = .ok ts) (ht : parseTokens limit ts = .ok t) :
    ∃ p, parse source = .ok p ∧ Lowers p t := by
  obtain ⟨first, follow, hc⟩ := certified
  exact program_parsed hc hts (Syntax.program_reads ht (tokenize_endsOnce hts))

/-- What has a parse has the tree of the parse, or is too deep. -/
theorem parseTree_lowers {source : String} {p : Parse} {t : Tree} (hp : parse source = .ok p)
    (hlowers : Lowers p t) (limit : Nat) :
    (p.height ≤ nodesWithin limit → ∃ t', parseTree limit source = .ok t' ∧ t'.bare = t.bare) ∧
      (nodesWithin limit < p.height → parseTree limit source = .error (.build .tooDeep)) := by
  unfold parseTree
  rw [hp]
  refine ⟨?_, ?_⟩
  · intro hheight
    obtain ⟨t', ht', hbare⟩ := hlowers.within (nodesWithin limit) hheight
    exact ⟨t', by simp only [ht'], hbare⟩
  · intro hheight
    simp only [hlowers.beyond (nodesWithin limit) hheight]

/-- A program text that has a tree by descent, within whatever limit, is parsed by the grammar. Its
parse becomes the same tree, but for the lines of inner nodes, within every budget that is as large
as it nests, and is too deep for any other; so for the budget that any limit comes to. -/
theorem parsers_agree (source : String) (limit : Nat) (ts : List Token) (t : Tree)
    (hts : tokenize source = .ok ts) (ht : parseTokens limit ts = .ok t) :
    ∃ p, parse source = .ok p ∧
      (∀ n, p.height ≤ n → ∃ t', build n p = .ok t' ∧ t'.bare = t.bare) ∧
      (∀ n, n < p.height → build n p = .error .tooDeep) ∧
      ∀ limit', (p.height ≤ nodesWithin limit' →
          ∃ t', parseTree limit' source = .ok t' ∧ t'.bare = t.bare) ∧
        (nodesWithin limit' < p.height → parseTree limit' source = .error (.build .tooDeep)) := by
  obtain ⟨p, hp, hlowers⟩ := parse_lowers hts ht
  exact ⟨p, hp, hlowers.within, hlowers.beyond, parseTree_lowers hp hlowers⟩

/-- For instance both parsers read `x = 1`. -/
theorem parsers_agree_assignment :
    ∃ ts t p, tokenize "x = 1" = .ok ts ∧ parseTokens 1000 ts = .ok t ∧ parse "x = 1" = .ok p ∧
      ∃ t', build p.height p = .ok t' ∧ t'.bare = t.bare := by
  have hts : tokenize "x = 1" = .ok [⟨.ident, "x", 1, 1⟩, ⟨.equals, "=", 1, 3⟩,
      ⟨.number, "1", 1, 5⟩, ⟨.eof, "", 1, 6⟩] := by with_unfolding_all rfl
  obtain ⟨p, hp, hwithin, -⟩ := parsers_agree "x = 1" 1000 _ _ hts rfl
  exact ⟨_, _, p, hts, rfl, hp, hwithin _ (Nat.le_refl _)⟩

end Avii.Grammar
