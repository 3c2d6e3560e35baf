import Avii.Proofs.Syntax.Shape

/-!
# The lines in derived trees

A derived tree takes its lines from the tokens that it is derived from. Every leaf and every node
has one, but for programs, blocks and lists, whose items then have lines of their own (`Placed`).
So a tree has no line only where there is nothing in it (`Placed.cases`).
-/

namespace Avii.Syntax

/-- The nodes that only hold items, and have no line of their own. -/
def isList (label : Label) : Prop :=
  label = .program ∨ label = .body ∨ label = .params ∨ label = .args

/-- The lines in a tree are of a kind, and only programs, blocks and lists have none. -/
inductive Placed (lines : Int → Prop) : Tree → Prop where
  | absent : Placed lines .absent
  | leaf {l : Leaf} {n : Int} (h : l.line = some n) (hn : lines n) : Placed lines (.leaf l)
  | node {label : Label} {n : Int} {cs : List Tree} (hn : lines n)
      (hcs : ∀ c ∈ cs, Placed lines c) : Placed lines (.node label (some n) cs)
  | list {label : Label} {cs : List Tree} (hlabel : isList label)
      (hcs : ∀ c ∈ cs, Placed lines c) (hlines : ∀ c ∈ cs, c.sourceLine.isSome = true) :
      Placed lines (.node label none cs)

variable {lines : Int → Prop}

theorem Placed.child {label : Label} {line : Option Int} {cs : List Tree} {c : Tree}
    (h : Placed lines (.node label line cs)) (hc : c ∈ cs) : Placed lines c := by
  cases h with
  | node _ hcs => exact hcs c hc
  | list _ hcs _ => exact hcs c hc

/-- The line of a placed tree is of the kind. A tree without a line is not there, or is a list
without items. -/
theorem Placed.cases {t : Tree} (h : Placed lines t) :
    (∃ n, t.sourceLine = some n ∧ lines n) ∨ t = .absent ∨
      ∃ label, isList label ∧ t = .node label none [] := by
  induction h with
  | absent => exact .inr (.inl rfl)
  | leaf h hn => exact .inl ⟨_, h, hn⟩
  | node hn => exact .inl ⟨_, rfl, hn⟩
  | @list label cs hlabel hcs hlines ih =>
    cases cs with
    | nil => exact .inr (.inr ⟨label, hlabel, rfl⟩)
    | cons c cs =>
      left
      obtain ⟨n, hn⟩ := Option.isSome_iff_exists.mp (hlines c (List.mem_cons_self ..))
      refine ⟨n, by simp [Tree.sourceLine, Tree.firstLine, hn], ?_⟩
      -- the list has the line of its first item
      rcases ih c (List.mem_cons_self ..) with ⟨k, hk, hlk⟩ | rfl | ⟨_, _, rfl⟩
      · cases hn.symm.trans hk
        exact hlk
      · cases hn
      · cases hn

/-! ## Pieces -/

/-- The leaf of a token has the line of the token. -/
theorem placed_token {t : Token} (h : lines t.line) : Placed lines (.leaf t.leaf) :=
  .leaf rfl h

/-- A node with a line and two children. -/
theorem Placed.two {label : Label} {n : Int} {a b : Tree} (hn : lines n) (ha : Placed lines a)
    (hb : Placed lines b) : Placed lines (.node label (some n) [a, b]) :=
  .node hn (by simp [ha, hb])

/-- A node with a line and three children. -/
theorem Placed.three {label : Label} {n : Int} {a b c : Tree} (hn : lines n)
    (ha : Placed lines a) (hb : Placed lines b) (hc : Placed lines c) :
    Placed lines (.node label (some n) [a, b, c]) :=
  .node hn (by simp [ha, hb, hc])

/-- An operation has the line of its operator. -/
theorem placed_operation {label : Label} {op : Token} {a b : Tree} (hop : lines op.line)
    (ha : Placed lines a) (hb : Placed lines b) :
    Placed lines (.node label (some op.line) [a, .leaf op.leaf, b]) :=
  .three hop ha (placed_token hop) hb

/-- The trees of a phrase have lines of their own, so they can be in a list. -/
theorem placed_list {label : Label} {φ : Phrase} {ts rest : List Token} {cs : List Tree}
    (hlabel : isList label) (h : Derives φ ts cs rest) (hcs : ∀ c ∈ cs, Placed lines c)
    (hblock : φ ≠ .block := by simp) (hparams : φ ≠ .params := by simp) :
    Placed lines (.node label none cs) :=
  .list hlabel hcs (derives_lines h hblock hparams)

/-- A list of parameters, the first of them apart from those after a comma. -/
theorem placed_params {p : Token} {ts rest : List Token} {ps : List Tree} (hp : lines p.line)
    (h : Derives .moreParams ts ps rest) (hps : ∀ c ∈ ps, Placed lines c) :
    Placed lines (.node .params none (.leaf p.leaf :: ps)) := by
  refine .list (.inr (.inr (.inl rfl))) ?_ ?_
  · exact List.forall_mem_cons.mpr ⟨placed_token hp, hps⟩
  · exact List.forall_mem_cons.mpr ⟨rfl, derives_lines h (by simp) (by simp)⟩

/-- The body that an `else if` stands for has the line of the nested conditional. -/
theorem placed_nested {ts rest : List Token} {s : Tree} (h : Derives .conditional ts [s] rest)
    (hs : ∀ c ∈ [s], Placed lines c) : Placed lines (.node .body none [s]) :=
  placed_list (.inr (.inl rfl)) h hs

/-! ## Tokens with lines -/

/-- The tokens of a list have lines of a kind, but for its end. -/
def Lined (lines : Int → Prop) (ts : List Token) : Prop :=
  ∀ t ∈ ts, t.kind ≠ .eof → lines t.line

section Lined

variable {t : Token} {ts rest : List Token}

theorem Lined.first {k : Kind} (h : Lined lines (t :: ts)) (ht : t.kind = k)
    (hk : k ≠ .eof := by decide) : lines t.line :=
  h t (List.mem_cons_self ..) (by rwa [ht])

/-- The operators of a level have lines. -/
theorem Lined.operator {ℓ : Level} (h : Lined lines (t :: ts)) (ht : ℓ.isOperator t = true) :
    lines t.line := by
  rcases isOperator_kind ht with hk | hk
  · exact h.first hk
  · exact h.first hk

theorem Lined.tail (h : Lined lines (t :: ts)) : Lined lines ts :=
  (List.forall_mem_cons.mp h).2

/-- The tokens after a phrase are among those that it is derived from. -/
theorem Lined.after {φ : Phrase} {out : List Tree} (h : Lined lines ts)
    (hd : Derives φ ts out rest) : Lined lines rest := by
  obtain ⟨w, rfl, -⟩ := derives_leads hd
  exact fun t ht => h t (List.mem_append_right w ht)

end Lined

/-! ## Derived trees -/

/-- A tree as the only one of its phrase. -/
theorem placed_one {t : Tree} (h : Placed lines t) : ∀ c ∈ [t], Placed lines c :=
  List.forall_mem_singleton.mpr h

/-- The only tree of a phrase. -/
theorem placed_only {t : Tree} (h : ∀ c ∈ [t], Placed lines c) : Placed lines t :=
  List.forall_mem_singleton.mp h

/-- What is derived has its lines from the tokens that it is derived from. -/
theorem derives_placed {φ : Phrase} {ts rest : List Token} {out : List Tree}
    (h : Derives φ ts out rest) (hts : Lined lines ts) : ∀ t ∈ out, Placed lines t := by
  -- in each case the tokens are taken apart from the front; where one phrase follows another, its
  -- tokens are the rest of those of the first
  induction h with
  | noItems | noMoreParams | noArguments | noMoreArguments | noProperties => simp
  | conditional _ ih | value _ ih | base _ ih | primary _ ih | lastProperty _ ih
  | operand _ ih => exact ih hts
  | semicolon _ _ ih | parenthesized _ _ _ ih => exact ih hts.tail
  | item hs _ ihs ih | expressionItem hs _ _ ihs ih | arguments hs _ ihs ih =>
    exact List.forall_mem_cons.mpr ⟨placed_only (ihs hts), ih (hts.after hs)⟩
  | properties hp _ _ ihp ih =>
    exact List.forall_mem_cons.mpr ⟨placed_only (ihp hts), ih (hts.after hp).tail⟩
  | moreArguments _ he _ ihe ih =>
    exact List.forall_mem_cons.mpr ⟨placed_only (ihe hts.tail), ih (hts.tail.after he)⟩
  | bareDeclaration hw hn _ =>
    have hword := hts.first hw
    have hname := hts.tail.first hn
    exact placed_one (.three hword (placed_token hword) (placed_token hname) .absent)
  | declaration hw hn _ _ _ ih =>
    have hword := hw.elim (hts.first ·) (hts.first ·)
    have hname := hts.tail.first hn
    have hinit := placed_only (ih hts.tail.tail.tail)
    exact placed_one (.three hword (placed_token hword) (placed_token hname) hinit)
  | function _ hn hps _ ihps ihb =>
    have hname := hts.tail.first hn
    have hparams := placed_only (ihps hts.tail.tail)
    have hbody := placed_only (ihb (hts.tail.tail.after hps))
    exact placed_one (.three hname (placed_token hname) hparams hbody)
  | ifOnly hw he _ ihe ihb =>
    have htest := placed_only (ihe hts.tail)
    have hbody := placed_only (ihb (hts.tail.after he))
    exact placed_one (.three (hts.first hw) htest hbody .absent)
  | ifElse hw he hb _ _ ihe ihb ihc =>
    have hmid := hts.tail.after he
    have hother := placed_only (ihc (hmid.after hb).tail)
    exact placed_one (.three (hts.first hw) (placed_only (ihe hts.tail)) (placed_only (ihb hmid))
      hother)
  | ifElseIf hw he hb _ hc ihe ihb ihc =>
    have hmid := hts.tail.after he
    have hother := placed_nested hc (ihc (hmid.after hb).tail)
    exact placed_one (.three (hts.first hw) (placed_only (ihe hts.tail)) (placed_only (ihb hmid))
      hother)
  | block _ hb _ ih => exact placed_one (placed_list (.inr (.inl rfl)) hb (ih hts.tail))
  | noParams => exact placed_one (.list (.inr (.inr (.inl rfl))) (by simp) (by simp))
  | params _ hp hps _ _ ih =>
    exact placed_one (placed_params (hts.tail.first hp) hps (ih hts.tail.tail))
  | moreParams _ hp _ ih =>
    exact List.forall_mem_cons.mpr ⟨placed_token (hts.tail.first hp), ih hts.tail.tail⟩
  | assignment ht heq _ _ iht ihe =>
    have hrest := hts.after ht
    exact placed_one (.two (hrest.first heq) (placed_only (iht hts)) (placed_only (ihe hrest.tail)))
  | join ha hop _ iha ihb =>
    have hrest := hts.after ha
    exact placed_one (placed_operation (hrest.operator hop) (placed_only (iha hts))
      (placed_only (ihb hrest.tail)))
  | raise ha hop _ iha ihb =>
    have hrest := hts.after ha
    exact placed_one (placed_operation (hrest.first (kind_of_isOneOf hop)) (placed_only (iha hts))
      (placed_only (ihb hrest.tail)))
  | field he _ hn ih =>
    have hname := (hts.after he).tail.first hn
    exact placed_one (.two hname (placed_only (ih hts)) (placed_token hname))
  | index he hl _ _ ihe ihk =>
    have hrest := hts.after he
    exact placed_one (.two (hrest.first hl) (placed_only (ihe hts)) (placed_only (ihk hrest.tail)))
  | call he hl hes _ ihe ihes =>
    have hrest := hts.after he
    have hargs := placed_list (.inr (.inr (.inr rfl))) hes (ihes hrest.tail)
    exact placed_one (.two (hrest.first hl) (placed_only (ihe hts)) hargs)
  | atom ht =>
    have hline := ht.elim (hts.first ·) (·.elim (hts.first ·) (hts.first ·))
    exact placed_one (placed_token hline)
  | object hl _ _ ih | array hl _ _ ih => exact placed_one (.node (hts.first hl) (ih hts.tail))
  | functionLiteral hw hps _ ihps ihb =>
    have hbody := placed_only (ihb (hts.tail.after hps))
    exact placed_one (.two (hts.first hw) (placed_only (ihps hts.tail)) hbody)
  | shorthand hk =>
    exact placed_one (.two (hts.first hk) (placed_token (hts.first hk)) .absent)
  | property hk _ _ ih =>
    have hvalue := placed_only (ih hts.tail.tail)
    exact placed_one (.two (hts.first hk) (placed_token (hts.first hk)) hvalue)

/-- The tree of a program has its lines from the tokens before the end. -/
theorem program_placed {ts : List Token} {t : Tree} (h : IsProgram ts t) :
    Placed (fun n => ∃ tok ∈ ts, tok.kind ≠ .eof ∧ tok.line = n) t := by
  obtain ⟨ss, e, -, hd, rfl⟩ := h
  exact placed_list (.inl rfl) hd (derives_placed hd fun tok htok hk => ⟨tok, htok, hk, rfl⟩)

end Avii.Syntax
