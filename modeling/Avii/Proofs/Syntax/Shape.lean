import Avii.Proofs.Syntax.Derivation

/-!
# The shape of derived trees

Every node of a derived tree has the children that its label calls for: as many, of the labels and
kinds, and with the texts, that evaluation relies on (`Shape`, `Shaped`). The names of one list of
parameters differ, and the operators are those there are.
-/

namespace Avii.Syntax

open Avii.Parser (isLogical isEquality isSum isProduct isPower isName)

/-! ## Shapes -/

/-- A tree that can be evaluated: a literal, a name, or a node that is a construct of its own. -/
def Evaluable : Tree → Prop
  | .absent => False
  | .leaf l => l.kind = .number ∨ l.kind = .string ∨ l.kind = .ident
  | .node label _ _ =>
    label ≠ .prop ∧ label ≠ .params ∧ label ≠ .args ∧ ∀ name, label ≠ .other name

/-- An optional child: not there, or one that can be evaluated. -/
def Optional (t : Tree) : Prop :=
  t = .absent ∨ Evaluable t

/-- A leaf that is a name. -/
def IsName (t : Tree) : Prop :=
  ∃ l, t = .leaf l ∧ l.kind = .ident

/-- A node with a given label. -/
def Labelled (label : Label) (t : Tree) : Prop :=
  ∃ line cs, t = .node label line cs

/-- A property of an object: a name, and perhaps a value. -/
def IsProperty (t : Tree) : Prop :=
  ∃ line key value, t = .node .prop line [key, value] ∧ IsName key ∧ Optional value

/-- The signs of arithmetic. -/
def arithmeticSigns : List String := ["+", "-", "*", "/", "%", "^"]

/-- The signs of conditions. -/
def conditionSigns : List String := ["and", "or", "==", "!="]

/-- The children of a node are those that its label calls for. -/
def Shape : Label → List Tree → Prop
  | .program, cs | .body, cs | .array, cs | .args, cs => ∀ c ∈ cs, Evaluable c
  | .vardecl, cs => ∃ keyword name init, cs = [keyword, name, init] ∧ IsName name ∧ Optional init
  | .fndecl, cs =>
    ∃ name ps b, cs = [name, ps, b] ∧ IsName name ∧ Labelled .params ps ∧ Labelled .body b
  | .ifstmt, cs =>
    ∃ test b c, cs = [test, b, c] ∧ Evaluable test ∧ Labelled .body b ∧
      (c = .absent ∨ Labelled .body c)
  | .binary, cs =>
    ∃ a op b, cs = [a, .leaf op, b] ∧ Evaluable a ∧ op.text ∈ arithmeticSigns ∧ Evaluable b
  | .condition, cs =>
    ∃ a op b, cs = [a, .leaf op, b] ∧ Evaluable a ∧ op.text ∈ conditionSigns ∧ Evaluable b
  | .assign, cs => ∃ name value, cs = [name, value] ∧ IsName name ∧ Evaluable value
  | .object, cs => ∀ c ∈ cs, IsProperty c
  | .prop, cs => ∃ key value, cs = [key, value] ∧ IsName key ∧ Optional value
  | .field, cs => ∃ target name, cs = [target, name] ∧ Evaluable target ∧ IsName name
  | .index, cs => ∃ target key, cs = [target, key] ∧ Evaluable target ∧ Evaluable key
  | .call, cs => ∃ callee as, cs = [callee, as] ∧ Evaluable callee ∧ Labelled .args as
  | .fnliteral, cs => ∃ ps b, cs = [ps, b] ∧ Labelled .params ps ∧ Labelled .body b
  | .params, cs => (∀ c ∈ cs, IsName c) ∧ (cs.map Tree.word).Nodup
  | .other _, _ => False

/-- Every node of a tree has the children that its label calls for. -/
inductive Shaped : Tree → Prop where
  | absent : Shaped .absent
  | leaf (l : Leaf) : Shaped (.leaf l)
  | node {label : Label} {line : Option Int} {cs : List Tree} (h : Shape label cs)
      (hcs : ∀ c ∈ cs, Shaped c) : Shaped (.node label line cs)

/-- What the trees of a phrase are like. -/
def Phrase.makes : Phrase → List Tree → Prop
  | .block, out => ∀ t ∈ out, Labelled .body t
  | .params, out => ∀ t ∈ out, Labelled .params t
  | .moreParams, out => ∀ t ∈ out, IsName t
  | .properties, out | .property, out => ∀ t ∈ out, IsProperty t
  | _, out => ∀ t ∈ out, Evaluable t

/-! ## Derived trees -/

theorem isName_token {t : Token} (h : t.kind = .ident) : IsName (.leaf t.leaf) :=
  ⟨t.leaf, rfl, by simp [Token.leaf, h, LeafKind.ofKind]⟩

theorem isName_target {t : Tree} (h : isName t = true) : IsName t := by
  cases t with
  | leaf l => exact ⟨l, rfl, by simpa [isName] using h⟩
  | absent | node => simp [isName] at h

theorem evaluable_atom {t : Token} (h : isAtom t) : Evaluable (.leaf t.leaf) := by
  rcases h with h | h | h <;> simp [Evaluable, Token.leaf, h, LeafKind.ofKind]

theorem IsName.shaped {t : Tree} (h : IsName t) : Shaped t := by
  obtain ⟨l, rfl, -⟩ := h
  exact .leaf l

/-- An operator of a level makes a node of its label with a sign that this label has. -/
theorem shape_join {ℓ : Level} {op : Token} {a b : Tree} (hop : ℓ.isOperator op = true)
    (ha : Evaluable a) (hb : Evaluable b) : Shape ℓ.label [a, .leaf op.leaf, b] := by
  cases ℓ with
  | logical | equality =>
    refine ⟨a, op.leaf, b, rfl, ha, ?_, hb⟩
    have ht := (of_isOneOf hop).2
    simp only [List.mem_cons, List.not_mem_nil, or_false] at ht
    rcases ht with ht | ht <;> simp [Token.leaf, conditionSigns, ht]
  | sum =>
    refine ⟨a, op.leaf, b, rfl, ha, ?_, hb⟩
    have ht := (of_isOneOf hop).2
    simp only [List.mem_cons, List.not_mem_nil, or_false] at ht
    rcases ht with ht | ht <;> simp [Token.leaf, arithmeticSigns, ht]
  | product =>
    refine ⟨a, op.leaf, b, rfl, ha, ?_, hb⟩
    have ht := (of_isOneOf hop).2
    simp only [List.mem_cons, List.not_mem_nil, or_false] at ht
    rcases ht with ht | ht | ht <;> simp [Token.leaf, arithmeticSigns, ht]

theorem shape_raise {op : Token} {a b : Tree} (hop : isPower op = true) (ha : Evaluable a)
    (hb : Evaluable b) : Shape .binary [a, .leaf op.leaf, b] := by
  refine ⟨a, op.leaf, b, rfl, ha, ?_, hb⟩
  have ht := (of_isOneOf hop).2
  simp only [List.mem_cons, List.not_mem_nil, or_false] at ht
  simp [Token.leaf, arithmeticSigns, ht]

/-- Trees with the shape that their labels call for, such as a phrase makes. -/
def Made (φ : Phrase) (out : List Tree) : Prop :=
  (∀ t ∈ out, Shaped t) ∧ φ.makes out

section Made

variable {φ : Phrase} {line : Option Int} {a b c t : Tree}

/-- A tree with its shape, as the only one of its phrase. -/
theorem made_one {P : Tree → Prop} (hs : Shaped t) (ht : P t)
    (hφ : φ.makes = fun out => ∀ c ∈ out, P c) : Made φ [t] := by
  unfold Made
  rw [hφ]
  simp [hs, ht]

theorem Made.shaped (h : Made φ [t]) : Shaped t :=
  List.forall_mem_singleton.mp h.1

/-- The only tree of a phrase is of the kind that the phrase makes. -/
theorem Made.kind {P : Tree → Prop} (h : Made φ [t])
    (hφ : φ.makes = fun out => ∀ c ∈ out, P c) : P t := by
  have ht := h.2
  rw [hφ] at ht
  exact ht t (List.mem_singleton_self t)

/-- A tree before others of the same kind. -/
theorem made_cons {ts : List Tree} {ψ χ : Phrase} {P : Tree → Prop} (h : Made φ [t])
    (hts : Made ψ ts) (hφ : φ.makes = fun out => ∀ c ∈ out, P c)
    (hψ : ψ.makes = fun out => ∀ c ∈ out, P c) (hχ : χ.makes = fun out => ∀ c ∈ out, P c) :
    Made χ (t :: ts) := by
  refine ⟨List.forall_mem_cons.mpr ⟨h.shaped, hts.1⟩, ?_⟩
  have hmore := hts.2
  rw [hψ] at hmore
  rw [hχ]
  exact List.forall_mem_cons.mpr ⟨h.kind hφ, hmore⟩

theorem made_declaration {word name : Token} (hn : name.kind = .ident) (hs : Shaped a)
    (ha : Optional a) :
    Made .statement [.node .vardecl line [.leaf word.leaf, .leaf name.leaf, a]] := by
  refine made_one (.node ⟨_, _, _, rfl, isName_token hn, ha⟩ ?_) ?_ rfl
  · simp [Shaped.leaf, hs]
  · simp [Evaluable]

theorem made_conditional (ha : Made .expression [a]) (hb : Made .block [b]) (hs : Shaped c)
    (hc : c = .absent ∨ Labelled .body c) : Made .conditional [.node .ifstmt line [a, b, c]] := by
  refine made_one (.node ⟨_, _, _, rfl, ha.kind rfl, hb.kind rfl, hc⟩ ?_) ?_ rfl
  · simp [ha.shaped, hb.shaped, hs]
  · simp [Evaluable]

/-- An operation whose operands and sign have their shape. -/
theorem made_operation {label : Label} {op : Leaf} (h : Shape label [a, .leaf op, b])
    (ha : Shaped a) (hb : Shaped b) (hlabel : label = .condition ∨ label = .binary)
    (hφ : φ.makes = fun out => ∀ c ∈ out, Evaluable c) :
    Made φ [.node label line [a, .leaf op, b]] := by
  refine made_one (.node h ?_) ?_ hφ
  · simp [Shaped.leaf, ha, hb]
  · rcases hlabel with rfl | rfl <;> simp [Evaluable]

theorem made_property {key : Token} (hk : key.kind = .ident) (hs : Shaped a) (ha : Optional a) :
    Made .property [.node .prop line [.leaf key.leaf, a]] := by
  refine made_one (.node ⟨_, _, rfl, isName_token hk, ha⟩ ?_) ?_ rfl
  · simp [Shaped.leaf, hs]
  · exact ⟨_, _, _, rfl, isName_token hk, ha⟩

end Made

theorem Level.operand_makes (ℓ : Level) : ℓ.operand.makes = fun out => ∀ c ∈ out, Evaluable c := by
  cases ℓ <;> rfl

theorem Level.label_operation (ℓ : Level) : ℓ.label = .condition ∨ ℓ.label = .binary := by
  cases ℓ with
  | logical | equality => exact .inl rfl
  | sum | product => exact .inr rfl

/-- What is derived has the shape that its labels call for. -/
theorem derives_shaped {φ : Phrase} {ts rest : List Token} {out : List Tree}
    (h : Derives φ ts out rest) : Made φ out := by
  -- both at once: the shape of a node asks of its children what their phrases make, and that they
  -- are shaped below comes from the same hypotheses
  induction h with
  | noItems | noMoreParams | noArguments | noMoreArguments | noProperties =>
    simp [Made, Phrase.makes]
  | semicolon _ _ ih | conditional _ ih | value _ ih | base _ ih | primary _ ih
  | lastProperty _ ih | parenthesized _ _ _ ih => exact ih
  | item _ _ ihs ih | expressionItem _ _ _ ihs ih | arguments _ _ ihs ih
  | moreArguments _ _ _ ihs ih | properties _ _ _ ihs ih => exact made_cons ihs ih rfl rfl rfl
  | bareDeclaration _ hn _ => exact made_declaration hn .absent (.inl rfl)
  | declaration _ hn _ _ _ ih => exact made_declaration hn ih.shaped (.inr (ih.kind rfl))
  | function _ hn _ _ ihps ihb =>
    refine made_one (.node ⟨_, _, _, rfl, isName_token hn, ihps.kind rfl, ihb.kind rfl⟩ ?_) ?_ rfl
    · simp [Shaped.leaf, ihps.shaped, ihb.shaped]
    · simp [Evaluable]
  | ifOnly _ _ _ ihe ihb => exact made_conditional ihe ihb .absent (.inl rfl)
  | ifElse _ _ _ _ _ ihe ihb ihc =>
    exact made_conditional ihe ihb ihc.shaped (.inr (ihc.kind rfl))
  | ifElseIf _ _ _ _ _ ihe ihb ihc =>
    -- the nested conditional is the only statement of a body that no token stands for
    have hbody : Shaped (.node .body none [_]) := .node ihc.2 ihc.1
    exact made_conditional ihe ihb hbody (.inr ⟨_, _, rfl⟩)
  | block _ _ _ ih => exact made_one (.node ih.2 ih.1) ⟨_, _, rfl⟩ rfl
  | noParams => exact made_one (.node (by simp [Shape]) (by simp)) ⟨_, _, rfl⟩ rfl
  | params _ hp _ _ hd ih =>
    have hnames : ∀ c ∈ _, IsName c := List.forall_mem_cons.mpr ⟨isName_token hp, ih.2⟩
    -- that the names differ is asked by the derivation itself
    exact made_one (.node ⟨hnames, hd⟩ fun c hc => (hnames c hc).shaped) ⟨_, _, rfl⟩ rfl
  | moreParams _ hp _ ih =>
    exact ⟨List.forall_mem_cons.mpr ⟨.leaf _, ih.1⟩,
      List.forall_mem_cons.mpr ⟨isName_token hp, ih.2⟩⟩
  | assignment _ _ hn _ iht ihe =>
    refine made_one (.node ⟨_, _, rfl, isName_target hn, ihe.kind rfl⟩ ?_) ?_ rfl
    · simp [iht.shaped, ihe.shaped]
    · simp [Evaluable]
  | @operand ℓ _ _ _ _ ih => exact made_one ih.shaped (ih.kind ℓ.operand_makes) rfl
  | @join ℓ _ _ _ _ _ _ _ hop _ iha ihb =>
    have hshape := shape_join hop (iha.kind rfl) (ihb.kind ℓ.operand_makes)
    exact made_operation hshape iha.shaped ihb.shaped ℓ.label_operation rfl
  | raise _ hop _ iha ihb =>
    have hshape := shape_raise hop (iha.kind rfl) (ihb.kind rfl)
    exact made_operation hshape iha.shaped ihb.shaped (.inr rfl) rfl
  | field _ _ hn ih =>
    refine made_one (.node ⟨_, _, rfl, ih.kind rfl, isName_token hn⟩ ?_) ?_ rfl
    · simp [Shaped.leaf, ih.shaped]
    · simp [Evaluable]
  | index _ _ _ _ ihe ihk =>
    refine made_one (.node ⟨_, _, rfl, ihe.kind rfl, ihk.kind rfl⟩ ?_) ?_ rfl
    · simp [ihe.shaped, ihk.shaped]
    · simp [Evaluable]
  | call _ _ _ _ ihe ihes =>
    have hargs : Shaped (.node .args none _) := .node ihes.2 ihes.1
    refine made_one (.node ⟨_, _, rfl, ihe.kind rfl, ⟨_, _, rfl⟩⟩ ?_) ?_ rfl
    · simp [ihe.shaped, hargs]
    · simp [Evaluable]
  | atom ht => exact made_one (.leaf _) (evaluable_atom ht) rfl
  | object _ _ _ ih | array _ _ _ ih => exact made_one (.node ih.2 ih.1) (by simp [Evaluable]) rfl
  | functionLiteral _ _ _ ihps ihb =>
    refine made_one (.node ⟨_, _, rfl, ihps.kind rfl, ihb.kind rfl⟩ ?_) ?_ rfl
    · simp [ihps.shaped, ihb.shaped]
    · simp [Evaluable]
  | shorthand hk => exact made_property hk .absent (.inl rfl)
  | property hk _ _ ih => exact made_property hk ih.shaped (.inr (ih.kind rfl))

/-- The tree of a program has the shape that its labels call for, and can be evaluated. -/
theorem program_shaped {ts : List Token} {t : Tree} (h : IsProgram ts t) :
    Shaped t ∧ Evaluable t := by
  obtain ⟨ss, e, -, hd, rfl⟩ := h
  have hs := derives_shaped hd
  exact ⟨.node hs.2 hs.1, by simp [Evaluable]⟩

/-! ## Lines -/

/-- All that is derived has a line, but for blocks and lists of parameters: where a node has no line
of its own, it is one of these. -/
theorem derives_lines {φ : Phrase} {ts rest : List Token} {out : List Tree}
    (h : Derives φ ts out rest) (hblock : φ ≠ .block) (hparams : φ ≠ .params) :
    ∀ t ∈ out, t.sourceLine.isSome = true := by
  induction h with
  | noItems | noMoreParams | noArguments | noMoreArguments | noProperties => simp
  | semicolon _ _ ih | conditional _ ih | value _ ih | base _ ih | primary _ ih
  | lastProperty _ ih | parenthesized _ _ _ ih => exact ih (by simp) (by simp)
  | @operand ℓ _ _ _ _ ih =>
    cases ℓ <;> exact ih (by simp [Level.operand]) (by simp [Level.operand])
  | item _ _ ihs ih | arguments _ _ ihs ih | moreArguments _ _ _ ihs ih
  | expressionItem _ _ _ ihs ih | properties _ _ _ ihs ih =>
    have hfirst := ihs (by simp) (by simp)
    rw [List.forall_mem_singleton] at hfirst
    exact List.forall_mem_cons.mpr ⟨hfirst, ih (by simp) (by simp)⟩
  | moreParams _ _ _ ih =>
    exact List.forall_mem_cons.mpr ⟨rfl, ih (by simp) (by simp)⟩
  | block => exact absurd rfl hblock
  | noParams | params => exact absurd rfl hparams
  | _ => exact List.forall_mem_singleton.mpr rfl

/-- Every statement of a program has a line. -/
theorem program_lines {ts : List Token} {t : Tree} (h : IsProgram ts t) :
    ∀ s ∈ t.children, s.sourceLine.isSome = true := by
  obtain ⟨ss, e, -, hd, rfl⟩ := h
  exact derives_lines hd (by simp) (by simp)

end Avii.Syntax
