import Avii.Proofs.Places.Relocation
import Avii.Proofs.Syntax.Derivation

/-!
# Parsing elsewhere

The parser copies places but does not look at them. From relocated tokens it makes the relocated
tree, or refuses them at the relocated place (`carried`). The one place that it makes up is that of
the end of a list that has run out, which is line and column 1; so `φ` has to leave 1 as it is.

`Carries` says this of two parsers, and there is one lemma for each parser.
-/

namespace Avii.Parser

open Syntax (Level)

variable {α β γ δ : Type} {φ : Int → Int}

/-- A place with its line and column replaced. -/
def relocatePlace (φ : Int → Int) (p : Position) : Position := ⟨φ p.line, φ p.column⟩

/-- A refusal with its place replaced. -/
def relocateRefusal (φ : Int → Int) : Refusal → Refusal
  | .invalid e => .invalid { e with place := e.place.map (relocatePlace φ) }
  | .tooDeep => .tooDeep

/-- How a parser ends on relocated tokens, given how it ends on the tokens as they are. -/
def relocateOutcome (φ : Int → Int) (f : α → β) :
    Except Refusal (α × List Token) → Except Refusal (β × List Token)
  | .ok (a, rest) => .ok (f a, rest.map (Token.relocate φ))
  | .error e => .error (relocateRefusal φ e)

/-- The second parser does with relocated tokens what the first one does with the tokens as they
are, but for places. -/
def Carries (φ : Int → Int) (f : α → β) (p : Parser α) (p' : Parser β) : Prop :=
  ∀ ts, p' (ts.map (Token.relocate φ)) = relocateOutcome φ f (p ts)

section Steps

variable {f : α → β} {g : γ → δ} {p q : Parser α} {p' q' : Parser β}

/-- What is carried along step by step is carried along as a whole. -/
theorem Carries.bind {k : α → Parser γ} {k' : β → Parser δ} (hp : Carries φ f p p')
    (hk : ∀ a, Carries φ g (k a) (k' (f a))) : Carries φ g (p >>= k) (p' >>= k') := by
  intro ts
  have h := hp ts
  simp only [Bind.bind, StateT.bind, Except.bind]
  cases hpts : p ts with
  | error e =>
    rw [hpts] at h
    rw [h]
    rfl
  | ok r =>
    rw [hpts] at h
    rw [h]
    exact hk r.1 r.2

/-- An answer is carried along if its relocation is the other answer. -/
theorem carries_pure {a : α} {b : β} (h : b = f a) :
    Carries φ f (pure a : Parser α) (pure b : Parser β) := by
  subst h
  exact fun ts => rfl

/-- A node is carried along with its line and children moved. -/
theorem carries_node (label : Label) (line : Option Int) (cs : List Tree) :
    Carries φ (Tree.relocate φ) (pure (.node label line cs))
      (pure (.node label (line.map φ) (cs.map (Tree.relocate φ)))) :=
  carries_pure (Tree.relocate_node label line cs).symm

/-- A choice is carried along if the relocated tokens decide it in the same way. -/
theorem Carries.ite {c c' : Prop} [Decidable c] [Decidable c'] (hc : c' ↔ c)
    (hp : Carries φ f p p') (hq : Carries φ f q q') :
    Carries φ f (if c then p else q) (if c' then p' else q') := by
  by_cases h : c
  · rw [if_pos h, if_pos (hc.mpr h)]
    exact hp
  · rw [if_neg h, if_neg (mt hc.mp h)]
    exact hq

theorem carries_giveUp : Carries φ f (giveUp : Parser α) (giveUp : Parser β) := fun _ => rfl

/-- A refusal at a token becomes the refusal at the relocated token. -/
theorem carries_refuse (fault : ParseFault) (t : Token) :
    Carries φ f (refuse fault t : Parser α) (refuse fault (t.relocate φ) : Parser β) := fun _ => rfl

/-- What is left of the tokens is what is left of the relocated ones. -/
theorem carries_get : Carries φ (List.map (Token.relocate φ)) (get : Parser (List Token)) get :=
  fun _ => rfl

end Steps

variable (hφ : φ 1 = 1)

include hφ

/-- The token that stands in for missing ones has the place 1:1, which stays where it is. -/
theorem relocate_endAt : (Token.endAt .start).relocate φ = Token.endAt .start := by
  simp [Token.relocate, Token.endAt, Position.start, hφ]

/-- The next of the relocated tokens is the next token, relocated. -/
theorem carries_current : Carries φ (Token.relocate φ) current current
  | [] => by simp [current, relocateOutcome, relocate_endAt hφ]
  | _ :: _ => rfl

/-- A step takes the same number of tokens off both lists. -/
theorem carries_advance : Carries φ (Token.relocate φ) advance advance
  | [] => by simp [advance, relocateOutcome, relocate_endAt hφ]
  | t :: ts => by
    by_cases h : t.kind = .eof
    · simp [advance, h, relocateOutcome]
    · simp [advance, h, relocateOutcome]

/-- Kinds are not relocated, so both accept a token or neither does. -/
theorem carries_accept (kind : Kind) : Carries φ id (accept kind) (accept kind) := by
  refine (carries_current hφ).bind fun t => ?_
  refine .ite Iff.rfl ?_ (carries_pure rfl)
  exact (carries_advance hφ).bind fun _ => carries_pure rfl

/-- Both take the token that is expected, or refuse at the same one. -/
theorem carries_expect (kind : Kind) (fault : Kind → ParseFault) :
    Carries φ (Token.relocate φ) (expect kind fault) (expect kind fault) := by
  refine (carries_current hφ).bind fun t => ?_
  exact .ite Iff.rfl (carries_advance hφ) (carries_refuse (fault t.kind) t)

theorem carries_expectKind (kind : Kind) :
    Carries φ (Token.relocate φ) (expectKind kind) (expectKind kind) :=
  carries_expect hφ kind _

/-! ## Repetition -/

section Repetition

variable {item : Parser Tree} (hitem : Carries φ (Tree.relocate φ) item item)

include hitem

/-- Operators of one level are joined to the left in both, round by round. -/
theorem carries_joinLeft (ℓ : Level) : ∀ (rounds : Nat) (left : Tree),
    Carries φ (Tree.relocate φ) (joinLeft ℓ.isOperator ℓ.label item rounds left)
      (joinLeft ℓ.isOperator ℓ.label item rounds (left.relocate φ))
  | 0, _ => carries_pure rfl
  | rounds + 1, left => by
    refine (carries_current hφ).bind fun op => ?_
    refine .ite (by cases ℓ <;> exact Iff.rfl) ?_ (carries_pure rfl)
    refine (carries_advance hφ).bind fun _ => hitem.bind fun right => ?_
    have h := carries_joinLeft ℓ rounds
      (.node ℓ.label (some op.line) [left, .leaf op.leaf, right])
    rw [Tree.relocate_node] at h
    exact h

theorem carries_leftGrouped (ℓ : Level) :
    Carries φ (Tree.relocate φ) (leftGrouped ℓ.isOperator ℓ.label item)
      (leftGrouped ℓ.isOperator ℓ.label item) := by
  refine hitem.bind fun left => ?_
  refine (carries_current hφ).bind fun op => ?_
  refine .ite (by cases ℓ <;> exact Iff.rfl) ?_ (carries_pure rfl)
  refine carries_get.bind fun ts => ?_
  rw [List.length_map]
  exact carries_joinLeft hφ hitem ℓ ts.length left

/-- The items after commas are carried along, round by round. -/
theorem carries_afterCommas : ∀ rounds : Nat,
    Carries φ (List.map (Tree.relocate φ)) (afterCommas item rounds) (afterCommas item rounds)
  | 0 => carries_pure rfl
  | rounds + 1 => by
    refine (carries_accept hφ .comma).bind fun b => ?_
    refine .ite Iff.rfl ?_ (carries_pure rfl)
    refine hitem.bind fun t => ?_
    refine (carries_afterCommas rounds).bind fun ts => ?_
    exact carries_pure rfl

theorem carries_separated :
    Carries φ (List.map (Tree.relocate φ)) (separated item) (separated item) := by
  refine hitem.bind fun t => ?_
  refine (carries_current hφ).bind fun u => ?_
  refine .ite Iff.rfl ?_ (carries_pure rfl)
  refine carries_get.bind fun us => ?_
  rw [List.length_map]
  refine (carries_afterCommas hφ hitem us.length).bind fun ts => ?_
  exact carries_pure rfl

/-- Statements up to an end are carried along, round by round. -/
theorem carries_statementsUpTo (isEnd : Kind → Bool) : ∀ rounds : Nat,
    Carries φ (List.map (Tree.relocate φ)) (statementsUpTo isEnd item rounds)
      (statementsUpTo isEnd item rounds)
  | 0 => carries_pure rfl
  | rounds + 1 => by
    refine (carries_current hφ).bind fun t => ?_
    refine .ite Iff.rfl (carries_pure rfl) ?_
    refine .ite Iff.rfl ?_ ?_
    · exact (carries_advance hφ).bind fun _ => carries_statementsUpTo isEnd rounds
    · refine hitem.bind fun s => ?_
      refine (carries_statementsUpTo isEnd rounds).bind fun ss => ?_
      exact carries_pure rfl

theorem carries_statements (isEnd : Kind → Bool) :
    Carries φ (List.map (Tree.relocate φ)) (statements isEnd item) (statements isEnd item) := by
  refine carries_get.bind fun ts => ?_
  rw [List.length_map]
  exact carries_statementsUpTo hφ hitem isEnd ts.length

end Repetition

/-! ## Parameters -/

/-- A repeated parameter is refused in both: names are not relocated. -/
theorem carries_parameter (seen : List String) :
    Carries φ (Leaf.relocate φ) (parameter seen) (parameter seen) := by
  refine (carries_expect hφ .ident _).bind fun t => ?_
  exact .ite Iff.rfl (carries_refuse _ t) (carries_pure rfl)

/-- The parameters after commas are carried along, round by round. -/
theorem carries_parametersAfter : ∀ (seen : List String) (rounds : Nat),
    Carries φ (List.map (Tree.relocate φ)) (parametersAfter seen rounds)
      (parametersAfter seen rounds)
  | _, 0 => carries_pure rfl
  | seen, rounds + 1 => by
    refine (carries_accept hφ .comma).bind fun b => ?_
    refine .ite Iff.rfl ?_ (carries_pure rfl)
    refine (carries_parameter hφ seen).bind fun l => ?_
    refine (carries_parametersAfter (l.text :: seen) rounds).bind fun ls => ?_
    exact carries_pure rfl

theorem carries_parameters : Carries φ (Tree.relocate φ) parameters parameters := by
  have hnames : Carries φ (List.map (Tree.relocate φ)) parameterNames parameterNames := by
    refine (carries_current hφ).bind fun t => ?_
    refine .ite Iff.rfl (carries_pure rfl) ?_
    refine (carries_parameter hφ []).bind fun l => ?_
    refine carries_get.bind fun ts => ?_
    rw [List.length_map]
    refine (carries_parametersAfter hφ [l.text] ts.length).bind fun ls => ?_
    exact carries_pure rfl
  refine (carries_expectKind hφ .lpar).bind fun _ => ?_
  refine hnames.bind fun names => ?_
  refine (carries_expectKind hφ .rpar).bind fun _ => ?_
  exact carries_node _ _ _

/-! ## Pieces of constructs -/

section Pieces

variable {expr : Parser Tree} (he : Carries φ (Tree.relocate φ) expr expr)

include he

/-- Accesses, indices and calls are joined to a target in both, round by round. -/
theorem carries_links {args : Parser (List Tree)}
    (ha : Carries φ (List.map (Tree.relocate φ)) args args) : ∀ (rounds : Nat) (target : Tree),
    Carries φ (Tree.relocate φ) (links expr args rounds target)
      (links expr args rounds (target.relocate φ))
  | 0, _ => carries_pure rfl
  | rounds + 1, target => by
    refine (carries_current hφ).bind fun t => ?_
    simp only [Token.relocate_kind]
    split
    next =>
      refine (carries_advance hφ).bind fun _ => ?_
      refine (carries_expect hφ .ident _).bind fun name => ?_
      have h := carries_links ha rounds
        (.node .field (some name.line) [target, .leaf name.leaf])
      rw [Tree.relocate_node] at h
      exact h
    next =>
      refine (carries_advance hφ).bind fun _ => he.bind fun key => ?_
      refine (carries_expectKind hφ .rsqb).bind fun _ => ?_
      have h := carries_links ha rounds (.node .index (some t.line) [target, key])
      rw [Tree.relocate_node] at h
      exact h
    next =>
      refine (carries_advance hφ).bind fun _ => ha.bind fun as => ?_
      refine (carries_expectKind hφ .rpar).bind fun _ => ?_
      have h := carries_links ha rounds (.node .call (some t.line) [target, .node .args none as])
      rw [Tree.relocate_node, List.map_cons, List.map_singleton, Tree.relocate_node] at h
      exact h
    next => exact carries_pure rfl

/-- A list that may be empty is carried along up to its closing bracket. -/
theorem carries_listUpTo (close : Kind) :
    Carries φ (List.map (Tree.relocate φ)) (listUpTo close expr) (listUpTo close expr) := by
  refine (carries_current hφ).bind fun t => ?_
  exact .ite Iff.rfl (carries_pure rfl) (carries_separated hφ he)

/-- A property of an object is carried along, with a value or without. -/
theorem carries_property : Carries φ (Tree.relocate φ) (property expr) (property expr) := by
  refine (carries_expect hφ .ident _).bind fun key => ?_
  refine (carries_accept hφ .colon).bind fun b => ?_
  refine .ite Iff.rfl ?_ (carries_node _ _ _)
  refine he.bind fun value => ?_
  exact carries_node _ _ _

/-- Properties are carried along, round by round. -/
theorem carries_properties : ∀ rounds : Nat,
    Carries φ (List.map (Tree.relocate φ)) (properties expr rounds) (properties expr rounds)
  | 0 => carries_pure rfl
  | rounds + 1 => by
    refine (carries_current hφ).bind fun t => ?_
    refine .ite Iff.rfl (carries_pure rfl) ?_
    refine (carries_property hφ he).bind fun prop => ?_
    refine (carries_accept hφ .comma).bind fun b => ?_
    refine .ite Iff.rfl ?_ (carries_pure rfl)
    refine (carries_properties rounds).bind fun props => ?_
    exact carries_pure rfl

/-- A declaration is carried along, its missing name or value refused in both. -/
theorem carries_declaration :
    Carries φ (Tree.relocate φ) (declaration expr) (declaration expr) := by
  refine (carries_advance hφ).bind fun keyword => ?_
  refine (carries_expect hφ .ident _).bind fun name => ?_
  refine (carries_current hφ).bind fun t => ?_
  refine .ite Iff.rfl ?_ ?_
  · refine .ite Iff.rfl (carries_refuse _ t) ?_
    refine (carries_advance hφ).bind fun _ => ?_
    exact carries_node _ _ _
  · refine (carries_expect hφ .equals _).bind fun _ => he.bind fun value => ?_
    refine (carries_expect hφ .semi _).bind fun _ => ?_
    exact carries_node _ _ _

theorem carries_arrayOf : Carries φ (Tree.relocate φ) (arrayOf expr) (arrayOf expr) := by
  refine (carries_expectKind hφ .lsqb).bind fun t => ?_
  refine (carries_listUpTo hφ he .rsqb).bind fun items => ?_
  refine (carries_expect hφ .rsqb _).bind fun _ => ?_
  exact carries_node _ _ _

theorem carries_objectOf : Carries φ (Tree.relocate φ) (objectOf expr) (objectOf expr) := by
  refine (carries_expectKind hφ .lbrace).bind fun t => ?_
  refine carries_get.bind fun ts => ?_
  rw [List.length_map]
  refine (carries_properties hφ he ts.length).bind fun props => ?_
  refine (carries_expect hφ .rbrace _).bind fun _ => ?_
  exact carries_node _ _ _

theorem carries_blockOf : Carries φ (Tree.relocate φ) (blockOf expr) (blockOf expr) := by
  refine (carries_expect hφ .lbrace _).bind fun _ => ?_
  refine (carries_statements hφ he _).bind fun body => ?_
  refine (carries_expect hφ .rbrace _).bind fun _ => ?_
  exact carries_node _ _ _

/-- What follows the block of a conditional is carried along. -/
theorem carries_alternative {block : Parser Tree}
    (hb : Carries φ (Tree.relocate φ) block block) :
    Carries φ (Tree.relocate φ) (alternative expr block) (alternative expr block) := by
  refine (carries_accept hφ .elseWord).bind fun b => ?_
  refine .ite Iff.rfl ?_ (carries_pure rfl)
  refine (carries_current hφ).bind fun t => ?_
  refine .ite Iff.rfl ?_ hb
  refine he.bind fun nested => ?_
  exact carries_node _ _ _

end Pieces

omit hφ in
/-- A look at two kinds of token does not see places. -/
theorem carries_startsFunctionDeclaration :
    Carries φ id startsFunctionDeclaration startsFunctionDeclaration
  | [] | [_] | _ :: _ :: _ => rfl

/-! ## Constructs -/

/-- Within a budget, every parser is carried along. -/
structure Carried (φ : Int → Int) (n : Nat) : Prop where
  statement : Carries φ (Tree.relocate φ) (statement n) (statement n)
  variableDeclaration :
    Carries φ (Tree.relocate φ) (variableDeclaration n) (variableDeclaration n)
  functionDeclaration :
    Carries φ (Tree.relocate φ) (functionDeclaration n) (functionDeclaration n)
  conditional : Carries φ (Tree.relocate φ) (conditional n) (conditional n)
  block : Carries φ (Tree.relocate φ) (block n) (block n)
  expression : Carries φ (Tree.relocate φ) (expression n) (expression n)
  assignment : Carries φ (Tree.relocate φ) (assignment n) (assignment n)
  logical : Carries φ (Tree.relocate φ) (logical n) (logical n)
  equality : Carries φ (Tree.relocate φ) (equality n) (equality n)
  sum : Carries φ (Tree.relocate φ) (sum n) (sum n)
  product : Carries φ (Tree.relocate φ) (product n) (product n)
  power : Carries φ (Tree.relocate φ) (power n) (power n)
  chain : Carries φ (Tree.relocate φ) (chain n) (chain n)
  arguments : Carries φ (List.map (Tree.relocate φ)) (arguments n) (arguments n)
  primary : Carries φ (Tree.relocate φ) (primary n) (primary n)
  object : Carries φ (Tree.relocate φ) (object n) (object n)
  array : Carries φ (Tree.relocate φ) (array n) (array n)

/-- One step of the induction on the budget: a statement, from parsers with less of it. -/
theorem carries_statement {n : Nat} (ih : Carried φ n) :
    Carries φ (Tree.relocate φ) (statement (n + 1)) (statement (n + 1)) := by
  refine (carries_current hφ).bind fun t => ?_
  refine .ite Iff.rfl ih.variableDeclaration ?_
  refine carries_startsFunctionDeclaration.bind fun b => ?_
  refine .ite Iff.rfl ih.functionDeclaration ?_
  exact .ite Iff.rfl ih.conditional ih.expression

/-- A function declaration, from parsers with less budget. -/
theorem carries_functionDeclaration {n : Nat} (ih : Carried φ n) :
    Carries φ (Tree.relocate φ) (functionDeclaration (n + 1)) (functionDeclaration (n + 1)) := by
  refine (carries_expectKind hφ .funcWord).bind fun _ => ?_
  refine (carries_expectKind hφ .ident).bind fun name => ?_
  refine (carries_parameters hφ).bind fun params => ?_
  refine ih.block.bind fun body => ?_
  exact carries_node _ _ _

/-- A conditional, from parsers with less budget. -/
theorem carries_conditional {n : Nat} (ih : Carried φ n) :
    Carries φ (Tree.relocate φ) (conditional (n + 1)) (conditional (n + 1)) := by
  refine (carries_expectKind hφ .ifWord).bind fun t => ?_
  refine ih.expression.bind fun test => ih.block.bind fun consequent => ?_
  refine (carries_alternative hφ ih.conditional ih.block).bind fun alternate => ?_
  exact carries_node _ _ _

/-- An assignment, from parsers with less budget: its target is refused in both or in neither. -/
theorem carries_assignment {n : Nat} (ih : Carried φ n) :
    Carries φ (Tree.relocate φ) (assignment (n + 1)) (assignment (n + 1)) := by
  refine ih.logical.bind fun target => ?_
  refine (carries_current hφ).bind fun t => ?_
  refine .ite Iff.rfl ?_ (carries_pure rfl)
  refine (carries_advance hφ).bind fun _ => ?_
  refine .ite (by rw [Tree.relocate_isName]) ?_ (carries_refuse _ t)
  refine ih.assignment.bind fun value => ?_
  exact carries_node _ _ _

theorem carries_power {n : Nat} (ih : Carried φ n) :
    Carries φ (Tree.relocate φ) (power (n + 1)) (power (n + 1)) := by
  refine ih.chain.bind fun base => ?_
  refine (carries_current hφ).bind fun op => ?_
  refine .ite Iff.rfl ?_ (carries_pure rfl)
  refine (carries_advance hφ).bind fun _ => ih.power.bind fun exponent => ?_
  exact carries_node _ _ _

theorem carries_chain {n : Nat} (ih : Carried φ n) :
    Carries φ (Tree.relocate φ) (chain (n + 1)) (chain (n + 1)) := by
  refine ih.primary.bind fun target => ?_
  refine (carries_current hφ).bind fun t => ?_
  refine .ite Iff.rfl ?_ (carries_pure rfl)
  refine carries_get.bind fun ts => ?_
  rw [List.length_map]
  exact carries_links hφ ih.expression ih.arguments ts.length target

/-- A primary expression, from parsers with less budget. -/
theorem carries_primary {n : Nat} (ih : Carried φ n) :
    Carries φ (Tree.relocate φ) (primary (n + 1)) (primary (n + 1)) := by
  refine (carries_current hφ).bind fun t => ?_
  simp only [Token.relocate_kind]
  split
  next => exact (carries_advance hφ).bind fun _ => carries_pure rfl
  next => exact (carries_advance hφ).bind fun _ => carries_pure rfl
  next => exact (carries_advance hφ).bind fun _ => carries_pure rfl
  next =>
    refine (carries_advance hφ).bind fun _ => ih.expression.bind fun e => ?_
    exact (carries_expectKind hφ .rpar).bind fun _ => carries_pure rfl
  next => exact ih.object
  next => exact ih.array
  next =>
    refine (carries_advance hφ).bind fun _ => ?_
    refine (carries_parameters hφ).bind fun params => ih.block.bind fun body => ?_
    exact carries_node _ _ _
  next => exact carries_refuse _ t

/-- Every parser is carried along, by induction on the budget. -/
theorem carried : ∀ n : Nat, Carried φ n
  | 0 => by constructor <;> exact carries_giveUp
  | n + 1 =>
    have ih := carried n
    { statement := carries_statement hφ ih
      variableDeclaration := carries_declaration hφ ih.expression
      functionDeclaration := carries_functionDeclaration hφ ih
      conditional := carries_conditional hφ ih
      block := carries_blockOf hφ ih.statement
      expression := ih.assignment
      assignment := carries_assignment hφ ih
      logical := carries_leftGrouped hφ ih.equality .logical
      equality := carries_leftGrouped hφ ih.sum .equality
      sum := carries_leftGrouped hφ ih.product .sum
      product := carries_leftGrouped hφ ih.power .product
      power := carries_power hφ ih
      chain := carries_chain hφ ih
      arguments := carries_listUpTo hφ ih.expression .rpar
      primary := carries_primary hφ ih
      object := carries_objectOf hφ ih.expression
      array := carries_arrayOf hφ ih.expression }

end Avii.Parser
