import Avii.Proofs.Syntax.Loops

/-!
# The cursor of the parser

A parser reads from the front of a list of tokens. Over a list `T` that stays as it is, this is a
cursor into `T` that moves to the right. `Trace T p i moves r` says that the parser `p`, taken apart
into the primitive ones, makes these moves when it starts at index `i`, and ends with `r`. Nothing
in its rules keeps an index inside the list, or before an `eof`. How many rounds a loop is given is
no move, as it hangs on the number of tokens and not on any of them.

Every parser has a trace, wherever it starts (`Traced`, one lemma for each parser). And however a
parser is taken apart, from the first `eof` or before it, its cursor never gets past that `eof`, and
no token beyond it is looked at (`Trace.within`).
-/

namespace Avii.Parser

variable {α β : Type} {T : List Token}

/-- What a parser does with its cursor: it looks at the token at an index, or steps to an index. -/
inductive Move where
  | look (index : Nat)
  | step (index : Nat)
deriving DecidableEq, Repr

/-- The index that a move looks at or steps to. -/
def Move.index : Move → Nat
  | look i => i
  | step i => i

/-- The moves of a parser over the tokens `T`, and its end: an answer and where the cursor is then,
or a refusal. -/
inductive Trace (T : List Token) :
    {α : Type} → Parser α → Nat → List Move → Except Refusal (α × Nat) → Prop
  | pure {α : Type} (a : α) (i : Nat) : Trace T (pure a) i [] (.ok (a, i))
  | refuse {α : Type} (fault : ParseFault) (t : Token) (i : Nat) :
    Trace T (refuse fault t : Parser α) i [] (.error (.invalid ⟨fault, some ⟨t.line, t.column⟩⟩))
  | giveUp {α : Type} (i : Nat) : Trace T (giveUp : Parser α) i [] (.error .tooDeep)
  | current (i : Nat) : Trace T current i [.look i] (.ok (next (T.drop i), i))
  | stay {i : Nat} : (next (T.drop i)).kind = .eof →
    Trace T advance i [.look i] (.ok (next (T.drop i), i))
  | advance {i : Nat} : (next (T.drop i)).kind ≠ .eof →
    Trace T advance i [.look i, .step (i + 1)] (.ok (next (T.drop i), i + 1))
  | other {i : Nat} : (next (T.drop i)).kind ≠ .funcWord →
    Trace T startsFunctionDeclaration i [.look i] (.ok (false, i))
  | function {i : Nat} : (next (T.drop i)).kind = .funcWord →
    Trace T startsFunctionDeclaration i [.look i, .look (i + 1)]
      (.ok (decide ((next (T.drop (i + 1))).kind = .ident), i))
  | rounds {α : Type} {f : Nat → Parser α} {i : Nat} {moves : List Move}
    {r : Except Refusal (α × Nat)} : Trace T (f (T.length - i)) i moves r →
    Trace T (get >>= fun ts => f ts.length) i moves r
  | bind {α β : Type} {p : Parser α} {f : α → Parser β} {i j : Nat} {moves moves' : List Move}
    {a : α} {r : Except Refusal (β × Nat)} : Trace T p i moves (.ok (a, j)) →
    Trace T (f a) j moves' r → Trace T (p >>= f) i (moves ++ moves') r
  | fails {α β : Type} {p : Parser α} {f : α → Parser β} {i : Nat} {moves : List Move}
    {e : Refusal} : Trace T p i moves (.error e) → Trace T (p >>= f) i moves (.error e)

/-! ## Traces and runs -/

/-- The outcome of a parser whose cursor is known. -/
def outcomeAt (T : List Token) : Except Refusal (α × Nat) → Except Refusal (α × List Token)
  | .ok (a, j) => .ok (a, T.drop j)
  | .error e => .error e

/-- Whether a function is declared is seen from two tokens, and takes none. -/
theorem startsFunctionDeclaration_eq (ts : List Token) : startsFunctionDeclaration ts =
    .ok (decide ((next ts).kind = .funcWord) && decide ((next ts.tail).kind = .ident), ts) := by
  match ts with
  | [] => rfl
  | [t] => simp [startsFunctionDeclaration, next, Token.endAt]
  | t :: u :: us => rfl

/-- A trace tells what the parser does. -/
theorem Trace.run {p : Parser α} {i : Nat} {moves : List Move} {r : Except Refusal (α × Nat)}
    (h : Trace T p i moves r) : p (T.drop i) = outcomeAt T r := by
  induction h with
  | pure | refuse | giveUp => rfl
  | current i => exact current_run _
  | @stay i h =>
    cases hts : T.drop i with
    | nil => simp [Parser.advance, outcomeAt, hts, next]
    | cons t us =>
      rw [hts, next_cons] at h
      simp [Parser.advance, outcomeAt, hts, h]
  | @advance i h =>
    obtain ⟨us, hts⟩ : ∃ us, T.drop i = next (T.drop i) :: us := by
      cases hts : T.drop i with
      | nil => exact absurd (by rw [hts]; rfl) h
      | cons t us => exact ⟨us, rfl⟩
    have hrest : T.drop (i + 1) = us := by rw [← List.tail_drop, hts, List.tail_cons]
    have hrun := advance_cons h us
    rw [← hts] at hrun
    rw [outcomeAt, hrest, hrun]
  | @other i h => simp [startsFunctionDeclaration_eq, outcomeAt, h]
  | @function i h => simp [startsFunctionDeclaration_eq, outcomeAt, h]
  | @rounds α f i moves r _ ih =>
    rw [bind_run (get_run _), List.length_drop]
    exact ih
  | bind _ _ ihp ihf => rw [bind_run ihp, ihf]
  | fails _ ih => simp only [Bind.bind, StateT.bind, Except.bind, ih, outcomeAt]

/-! ## The first end -/

/-- The index of the first `eof`. -/
def firstEnd (T : List Token) : Nat :=
  T.findIdx fun t => t.kind = .eof

/-- Where there is an end, there is a first one. -/
theorem firstEnd_lt (h : ∃ t ∈ T, t.kind = .eof) : firstEnd T < T.length := by
  obtain ⟨t, ht, hk⟩ := h
  exact List.findIdx_lt_length_of_exists ⟨t, ht, by simpa using hk⟩

/-- At the index of the first end there is an end. -/
theorem firstEnd_kind (h : firstEnd T < T.length) : T[firstEnd T].kind = .eof :=
  of_decide_eq_true (@List.findIdx_getElem Token (fun t : Token => decide (t.kind = .eof)) T h)

/-- A token that is no `eof` is not the first `eof`, and neither is what a list has run out to. -/
theorem succ_le_firstEnd {i : Nat} (hi : i ≤ firstEnd T) (h : (next (T.drop i)).kind ≠ .eof) :
    i + 1 ≤ firstEnd T := by
  refine Nat.lt_of_le_of_ne hi ?_
  rintro rfl
  apply h
  by_cases hlt : firstEnd T < T.length
  · rw [List.drop_eq_getElem_cons hlt, next_cons]
    exact firstEnd_kind hlt
  · rw [List.drop_of_length_le (Nat.not_lt.mp hlt)]
    rfl

/-- The moves stay at or before an index, and so does the cursor, which does not go back. -/
def Within (k i : Nat) (moves : List Move) (r : Except Refusal (α × Nat)) : Prop :=
  (∀ m ∈ moves, m.index ≤ k) ∧ ∀ a j, r = .ok (a, j) → i ≤ j ∧ j ≤ k

/-- A trace that succeeds is within bounds if its moves are, and its cursor has not gone back. -/
theorem within_ok {k i j : Nat} {moves : List Move} {a : α} (hmoves : ∀ m ∈ moves, m.index ≤ k)
    (hij : i ≤ j) (hj : j ≤ k) : Within k i moves (.ok (a, j)) := by
  refine ⟨hmoves, ?_⟩
  rintro _ _ ⟨⟩
  exact ⟨hij, hj⟩

/-- A trace that fails is within bounds if its moves are. -/
theorem within_error {k i : Nat} {moves : List Move} {e : Refusal}
    (hmoves : ∀ m ∈ moves, m.index ≤ k) :
    Within k i moves (.error e : Except Refusal (α × Nat)) :=
  ⟨hmoves, by simp⟩

/-- From the first `eof` or before it, no move gets past it. -/
theorem Trace.within {p : Parser α} {i : Nat} {moves : List Move} {r : Except Refusal (α × Nat)}
    (h : Trace T p i moves r) (hi : i ≤ firstEnd T) : Within (firstEnd T) i moves r := by
  induction h with
  | pure a i => exact within_ok (by simp) (Nat.le_refl i) hi
  | refuse | giveUp => exact within_error (by simp)
  | current i => exact within_ok (by simpa [Move.index] using hi) (Nat.le_refl i) hi
  | @stay i _ => exact within_ok (by simpa [Move.index] using hi) (Nat.le_refl i) hi
  | @advance i h =>
    have hnext := succ_le_firstEnd hi h
    exact within_ok (by simpa [Move.index] using ⟨hi, hnext⟩) (Nat.le_succ i) hnext
  | @other i _ => exact within_ok (by simpa [Move.index] using hi) (Nat.le_refl i) hi
  | @function i h =>
    -- `func` is no `eof`, so there is a token after it
    have hnext := succ_le_firstEnd hi (by rw [h]; decide)
    exact within_ok (by simpa [Move.index] using ⟨hi, hnext⟩) (Nat.le_refl i) hi
  | rounds _ ih => exact ih hi
  | @bind _ _ p f i j moves moves' a r _ _ ihp ihf =>
    obtain ⟨hmoves, hj⟩ := ihp hi
    obtain ⟨hij, hj⟩ := hj a j rfl
    obtain ⟨hmoves', hend⟩ := ihf hj
    refine ⟨fun m hm => ?_, fun b k hr => ?_⟩
    · rcases List.mem_append.mp hm with hm | hm
      · exact hmoves m hm
      · exact hmoves' m hm
    · obtain ⟨hjk, hk⟩ := hend b k hr
      exact ⟨Nat.le_trans hij hjk, hk⟩
  | fails _ ih => exact within_error (ih hi).1

/-! ## Every parser has traces -/

/-- Wherever it starts, the parser has a trace. -/
def Traced (p : Parser α) : Prop :=
  ∀ (T : List Token) (i : Nat), ∃ moves r, Trace T p i moves r

/-- Traces are put one after the other: the second starts where the first one left the cursor. -/
theorem Traced.bind {p : Parser α} {f : α → Parser β} (hp : Traced p)
    (hf : ∀ a, Traced (f a)) : Traced (p >>= f) := by
  intro T i
  obtain ⟨moves, r, h⟩ := hp T i
  cases r with
  | error e => exact ⟨moves, .error e, .fails h⟩
  | ok r =>
    obtain ⟨moves', r', h'⟩ := hf r.1 T r.2
    exact ⟨moves ++ moves', r', .bind h h'⟩

/-- A choice has the trace of what is chosen. -/
theorem Traced.ite {c : Prop} [Decidable c] {p q : Parser α} (hp : Traced p) (hq : Traced q) :
    Traced (if c then p else q) := by
  split
  · exact hp
  · exact hq

/-- A loop over as many rounds as there are tokens has the trace of that many rounds. -/
theorem Traced.rounds {f : Nat → Parser α} (h : ∀ k, Traced (f k)) :
    Traced (get >>= fun ts => f ts.length) := by
  intro T i
  obtain ⟨moves, r, h⟩ := h (T.length - i) T i
  exact ⟨moves, r, .rounds h⟩

theorem traced_pure (a : α) : Traced (pure a) := fun _ i => ⟨[], _, .pure a i⟩

/-- A refusal moves nothing. -/
theorem traced_refuse (fault : ParseFault) (t : Token) : Traced (refuse fault t : Parser α) :=
  fun _ i => ⟨[], _, .refuse fault t i⟩

theorem traced_giveUp : Traced (giveUp : Parser α) := fun _ i => ⟨[], _, .giveUp i⟩

/-- To look at the next token is one move. -/
theorem traced_current : Traced current := fun _ i => ⟨_, _, .current i⟩

/-- To take a token is a look and a step, but for a closing end. -/
theorem traced_advance : Traced advance := by
  intro T i
  by_cases h : (next (T.drop i)).kind = .eof
  · exact ⟨_, _, .stay h⟩
  · exact ⟨_, _, .advance h⟩

/-- To see whether a function is declared is a look at two tokens at most. -/
theorem traced_startsFunctionDeclaration : Traced startsFunctionDeclaration := by
  intro T i
  by_cases h : (next (T.drop i)).kind = .funcWord
  · exact ⟨_, _, .function h⟩
  · exact ⟨_, _, .other h⟩

/-- To accept a token is a look, and a step if it has the kind. -/
theorem traced_accept (kind : Kind) : Traced (accept kind) := by
  refine traced_current.bind fun t => .ite ?_ (traced_pure _)
  exact traced_advance.bind fun _ => traced_pure _

/-- To expect a token is a look, and a step unless it is refused. -/
theorem traced_expect (kind : Kind) (fault : Kind → ParseFault) : Traced (expect kind fault) :=
  traced_current.bind fun t => .ite traced_advance (traced_refuse _ t)

theorem traced_expectKind (kind : Kind) : Traced (expectKind kind) :=
  traced_expect kind _

/-! ### Repetition -/

section Repetition

variable {item : Parser Tree} (hitem : Traced item)

include hitem

/-- Joining operators has traces, by induction on the rounds. -/
theorem traced_joinLeft (isOperator : Token → Bool) (label : Label) :
    ∀ (k : Nat) (left : Tree), Traced (joinLeft isOperator label item k left)
  | 0, left => traced_pure left
  | k + 1, left => by
    refine traced_current.bind fun op => .ite ?_ (traced_pure left)
    exact traced_advance.bind fun _ => hitem.bind fun right => traced_joinLeft isOperator label k _

theorem traced_leftGrouped (isOperator : Token → Bool) (label : Label) :
    Traced (leftGrouped isOperator label item) := by
  refine hitem.bind fun left => traced_current.bind fun t => .ite ?_ (traced_pure left)
  exact .rounds fun k => traced_joinLeft hitem isOperator label k left

/-- Items after commas have traces, by induction on the rounds. -/
theorem traced_afterCommas : ∀ k : Nat, Traced (afterCommas item k)
  | 0 => traced_pure []
  | k + 1 => by
    refine (traced_accept .comma).bind fun b => .ite ?_ (traced_pure [])
    exact hitem.bind fun t => (traced_afterCommas k).bind fun ts => traced_pure _

theorem traced_separated : Traced (separated item) := by
  refine hitem.bind fun t => traced_current.bind fun u => .ite ?_ (traced_pure [t])
  exact @Traced.rounds _ (fun k => afterCommas item k >>= fun ts => pure (t :: ts)) fun k =>
    (traced_afterCommas hitem k).bind fun ts => traced_pure _

/-- Statements up to an end have traces, by induction on the rounds. -/
theorem traced_statementsUpTo (isEnd : Kind → Bool) :
    ∀ k : Nat, Traced (statementsUpTo isEnd item k)
  | 0 => traced_pure []
  | k + 1 => by
    refine traced_current.bind fun t => .ite (traced_pure []) (.ite ?_ ?_)
    · exact traced_advance.bind fun _ => traced_statementsUpTo isEnd k
    · exact hitem.bind fun s => (traced_statementsUpTo isEnd k).bind fun ss => traced_pure _

/-- So have all statements up to an end. -/
theorem traced_statements (isEnd : Kind → Bool) : Traced (statements isEnd item) :=
  .rounds fun k => traced_statementsUpTo hitem isEnd k

end Repetition

/-! ### Parameters -/

/-- A parameter has a trace, repeated or not. -/
theorem traced_parameter (seen : List String) : Traced (parameter seen) := by
  refine (traced_expect .ident _).bind fun t => ?_
  exact .ite (traced_refuse _ t) (traced_pure t.leaf)

/-- Parameters after commas have traces, by induction on the rounds. -/
theorem traced_parametersAfter : ∀ (seen : List String) (k : Nat), Traced (parametersAfter seen k)
  | _, 0 => traced_pure []
  | seen, k + 1 => by
    refine (traced_accept .comma).bind fun b => .ite ?_ (traced_pure [])
    exact (traced_parameter seen).bind fun p =>
      (traced_parametersAfter (p.text :: seen) k).bind fun ps => traced_pure _

theorem traced_parameters : Traced parameters := by
  have hnames : Traced parameterNames := by
    refine traced_current.bind fun t => .ite (traced_pure []) ?_
    refine (traced_parameter []).bind fun p => ?_
    exact @Traced.rounds _ (fun k => parametersAfter [p.text] k >>= fun ps =>
      pure (.leaf p :: ps)) fun k => (traced_parametersAfter _ k).bind fun ps => traced_pure _
  refine (traced_expectKind .lpar).bind fun _ => hnames.bind fun names => ?_
  exact (traced_expectKind .rpar).bind fun _ => traced_pure _

/-! ### Pieces of constructs -/

section Pieces

variable {expr : Parser Tree} (he : Traced expr)

include he

/-- Links have traces, by induction on the rounds. -/
theorem traced_links {args : Parser (List Tree)} (ha : Traced args) :
    ∀ (k : Nat) (target : Tree), Traced (links expr args k target)
  | 0, target => traced_pure target
  | k + 1, target => by
    refine traced_current.bind fun t => ?_
    split
    next =>
      refine traced_advance.bind fun _ => (traced_expect .ident _).bind fun name => ?_
      exact traced_links ha k _
    next =>
      refine traced_advance.bind fun _ => he.bind fun key => ?_
      exact (traced_expectKind .rsqb).bind fun _ => traced_links ha k _
    next =>
      refine traced_advance.bind fun _ => ha.bind fun as => ?_
      exact (traced_expectKind .rpar).bind fun _ => traced_links ha k _
    next => exact traced_pure target

/-- A list that may be empty has a trace. -/
theorem traced_listUpTo (close : Kind) : Traced (listUpTo close expr) :=
  traced_current.bind fun _ => .ite (traced_pure []) (traced_separated he)

/-- A property has a trace, with a value or without. -/
theorem traced_property : Traced (property expr) := by
  refine (traced_expect .ident _).bind fun key => ?_
  refine (traced_accept .colon).bind fun b => .ite ?_ (traced_pure _)
  exact he.bind fun value => traced_pure _

/-- Properties have traces, by induction on the rounds. -/
theorem traced_properties : ∀ k : Nat, Traced (properties expr k)
  | 0 => traced_pure []
  | k + 1 => by
    refine traced_current.bind fun t => .ite (traced_pure []) ?_
    refine (traced_property he).bind fun prop => ?_
    refine (traced_accept .comma).bind fun b => .ite ?_ (traced_pure [prop])
    exact (traced_properties k).bind fun props => traced_pure _

/-- A declaration has a trace. -/
theorem traced_declaration : Traced (declaration expr) := by
  refine traced_advance.bind fun keyword => (traced_expect .ident _).bind fun name => ?_
  refine traced_current.bind fun t => .ite (.ite (traced_refuse _ t) ?_) ?_
  · exact traced_advance.bind fun _ => traced_pure _
  · refine (traced_expect .equals _).bind fun _ => he.bind fun value => ?_
    exact (traced_expect .semi _).bind fun _ => traced_pure _

theorem traced_arrayOf : Traced (arrayOf expr) := by
  refine (traced_expectKind .lsqb).bind fun t => (traced_listUpTo he .rsqb).bind fun items => ?_
  exact (traced_expect .rsqb _).bind fun _ => traced_pure _

theorem traced_objectOf : Traced (objectOf expr) := by
  refine (traced_expectKind .lbrace).bind fun t => ?_
  refine @Traced.rounds _ (fun k => properties expr k >>= fun props =>
    expect .rbrace .objectEnd >>= fun _ => pure (Tree.node .object (some t.line) props)) fun k => ?_
  refine (traced_properties he k).bind fun props => ?_
  exact (traced_expect .rbrace _).bind fun _ => traced_pure _

theorem traced_blockOf : Traced (blockOf expr) := by
  refine (traced_expect .lbrace _).bind fun _ => (traced_statements he _).bind fun body => ?_
  exact (traced_expect .rbrace _).bind fun _ => traced_pure _

/-- What follows the block of a conditional has a trace. -/
theorem traced_alternative {block : Parser Tree} (hb : Traced block) :
    Traced (alternative expr block) := by
  refine (traced_accept .elseWord).bind fun b => .ite ?_ (traced_pure _)
  refine traced_current.bind fun t => .ite ?_ hb
  exact he.bind fun nested => traced_pure _

end Pieces

/-! ### Constructs -/

/-- Within a budget, every parser has traces. -/
structure AllTraced (n : Nat) : Prop where
  statement : Traced (statement n)
  variableDeclaration : Traced (variableDeclaration n)
  functionDeclaration : Traced (functionDeclaration n)
  conditional : Traced (conditional n)
  block : Traced (block n)
  expression : Traced (expression n)
  assignment : Traced (assignment n)
  logical : Traced (logical n)
  equality : Traced (equality n)
  sum : Traced (sum n)
  product : Traced (product n)
  power : Traced (power n)
  chain : Traced (chain n)
  arguments : Traced (arguments n)
  primary : Traced (primary n)
  object : Traced (object n)
  array : Traced (array n)

namespace AllTraced

variable {n : Nat} (ih : AllTraced n)

include ih

/-- One step of the induction on the budget: a statement, from parsers with less of it. -/
theorem statement_succ : Traced (Parser.statement (n + 1)) := by
  refine traced_current.bind fun t => .ite ih.variableDeclaration ?_
  refine traced_startsFunctionDeclaration.bind fun b => .ite ih.functionDeclaration ?_
  exact .ite ih.conditional ih.expression

/-- A function declaration, from parsers with less budget. -/
theorem functionDeclaration_succ : Traced (Parser.functionDeclaration (n + 1)) := by
  refine (traced_expectKind .funcWord).bind fun _ => (traced_expectKind .ident).bind fun name => ?_
  exact traced_parameters.bind fun params => ih.block.bind fun body => traced_pure _

/-- A conditional, from parsers with less budget. -/
theorem conditional_succ : Traced (Parser.conditional (n + 1)) := by
  refine (traced_expectKind .ifWord).bind fun t => ih.expression.bind fun test => ?_
  refine ih.block.bind fun consequent => ?_
  exact (traced_alternative ih.conditional ih.block).bind fun alternate => traced_pure _

/-- An assignment, from parsers with less budget. -/
theorem assignment_succ : Traced (Parser.assignment (n + 1)) := by
  refine ih.logical.bind fun target => traced_current.bind fun t => .ite ?_ (traced_pure target)
  refine traced_advance.bind fun _ => .ite ?_ (traced_refuse _ t)
  exact ih.assignment.bind fun value => traced_pure _

theorem power_succ : Traced (Parser.power (n + 1)) := by
  refine ih.chain.bind fun base => traced_current.bind fun op => .ite ?_ (traced_pure base)
  exact traced_advance.bind fun _ => ih.power.bind fun exponent => traced_pure _

theorem chain_succ : Traced (Parser.chain (n + 1)) := by
  refine ih.primary.bind fun target => traced_current.bind fun t => .ite ?_ (traced_pure target)
  exact .rounds fun k => traced_links ih.expression ih.arguments k target

/-- A primary expression, from parsers with less budget. -/
theorem primary_succ : Traced (Parser.primary (n + 1)) := by
  refine traced_current.bind fun t => ?_
  split
  next => exact traced_advance.bind fun _ => traced_pure _
  next => exact traced_advance.bind fun _ => traced_pure _
  next => exact traced_advance.bind fun _ => traced_pure _
  next =>
    refine traced_advance.bind fun _ => ih.expression.bind fun e => ?_
    exact (traced_expectKind .rpar).bind fun _ => traced_pure e
  next => exact ih.object
  next => exact ih.array
  next =>
    refine traced_advance.bind fun _ => traced_parameters.bind fun params => ?_
    exact ih.block.bind fun body => traced_pure _
  next => exact traced_refuse _ t

end AllTraced

/-- Every parser has traces, by induction on the budget. -/
theorem allTraced : ∀ n : Nat, AllTraced n
  | 0 => by constructor <;> exact traced_giveUp
  | n + 1 =>
    have ih := allTraced n
    { statement := ih.statement_succ
      variableDeclaration := traced_declaration ih.expression
      functionDeclaration := ih.functionDeclaration_succ
      conditional := ih.conditional_succ
      block := traced_blockOf ih.statement
      expression := ih.assignment
      assignment := ih.assignment_succ
      logical := traced_leftGrouped ih.equality isLogical .condition
      equality := traced_leftGrouped ih.sum isEquality .condition
      sum := traced_leftGrouped ih.product isSum .binary
      product := traced_leftGrouped ih.power isProduct .binary
      power := ih.power_succ
      chain := ih.chain_succ
      arguments := traced_listUpTo ih.expression .rpar
      primary := ih.primary_succ
      object := traced_objectOf ih.expression
      array := traced_arrayOf ih.expression }

theorem traced_program (n : Nat) : Traced (program n) :=
  (traced_statements (allTraced n).statement _).bind fun _ => traced_pure _

end Avii.Parser
