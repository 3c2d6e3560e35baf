import Avii.Proofs.Outcome
import Avii.Proofs.Syntax.Decisions
import Mathlib.Tactic.IntervalCases

/-!
# Every parser decides as it goes

`Sure` for all parsers, by induction on the budget (`decided`): none of them looks further than the
next token, but for a statement that starts with `func`, which depends on the token after it too.
Whatever has been read before a refused token can be completed with a budget that is larger by
nine, which is what it takes to read a name as an expression.
-/

namespace Avii.Parser

open Syntax (Level endsExpression sound derives_shorter derives_leads levelOf operandOf)

variable {α : Type} {ts us v : List Token} {n N : Nat}

/-! ## Parsers of all constructs take something -/

/-- A statement takes a token, within every budget. -/
theorem statement_lessens (n : Nat) : Lessens (statement n) := by
  intro ts rest t h
  rcases (sound n).statement h with h | ⟨h, -⟩
  · exact derives_shorter h id
  · exact derives_shorter h id

theorem block_lessens (n : Nat) : Lessens (block n) :=
  fun h => derives_shorter ((sound n).block h) id

theorem expression_lessens (n : Nat) : Lessens (expression n) :=
  fun h => derives_shorter ((sound n).expression h).1 id

theorem operandOf_lessens (ℓ : Level) (n : Nat) : Lessens (operandOf ℓ n) := by
  intro ts rest t h
  cases ℓ with
  | logical => exact derives_shorter ((sound n).equality h).1 id
  | equality => exact derives_shorter ((sound n).sum h).1 id
  | sum => exact derives_shorter ((sound n).product h).1 id
  | product => exact derives_shorter ((sound n).power h).1 id

theorem logical_lessens (n : Nat) : Lessens (logical n) :=
  fun h => derives_shorter ((sound n).logical h).1 id

theorem chain_lessens (n : Nat) : Lessens (chain n) :=
  fun h => derives_shorter ((sound n).chain h).1 id

theorem primary_lessens (n : Nat) : Lessens (primary n) :=
  fun h => derives_shorter ((sound n).primary h) id

/-- Arguments take none if there are none. -/
theorem arguments_shrinks (n : Nat) : Shrinks (arguments n) :=
  fun h => (derives_leads ((sound n).arguments h)).length_le

/-! ## Words for expressions and blocks -/

/-- A primary expression that nothing goes on with is an expression. -/
theorem primary_alone {k : Nat} {t : Tree} {rest : List Token} (h : primary k ts = .ok (t, rest))
    (hrest : Ends (next rest).kind) : expression (k + 8) ts = .ok (t, rest) := by
  refine Grammar.chain_alone (k := k + 1) ?_ hrest.1
  rw [chain, bind_run h, bind_run (current_run _), if_neg (by simp [hrest.not_link])]
  rfl

/-- A name is a primary expression. -/
theorem primary_name {k : Nat} {t : Token} (ht : t.kind = .ident) (us : List Token) :
    primary (k + 1) (t :: us) = .ok (.leaf t.leaf, us) := by
  rw [primary, bind_run (current_run _)]
  simp only [next_cons, ht]
  rw [bind_run (advance_cons (by rw [ht]; decide) us)]
  rfl

/-- A name is an expression, with a budget for all levels. -/
theorem expression_viable (hN : 9 ≤ N) : Viable Ends (· = .ident) (expression N) [] := by
  obtain ⟨k, rfl⟩ : ∃ k, N = k + 1 + 8 := ⟨N - 9, by omega⟩
  refine ⟨[(.ident, plainName 0)], ?_, fun cont rest hcont hrest => ?_⟩
  · intro word hword
    rw [List.mem_singleton.mp hword]
    exact plainName_word 0
  · obtain ⟨t, cont, rfl, ht, hnil⟩ := List.map_eq_cons_iff.mp hcont
    rw [List.map_eq_nil_iff.mp hnil]
    have hkind : t.kind = .ident := (Prod.mk.inj ht).1
    exact ⟨fun _ => hkind, _, primary_alone (primary_name hkind rest) hrest⟩

/-- Two braces are a block. -/
theorem block_viable (hN : 1 ≤ N) : Viable Any (· = .lbrace) (block N) [] := by
  obtain ⟨k, rfl⟩ : ∃ k, N = k + 1 := ⟨N - 1, by omega⟩
  exact blockOf_viable (statement k)

/-! ## All parsers -/

/-- The tokens after which expressions are considered: none, or the start of a function literal, as
a statement that starts with `func` depends on two tokens. -/
inductive Head : List Token → Prop where
  | none : Head []
  | literal {f l : Token} (hf : f.kind = .funcWord) (hl : l.kind = .lpar) : Head [f, l]

/-- What starts an expression is a name, unless it has started. -/
def First (v : List Token) (k : Kind) : Prop := v = [] → k = .ident

/-- A parser of expressions is sure after every head. -/
def Settled (S : Kind → Prop) (p r : Parser Tree) : Prop :=
  ∀ v : List Token, Head v → ∀ us, Sure S (First v) (after v p) (after v r) us

/-- What is settled after every head is decided after none. -/
theorem Settled.sure {S : Kind → Prop} {p r : Parser Tree} (h : Settled S p r) (ts : List Token) :
    Sure S (· = .ident) p r ts :=
  (h [] .none ts).weaken fun _ hk => hk rfl

/-- What all parsers with a budget do is decided as they go, and can be completed with another
budget. -/
structure Decided (n N : Nat) : Prop where
  statement : ∀ ts, Sure Ends (· = .ident) (statement n) (statement N) ts
  variableDeclaration : ∀ {t : Token}, t.kind = .letWord ∨ t.kind = .constWord → ∀ us,
    Sure Any Any (after [t] (variableDeclaration n)) (after [t] (variableDeclaration N)) us
  functionDeclaration : ∀ {f name : Token}, f.kind = .funcWord → name.kind = .ident → ∀ us,
    Sure Any Any (after [f, name] (functionDeclaration n)) (after [f, name] (functionDeclaration N))
      us
  conditional : ∀ {t : Token}, t.kind = .ifWord → ∀ us,
    Sure Ends Any (after [t] (conditional n)) (after [t] (conditional N)) us
  block : ∀ ts, Sure Any (· = .lbrace) (block n) (block N) ts
  expression : Settled Ends (expression n) (expression N)
  assignment : Settled Ends (assignment n) (assignment N)
  logical : Settled Ends (logical n) (logical N)
  equality : Settled Ends (equality n) (equality N)
  sum : Settled Ends (sum n) (sum N)
  product : Settled Ends (product n) (product N)
  power : Settled Ends (power n) (power N)
  chain : Settled Ends (chain n) (chain N)
  arguments : ∀ ts, Sure (· = .rpar) Any (arguments n) (arguments N) ts
  primary : Settled Any (primary n) (primary N)
  object : ∀ {t : Token}, t.kind = .lbrace → ∀ us,
    Sure Any Any (after [t] (object n)) (after [t] (object N)) us
  array : ∀ {t : Token}, t.kind = .lsqb → ∀ us,
    Sure Any Any (after [t] (array n)) (after [t] (array N)) us

/-- Without budget everything is given up. -/
theorem decided_zero (N : Nat) : Decided 0 N := by
  constructor <;> intros <;> (try intro _ _ _) <;> exact .of_tooDeep rfl

/-- What a head starts goes on with any token, or takes more than the head. -/
theorem Head.first {S : Kind → Prop} {p : Parser Tree} (hv : Head v) (hp : Lessens p) :
    (∀ k, S k → First v k) ∨ ∀ {a : Tree} {rest : List Token}, after v p us = .ok (a, rest) →
      rest.length < us.length := by
  cases hv with
  | none => exact .inr hp
  | literal => exact .inl fun k _ hnil => by cases hnil

section Succ

/-- A level of operators is settled if its operands are. -/
theorem leftGrouped_settled {ℓ : Level} (h : Settled Ends (operandOf ℓ n) (operandOf ℓ N)) :
    Settled Ends (levelOf ℓ (n + 1)) (levelOf ℓ (N + 1)) := by
  intro v hv us
  have hcompanions : Companions (operandOf ℓ n) (operandOf ℓ N) :=
    ⟨h.sure, operandOf_lessens ℓ n, operandOf_lessens ℓ N⟩
  rw [Syntax.levelOf_succ, Syntax.levelOf_succ, leftGrouped_joined, leftGrouped_joined]
  exact (h v hv us).bind (f := joined ℓ (operandOf ℓ n)) (g := joined ℓ (operandOf ℓ N))
    (fun _ _ => joined_sure hcompanions _ _) (joined_fresh ℓ id) (hv.first (operandOf_lessens ℓ n))
    (.inl fun _ h => h)

/-- What follows the target of an assignment, if it is one. -/
def assignmentTail (value : Parser Tree) (target : Tree) : Parser Tree := do
  let t ← current
  if t.kind = .equals then
    let _ ← advance
    if isName target then
      let value ← value
      return .node .assign (some t.line) [target, value]
    else refuse .invalidTarget t
  else return target

/-- Without an equals sign there is nothing to assign. -/
theorem assignmentTail_stop {value : Parser Tree} (h : (next ts).kind ≠ .equals) (target : Tree) :
    assignmentTail value target ts = .ok (target, ts) := by
  rw [assignmentTail, bind_run (current_run _), if_neg h]
  rfl

/-- An expression may end after its first half. -/
theorem assignmentTail_fresh (value : Parser Tree) :
    Fresh Ends Ends fun target => assignmentTail value target :=
  fresh_nil (fun _ h => h) fun target _ hrest => ⟨_, assignmentTail_stop hrest.1.2.2.2.2.2 target⟩

/-- An equals sign after anything but a name is refused, where the expression could have ended. -/
theorem assignmentTail_sure {value value' : Parser Tree}
    (h : ∀ ts, Sure Ends (· = .ident) value value' ts) (target : Tree) (ts : List Token) :
    Sure Ends Ends (assignmentTail value target) (assignmentTail value' target) ts := by
  by_cases hk : (next ts).kind = .equals
  · have hinner : (next ts).kind ≠ .eof := by rw [hk]; decide
    obtain ⟨us, hus⟩ := next_inner hinner
    have hrun : ∀ (q : Parser Tree) (us : List Token), assignmentTail q target (next ts :: us) =
        (if isName target then
          q >>= fun e => pure (.node .assign (some (next ts).line) [target, e])
        else refuse .invalidTarget (next ts) : Parser Tree) us := by
      intro q us
      rw [assignmentTail, bind_run (current_run _), next_cons, if_pos hk,
        bind_run (advance_cons hinner us)]
    by_cases hname : isName target = true
    · simp only [if_pos hname] at hrun
      rw [hus]
      exact .take hinner (hrun value) (hrun value') ((h us).any.map _)
    · simp only [if_neg hname] at hrun
      refine .refuses .invalidTarget (fun vs hvs => ?_)
        ((assignmentTail_fresh value').viable target)
      obtain ⟨ws, hws⟩ := next_inner (hvs ▸ hinner : (next vs).kind ≠ .eof)
      rw [hws, hvs, hrun]
      rfl
  · have hstop : ∀ rest, next rest = next ts ∨ Ends (next rest).kind →
        (next rest).kind ≠ .equals :=
      fun rest hrest => hrest.elim (fun h => h ▸ hk) fun h => h.1.2.2.2.2.2
    exact .stays (fun rest hrest => assignmentTail_stop (hstop rest hrest) target)
      (fun rest hrest => assignmentTail_stop (hstop rest hrest) target)

/-- What follows the base of a power, if it is one. -/
def powerTail (exponent : Parser Tree) (base : Tree) : Parser Tree := do
  let op ← current
  if isPower op then
    let _ ← advance
    let exponent ← exponent
    return .node .binary (some op.line) [base, .leaf op.leaf, exponent]
  else return base

/-- Without its sign there is no power. -/
theorem powerTail_stop {exponent : Parser Tree} (h : isPower (next ts) = false) (base : Tree) :
    powerTail exponent base ts = .ok (base, ts) := by
  rw [powerTail, bind_run (current_run _), if_neg (by simp [h])]
  rfl

/-- What is raised to a power is decided if exponents are. -/
theorem powerTail_sure {exponent exponent' : Parser Tree}
    (h : ∀ ts, Sure Ends (· = .ident) exponent exponent' ts) (base : Tree) (ts : List Token) :
    Sure Ends Ends (powerTail exponent base) (powerTail exponent' base) ts := by
  cases hop : isPower (next ts) with
  | true =>
    have hinner : (next ts).kind ≠ .eof := by rw [Syntax.kind_of_isOneOf hop]; decide
    obtain ⟨us, hus⟩ := next_inner hinner
    have hrun : ∀ (q : Parser Tree) (us : List Token), powerTail q base (next ts :: us) =
        (q >>= fun e => pure
          (.node .binary (some (next ts).line) [base, .leaf (next ts).leaf, e])) us := by
      intro q us
      rw [powerTail, bind_run (current_run _), next_cons, if_pos hop,
        bind_run (advance_cons hinner us)]
    rw [hus]
    exact .take hinner (hrun exponent) (hrun exponent') ((h us).any.map _)
  | false =>
    have hstop : ∀ rest, next rest = next ts ∨ Ends (next rest).kind →
        isPower (next rest) = false :=
      fun rest hrest => hrest.elim (fun h => h ▸ hop) Ends.not_power
    exact .stays (fun rest hrest => powerTail_stop (hstop rest hrest) base)
      (fun rest hrest => powerTail_stop (hstop rest hrest) base)

/-- What follows `else`: another conditional, or a block. -/
def otherBranch (conditional block : Parser Tree) : Parser Tree := do
  if (← current).kind = .ifWord then
    let nested ← conditional
    return .node .body none [nested]
  else block

/-- The links that follow a primary expression, however many they are. -/
theorem chain_linked (n : Nat) :
    chain (n + 1) = primary n >>= linked (expression n) (arguments n) := by
  funext ts
  rw [chain]
  refine bind_congr fun target rest _ => ?_
  rw [bind_run (current_run _)]
  split
  next => rfl
  next hlink => exact (linked_stop (by simpa using hlink) target).symm

section Constructs

variable (ih : Decided n N)
include ih

/-- An assignment is settled if its halves are. -/
theorem assignment_settled : Settled Ends (assignment (n + 1)) (assignment (N + 1)) := by
  intro v hv us
  exact (ih.logical v hv us).bind (f := assignmentTail (assignment n))
    (g := assignmentTail (assignment N)) (fun _ _ => assignmentTail_sure ih.assignment.sure _ _)
    (assignmentTail_fresh _) (hv.first (logical_lessens n)) (.inl fun _ h => h)

/-- A power is settled if base and exponent are. -/
theorem power_settled : Settled Ends (power (n + 1)) (power (N + 1)) := by
  intro v hv us
  exact (ih.chain v hv us).bind (f := powerTail (power n)) (g := powerTail (power N))
    (fun _ _ => powerTail_sure ih.power.sure _ _)
    (fresh_nil (fun _ h => h) fun base _ hrest => ⟨_, powerTail_stop hrest.not_power base⟩)
    (hv.first (chain_lessens n)) (.inl fun _ h => h)

/-- Expressions with two budgets are companions in what they are parts of. -/
theorem expression_companions : Companions (expression n) (expression N) :=
  ⟨ih.expression.sure, expression_lessens n, expression_lessens N⟩

/-- A chain is settled if primary expressions and the parts of links are. -/
theorem chain_settled : Settled Ends (chain (n + 1)) (chain (N + 1)) := by
  intro v hv us
  rw [chain_linked, chain_linked]
  exact (ih.primary v hv us).bind (f := linked (expression n) (arguments n))
    (g := linked (expression N) (arguments N))
    (fun _ _ => linked_sure (expression_companions ih) (arguments_shrinks n) (arguments_shrinks N)
      ih.arguments _ _)
    (linked_fresh id) (hv.first (primary_lessens n)) (.inl fun _ _ => trivial)

theorem listUpTo_companions {close : Kind} (hclose : Ends close) (hident : close ≠ .ident)
    (ts : List Token) :
    Sure (· = close) Any (listUpTo close (expression n)) (listUpTo close (expression N)) ts :=
  listUpTo_sure (expression_companions ih) hclose hident ts

/-- An object is decided from its brace on. -/
theorem object_sure {t : Token} (ht : t.kind = .lbrace) (us : List Token) :
    Sure Any Any (after [t] (object (n + 1))) (after [t] (object (N + 1))) us := by
  have hrun : ∀ m, after [t] (object (m + 1)) = listed (expression m) >>= fun props =>
      expect .rbrace .objectEnd >>= fun _ => pure (.node .object (some t.line) props) := by
    intro m
    funext vs
    show objectOf (expression m) (t :: vs) = _
    rw [objectOf, bind_run (expectKind_cons ht (by decide) vs), bind_run (get_run vs)]
    rfl
  rw [hrun, hrun]
  exact (listed_sure (expression_companions ih) us).bind_expect (by decide) (mark_word '\x7d' rfl)
    rfl (fun _ _ => .pure _) (fresh_pure _) (.inl fun _ _ => trivial)

/-- An array is decided from its bracket on. -/
theorem array_sure {t : Token} (ht : t.kind = .lsqb) (us : List Token) :
    Sure Any Any (after [t] (array (n + 1))) (after [t] (array (N + 1))) us := by
  have hrun : ∀ m, after [t] (array (m + 1)) = listUpTo .rsqb (expression m) >>= fun items =>
      expect .rsqb .arrayEnd >>= fun _ => pure (.node .array (some t.line) items) := by
    intro m
    funext vs
    show arrayOf (expression m) (t :: vs) = _
    rw [arrayOf, bind_run (expectKind_cons ht (by decide) vs)]
  rw [hrun, hrun]
  exact (listUpTo_companions ih (by simp [Ends, endsExpression]) (by decide) us).bind_expect
    (by decide) (mark_word ']' rfl) rfl (fun _ _ => .pure _) (fresh_pure _)
    (.inl fun _ _ => trivial)

omit ih in
/-- Empty parentheses and braces complete a function. -/
theorem functionTail_fresh {ι : Type} (hN : 1 ≤ N) (f : ι → Tree → Tree → Tree) :
    Fresh Any Any fun i => parametersTail >>= fun params => block N >>= fun body =>
      pure (f i params body) :=
  parametersTail_fresh.bind
    (.map ((block_viable hN).fresh.weaken fun _ _ => trivial)
      fun (x : ι × Tree) body => f x.1 x.2 body)

/-- The parameters and the body of a function. -/
theorem functionTail_sure (hN : 1 ≤ N) (f : Tree → Tree → Tree) (us : List Token) : Sure Any Any
    (parametersTail >>= fun params => block n >>= fun body => pure (f params body))
    (parametersTail >>= fun params => block N >>= fun body => pure (f params body)) us :=
  (parametersTail_sure us).bind (fun _ _ => (ih.block _).any.map _)
    (.map ((block_viable hN).fresh.weaken fun _ _ => trivial) _) (.inl fun _ h => h)
    (.inl fun _ h => h)

/-- A function declaration is decided from its name on. -/
theorem functionDeclaration_sure (hN : 1 ≤ N) {f name : Token} (hf : f.kind = .funcWord)
    (hname : name.kind = .ident) (us : List Token) :
    Sure Any Any (after [f, name] (functionDeclaration (n + 1)))
      (after [f, name] (functionDeclaration (N + 1))) us := by
  have hrun : ∀ m, after [f, name] (functionDeclaration (m + 1)) = expectKind .lpar >>= fun _ =>
      parametersTail >>= fun params => block m >>= fun body =>
        pure (.node .fndecl (some name.line) [.leaf name.leaf, params, body]) := by
    intro m
    funext vs
    show functionDeclaration (m + 1) (f :: name :: vs) = _
    rw [functionDeclaration, bind_run (expectKind_cons hf (by decide) _),
      bind_run (expectKind_cons hname (by decide) _), parameters_tail, bind_assoc]
  rw [hrun, hrun]
  exact .expect (by decide) (mark_word '(' rfl) trivial
    (fun {_ vs} _ _ => functionTail_sure ih hN _ vs) (functionTail_fresh hN _)

/-- A variable declaration is decided from its keyword on. -/
theorem variableDeclaration_sure (hN : 9 ≤ N) {t : Token}
    (ht : t.kind = .letWord ∨ t.kind = .constWord) (us : List Token) :
    Sure Any Any (after [t] (variableDeclaration (n + 1))) (after [t] (variableDeclaration (N + 1)))
      us := by
  have hrun : ∀ m, after [t] (variableDeclaration (m + 1)) =
      expect .ident (fun _ => .declarationName t.text) >>= declarationTail (expression m) t := by
    intro m
    funext vs
    exact declaration_cons (by rcases ht with h | h <;> rw [h] <;> decide) vs
  rw [hrun, hrun]
  exact (declaration_sure (expression_companions ih) (expression_viable hN) t us).any

/-! ### Primary expressions -/

omit ih in
/-- The word for functions and a parenthesis start a literal. -/
theorem primary_literal {f l : Token} (hf : f.kind = .funcWord) (hl : l.kind = .lpar) (m : Nat)
    (us : List Token) : primary (m + 1) (f :: l :: us) =
      (parametersTail >>= fun params => block m >>= fun body =>
        pure (.node .fnliteral (some f.line) [params, body])) us := by
  rw [primary, bind_run (current_run _)]
  simp only [next_cons, hf]
  rw [bind_run (advance_cons (by rw [hf]; decide) _), parameters_tail, bind_assoc,
    bind_run (expectKind_cons hl (by decide) us)]

omit ih in
/-- After `func` there is a parenthesis, or nothing of use. -/
theorem primary_func {f : Token} (hf : f.kind = .funcWord) (h : (next us).kind ≠ .lpar) (m : Nat) :
    primary (m + 1) (f :: us) =
      .error (.invalid ⟨.wanted .lpar (next us).kind, some (next us).place⟩) := by
  rw [primary, bind_run (current_run _)]
  simp only [next_cons, hf]
  rw [bind_run (advance_cons (by rw [hf]; decide) us), parameters_tail, bind_assoc]
  refine bind_error.mpr (.inl ?_)
  rw [expectKind, expect, bind_run (current_run _), if_neg h]
  rfl

omit ih in
/-- A literal can be completed after the word for functions. -/
theorem literal_viable {f : Token} (hf : f.kind = .funcWord) (hN : 1 ≤ N) :
    Viable Any (· = .lpar) (after [f] (primary (N + 1))) [] := by
  have h : Fresh Any (· = .lpar) fun _ : Unit => after [f] (primary (N + 1)) :=
    fresh_cons (fun _ _ => parametersTail >>= fun params => block N >>= fun body =>
      pure (.node .fnliteral (some f.line) [params, body])) (mark_word '(' rfl)
      (fun _ l us hl _ => primary_literal hf hl N us) rfl (functionTail_fresh hN _)
  exact h.viable ()

/-- A primary expression is settled: each has its own first token. -/
theorem primary_settled (hN : 1 ≤ N) : Settled Any (primary (n + 1)) (primary (N + 1)) := by
  rintro v hv us
  cases hv with
  | @literal f l hf hl =>
    have hrun : ∀ m, after [f, l] (primary (m + 1)) = parametersTail >>= fun params =>
        block m >>= fun body => pure (.node .fnliteral (some f.line) [params, body]) :=
      fun m => funext (primary_literal hf hl m)
    rw [hrun, hrun]
    exact (functionTail_sure ih hN _ us).weaken fun _ _ hnil => by cases hnil
  | none =>
    show Sure Any (First []) (primary (n + 1)) (primary (N + 1)) us
    cases hk : (next us).kind with
    | number | string | ident =>
      have hinner : (next us).kind ≠ .eof := by rw [hk]; decide
      obtain ⟨vs, hvs⟩ := next_inner hinner
      have hrun : ∀ m vs, primary (m + 1) (next us :: vs) =
          (pure (.leaf (next us).leaf) : Parser Tree) vs := by
        intro m vs
        rw [primary, bind_run (current_run _)]
        simp only [next_cons, hk]
        rw [bind_run (advance_cons hinner vs)]
      rw [hvs]
      exact .take hinner (hrun n) (hrun N) (.pure _)
    | lpar =>
      have hinner : (next us).kind ≠ .eof := by rw [hk]; decide
      obtain ⟨vs, hvs⟩ := next_inner hinner
      have hrun : ∀ m vs, primary (m + 1) (next us :: vs) =
          (expression m >>= fun e => expectKind .rpar >>= fun _ => pure e) vs := by
        intro m vs
        rw [primary, bind_run (current_run _)]
        simp only [next_cons, hk]
        rw [bind_run (advance_cons hinner vs)]
      rw [hvs]
      refine .take hinner (hrun n) (hrun N) ?_
      exact (ih.expression.sure vs).any.bind_expect (by decide) (mark_word ')' rfl)
        (by simp [Ends, endsExpression]) (fun _ _ => .pure _) (fresh_pure _)
        (.inl fun _ _ => trivial)
    | lbrace =>
      have hinner : (next us).kind ≠ .eof := by rw [hk]; decide
      obtain ⟨vs, hvs⟩ := next_inner hinner
      have hrun : ∀ m vs, primary (m + 1) (next us :: vs) = after [next us] (object m) vs := by
        intro m vs
        rw [primary, bind_run (current_run _)]
        simp only [next_cons, hk]
        rfl
      rw [hvs]
      exact .take hinner (hrun n) (hrun N) (ih.object hk vs)
    | lsqb =>
      have hinner : (next us).kind ≠ .eof := by rw [hk]; decide
      obtain ⟨vs, hvs⟩ := next_inner hinner
      have hrun : ∀ m vs, primary (m + 1) (next us :: vs) = after [next us] (array m) vs := by
        intro m vs
        rw [primary, bind_run (current_run _)]
        simp only [next_cons, hk]
        rfl
      rw [hvs]
      exact .take hinner (hrun n) (hrun N) (ih.array hk vs)
    | funcWord =>
      have hinner : (next us).kind ≠ .eof := by rw [hk]; decide
      obtain ⟨vs, hvs⟩ := next_inner hinner
      rw [hvs]
      by_cases hl : (next vs).kind = .lpar
      · obtain ⟨ws, hws⟩ := next_inner (by rw [hl]; decide : (next vs).kind ≠ .eof)
        rw [hws]
        refine Sure.past (v := [next us, next vs]) ?_ (by simp) (primary_literal hk hl n)
          (primary_literal hk hl N) (functionTail_sure ih hN _ ws)
        exact (inner_singleton hinner).append (inner_singleton (by rw [hl]; decide))
      · refine .of_after (v := [next us]) (inner_singleton hinner) (by simp)
          (.refuses (.wanted .lpar (next vs).kind) (fun ws hws => ?_)
            ((literal_viable hk hN).weaken fun _ _ => trivial))
        rw [← hws]
        exact primary_func hk (hws ▸ hl) n
    | _ =>
      refine .refuses (.noExpression (next us).kind (next us).text) (fun vs hvs => ?_) ?_
      · rw [primary, bind_run (current_run _), hvs]
        simp only [hk]
        rfl
      · have h : Fresh Any (First []) fun _ : Unit => primary (N + 1) :=
          fresh_cons (fun _ t => pure (.leaf t.leaf)) (plainName_word 0)
            (fun _ t us ht _ => primary_name ht us) (fun _ => rfl) (fresh_pure _)
        exact h.viable ()

/-! ### Conditionals -/

omit ih in
/-- The word for alternatives leads to another branch. -/
theorem alternative_cons {c b : Parser Tree} {t : Token} (ht : t.kind = .elseWord)
    (us : List Token) : alternative c b (t :: us) = otherBranch c b us := by
  rw [alternative, bind_run (accept_cons ht (by decide) us)]
  rfl

omit ih in
/-- Without it there is none. -/
theorem alternative_stop {c b : Parser Tree} (h : (next ts).kind ≠ .elseWord) :
    alternative c b ts = .ok (.absent, ts) := by
  rw [alternative, bind_run (accept_other h)]
  rfl

/-- Another branch is decided: a conditional or a block. -/
theorem otherBranch_sure (ts : List Token) : Sure Ends Any
    (otherBranch (conditional n) (block n)) (otherBranch (conditional N) (block N)) ts := by
  by_cases hk : (next ts).kind = .ifWord
  · have hinner : (next ts).kind ≠ .eof := by rw [hk]; decide
    obtain ⟨us, hus⟩ := next_inner hinner
    have hrun : ∀ m us, otherBranch (conditional m) (block m) (next ts :: us) =
        (after [next ts] (conditional m) >>= fun t => pure (.node .body none [t])) us := by
      intro m us
      rw [otherBranch, bind_run (current_run _), next_cons, if_pos hk]
      rfl
    rw [hus]
    exact .take hinner (hrun n) (hrun N) ((ih.conditional hk us).map _)
  · have hrun : ∀ m us, (next us).kind ≠ .ifWord →
        otherBranch (conditional m) (block m) us = block m us := by
      intro m us hus
      rw [otherBranch, bind_run (current_run _), if_neg hus]
    exact (Sure.of_first (C := (· ≠ .ifWord)) hk (hrun n) (hrun N)
      ((ih.block ts).narrow fun _ _ => trivial) (by rintro k rfl; decide) (block_lessens n)).any

theorem alternative_sure (ts : List Token) : Sure Ends Any
    (alternative (conditional n) (block n)) (alternative (conditional N) (block N)) ts := by
  by_cases hk : (next ts).kind = .elseWord
  · have hinner : (next ts).kind ≠ .eof := by rw [hk]; decide
    obtain ⟨us, hus⟩ := next_inner hinner
    rw [hus]
    exact .take hinner (alternative_cons hk) (alternative_cons hk) (otherBranch_sure ih us)
  · have hstop : ∀ rest, next rest = next ts ∨ Ends (next rest).kind →
        (next rest).kind ≠ .elseWord :=
      fun rest hrest => hrest.elim (fun h => h ▸ hk) fun h => h.2.1
    exact .stays (fun rest hrest => alternative_stop (hstop rest hrest))
      (fun rest hrest => alternative_stop (hstop rest hrest))

/-- A conditional is decided from its keyword on. -/
theorem conditional_sure (hN : 1 ≤ N) {t : Token} (ht : t.kind = .ifWord) (us : List Token) :
    Sure Ends Any (after [t] (conditional (n + 1))) (after [t] (conditional (N + 1))) us := by
  have hrun : ∀ m, after [t] (conditional (m + 1)) = expression m >>= fun test =>
      block m >>= fun consequent => alternative (conditional m) (block m) >>= fun alternate =>
        pure (.node .ifstmt (some t.line) [test, consequent, alternate]) := by
    intro m
    funext vs
    show conditional (m + 1) (t :: vs) = _
    rw [conditional, bind_run (expectKind_cons ht (by decide) vs)]
  have hbrace : ∀ k, k = .lbrace → Ends k := by
    rintro k rfl
    simp [Ends, endsExpression]
  have hfresh : ∀ {ι : Type} (f : ι → Tree → Tree), Fresh Ends Any fun i =>
      alternative (conditional N) (block N) >>= fun alternate => pure (f i alternate) :=
    fun f => .map (fresh_nil (fun _ _ => trivial) fun _ _ hrest =>
      ⟨_, alternative_stop hrest.2.1⟩) f
  rw [hrun, hrun]
  refine (ih.expression.sure us).any.bind (fun {test mid} _ _ => ?_) ?_ (.inl fun _ _ => trivial)
    (.inl fun _ h => h)
  · refine Sure.weaken ?_ hbrace
    exact (ih.block mid).bind (fun _ _ => (alternative_sure ih _).map _) (hfresh _)
      (.inr (block_lessens n)) (.inl fun _ _ => trivial)
  · exact ((block_viable hN).fresh.weaken hbrace).bind
      (hfresh fun (x : Tree × Tree) a => .node .ifstmt (some t.line) [x.1, x.2, a])

/-! ### Statements -/

omit ih in
/-- With a budget for the primary expression alone, what that refuses is refused. -/
theorem expression_error {m : Nat} {e : Refusal} (h : primary m ts = .error e) :
    expression (m + 8) ts = .error e := by
  rw [expression, assignment, logical, equality, sum, product, power, chain]
  simp only [leftGrouped]
  repeat refine bind_error.mpr (.inl ?_)
  exact h

omit ih in
/-- With less of it, every expression is given up. -/
theorem expression_tooDeep (h : n ≤ 8) (ts : List Token) : expression n ts = .error .tooDeep := by
  interval_cases n <;> rfl

omit ih in
/-- A keyword of declarations leads to a variable declaration. -/
theorem statement_declaration {t : Token} (h : t.kind = .letWord ∨ t.kind = .constWord) (m : Nat)
    (us : List Token) :
    statement (m + 1) (t :: us) = after [t] (variableDeclaration m) us := by
  rw [statement, bind_run (current_run _), next_cons, if_pos h]
  rfl

omit ih in
/-- The word for functions and a name lead to a function declaration. -/
theorem statement_function {f name : Token} (hf : f.kind = .funcWord) (hname : name.kind = .ident)
    (m : Nat) (us : List Token) :
    statement (m + 1) (f :: name :: us) = after [f, name] (functionDeclaration m) us := by
  obtain ⟨starts, hrun, hiff⟩ := Syntax.startsFunctionDeclaration_run (f :: name :: us)
  rw [statement, bind_run (current_run _), if_neg (by simp [hf]), bind_run hrun,
    if_pos (hiff.mpr ⟨f, name, us, rfl, hf, hname⟩)]
  rfl

omit ih in
/-- What is no declaration is a conditional or an expression. -/
theorem statement_otherwise (hword : ¬ ((next ts).kind = .letWord ∨ (next ts).kind = .constWord))
    (hfunc : (next ts).kind = .funcWord → (next ts.tail).kind ≠ .ident) (m : Nat) :
    statement (m + 1) ts =
      (if (next ts).kind = .ifWord then conditional m else expression m) ts := by
  obtain ⟨starts, hrun, hiff⟩ := Syntax.startsFunctionDeclaration_run ts
  have hstarts : ¬ starts = true := by
    rw [hiff]
    rintro ⟨f, name, us, rfl, hf, hname⟩
    exact hfunc hf hname
  rw [statement, bind_run (current_run _), if_neg hword, bind_run hrun, if_neg hstarts]

omit ih in
/-- After `func` and anything but a name, a statement is an expression. -/
theorem statement_func {f : Token} (hf : f.kind = .funcWord) (h : (next us).kind ≠ .ident)
    (m : Nat) : statement (m + 1) (f :: us) = expression m (f :: us) := by
  refine (@statement_otherwise (f :: us) (by simp [hf]) (fun _ => h) m).trans ?_
  rw [next_cons, if_neg (by simp [hf])]

/-- A statement that starts with `func` is a declaration if a name follows. It is refused at the
token after `func` if neither a name nor a parenthesis does. -/
theorem function_statement_sure (hN : n + 9 ≤ N) {f : Token} (hf : f.kind = .funcWord)
    (us : List Token) : Sure Ends Any (after [f] (statement (n + 1)))
      (after [f] (statement (N + 1))) us := by
  by_cases hname : (next us).kind = .ident
  · have hinner : (next us).kind ≠ .eof := by rw [hname]; decide
    obtain ⟨vs, hvs⟩ := next_inner hinner
    rw [hvs]
    exact .take hinner (statement_function hf hname n) (statement_function hf hname N)
      ((ih.functionDeclaration hf hname vs).narrow fun _ _ => trivial)
  by_cases hl : (next us).kind = .lpar
  · have hinner : (next us).kind ≠ .eof := by rw [hl]; decide
    obtain ⟨vs, hvs⟩ := next_inner hinner
    have hrun : ∀ m ws, after [f] (statement (m + 1)) (next us :: ws) =
        after [f, next us] (expression m) ws :=
      fun m ws => statement_func hf (by simpa using hname) m
    rw [hvs]
    exact .take hinner (hrun n) (hrun N) (ih.expression _ (.literal hf hl) vs).any
  by_cases hn : n ≤ 8
  · exact .of_tooDeep ((statement_func hf hname n).trans (expression_tooDeep hn _))
  · obtain ⟨m, rfl⟩ : ∃ m, n = m + 1 + 8 := ⟨n - 9, by omega⟩
    obtain ⟨M, rfl⟩ : ∃ M, N = M + 1 + 8 := ⟨N - 9, by omega⟩
    refine .refuses (.wanted .lpar (next us).kind) (fun vs hvs => ?_) ?_
    · refine (statement_func hf (hvs ▸ hname) _).trans (expression_error ?_)
      rw [← hvs]
      exact primary_func hf (hvs ▸ hl) m
    · obtain ⟨words, hwords, hviable⟩ := literal_viable hf (by omega : 1 ≤ M)
      refine ⟨words, hwords, fun cont rest hcont hrest => ⟨fun _ => trivial, ?_⟩⟩
      obtain ⟨hfirst, a, ha⟩ := hviable cont rest hcont trivial
      have hname : (next (cont ++ rest)).kind ≠ .ident := by
        rw [hfirst rfl]
        decide
      exact ⟨a, (statement_func hf hname _).trans (primary_alone ha hrest)⟩

/-- A statement is decided, though one that starts with the word for functions only from its second
token on. -/
theorem statement_sure (hN : n + 9 ≤ N) (ts : List Token) :
    Sure Ends (· = .ident) (statement (n + 1)) (statement (N + 1)) ts := by
  by_cases hword : (next ts).kind = .letWord ∨ (next ts).kind = .constWord
  · have hinner : (next ts).kind ≠ .eof := by rcases hword with h | h <;> rw [h] <;> decide
    obtain ⟨us, hus⟩ := next_inner hinner
    rw [hus]
    exact .take hinner (statement_declaration hword n) (statement_declaration hword N)
      ((ih.variableDeclaration hword us).narrow fun _ _ => trivial)
  by_cases hfunc : (next ts).kind = .funcWord
  · have hinner : (next ts).kind ≠ .eof := by rw [hfunc]; decide
    obtain ⟨us, hus⟩ := next_inner hinner
    rw [hus]
    exact .of_after (v := [next ts]) (inner_singleton hinner) (by simp)
      (function_statement_sure ih hN hfunc us)
  by_cases hif : (next ts).kind = .ifWord
  · have hinner : (next ts).kind ≠ .eof := by rw [hif]; decide
    obtain ⟨us, hus⟩ := next_inner hinner
    have hrun : ∀ m us, statement (m + 1) (next ts :: us) = after [next ts] (conditional m) us := by
      intro m us
      refine (@statement_otherwise (next ts :: us) hword (fun h => absurd h hfunc) m).trans ?_
      rw [next_cons, if_pos hif]
      rfl
    rw [hus]
    exact .take hinner (hrun n) (hrun N) (ih.conditional hif us)
  · have hrun : ∀ m us, (next us).kind ≠ .letWord ∧ (next us).kind ≠ .constWord ∧
        (next us).kind ≠ .funcWord ∧ (next us).kind ≠ .ifWord →
        statement (m + 1) us = expression m us := by
      rintro m us ⟨hlet, hconst, hfunc, hif⟩
      rw [statement_otherwise (not_or.mpr ⟨hlet, hconst⟩) (fun h => absurd h hfunc), if_neg hif]
    obtain ⟨hlet, hconst⟩ := not_or.mp hword
    exact .of_first (C := fun k => k ≠ .letWord ∧ k ≠ .constWord ∧ k ≠ .funcWord ∧ k ≠ .ifWord)
      ⟨hlet, hconst, hfunc, hif⟩ (hrun n) (hrun N) (ih.expression.sure ts)
      (by rintro k rfl; decide) (expression_lessens n)

end Constructs

end Succ

/-- What all parsers do is decided as they go, and can be completed with a budget that is larger
by nine. -/
theorem decided : ∀ {n N : Nat}, n + 9 ≤ N → Decided n N
  | 0, N, _ => decided_zero N
  | n + 1, 0, h => by omega
  | n + 1, N + 1, h =>
    have hN : n + 9 ≤ N := by omega
    have ih : Decided n N := decided hN
    have hone : 1 ≤ N := by omega
    have hend : Ends .rpar := by simp [Ends, endsExpression]
    { statement := statement_sure ih hN
      variableDeclaration := variableDeclaration_sure ih (by omega)
      functionDeclaration := functionDeclaration_sure ih hone
      conditional := conditional_sure ih hone
      block := blockOf_sure ih.statement (statement_lessens n) (statement_lessens N)
      expression := ih.assignment
      assignment := assignment_settled ih
      logical := @leftGrouped_settled n N .logical ih.equality
      equality := @leftGrouped_settled n N .equality ih.sum
      sum := @leftGrouped_settled n N .sum ih.product
      product := @leftGrouped_settled n N .product ih.power
      power := power_settled ih
      chain := chain_settled ih
      arguments := listUpTo_companions ih hend (by decide)
      primary := primary_settled ih hone
      object := object_sure ih
      array := array_sure ih }

/-! ## Programs -/

/-- A list of tokens that ends in `eof` is read by the parser of programs. -/
theorem run_of_last {e : Token} (hlast : ts.getLast? = some e) (he : e.kind = .eof) :
    (program n).run ts = (program n ts).map (·.1) := by
  rw [run, hlast]
  simp [he]

theorem map_error {e : Refusal} {x : Except Refusal (Tree × List Token)}
    (h : x.map (·.1) = .error e) : x = .error e :=
  map_eq_error.mp h

/-- A program is decided, and can be completed with a budget for nine more calls. -/
theorem program_sure (h : n + 9 ≤ N) (ts : List Token) :
    Sure (· = .eof) Ends (program n) (program N) ts :=
  have hend : Ends .eof := by simp [Ends, endsExpression]
  (statements_sure (decided h).statement (statement_lessens n) (statement_lessens N) rfl rfl hend
    rfl ts).map _

end Avii.Parser

/-- A list with one end, which is its last token, has one. -/
theorem Avii.Syntax.EndsOnce.last {ts : List Avii.Token} (h : Avii.Syntax.EndsOnce ts) :
    ∃ e, ts.getLast? = some e ∧ e.kind = .eof ∧ Avii.Parser.Ended ts := by
  obtain ⟨body, e, rfl, he, -⟩ := h
  exact ⟨e, by simp, he, e, by simp, he⟩
