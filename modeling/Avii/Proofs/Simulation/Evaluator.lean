import Avii.Eval

/-!
# Evaluation with other declarations

The parts of evaluation within a budget make up an `Evaluator`, and evaluation with one more step is
put together from the one with a step less (`Evaluator.next`). What a declaration of a function does
is left open. With the declarations of the language this is its evaluation
(`evaluateWith_declarations`).
-/

namespace Avii.Eval

/-- The parts of evaluation, each within the same budget. -/
structure Evaluator where
  tree : ScopeId → Tree → Eval Value
  construct : ScopeId → Label → List Tree → Eval Value
  items : ScopeId → List Tree → Eval (List Value)
  arguments : ScopeId → Tree → Eval (List Value)
  statements : ScopeId → List Tree → Eval Value
  call : Value → List Value → Eval Value
  enter : Closure → List Value → Eval Value

namespace Evaluator

/-- Evaluation without a budget. -/
def exhausted : Evaluator where
  tree _ _ := fail .depth
  construct _ _ _ := fail .depth
  items _ _ := fail .depth
  arguments _ _ := fail .depth
  statements _ _ := fail .depth
  call _ _ := fail .depth
  enter _ _ := fail .depth

/-- Evaluation with one step more than `e`, which has `n`, and with `declare` for the declarations
of functions. -/
def next (declare : ScopeId → List Tree → Eval Value) (n : Nat) (e : Evaluator) : Evaluator where
  tree scope t := located t <|
    match t with
    | .absent => fail (.internal .nothing)
    | .leaf l => leaf scope l
    | .node label _ children => e.construct scope label children
  construct scope label children :=
    match label with
    | .fndecl => declare scope children
    | label => Eval.construct ⟨e.tree scope, e.items scope, e.arguments scope, e.statements scope,
        e.call⟩ scope label children
  items scope ts := all (e.tree scope) ts
  arguments scope t := Eval.arguments (e.items scope) t
  statements scope ts := sequence (e.tree scope) .null ts
  call v vs := apply n e.enter v vs
  enter c vs := callClosure e.statements c vs

end Evaluator

/-- Evaluation within a budget, with `declare` for the declarations of functions. -/
def evaluator (declare : ScopeId → List Tree → Eval Value) : Nat → Evaluator
  | 0 => .exhausted
  | n + 1 => (evaluator declare n).next declare n

/-- Evaluates a program, a statement or an expression in a scope, with `declare` for the
declarations of functions. -/
def evaluateWith (declare : ScopeId → List Tree → Eval Value) (budget : Nat) (scope : ScopeId)
    (t : Tree) : Eval Value := do
  note (.evaluating t.heading)
  (evaluator declare budget).tree scope t

theorem evaluator_declarations : ∀ n : Nat, evaluator functionDeclaration n =
    ⟨evalTree n, evalConstruct n, evalItems n, evalArguments n, evalStatements n, callValue n,
      enterClosure n⟩
  | 0 => rfl
  | n + 1 => by
    rw [evaluator, evaluator_declarations n, Evaluator.next, Evaluator.mk.injEq]
    refine ⟨?_, ?_, rfl, rfl, rfl, rfl, rfl⟩
    · funext scope t
      cases t <;> rfl
    · funext scope label children
      cases label <;> rfl

/-- With the declarations of the language, this is the evaluation of the language. -/
theorem evaluateWith_declarations : evaluateWith functionDeclaration = evaluate := by
  funext budget scope t
  rw [evaluateWith, evaluator_declarations, evaluate]

end Avii.Eval
