import Avii.Proofs.Eval.Afterwards

/-!
# Larger budgets

A larger budget changes nothing about an evaluation that ends within a smaller one, and an
evaluation that the smaller one cuts short has printed the beginning of what the larger one lets it
print (`outlasts_evaluate`).

`Outlasts` says this of two computations, from every machine. What is cut short has still changed
the machine, and what comes after it is not carried out; so a sequence outlasts another only because
what comes after it never takes back a printed text. This is the part of `Outlasts` that is about
the longer computation alone, and it comes first: an evaluation within any budget outlasts itself
(`outlasting_self`), and then one within a larger budget outlasts it (`outlasting`). Both are
inductions on the smaller budget with the same step.
-/

namespace Avii.Eval

variable {α β : Type}

/-- What the first machine has printed is the beginning of what the second has. -/
def PrintsOn (m m' : Machine) : Prop :=
  ∃ more, m'.output = m.output ++ more

/-- To print nothing is to print on. -/
theorem PrintsOn.of_eq {m m' : Machine} (h : m'.output = m.output) : PrintsOn m m' :=
  ⟨"", by rw [h, String.append_empty]⟩

/-- A machine prints on from itself. -/
theorem PrintsOn.refl (m : Machine) : PrintsOn m m :=
  .of_eq rfl

/-- What is printed further on is printed on. -/
theorem PrintsOn.trans {m₁ m₂ m₃ : Machine} (h : PrintsOn m₁ m₂) (h' : PrintsOn m₂ m₃) :
    PrintsOn m₁ m₃ := by
  obtain ⟨more, h⟩ := h
  obtain ⟨more', h'⟩ := h'
  exact ⟨more ++ more', by rw [h', h, String.append_assoc]⟩

/-- The second computation takes back no printed text. It ends as the first one does, unless that
one runs out of budget; then it prints what the first one has printed, and may go on. -/
structure Outlasts (x y : Eval α) : Prop where
  grows : ∀ m, PrintsOn m (final (y m))
  ends : ∀ m, x m = y m ∨ ∃ m', x m = .error .depth m' ∧ PrintsOn m' (final (y m))

section Steps

variable {x y : Eval α}

/-- A computation that prints nothing outlasts itself. -/
theorem outlasts_silent (h : ∀ m, (final (x m)).output = m.output) : Outlasts x x :=
  ⟨fun m => .of_eq (h m), fun _ => .inl rfl⟩

/-- Whatever takes back no printed text outlasts a computation without a budget. -/
theorem Outlasts.exhausted (h : Outlasts x y) : Outlasts (fail .depth) y :=
  ⟨h.grows, fun m => .inr ⟨m, rfl, h.grows m⟩⟩

/-- What outlasts step by step outlasts as a whole: if the first half runs out of budget, the second
one only prints on. -/
theorem Outlasts.bind {f g : α → Eval β} (hx : Outlasts x y) (hf : ∀ a, Outlasts (f a) (g a)) :
    Outlasts (x >>= f) (y >>= g) := by
  -- what the second half does to the printed text, wherever the first one ends
  have hrest : ∀ m, PrintsOn (final (y m)) (final ((y >>= g) m)) := by
    intro m
    cases hy : y m with
    | ok a m₁ =>
      rw [bind_run hy]
      exact (hf a).grows m₁
    | error e m₁ =>
      rw [bind_fails hy]
      exact .refl m₁
  refine ⟨fun m => (hx.grows m).trans (hrest m), fun m => ?_⟩
  rcases hx.ends m with hsame | ⟨m', hx', hprinted⟩
  · cases hy : y m with
    | ok a m₁ =>
      rw [bind_run (hsame.trans hy), bind_run hy]
      exact (hf a).ends m₁
    | error e m₁ =>
      rw [bind_fails (hsame.trans hy), bind_fails hy]
      exact .inl rfl
  · exact .inr ⟨m', bind_fails hx' f, hprinted.trans (hrest m)⟩

/-- To give a fault a line does not make it a lack of budget. -/
theorem Outlasts.located (h : Outlasts x y) (t : Tree) : Outlasts (located t x) (located t y) := by
  refine ⟨fun m => final_located t y m ▸ h.grows m, fun m => ?_⟩
  rw [final_located]
  rcases h.ends m with hsame | ⟨m', hx, hprinted⟩
  · left
    unfold Eval.located
    rw [hsame]
  · right
    refine ⟨m', ?_, hprinted⟩
    unfold Eval.located
    rw [hx]
    rfl

theorem outlasts_pure (a : α) : Outlasts (pure a : Eval α) (pure a) :=
  outlasts_silent fun _ => rfl

theorem outlasts_fail (f : Fault) : Outlasts (fail f : Eval α) (fail f) :=
  outlasts_silent fun _ => rfl

/-- An operation on values outlasts itself, as all that prints nothing does. -/
theorem outlasts_ofExcept (r : Except Fault α) : Outlasts (Eval.ofExcept r) (Eval.ofExcept r) :=
  outlasts_silent fun _ => by cases r <;> rfl

theorem outlasts_lookup (scope : ScopeId) (name : String) :
    Outlasts (lookup scope name) (lookup scope name) :=
  outlasts_silent fun m => by
    unfold lookup
    split <;> rfl

theorem outlasts_update (fault? : Store → Option Fault) (change : Store → Store) :
    Outlasts (update fault? change) (update fault? change) :=
  outlasts_silent fun m => by
    unfold update
    split <;> rfl

theorem outlasts_child (parent : ScopeId) : Outlasts (child parent) (child parent) :=
  outlasts_silent fun _ => rfl

theorem outlasts_note (e : Event) : Outlasts (note e) (note e) :=
  outlasts_silent fun _ => rfl

theorem outlasts_print (text : String) : Outlasts (print text) (print text) :=
  ⟨fun _ => ⟨text, rfl⟩, fun _ => .inl rfl⟩

theorem outlasts_leaf (scope : ScopeId) (l : Leaf) : Outlasts (leaf scope l) (leaf scope l) := by
  unfold leaf
  split
  next => exact outlasts_ofExcept _
  next => exact outlasts_pure _
  next => exact outlasts_lookup scope l.text
  next => exact outlasts_fail _

end Steps

/-! ## Constructs -/

section Constructs

variable {eval eval' : Tree → Eval Value} (he : ∀ t, Outlasts (eval t) (eval' t))
  {statements statements' : List Tree → Eval Value}
  (hs : ∀ ts, Outlasts (statements ts) (statements' ts)) (scope : ScopeId)

section Expressions

include he

/-- Trees are evaluated as long as each of them is. -/
theorem outlasts_all (ts : List Tree) : Outlasts (all eval ts) (all eval' ts) := by
  induction ts with
  | nil => exact outlasts_pure _
  | cons t ts ih => exact (he t).bind fun _ => ih.bind fun _ => outlasts_pure _

/-- So are statements, by induction on the list. -/
theorem outlasts_sequence : ∀ (last : Value) (ts : List Tree),
    Outlasts (sequence eval last ts) (sequence eval' last ts)
  | _, [] => outlasts_pure _
  | _, t :: ts => (he t).bind fun v => outlasts_sequence v ts

/-- A part that may be absent outlasts itself with less budget. -/
theorem outlasts_optional {otherwise : Eval Value} (ho : Outlasts otherwise otherwise) (t : Tree) :
    Outlasts (optional otherwise eval t) (optional otherwise eval' t) := by
  cases t with
  | absent => exact ho
  | leaf l => exact he (.leaf l)
  | node label line cs => exact he (.node label line cs)

/-- A variable declaration does if its value does. -/
theorem outlasts_variableDeclaration (cs : List Tree) :
    Outlasts (variableDeclaration eval scope cs) (variableDeclaration eval' scope cs) := by
  unfold variableDeclaration
  split
  next keyword nameTree init =>
    refine (outlasts_ofExcept _).bind fun name => ?_
    refine (outlasts_optional he (outlasts_pure _) init).bind fun value => ?_
    exact (outlasts_update _ _).bind fun _ => outlasts_pure _
  next => exact outlasts_fail _

/-- An operation does if its operands do. -/
theorem outlasts_operation (apply : String → Value → Value → Except Fault Value) (cs : List Tree) :
    Outlasts (operation eval apply cs) (operation eval' apply cs) := by
  unfold operation
  split
  next left op right =>
    exact (he left).bind fun l => (he right).bind fun r => outlasts_ofExcept _
  next => exact outlasts_fail _

/-- An assignment does if its value does. -/
theorem outlasts_assignment (cs : List Tree) :
    Outlasts (assignment eval scope cs) (assignment eval' scope cs) := by
  unfold assignment
  split
  next target valueTree =>
    refine (outlasts_ofExcept _).bind fun name => (he valueTree).bind fun value => ?_
    exact (outlasts_update _ _).bind fun _ => outlasts_pure _
  next => exact outlasts_fail _

/-- A property does if its value does. -/
theorem outlasts_property (t : Tree) :
    Outlasts (property eval scope t) (property eval' scope t) := by
  refine (outlasts_ofExcept _).bind fun cs => ?_
  split
  next keyTree valueTree =>
    refine (outlasts_ofExcept _).bind fun key => ?_
    refine (outlasts_optional he (outlasts_lookup scope key) valueTree).bind fun value => ?_
    exact outlasts_pure _
  next => exact outlasts_fail _

/-- So do all properties of an object, by induction on the list. -/
theorem outlasts_properties : ∀ (slots : List (String × Value)) (ts : List Tree),
    Outlasts (properties eval scope slots ts) (properties eval' scope slots ts)
  | _, [] => outlasts_pure _
  | _, t :: ts => (outlasts_property he scope t).bind fun p =>
    outlasts_properties (setSlot _ p.1 p.2) ts

theorem outlasts_field (cs : List Tree) : Outlasts (field eval cs) (field eval' cs) := by
  unfold field
  split
  next target name => exact (he target).bind fun v => outlasts_ofExcept _
  next => exact outlasts_fail _

theorem outlasts_index (cs : List Tree) : Outlasts (index eval cs) (index eval' cs) := by
  unfold index
  split
  next target key => exact (he target).bind fun v => (he key).bind fun k => outlasts_ofExcept _
  next => exact outlasts_fail _

/-- A call does if its parts and the application do. -/
theorem outlasts_call {args args' : Tree → Eval (List Value)}
    {apply apply' : Value → List Value → Eval Value} (hargs : ∀ t, Outlasts (args t) (args' t))
    (happly : ∀ v vs, Outlasts (apply v vs) (apply' v vs)) (cs : List Tree) :
    Outlasts (call eval args apply cs) (call eval' args' apply' cs) := by
  unfold call
  split
  next calleeTree argsTree =>
    exact (he calleeTree).bind fun v => (hargs argsTree).bind fun vs => happly v vs
  next => exact outlasts_fail _

end Expressions

theorem outlasts_functionDeclaration (cs : List Tree) :
    Outlasts (functionDeclaration scope cs) (functionDeclaration scope cs) := by
  unfold functionDeclaration
  split
  next nameTree paramsTree bodyTree =>
    refine (outlasts_ofExcept _).bind fun name => (outlasts_ofExcept _).bind fun params => ?_
    refine (outlasts_ofExcept _).bind fun body => (outlasts_child scope).bind fun inner => ?_
    exact (outlasts_update _ _).bind fun _ => outlasts_pure _
  next => exact outlasts_fail _

theorem outlasts_functionLiteral (cs : List Tree) :
    Outlasts (functionLiteral scope cs) (functionLiteral scope cs) := by
  unfold functionLiteral
  split
  next paramsTree bodyTree =>
    exact (outlasts_ofExcept _).bind fun params => (outlasts_ofExcept _).bind fun body =>
      outlasts_pure _
  next => exact outlasts_fail _

include hs in
theorem outlasts_block (t : Tree) : Outlasts (block statements t) (block statements' t) :=
  (outlasts_ofExcept _).bind fun body => hs body

include he hs in
/-- A conditional does if its test and its branches do. -/
theorem outlasts_conditional (cs : List Tree) :
    Outlasts (conditional eval statements cs) (conditional eval' statements' cs) := by
  unfold conditional
  split
  next test consequent alternate =>
    refine (he test).bind fun v => ?_
    split
    next b => exact outlasts_optional (outlasts_block hs) (outlasts_pure _) _
    next => exact outlasts_fail _
  next => exact outlasts_fail _

end Constructs

/-! ## Calls -/

theorem outlasts_checkArity (name : String) (wanted : Option Nat) (args : List Value) :
    Outlasts (checkArity name wanted args) (checkArity name wanted args) := by
  unfold checkArity
  split
  next =>
    split
    next => exact outlasts_pure _
    next => exact outlasts_fail _
  next => exact outlasts_pure _

/-- With more budget left, values that nest more deeply are displayed, and all others alike. -/
theorem outlasts_displayed {n n' : Nat} (h : n ≤ n') (args : List Value) :
    Outlasts (displayed n args) (displayed n' args) := by
  have hself : Outlasts (displayed n' args) (displayed n' args) := by
    unfold displayed
    split
    next => exact outlasts_fail _
    next => exact outlasts_pure _
  by_cases hn : n < Value.mostDisplaySteps args
  · have hshort : displayed n args = fail .depth := by rw [displayed, if_pos hn]
    rw [hshort]
    exact hself.exhausted
  · have hshort : displayed n args = displayed n' args := by
      rw [displayed, displayed, if_neg hn, if_neg (by omega)]
    rw [hshort]
    exact hself

/-- A built-in function that shows its arguments may run out of budget; with more it shows the
same. -/
theorem outlasts_native {n n' : Nat} (h : n ≤ n') (f : Native) (args : List Value) :
    Outlasts (native n f args) (native n' f args) := by
  cases f with
  | print =>
    exact (outlasts_displayed h args).bind fun text => (outlasts_print text).bind fun _ =>
      outlasts_pure _
  | println =>
    exact (outlasts_displayed h args).bind fun text => (outlasts_print (text ++ "\n")).bind fun _ =>
      outlasts_pure _
  | len =>
    cases args with
    | nil => exact outlasts_pure _
    | cons v _ => exact (outlasts_ofExcept v.length).bind fun _ => outlasts_pure _

/-- The call of a function that is not written in the program does if the function does. -/
theorem outlasts_callHost (name : String) (arity : Option Nat)
    {act act' : List Value → Eval HostAnswer} {args : List Value}
    (hact : Outlasts (act args) (act' args)) :
    Outlasts (callHost name arity act args) (callHost name arity act' args) := by
  refine (outlasts_checkArity name arity args).bind fun _ => hact.bind fun answer => ?_
  cases answer with
  | nothing | value => exact outlasts_pure _
  | foreign => exact outlasts_fail _

/-- To bind parameters takes no budget. -/
theorem outlasts_bindParams (scope : ScopeId) : ∀ (ps : List String) (vs : List Value),
    Outlasts (bindParams scope ps vs) (bindParams scope ps vs)
  | p :: ps, v :: vs => (outlasts_update _ _).bind fun _ => outlasts_bindParams scope ps vs
  | [], _ => by
    unfold bindParams
    exact outlasts_pure _
  | _ :: _, [] => outlasts_pure _

theorem outlasts_openScope (c : Closure) (args : List Value) :
    Outlasts (openScope c args) (openScope c args) := by
  refine (outlasts_checkArity _ _ args).bind fun _ => (outlasts_child c.scope).bind fun scope => ?_
  refine (outlasts_bindParams scope c.params args).bind fun _ => ?_
  exact (outlasts_note _).bind fun _ => outlasts_pure _

/-- The call of a closure does if its statements do. -/
theorem outlasts_callClosure {statements statements' : ScopeId → List Tree → Eval Value}
    (hs : ∀ scope ts, Outlasts (statements scope ts) (statements' scope ts)) (c : Closure)
    (args : List Value) :
    Outlasts (callClosure statements c args) (callClosure statements' c args) :=
  (outlasts_openScope c args).bind fun scope => hs scope c.body

/-- An application does if to enter a closure does. -/
theorem outlasts_apply {n n' : Nat} (h : n ≤ n') {enter enter' : Closure → List Value → Eval Value}
    (henter : ∀ c args, Outlasts (enter c args) (enter' c args)) (callee : Value)
    (args : List Value) : Outlasts (apply n enter callee args) (apply n' enter' callee args) := by
  cases callee with
  | closure c => exact henter c args
  | native f => exact outlasts_callHost f.name f.arity (outlasts_native h f args)
  | _ => exact outlasts_fail _

/-! ## Evaluation -/

/-- Every part of evaluation within the second budget outlasts that within the first. -/
structure Outlasting (n n' : Nat) : Prop where
  tree : ∀ scope t, Outlasts (evalTree n scope t) (evalTree n' scope t)
  construct : ∀ scope label cs,
    Outlasts (evalConstruct n scope label cs) (evalConstruct n' scope label cs)
  items : ∀ scope ts, Outlasts (evalItems n scope ts) (evalItems n' scope ts)
  arguments : ∀ scope t, Outlasts (evalArguments n scope t) (evalArguments n' scope t)
  statements : ∀ scope ts, Outlasts (evalStatements n scope ts) (evalStatements n' scope ts)
  call : ∀ v vs, Outlasts (callValue n v vs) (callValue n' v vs)
  enter : ∀ c vs, Outlasts (enterClosure n c vs) (enterClosure n' c vs)

variable {n n' : Nat}

/-- One construct outlasts itself with less budget if all evaluations within less do. -/
theorem outlasts_construct (ih : Outlasting n n') (scope : ScopeId) (label : Label)
    (cs : List Tree) :
    Outlasts (evalConstruct (n + 1) scope label cs) (evalConstruct (n' + 1) scope label cs) := by
  have he := ih.tree scope
  rw [evalConstruct, evalConstruct]
  cases label with
  | program | body => exact ih.statements scope cs
  | vardecl => exact outlasts_variableDeclaration he scope cs
  | fndecl => exact outlasts_functionDeclaration scope cs
  | ifstmt => exact outlasts_conditional he (ih.statements scope) cs
  | binary => exact outlasts_operation he Value.binary cs
  | condition => exact outlasts_operation he Value.condition cs
  | assign => exact outlasts_assignment he scope cs
  | object => exact (outlasts_properties he scope [] cs).bind fun _ => outlasts_pure _
  | array => exact (ih.items scope cs).bind fun _ => outlasts_pure _
  | field => exact outlasts_field he cs
  | index => exact outlasts_index he cs
  | call => exact outlasts_call he (ih.arguments scope) ih.call cs
  | fnliteral => exact outlasts_functionLiteral scope cs
  | prop | params | args | other => exact outlasts_fail _

/-- One step more for both. -/
theorem Outlasting.succ (h : n ≤ n') (ih : Outlasting n n') : Outlasting (n + 1) (n' + 1) where
  tree scope t := by
    cases t with
    | absent => exact (outlasts_fail _).located .absent
    | leaf l => exact (outlasts_leaf scope l).located (.leaf l)
    | node label line cs => exact (ih.construct scope label cs).located (.node label line cs)
  construct := outlasts_construct ih
  items scope ts := outlasts_all (ih.tree scope) ts
  arguments scope t := (outlasts_ofExcept _).bind fun ts => ih.items scope ts
  statements scope ts := outlasts_sequence (ih.tree scope) .null ts
  call v vs := outlasts_apply h ih.enter v vs
  enter c vs := outlasts_callClosure ih.statements c vs

/-- No part of evaluation takes back a printed text. -/
theorem outlasting_self : ∀ n : Nat, Outlasting n n
  | 0 => by constructor <;> intros <;> exact outlasts_fail _
  | n + 1 => (outlasting_self n).succ (Nat.le_refl n)

/-- Evaluation within a larger budget outlasts that within a smaller one. -/
theorem outlasting : ∀ {n n' : Nat}, n ≤ n' → Outlasting n n'
  | 0, n', _ => by
    have h := outlasting_self n'
    exact ⟨fun scope t => (h.tree scope t).exhausted,
      fun scope label cs => (h.construct scope label cs).exhausted,
      fun scope ts => (h.items scope ts).exhausted,
      fun scope t => (h.arguments scope t).exhausted,
      fun scope ts => (h.statements scope ts).exhausted,
      fun v vs => (h.call v vs).exhausted, fun c vs => (h.enter c vs).exhausted⟩
  | n + 1, n' + 1, hle => (outlasting (Nat.le_of_succ_le_succ hle)).succ (by omega)

/-- An evaluation outlasts itself with less budget. -/
theorem outlasts_evaluate (h : n ≤ n') (scope : ScopeId) (t : Tree) :
    Outlasts (evaluate n scope t) (evaluate n' scope t) :=
  (outlasts_note _).bind fun _ => (outlasting h).tree scope t

/-- A larger budget changes nothing about an evaluation that ends otherwise than for lack of
budget: value or fault, printed text, bindings and notes are the same. Where the smaller budget does
not do, what has been printed till then is the beginning of what is printed within the larger
one. -/
theorem larger_budget (h : n ≤ n') (scope : ScopeId) (t : Tree) (m : Machine) :
    (faultOf (evaluate n scope t m) ≠ some .depth →
      evaluate n' scope t m = evaluate n scope t m) ∧
    (faultOf (evaluate n scope t m) = some .depth →
      ∃ more, (final (evaluate n' scope t m)).output
        = (final (evaluate n scope t m)).output ++ more) := by
  have hlasts := outlasts_evaluate h scope t
  constructor
  · intro hends
    rcases hlasts.ends m with hsame | ⟨m', hdepth, -⟩
    · exact hsame.symm
    · rw [hdepth] at hends
      exact absurd rfl hends
  · intro hdepth
    rcases hlasts.ends m with hsame | ⟨m', hshort, hprinted⟩
    · rw [hsame]
      exact PrintsOn.refl _
    · rw [hshort]
      exact hprinted

/-- For instance `print("a") print(["b"])`: nine steps do for the first call only. -/
theorem larger_budget_prints :
    let printing (arg : Tree) : Tree :=
      .node .call (some 1) [.leaf ⟨.ident, "print", some 1, some 1⟩, .node .args none [arg]]
    let text (s : String) : Tree := .leaf ⟨.string, s, some 1, some 7⟩
    let t : Tree :=
      .node .program none [printing (text "a"), printing (.node .array (some 1) [text "b"])]
    (∃ more, (final (evaluate 20 Machine.globalId t .fresh)).output = "a" ++ more) ∧
      evaluate 5000 Machine.globalId t .fresh = evaluate 20 Machine.globalId t .fresh := by
  intro printing text t
  have hshort : faultOf (evaluate 9 Machine.globalId t .fresh) = some .depth ∧
      (final (evaluate 9 Machine.globalId t .fresh)).output = "a" := by
    with_unfolding_all exact ⟨rfl, rfl⟩
  have hlong : faultOf (evaluate 20 Machine.globalId t .fresh) = none := by with_unfolding_all rfl
  refine ⟨?_, (larger_budget (by decide) _ t _).1 (by rw [hlong]; simp)⟩
  rw [← hshort.2]
  exact (larger_budget (by decide) _ t _).2 hshort.1

end Avii.Eval
