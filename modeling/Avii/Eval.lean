import Avii.Event
import Avii.Number.Numeral
import Avii.Scope
import Avii.Tree.Show
import Avii.Value.Member
import Avii.Value.Operator

/-!
# Evaluation

Trees are evaluated in a scope of the store. Both operands of an operator are always evaluated,
branches of a conditional run in the scope of the conditional, and a call runs the body of a closure
in a new scope inside the one that the closure was made in. The first fault stops the evaluation;
what was done before it stays done. A mistake of the program gets the line of the innermost node
under evaluation that has one.

Calls nest without bound, so evaluation has a budget of nested steps: a node, the construct that it
is, a list of statements, the items of an array, a list of arguments and each of its own items, a
call and the entry into a closure take one each. What is left of the budget also bounds how deeply a
value that is printed may nest.
-/

namespace Avii

/-- What evaluation changes. -/
structure Machine where
  store : Store
  /-- The printed text. -/
  output : String
  /-- What has been noted, the latest first. -/
  events : List Event

/-- A computation that may change the machine and may fail; the changes outlive a fault. -/
abbrev Eval (α : Type) := EStateM Fault Machine α

namespace Eval

/-! ## Steps -/

/-- Gives the result of a computation that changes nothing. -/
def ofExcept {α : Type} : Except Fault α → Eval α
  | .ok a => fun m => .ok a m
  | .error f => fun m => .error f m

/-- Stops with a fault. -/
def fail {α : Type} (f : Fault) : Eval α := fun m => .error f m

/-- Looks a name up. -/
def lookup (scope : ScopeId) (name : String) : Eval Value := fun m =>
  match m.store.lookup scope name with
  | .ok v => .ok v m
  | .error f => .error f m

/-- Changes the store unless something keeps it from that, which is asked first. -/
def update (fault? : Store → Option Fault) (change : Store → Store) : Eval Unit := fun m =>
  match fault? m.store with
  | some f => .error f m
  | none => .ok () { m with store := change m.store }

/-- Defines a name. -/
def define (scope : ScopeId) (name : String) (value : Value) (constant : Bool) : Eval Unit :=
  update (·.definitionFault? scope name) (·.bind scope ⟨name, value, constant⟩)

/-- Assigns to a name. -/
def assign (scope : ScopeId) (name : String) (value : Value) : Eval Unit :=
  update (·.assignmentFault? scope name) (·.rebind scope name value)

/-- Creates a scope inside another. -/
def child (parent : ScopeId) : Eval ScopeId := fun m =>
  .ok m.store.next { m with store := m.store.create (.empty (some parent)) }

/-- Prints a text. -/
def print (s : String) : Eval Unit := fun m =>
  .ok () { m with output := m.output ++ s }

/-- Notes an event. -/
def note (e : Event) : Eval Unit := fun m =>
  .ok () { m with events := e :: m.events }

/-- Gives a line to a mistake that has none. -/
def located {α : Type} (t : Tree) (x : Eval α) : Eval α := fun m =>
  match x m with
  | .ok a m => .ok a m
  | .error f m => .error (f.located t.sourceLine) m

/-- The value of a number leaf. -/
def numeral (text : String) : Except Fault Value :=
  match Numeral.read? text with
  | some x => .ok (.number x)
  | none => .error (.domain .badNumeral)

/-- The value of a leaf: a literal denotes itself, a name is looked up. -/
def leaf (scope : ScopeId) (l : Leaf) : Eval Value :=
  match l.kind with
  | .number => ofExcept (numeral l.text)
  | .string => pure (.string l.text)
  | .ident => lookup scope l.text
  | kind => fail (.internal (.unhandledLeaf kind.name l.text))

/-! ## Parts of trees -/

/-- The name that a tree is. -/
def identifier (role : String) : Tree → Except Fault String
  | .leaf l => if l.kind = .ident then .ok l.text else .error (.internal (.notIdentifier role))
  | _ => .error (.internal (.notIdentifier role))

/-- The children of a tree that must have a given label. -/
def childrenOf (label : Label) (t : Tree) : Except Fault (List Tree) :=
  match t with
  | .node l _ cs =>
    if l = label then .ok cs else .error (.internal (.wrongNode label.name t.describe))
  | t => .error (.internal (.wrongNode label.name t.describe))

/-- Is it the keyword of a constant? -/
def isConstWord : Tree → Bool
  | .leaf l => l.kind = .constWord
  | _ => false

/-! ## Constructs

Each construct is given the evaluation of its parts. -/

/-- The results of all of some trees, in order. -/
def all (eval : Tree → Eval Value) : List Tree → Eval (List Value)
  | [] => pure []
  | t :: ts => do
    let v ← eval t
    let vs ← all eval ts
    return v :: vs

/-- The result of the last of some trees, null if there is none; `last` is the result so far. -/
def sequence (eval : Tree → Eval Value) (last : Value) : List Tree → Eval Value
  | [] => pure last
  | t :: ts => do
    let v ← eval t
    sequence eval v ts

/-- The result of an optional tree, or what stands for it where it is not there. -/
def optional (otherwise : Eval Value) (eval : Tree → Eval Value) : Tree → Eval Value
  | .absent => otherwise
  | t => eval t

/-- A declaration of a variable or a constant. -/
def variableDeclaration (eval : Tree → Eval Value) (scope : ScopeId) : List Tree → Eval Value
  | [keyword, nameTree, init] => do
    let name ← ofExcept (identifier "Variable name" nameTree)
    let value ← optional (pure .null) eval init
    define scope name value (isConstWord keyword)
    return value
  | _ => fail (.domain .childCount)

/-- A declaration of a function. The closure is made in a new scope inside that of the declaration,
and the name is bound in the scope of the declaration. -/
def functionDeclaration (scope : ScopeId) : List Tree → Eval Value
  | [nameTree, paramsTree, bodyTree] => do
    let name ← ofExcept (identifier "Function name" nameTree)
    let params ← ofExcept (childrenOf .params paramsTree)
    let body ← ofExcept (childrenOf .body bodyTree)
    let inner ← child scope
    let value := .closure ⟨some name, params.map Tree.word, body, inner⟩
    define scope name value false
    return value
  | _ => fail (.domain .childCount)

/-- A function literal. -/
def functionLiteral (scope : ScopeId) : List Tree → Eval Value
  | [paramsTree, bodyTree] => do
    let params ← ofExcept (childrenOf .params paramsTree)
    let body ← ofExcept (childrenOf .body bodyTree)
    return .closure ⟨none, params.map Tree.word, body, scope⟩
  | _ => fail (.domain .childCount)

/-- A block of statements. -/
def block (statements : List Tree → Eval Value) (t : Tree) : Eval Value := do
  let body ← ofExcept (childrenOf .body t)
  statements body

/-- A conditional, whose branches are blocks; the second may not be there. -/
def conditional (eval : Tree → Eval Value) (statements : List Tree → Eval Value) :
    List Tree → Eval Value
  | [test, consequent, alternate] => do
    match ← eval test with
    | .bool b =>
      optional (pure .null) (block statements) (if b then consequent else alternate)
    | v => fail (.of (.conditionNotBoolean v.type))
  | _ => fail (.domain .childCount)

/-- An operator between two operands. -/
def operation (eval : Tree → Eval Value) (apply : String → Value → Value → Except Fault Value) :
    List Tree → Eval Value
  | [left, op, right] => do
    let l ← eval left
    let r ← eval right
    ofExcept (apply op.word l r)
  | _ => fail (.domain .childCount)

/-- An assignment to a name. -/
def assignment (eval : Tree → Eval Value) (scope : ScopeId) : List Tree → Eval Value
  | [target, valueTree] => do
    let name ← ofExcept (identifier "Assignment target" target)
    let value ← eval valueTree
    assign scope name value
    return value
  | _ => fail (.domain .childCount)

/-- A property of an object: its key and its value. A property without a value has that of the
variable that its key names. -/
def property (eval : Tree → Eval Value) (scope : ScopeId) (t : Tree) :
    Eval (String × Value) := do
  match ← ofExcept (childrenOf .prop t) with
  | [keyTree, valueTree] =>
    let key ← ofExcept (identifier "Object key" keyTree)
    let value ← optional (lookup scope key) eval valueTree
    return (key, value)
  | _ => fail (.domain .childCount)

/-- The properties of an object, put into its slots one after the other. -/
def properties (eval : Tree → Eval Value) (scope : ScopeId) (slots : List (String × Value)) :
    List Tree → Eval (List (String × Value))
  | [] => pure slots
  | t :: ts => do
    let (key, value) ← property eval scope t
    properties eval scope (setSlot slots key value) ts

/-- A member named in the program. -/
def field (eval : Tree → Eval Value) : List Tree → Eval Value
  | [target, name] => do
    let v ← eval target
    ofExcept (v.member (.string name.word))
  | _ => fail (.domain .childCount)

/-- A member named by a value. -/
def index (eval : Tree → Eval Value) : List Tree → Eval Value
  | [target, key] => do
    let v ← eval target
    let k ← eval key
    ofExcept (v.member k)
  | _ => fail (.domain .childCount)

/-- The arguments of a call. -/
def arguments (items : List Tree → Eval (List Value)) (t : Tree) : Eval (List Value) := do
  let ts ← ofExcept (childrenOf .args t)
  items ts

/-- A call: the callee is evaluated before the arguments. -/
def call (eval : Tree → Eval Value) (arguments : Tree → Eval (List Value))
    (apply : Value → List Value → Eval Value) : List Tree → Eval Value
  | [calleeTree, argsTree] => do
    let callee ← eval calleeTree
    let args ← arguments argsTree
    apply callee args
  | _ => fail (.domain .childCount)

/-- The evaluations of the parts of a construct: one tree, the items of an array, the arguments of a
call, and a list of statements; and the call of a value. -/
structure Parts where
  tree : Tree → Eval Value
  items : List Tree → Eval (List Value)
  arguments : Tree → Eval (List Value)
  statements : List Tree → Eval Value
  call : Value → List Value → Eval Value

/-- The construct that a node is. -/
def construct (parts : Parts) (scope : ScopeId) (label : Label) (children : List Tree) :
    Eval Value :=
  match label with
  | .program | .body => parts.statements children
  | .vardecl => variableDeclaration parts.tree scope children
  | .fndecl => functionDeclaration scope children
  | .ifstmt => conditional parts.tree parts.statements children
  | .binary => operation parts.tree Value.binary children
  | .condition => operation parts.tree Value.condition children
  | .assign => assignment parts.tree scope children
  | .object => do
    let slots ← properties parts.tree scope [] children
    return .object slots
  | .array => do
    let items ← parts.items children
    return .array items
  | .field => field parts.tree children
  | .index => index parts.tree children
  | .call => call parts.tree parts.arguments parts.call children
  | .fnliteral => functionLiteral scope children
  | .prop | .params | .args | .other _ => fail (.internal (.unknownLabel label.name))

/-! ## Calls -/

/-- What a function that is not written in the program hands back: nothing, a value, or something
of a foreign type. -/
inductive HostAnswer where
  | nothing
  | value (v : Value)
  | foreign (type : String)

/-- Fails unless there are as many arguments as are wanted. -/
def checkArity (name : String) (wanted : Option Nat) (args : List Value) : Eval Unit :=
  match wanted with
  | some n => if args.length = n then pure () else fail (.of (.arity name n args.length))
  | none => pure ()

/-- Calls a function that is not written in the program. -/
def callHost (name : String) (arity : Option Nat) (act : List Value → Eval HostAnswer)
    (args : List Value) : Eval Value := do
  checkArity name arity args
  match ← act args with
  | .nothing => return .null
  | .value v => return v
  | .foreign type => fail (.internal (.nativeResult name type))

/-- The displayed forms of values, with spaces between them, if none nests too deeply for what is
left of the budget. -/
def displayed (budget : Nat) (args : List Value) : Eval String :=
  if budget < Value.mostDisplaySteps args then fail .depth
  else return " ".intercalate (Value.displayItems args)

/-- What a built-in function does. -/
def native (budget : Nat) (f : Native) (args : List Value) : Eval HostAnswer :=
  match f with
  | .print => do
    let text ← displayed budget args
    print text
    return .value .null
  | .println => do
    let text ← displayed budget args
    print (text ++ "\n")
    return .value .null
  | .len =>
    match args with
    | v :: _ => do
      let n ← ofExcept v.length
      return .value n
    | [] => return .nothing

/-- The name of a closure for a message, or words for its absence. -/
def nameOr (words : String) (c : Closure) : String :=
  match c.name with
  | none | some "" => words
  | some n => n

/-- Binds parameters to arguments in a scope. -/
def bindParams (scope : ScopeId) : List String → List Value → Eval Unit
  | p :: ps, v :: vs => do
    define scope p v false
    bindParams scope ps vs
  | _, _ => pure ()

/-- Opens the scope for the body of a closure: a new one, inside that of the closure, that binds its
parameters. -/
def openScope (c : Closure) (args : List Value) : Eval ScopeId := do
  checkArity (nameOr "anonymous function" c) (some c.params.length) args
  let scope ← child c.scope
  bindParams scope c.params args
  note (.called (nameOr "<anonymous>" c) c.params)
  return scope

/-- Calls a closure. -/
def callClosure (statements : ScopeId → List Tree → Eval Value) (c : Closure)
    (args : List Value) : Eval Value := do
  let scope ← openScope c args
  statements scope c.body

/-- Calls a value within what is left of the budget. -/
def apply (budget : Nat) (enter : Closure → List Value → Eval Value) (callee : Value)
    (args : List Value) : Eval Value :=
  match callee with
  | .closure c => enter c args
  | .native f => callHost f.name f.arity (native budget f) args
  | v => fail (.of (.notCallable v.type))

end Eval

/-! ## Evaluation within a budget -/

mutual

/-- Evaluates a tree in a scope. -/
def evalTree : Nat → ScopeId → Tree → Eval Value
  | 0, _, _ => Eval.fail .depth
  | n + 1, scope, t =>
    Eval.located t <|
      match t with
      | .absent => Eval.fail (.internal .nothing)
      | .leaf l => Eval.leaf scope l
      | .node label _ children => evalConstruct n scope label children
termination_by structural n => n

/-- Evaluates the construct that a node is. -/
def evalConstruct : Nat → ScopeId → Label → List Tree → Eval Value
  | 0, _, _, _ => Eval.fail .depth
  | n + 1, scope, label, children =>
    Eval.construct ⟨evalTree n scope, evalItems n scope, evalArguments n scope,
      evalStatements n scope, callValue n⟩ scope label children
termination_by structural n => n

/-- Evaluates the items of an array or a list of arguments. -/
def evalItems : Nat → ScopeId → List Tree → Eval (List Value)
  | 0, _, _ => Eval.fail .depth
  | n + 1, scope, ts => Eval.all (evalTree n scope) ts
termination_by structural n => n

/-- Evaluates the arguments of a call. -/
def evalArguments : Nat → ScopeId → Tree → Eval (List Value)
  | 0, _, _ => Eval.fail .depth
  | n + 1, scope, t => Eval.arguments (evalItems n scope) t
termination_by structural n => n

/-- Evaluates statements one after the other. -/
def evalStatements : Nat → ScopeId → List Tree → Eval Value
  | 0, _, _ => Eval.fail .depth
  | n + 1, scope, ts => Eval.sequence (evalTree n scope) .null ts
termination_by structural n => n

/-- Calls a value. -/
def callValue : Nat → Value → List Value → Eval Value
  | 0, _, _ => Eval.fail .depth
  | n + 1, callee, args => Eval.apply n (enterClosure n) callee args
termination_by structural n => n

/-- Runs the body of a closure. -/
def enterClosure : Nat → Closure → List Value → Eval Value
  | 0, _, _ => Eval.fail .depth
  | n + 1, c, args => Eval.callClosure (evalStatements n) c args
termination_by structural n => n

end

/-- The word for a tree in the notes of a run. -/
def Tree.heading : Tree → String
  | .absent => "None"
  | .leaf l => l.kind.name
  | .node label _ _ => label.name

/-- Evaluates a program, a statement or an expression in a scope. -/
def evaluate (budget : Nat) (scope : ScopeId) (t : Tree) : Eval Value := do
  Eval.note (.evaluating t.heading)
  evalTree budget scope t

end Avii
