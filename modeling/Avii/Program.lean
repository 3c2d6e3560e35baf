import Avii.Eval
import Avii.Token.Scan
import Avii.Tree.Parse
import Avii.Tree.Show

/-!
# Programs

Running a program text: its tokens, its tree, and the value of the tree in a scope. A run that
fails keeps what it did before.

How deeply the work may nest is up to the host, which has a limit of nested calls. A text is read
within the limit in force; its evaluation, and what is done with its value, have a limit of their
own, which may have to be raised first. What is counted is the nesting of the work itself: the calls
that the host has in use when the work begins, and those that return at once, are left out.
-/

namespace Avii

/-- Why the wanted limit of nested calls cannot be had. -/
inductive LimitError where
  /-- The text of the wish is not a number that is read. -/
  | unreadable
  /-- The wish is beyond what can be granted. -/
  | tooLarge
deriving DecidableEq

/-- Why a program text has no value. -/
inductive Failure where
  | lexical (error : LexError)
  | grammatical (error : ParseError)
  /-- The text nests too deeply to be parsed, or its tree to be outlined. -/
  | nesting
  /-- The limit for the evaluation cannot be had. -/
  | budget (error : LimitError)
  | fault (fault : Fault)
  /-- The value nests too deeply to be shown. -/
  | unshowable
deriving DecidableEq

namespace Failure

/-- The failure that a parser's refusal is. -/
def ofRefusal : Refusal → Failure
  | .invalid e => grammatical e
  | .tooDeep => nesting

/-- A failure in words. -/
def message : Failure → String
  | lexical e => e.message
  | grammatical e => e.message
  | nesting | unshowable => "maximum recursion depth exceeded"
  | budget _ => ""
  | fault f => f.message

/-- The failures that are the program's doing; the others are not caught where programs are run. -/
def isReported : Failure → Bool
  | lexical _ | grammatical _ | nesting => true
  | budget _ | unshowable => false
  | fault (.runtime ..) | fault .depth => true
  | fault (.internal _) | fault (.domain _) => false

end Failure

/-- A run of a program text. -/
abbrev Run (α : Type) := EStateM Failure Machine α

namespace Run

/-- Notes an event. -/
def note (e : Event) : Run Unit := fun m =>
  .ok () { m with events := e :: m.events }

/-- Stops with a failure. -/
def fail {α : Type} (f : Failure) : Run α := fun m => .error f m

/-- An evaluation as part of a run. -/
def ofEval {α : Type} (x : Eval α) : Run α := fun m =>
  match x m with
  | .ok a m => .ok a m
  | .error f m => .error (.fault f) m

end Run

namespace Program

/-- The tokens of a text. -/
def tokens (source : String) : Run (List Token) :=
  match tokenize source with
  | .error e => Run.fail (.lexical e)
  | .ok ts => do
    Run.note (.tokenized source.length ts.length)
    return ts

/-- The tree of a list of tokens, within a limit of nested calls. -/
def tree (limit : Nat) (ts : List Token) : Run Tree :=
  match parseTokens limit ts with
  | .error e => Run.fail (.ofRefusal e)
  | .ok t => do
    Run.note (.parsed t.children.length)
    return t

/-- The tree of a text, within a limit of nested calls. -/
def read (limit : Nat) (source : String) : Run Tree := do
  let ts ← tokens source
  tree limit ts

/-- The outline of a tree, within a limit of nested steps. -/
def outline (limit : Nat) (t : Tree) : Run String :=
  match t.outline? limit with
  | some text => return text
  | none => Run.fail .nesting

/-- The budget of an evaluation, if it can be had. -/
def granted : Except LimitError Nat → Run Nat
  | .error e => Run.fail (.budget e)
  | .ok n => return n

/-- Runs a program text in a scope: it is read within a limit, and its tree evaluated within a
budget. -/
def run (limit : Nat) (budget : Except LimitError Nat) (scope : ScopeId) (source : String) :
    Run Value := do
  let t ← read limit source
  let n ← granted budget
  Run.ofEval (evaluate n scope t)

section Outcomes

variable {limit n : Nat} {source : String} {t : Tree} {m m' : Machine}

/-- A text that is refused is not evaluated. -/
theorem run_refused {f : Failure} (h : read limit source m = .error f m')
    (budget : Except LimitError Nat) (scope : ScopeId) :
    run limit budget scope source m = .error f m' := by
  show EStateM.bind _ _ m = _
  simp only [EStateM.bind, h]

/-- Without a budget nothing is evaluated. -/
theorem run_ungranted (h : read limit source m = .ok t m') (e : LimitError) (scope : ScopeId) :
    run limit (.error e) scope source m = .error (.budget e) m' := by
  show EStateM.bind _ _ m = _
  simp only [EStateM.bind, h]
  rfl

/-- A text that is read is run by evaluating its tree. -/
theorem run_granted (h : read limit source m = .ok t m') (n : Nat) (scope : ScopeId) :
    run limit (.ok n) scope source m = Run.ofEval (evaluate n scope t) m' := by
  show EStateM.bind _ _ m = _
  simp only [EStateM.bind, h]
  rfl

end Outcomes

/-- How a value is displayed, within a limit of nested steps. -/
def displayed (limit : Nat) (v : Value) : Run String :=
  match v.display? limit with
  | some text => return text
  | none => Run.fail .unshowable

end Program

namespace Machine

/-- A machine whose store has a single, outermost scope. -/
def fresh : Machine := ⟨Store.empty.createGlobal, "", []⟩

/-- The scope of a fresh machine. -/
def globalId : ScopeId := 0

/-- A machine without scopes. -/
def blank : Machine := ⟨Store.empty, "", []⟩

/-- The events noted so far, oldest first. -/
def history (m : Machine) : List Event := m.events.reverse

end Machine

end Avii
