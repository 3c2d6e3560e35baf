import Avii.Value.Fault

/-!
# Scopes

A scope binds names to values and has at most one enclosing scope. All scopes of a run live in one
store and are known by number, so that closures and nested scopes share them; a scope is created
after the scope that encloses it. A name is looked up from the inside out.
-/

namespace Avii

/-- A name bound to a value, perhaps for good. -/
structure Binding where
  name : String
  value : Value
  constant : Bool

/-- A scope: its enclosing scope, and its bindings in the order in which they were made. -/
structure Scope where
  parent : Option ScopeId
  bindings : List Binding

namespace Scope

/-- A scope that binds nothing. -/
def empty (parent : Option ScopeId) : Scope := ⟨parent, []⟩

/-- The binding of a name. -/
def find? (s : Scope) (name : String) : Option Binding :=
  s.bindings.find? (·.name = name)

/-- Is a name bound in this very scope? -/
def binds (s : Scope) (name : String) : Bool :=
  (s.find? name).isSome

/-- Adds a binding. -/
def bind (s : Scope) (b : Binding) : Scope :=
  { s with bindings := s.bindings ++ [b] }

/-- Gives a bound name another value. -/
def update (s : Scope) (name : String) (value : Value) : Scope :=
  { s with
    bindings := s.bindings.map fun b => if b.name = name then { b with value := value } else b }

end Scope

/-- All scopes of a run, by number. -/
structure Store where
  scopes : Array Scope

namespace Store

/-- A store without scopes. -/
def empty : Store := ⟨#[]⟩

/-- The number of the next scope. -/
def next (s : Store) : ScopeId := s.scopes.size

/-- Creates a scope. -/
def create (s : Store) (scope : Scope) : Store :=
  ⟨s.scopes.push scope⟩

/-- Changes a scope. -/
def modify (s : Store) (id : ScopeId) (f : Scope → Scope) : Store :=
  ⟨s.scopes.modify id f⟩

/-- The nearest scope, from a given one outward, that binds a name. -/
def resolve (s : Store) (id : ScopeId) (name : String) : Option ScopeId :=
  match s.scopes[id]? with
  | none => none
  | some scope =>
    if scope.binds name then some id
    else
      match scope.parent with
      | none => none
      | some parent => if parent < id then resolve s parent name else none
termination_by id

/-- The binding of a name as seen from a scope. -/
def binding? (s : Store) (id : ScopeId) (name : String) : Option Binding :=
  match s.resolve id name with
  | none => none
  | some owner => s.scopes[owner]?.bind (·.find? name)

/-- The value of a name as seen from a scope. -/
def get? (s : Store) (id : ScopeId) (name : String) : Option Value :=
  (s.binding? id name).map (·.value)

/-- Is a name, as seen from a scope, a constant? -/
def isConstant (s : Store) (id : ScopeId) (name : String) : Bool :=
  (s.binding? id name).any (·.constant)

/-- The value of a name, which must be defined. -/
def lookup (s : Store) (id : ScopeId) (name : String) : Except Fault Value :=
  match s.get? id name with
  | some v => .ok v
  | none => .error (.of (.undefined name))

/-- Does a scope itself bind a name? -/
def bindsAt (s : Store) (id : ScopeId) (name : String) : Bool :=
  s.scopes[id]?.any (·.binds name)

/-- What keeps a name from being defined in a scope: it is bound there already. -/
def definitionFault? (s : Store) (id : ScopeId) (name : String) : Option Fault :=
  if s.bindsAt id name then some (.of (.alreadyDefined name)) else none

/-- What keeps a name from being assigned to: it is bound nowhere, or for good. -/
def assignmentFault? (s : Store) (id : ScopeId) (name : String) : Option Fault :=
  match s.binding? id name with
  | none => some (.of (.assignUndefined name))
  | some b => if b.constant then some (.of (.assignConstant name)) else none

/-- Adds a binding to a scope. -/
def bind (s : Store) (id : ScopeId) (b : Binding) : Store :=
  s.modify id (·.bind b)

/-- Gives another value to a name where it is bound. -/
def rebind (s : Store) (id : ScopeId) (name : String) (value : Value) : Store :=
  match s.resolve id name with
  | none => s
  | some owner => s.modify owner (·.update name value)

/-- Defines a name in a scope that does not bind it yet. -/
def define (s : Store) (id : ScopeId) (name : String) (value : Value) (constant : Bool) :
    Except Fault Store :=
  match s.definitionFault? id name with
  | some f => .error f
  | none => .ok (s.bind id ⟨name, value, constant⟩)

/-- Gives another value to a name, where it is bound, unless it is a constant. -/
def assign (s : Store) (id : ScopeId) (name : String) (value : Value) : Except Fault Store :=
  match s.assignmentFault? id name with
  | some f => .error f
  | none => .ok (s.rebind id name value)

/-- How many scopes enclose a scope. -/
def depth (s : Store) (id : ScopeId) : Nat :=
  match s.scopes[id]?.bind (·.parent) with
  | none => 0
  | some parent => if parent < id then depth s parent + 1 else 0
termination_by id

/-- The bindings of a scope, sorted by name. -/
def listing (s : Store) (id : ScopeId) : List Binding :=
  match s.scopes[id]? with
  | none => []
  | some scope => scope.bindings.mergeSort fun a b => !decide (b.name < a.name)

/-- How a scope is described: its depth and its own names. -/
def describe (s : Store) (id : ScopeId) : String :=
  "<Environment depth=" ++ toString (s.depth id) ++ " names=["
    ++ ", ".intercalate ((s.listing id).map fun b => Text.quote b.name) ++ "]>"

/-! ## The outermost scope of a program -/

/-- What every program finds defined: the truth values, null, pi and the built-in functions, all
constant. -/
def builtins : List Binding :=
  [⟨"true", .bool true, true⟩, ⟨"false", .bool false, true⟩, ⟨"null", .null, true⟩,
    ⟨"PI", .number .pi, true⟩]
    ++ Native.all.map fun f => ⟨f.name, .native f, true⟩

/-- The outermost scope of a program. -/
def globalScope : Scope := ⟨none, builtins⟩

/-- Creates an outermost scope. -/
def createGlobal (s : Store) : Store :=
  s.create globalScope

/-- The bindings of a scope that are not built in, sorted by name. -/
def ownListing (s : Store) (id : ScopeId) : List Binding :=
  (s.listing id).filter fun b => !builtins.any (·.name = b.name)

end Store

end Avii
