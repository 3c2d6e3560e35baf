import Avii.Value.Basic

/-!
# Faults

The ways in which evaluation can stop without a value. A `runtime` fault is the program's own
mistake and carries a line once one is known. An `internal` fault means that the tree is not one
that a program text can have. A `domain` fault is an operation that has no answer. `depth` means
that the budget of nested calls is used up.
-/

namespace Avii

/-- A mistake of the program. -/
inductive RuntimeCause where
  | undefined (name : String)
  | assignUndefined (name : String)
  | alreadyDefined (name : String)
  | assignConstant (name : String)
  | divisionByZero
  | moduloByZero
  | arity (function : String) (wanted got : Nat)
  | conditionNotBoolean (type : ValueType)
  | unknownOperator (op : String)
  | noPairOperator (op : String) (type : ValueType)
  | badObjectKey (type : ValueType)
  | indexNotWhole (index : String)
  | indexNotNumeric (index : String)
  | badIndex (type : ValueType)
  | noMembers (type : ValueType)
  | operandTypes (op : String) (left right : ValueType)
  | noLength (type : ValueType)
  | notCallable (type : ValueType)
deriving DecidableEq

/-- The word for a type in messages about pairs of operands. -/
def ValueType.pairName : ValueType → String
  | .bool => "boolean"
  | t => t.name

/-- A mistake of the program, in words. -/
def RuntimeCause.message : RuntimeCause → String
  | undefined n => "Variable '" ++ n ++ "' is not defined"
  | assignUndefined n => "Cannot assign to undefined variable '" ++ n ++ "'"
  | alreadyDefined n => "Variable '" ++ n ++ "' is already defined in this scope"
  | assignConstant n => "Cannot assign to constant '" ++ n ++ "'"
  | divisionByZero => "Division by zero"
  | moduloByZero => "Modulo by zero"
  | arity f wanted got =>
    f ++ " expects " ++ toString wanted ++ " argument(s); got " ++ toString got
  | conditionNotBoolean t => "Condition must be boolean, got " ++ t.name
  | unknownOperator op => "Unknown operator '" ++ op ++ "'"
  | noPairOperator op t => "Operator '" ++ op ++ "' is not defined for two " ++ t.pairName ++ "s"
  | badObjectKey t => "Cannot use " ++ t.name ++ " as an object key"
  | indexNotWhole i => "Index must be an integer, got " ++ i
  | indexNotNumeric i => "Cannot index with non-numeric string '" ++ i ++ "'"
  | badIndex t => "Cannot index with " ++ t.name
  | noMembers t => "Cannot read properties of " ++ t.name
  | operandTypes op l r =>
    "Unsupported operand types for " ++ op ++ ": " ++ l.name ++ " and " ++ r.name
  | noLength t => "len expects a string, array or object; got " ++ t.name
  | notCallable t => "Cannot call a value of type " ++ t.name

/-- What is wrong with a tree. -/
inductive InternalCause where
  | nothing
  | unknownLabel (label : String)
  | unhandledLeaf (kind text : String)
  | notIdentifier (role : String)
  | wrongNode (wanted found : String)
  | nativeResult (native type : String)
deriving DecidableEq

/-- What is wrong with a tree, in words. -/
def InternalCause.message : InternalCause → String
  | nothing => "Cannot evaluate NoneType"
  | unknownLabel l => "Unknown node: " ++ l
  | unhandledLeaf k t => "Unhandled token " ++ k ++ ":" ++ t
  | notIdentifier role => role ++ " must be an identifier"
  | wrongNode wanted found => "Expected '" ++ wanted ++ "' node, got " ++ found
  | nativeResult f t => "native " ++ f ++ " returned " ++ t

/-- An operation that has no answer. -/
inductive DomainCause where
  /-- The remainder of an infinite number. -/
  | infiniteDividend
  /-- An index of more digits than are read. -/
  | indexTooLong
  /-- A number leaf whose text is not a numeral. -/
  | badNumeral
  /-- A node with the wrong number of children. -/
  | childCount
deriving DecidableEq

/-- Why evaluation stopped without a value. -/
inductive Fault where
  | runtime (cause : RuntimeCause) (line : Option Int)
  | internal (cause : InternalCause)
  | domain (cause : DomainCause)
  | depth
deriving DecidableEq

namespace Fault

/-- A mistake of the program whose line is not yet known. -/
def of (cause : RuntimeCause) : Fault :=
  runtime cause none

/-- Gives a line to a mistake that has none. -/
def located (line : Option Int) : Fault → Fault
  | runtime cause none => runtime cause line
  | f => f

/-- The line of a mistake. -/
def line? : Fault → Option Int
  | runtime _ line => line
  | _ => none

/-- A fault in words, with its line where that is known. -/
def message : Fault → String
  | runtime cause none => cause.message
  | runtime cause (some n) => cause.message ++ " (line " ++ toString n ++ ")"
  | internal cause => cause.message
  | domain _ => ""
  | depth => "Maximum call depth exceeded"

end Fault

end Avii
