import Avii.Number.Decimal
import Avii.Tree.Basic

/-!
# Values

What a program computes with. Arrays and objects are never changed once made, so they are plain
data; the slots of an object stand in the order in which their keys first came up. A closure keeps
the number of the scope it was made in, and the built-in functions are known by name.
-/

namespace Avii

/-- The number of a scope in the store. -/
abbrev ScopeId := Nat

/-- A function written in the program. -/
structure Closure where
  /-- The name it was declared with; a function literal has none. -/
  name : Option String
  params : List String
  /-- The statements of its body. -/
  body : List Tree
  /-- The scope it was made in. -/
  scope : ScopeId

/-- A built-in function. -/
inductive Native where
  | print
  | println
  | len
deriving DecidableEq

namespace Native

/-- The name that a built-in function is bound to. -/
def name : Native → String
  | print => "print"
  | println => "println"
  | len => "len"

/-- How many arguments a built-in function takes, if it does not take any number. -/
def arity : Native → Option Nat
  | print | println => none
  | len => some 1

/-- The built-in functions. -/
def all : List Native := [print, println, len]

end Native

/-- A value. -/
inductive Value where
  | null
  | number (x : Binary64)
  | string (s : String)
  | bool (b : Bool)
  | array (items : List Value)
  | object (slots : List (String × Value))
  | closure (c : Closure)
  | native (f : Native)

/-- The types that values have. -/
inductive ValueType where
  | null | number | string | bool | array | object | function
deriving DecidableEq

/-- The name of a type. -/
def ValueType.name : ValueType → String
  | null => "null"
  | number => "number"
  | string => "string"
  | bool => "bool"
  | array => "array"
  | object => "object"
  | function => "function"

namespace Value

instance : Inhabited Value := ⟨null⟩

/-- The type of a value. -/
def type : Value → ValueType
  | null => .null
  | number _ => .number
  | string _ => .string
  | bool _ => .bool
  | array _ => .array
  | object _ => .object
  | closure _ | native _ => .function

/-- The values that operators turn into text: strings and numbers. -/
def isTextual : Value → Bool
  | string _ | number _ => true
  | _ => false

end Value

/-- Puts a value into a slot: a key that is there keeps its place, a new key comes last. -/
def setSlot (slots : List (String × Value)) (key : String) (value : Value) :
    List (String × Value) :=
  match slots with
  | [] => [(key, value)]
  | (k, v) :: rest => if k = key then (k, value) :: rest else (k, v) :: setSlot rest key value

/-- The value in a slot. -/
def getSlot? (slots : List (String × Value)) (key : String) : Option Value :=
  (slots.find? (·.1 = key)).map (·.2)

end Avii
