import Avii.Value.Basic

/-!
# Values as text

A value is displayed by `print` and by concatenation, and described where its structure matters:
descriptions put quotes around strings and use the other notation for numbers. Both take steps that
nest like the value does, so a value that nests too deeply for a budget of steps is not shown.
-/

namespace Avii

/-- How a function written in the program is shown. -/
def Closure.describe (c : Closure) : String :=
  let name :=
    match c.name with
    | none | some "" => "anonymous"
    | some n => n
  "<func " ++ name ++ "(" ++ ", ".intercalate c.params ++ ")>"

/-- How a built-in function is shown. -/
def Native.describe (f : Native) : String :=
  "<native " ++ f.name ++ ">"

/-- Texts in square brackets, with commas between them. -/
def bracketed (items : List String) : String :=
  "[" ++ ", ".intercalate items ++ "]"

/-- Texts in braces, with commas between them. -/
def braced (items : List String) : String :=
  "\x7b" ++ ", ".intercalate items ++ "\x7d"

namespace Value

/-- The word for a truth value. -/
def truthWord (b : Bool) : String :=
  if b then "true" else "false"

mutual

/-- How a value is displayed. -/
def display : Value → String
  | null => "null"
  | number x => x.display
  | string s => s
  | bool b => truthWord b
  | array items => bracketed (displayItems items)
  | object slots => braced (displaySlots slots)
  | closure c => c.describe
  | native f => f.describe

/-- How each of some values is displayed. -/
def displayItems : List Value → List String
  | [] => []
  | v :: vs => v.display :: displayItems vs

/-- How each of some slots is displayed. -/
def displaySlots : List (String × Value) → List String
  | [] => []
  | (k, v) :: rest => (k ++ ": " ++ v.display) :: displaySlots rest

end

mutual

/-- How a value is described. -/
def describe : Value → String
  | null => "null"
  | number x => x.describe
  | string s => "\"" ++ s ++ "\""
  | bool b => truthWord b
  | array items => bracketed (describeItems items)
  | object slots => braced (describeSlots slots)
  | closure c => c.describe
  | native f => f.describe

/-- How each of some values is described. -/
def describeItems : List Value → List String
  | [] => []
  | v :: vs => v.describe :: describeItems vs

/-- How each of some slots is described. -/
def describeSlots : List (String × Value) → List String
  | [] => []
  | (k, v) :: rest => (k ++ ": " ++ v.describe) :: describeSlots rest

end

/-! ## Steps -/

mutual

/-- How many nested steps it takes to display a value: three for an array, two for an object, and
those of the item that takes the most. -/
def displaySteps : Value → Nat
  | array items => 3 + mostDisplaySteps items
  | object slots => 2 + mostSlotDisplaySteps slots
  | _ => 1

/-- How many nested steps it takes to display the value among some that takes the most. -/
def mostDisplaySteps : List Value → Nat
  | [] => 0
  | v :: vs => max v.displaySteps (mostDisplaySteps vs)

/-- How many nested steps it takes to display the slot among some that takes the most. -/
def mostSlotDisplaySteps : List (String × Value) → Nat
  | [] => 0
  | (_, v) :: rest => max v.displaySteps (mostSlotDisplaySteps rest)

end

mutual

/-- How many nested steps it takes to describe a value: five for an array, three for an object, and
those of the item that takes the most. -/
def describeSteps : Value → Nat
  | array items => 5 + mostDescribeSteps items
  | object slots => 3 + mostSlotDescribeSteps slots
  | _ => 1

/-- How many nested steps it takes to describe the value among some that takes the most. -/
def mostDescribeSteps : List Value → Nat
  | [] => 0
  | v :: vs => max v.describeSteps (mostDescribeSteps vs)

/-- How many nested steps it takes to describe the slot among some that takes the most. -/
def mostSlotDescribeSteps : List (String × Value) → Nat
  | [] => 0
  | (_, v) :: rest => max v.describeSteps (mostSlotDescribeSteps rest)

end

/-- How a value is displayed, if a budget of steps is enough. -/
def display? (budget : Nat) (v : Value) : Option String :=
  if budget < v.displaySteps then none else some v.display

/-- How a value is described, if a budget of steps is enough. -/
def describe? (budget : Nat) (v : Value) : Option String :=
  if budget < v.describeSteps then none else some v.describe

end Value

end Avii
