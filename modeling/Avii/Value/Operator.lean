import Avii.Number.Arithmetic
import Avii.Text.Split
import Avii.Value.Fault
import Avii.Value.Show

/-!
# Operators

Two numbers are combined by arithmetic. A string with a string or a number is concatenated by `+`
and split by `/`, both on displayed forms. Conditions compare only pairs of the same simple type;
any other pair is false under every condition, `!=` included.
-/

namespace Avii

/-- The arithmetic operators. -/
inductive Arithmetic where
  | add | sub | mul | div | rem | pow
deriving DecidableEq

/-- The arithmetic operator with a given sign. -/
def Arithmetic.ofSign? (s : String) : Option Arithmetic :=
  if s = "+" then some .add
  else if s = "-" then some .sub
  else if s = "*" then some .mul
  else if s = "/" then some .div
  else if s = "%" then some .rem
  else if s = "^" then some .pow
  else none

/-- An arithmetic operator on two numbers. Division and remainder by either zero fail, and so does
the remainder of an infinity unless the divisor is not a number. -/
def Arithmetic.apply (op : Arithmetic) (x y : Binary64) : Except Fault Binary64 :=
  match op with
  | add => .ok (x.add y)
  | sub => .ok (x.sub y)
  | mul => .ok (x.mul y)
  | div => if y.isZero then .error (.of .divisionByZero) else .ok (x.div y)
  | rem =>
    if y.isZero then .error (.of .moduloByZero)
    else if x.isInfinite && !y.isNaN then .error (.domain .infiniteDividend)
    else .ok (x.rem y)
  | pow => .ok (x.pow y)

namespace Value

/-- An arithmetic operator on two values. -/
def binary (sign : String) (l r : Value) : Except Fault Value :=
  match Arithmetic.ofSign? sign with
  | none => .error (.of (.unknownOperator sign))
  | some op =>
    match l, r with
    | number x, number y => (op.apply x y).map number
    | l, r =>
      if l.isTextual && r.isTextual && op = .add then .ok (string (l.display ++ r.display))
      else if l.isTextual && r.isTextual && op = .div then
        .ok (array ((Text.split l.display r.display).map string))
      else .error (.of (.operandTypes sign l.type r.type))

/-- Equality or inequality of two values of one type, given whether they are equal. -/
def equality (sign : String) (type : ValueType) (equal : Bool) : Except Fault Value :=
  if sign = "==" then .ok (bool equal)
  else if sign = "!=" then .ok (bool !equal)
  else .error (.of (.noPairOperator sign type))

/-- A condition on two values. -/
def condition (sign : String) (l r : Value) : Except Fault Value :=
  match l, r with
  | bool a, bool b =>
    if sign = "and" then .ok (bool (a && b))
    else if sign = "or" then .ok (bool (a || b))
    else equality sign .bool (a == b)
  | number x, number y => equality sign .number (x.numEq y)
  | string s, string t => equality sign .string (s == t)
  | _, _ => .ok (bool false)

end Value

end Avii
