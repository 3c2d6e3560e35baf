import Avii.Number.Binary64

/-!
# Arithmetic on numbers

Sums, differences, products and quotients are those of IEEE 754. The remainder is exact: it is the
remainder of the units. A power whose exact value is beyond the finite numbers is positive
infinity, and one without a real value, or with an infinite one, is not a number.
-/

namespace Avii.Binary64

/-- The machine number with the same bits. -/
def toFloat (x : Binary64) : Float :=
  Float.ofBits x.bits

/-- The number with a machine number's bits. -/
def ofFloat (x : Float) : Binary64 :=
  ⟨x.toBits⟩

/-- The sum of two numbers, rounded to nearest. -/
def add (x y : Binary64) : Binary64 :=
  ofFloat (x.toFloat + y.toFloat)

/-- The difference of two numbers, rounded to nearest. -/
def sub (x y : Binary64) : Binary64 :=
  ofFloat (x.toFloat - y.toFloat)

/-- The product of two numbers, rounded to nearest. -/
def mul (x y : Binary64) : Binary64 :=
  ofFloat (x.toFloat * y.toFloat)

/-- The quotient of two numbers, rounded to nearest. -/
def div (x y : Binary64) : Binary64 :=
  ofFloat (x.toFloat / y.toFloat)

/-- Numerical equality: the two zeros are equal, and what is not a number equals nothing. -/
def numEq (x y : Binary64) : Bool :=
  !x.isNaN && !y.isNaN && (x = y || (x.isZero && y.isZero))

/-- The remainder of a division that is cut off toward zero, with the sign of the dividend. An
infinite divisor leaves the dividend as it is. -/
def rem (x y : Binary64) : Binary64 :=
  if x.isNaN || y.isNaN || x.isInfinite || y.isZero then nan
  else if y.isInfinite then x
  else ofMagnitude x.isNegative (magnitudeOf (x.units % y.units))

/-- A power. For finite operands an infinite result stands for overflow, or for a zero raised to a
negative power, which has no value. -/
def pow (x y : Binary64) : Binary64 :=
  let r := ofFloat (Float.pow x.toFloat y.toFloat)
  if x.isFinite && y.isFinite && r.isInfinite then
    if x.isZero then nan else positiveInfinity
  else r

end Avii.Binary64
