/-!
# Numbers

Numbers are IEEE 754 doubles, held by their bit patterns. The pattern without its sign bit is the
`magnitude`; magnitudes order the positive numbers, and the last finite one is just below
`infinity`. A finite number is a whole number of `units` of 2^-1074, so exact statements about
numbers are statements about natural numbers.
-/

namespace Avii

/-- A double-precision number, by its bits. -/
structure Binary64 where
  bits : UInt64
deriving DecidableEq

namespace Binary64

/-- The place of the sign bit. -/
def signPlace : Nat := Nat.pow 2 63

/-- How many magnitudes share a power of two. -/
def binade : Nat := Nat.pow 2 52

/-- The magnitude of the infinities; those of the numbers that are not numbers lie above it. -/
def infinity : Nat := 2047 * binade

/-- How many units make one. -/
def unitsInOne : Nat := Nat.pow 2 1074

/-- Is the sign bit set? -/
def isNegative (x : Binary64) : Bool :=
  signPlace ≤ x.bits.toNat

/-- The bits below the sign. -/
def magnitude (x : Binary64) : Nat :=
  x.bits.toNat % signPlace

/-- The number with a sign and a magnitude. -/
def ofMagnitude (negative : Bool) (magnitude : Nat) : Binary64 :=
  ⟨UInt64.ofNat (if negative then signPlace + magnitude else magnitude)⟩

/-- Is it a result that is not a number? -/
def isNaN (x : Binary64) : Bool :=
  infinity < x.magnitude

/-- Is it one of the two infinities? -/
def isInfinite (x : Binary64) : Bool :=
  x.magnitude = infinity

/-- Is it neither infinite nor undefined? -/
def isFinite (x : Binary64) : Bool :=
  x.magnitude < infinity

/-- Is it one of the two zeros? -/
def isZero (x : Binary64) : Bool :=
  x.magnitude = 0

/-- The result that is not a number. -/
def nan : Binary64 := ofMagnitude false (infinity + binade / 2)

/-- The infinity above all finite numbers. -/
def positiveInfinity : Binary64 := ofMagnitude false infinity

/-- The infinity of a given sign. -/
def infinite (negative : Bool) : Binary64 := ofMagnitude negative infinity

/-- The double nearest to the ratio of a circle's circumference to its diameter. -/
def pi : Binary64 := ⟨0x400921FB54442D18⟩

/-! ## Units -/

/-- How often the significand of a finite magnitude is doubled. The lowest two powers of two share
one spacing. -/
def scaleOf (magnitude : Nat) : Nat :=
  magnitude / binade - 1

/-- How many units a finite magnitude is. -/
def unitsOf (magnitude : Nat) : Nat :=
  (magnitude - scaleOf magnitude * binade) * Nat.pow 2 (scaleOf magnitude)

/-- The absolute value of a finite number in units. -/
def units (x : Binary64) : Nat :=
  unitsOf x.magnitude

/-- The scale at which a number of units has at most 53 binary digits. -/
def scaleFor (units : Nat) : Nat :=
  units.log2 - 52

/-- The magnitude of a number of units that some finite number has. -/
def magnitudeOf (units : Nat) : Nat :=
  scaleFor units * binade + units / Nat.pow 2 (scaleFor units)

/-- Is it finite and whole? -/
def isInteger (x : Binary64) : Bool :=
  x.isFinite && x.units % unitsInOne = 0

/-- The whole part of the absolute value of a finite number. -/
def whole (x : Binary64) : Nat :=
  x.units / unitsInOne

/-! ## Rounding -/

/-- The natural number nearest to a quotient, an even one where two are equally near. -/
def roundDiv (n d : Nat) : Nat :=
  let q := n / d
  let r := n % d
  if d < 2 * r ∨ (2 * r = d ∧ q % 2 = 1) then q + 1 else q

/-- The magnitude nearest to a quotient, an even one where two are equally near, and infinity from
half a step above the last finite number on. -/
def nearest (n d : Nat) : Nat :=
  let u := n * unitsInOne
  let scale := scaleFor (u / d)
  min infinity (scale * binade + roundDiv u (d * Nat.pow 2 scale))

/-- The number nearest to a natural number. -/
def ofNat (n : Nat) : Binary64 :=
  ofMagnitude false (nearest n 1)

/-- The magnitude nearest to `digits` times a power of ten. Exponents so large or small that the
answer is infinity or zero are not computed with. -/
def nearestDecimal (digits : Nat) (exponent : Int) : Nat :=
  if digits = 0 then 0
  else if 400 < exponent then infinity
  else if exponent < -(digits.log2 + 400 : Int) then 0
  else if 0 ≤ exponent then nearest (digits * Nat.pow 10 exponent.toNat) 1
  else nearest digits (Nat.pow 10 (-exponent).toNat)

end Binary64

end Avii
