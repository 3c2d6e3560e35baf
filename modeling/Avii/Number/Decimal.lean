import Avii.Number.Binary64

/-!
# Numbers in decimal

The shortest decimal that reads back as a number, and the two ways to lay out a number: positional
notation, which never uses an exponent, and scientific notation for very small and very large
numbers.

The decimals with a given power of ten as their last place form a grid. The grids are tried from
coarse to fine; on each only the two neighbours of the number can be nearest to it. A number that
is exactly on a grid reads back from it, and every finite number is exactly on the grid of
10^-1074, so the search ends.
-/

namespace Avii

/-- A decimal: `digits` times ten to the `exponent`. -/
structure Decimal where
  digits : Nat
  exponent : Int
deriving DecidableEq

namespace Decimal

/-- The magnitude of the nearest number. -/
def nearest (d : Decimal) : Nat :=
  Binary64.nearestDecimal d.digits d.exponent

/-- A quotient equal to a number of units divided by a power of ten. -/
def ratio (units : Nat) (exponent : Int) : Nat × Nat :=
  if 0 ≤ exponent then (units, Binary64.unitsInOne * Nat.pow 10 exponent.toNat)
  else (units * Nat.pow 10 (-exponent).toNat, Binary64.unitsInOne)

/-- The point of the grid with last place `exponent` that reads back as the magnitude; the nearer
one if two do, the even one if both are equally near. -/
def onGrid? (magnitude : Nat) (exponent : Int) : Option Decimal :=
  let (n, d) := ratio (Binary64.unitsOf magnitude) exponent
  let below : Decimal := ⟨n / d, exponent⟩
  let above : Decimal := ⟨n / d + 1, exponent⟩
  let r := n % d
  if below.nearest = magnitude then
    if above.nearest = magnitude ∧ (d < 2 * r ∨ (2 * r = d ∧ n / d % 2 = 1)) then some above
    else some below
  else if above.nearest = magnitude then some above
  else none

/-- The finest grid that the search can need. -/
def finest : Int := -1074

/-- The decimal on the finest grid that equals a magnitude exactly. -/
def exact (magnitude : Nat) : Decimal :=
  ⟨Binary64.unitsOf magnitude * Nat.pow 5 1074, finest⟩

/-- The first hit on a grid no coarser than `exponent`, in at most `grids` trials. -/
def search (magnitude : Nat) : Nat → Int → Decimal
  | 0, _ => exact magnitude
  | grids + 1, exponent =>
    match onGrid? magnitude exponent with
    | some d => d
    | none => search magnitude grids (exponent - 1)

/-- A power of ten above a magnitude, at most a few places above. -/
def leading (magnitude : Nat) : Int :=
  ((Binary64.unitsOf magnitude).log2 - 1074 : Int) * 30103 / 100000 + 2

/-- Moves zeros from the end of the digits into the exponent, at most `rounds` of them. -/
def trimmed : Nat → Decimal → Decimal
  | 0, d => d
  | rounds + 1, d =>
    if d.digits ≠ 0 ∧ d.digits % 10 = 0 then trimmed rounds ⟨d.digits / 10, d.exponent + 1⟩ else d

/-- The decimal with the fewest digits that reads back as a finite magnitude other than zero. -/
def shortest (magnitude : Nat) : Decimal :=
  let top := leading magnitude
  let d := search magnitude (top - finest).toNat top
  trimmed d.digits.log2 d

/-- The digits of the integer. -/
def digitChars (d : Decimal) : List Char :=
  Nat.toDigits 10 d.digits

/-- Positional notation. -/
def positional (d : Decimal) : List Char :=
  let ds := d.digitChars
  if 0 ≤ d.exponent then ds ++ List.replicate d.exponent.toNat '0'
  else
    let places := (-d.exponent).toNat
    if places < ds.length then ds.take (ds.length - places) ++ '.' :: ds.drop (ds.length - places)
    else '0' :: '.' :: List.replicate (places - ds.length) '0' ++ ds

/-- The exponent of the leading digit. -/
def leadExponent (d : Decimal) : Int :=
  d.exponent + d.digitChars.length - 1

/-- One digit before the point, and the exponent with a sign and at least two digits. -/
def scientific (d : Decimal) : List Char :=
  let e := d.leadExponent
  let eDigits := Nat.toDigits 10 e.natAbs
  let mantissa :=
    match d.digitChars with
    | [] => []
    | [c] => [c]
    | c :: cs => c :: '.' :: cs
  mantissa ++ 'e' :: (if e < 0 then '-' else '+')
    :: List.replicate (2 - eDigits.length) '0' ++ eDigits

end Decimal

namespace Binary64

/-- A text with a minus sign in front if it is wanted. -/
def signed (negative : Bool) (cs : List Char) : String :=
  String.ofList (if negative then '-' :: cs else cs)

/-- How a number is displayed: never with an exponent, whole numbers without a point, and negative
zero with its sign. -/
def display (x : Binary64) : String :=
  if x.isNaN then "NaN"
  else if x.isInfinite then signed x.isNegative "inf".toList
  else if x.isInteger then signed x.isNegative (Nat.toDigits 10 x.whole)
  else signed x.isNegative (Decimal.shortest x.magnitude).positional

/-- How a number is described: whole numbers as integers, so that zero has no sign, and others
with an exponent where the leading digit is past the fourth place after the point or before the
sixteenth in front of it. -/
def describe (x : Binary64) : String :=
  if x.isNaN then "nan"
  else if x.isInfinite then signed x.isNegative "inf".toList
  else if x.isInteger then signed (x.isNegative && !x.isZero) (Nat.toDigits 10 x.whole)
  else
    let d := Decimal.shortest x.magnitude
    let e := d.leadExponent
    signed x.isNegative (if -4 ≤ e ∧ e < 16 then d.positional else d.scientific)

end Binary64

end Avii
