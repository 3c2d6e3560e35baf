import Avii.Number.Binary64
import Avii.Text.Blank
import Avii.Text.Digit

/-!
# Reading numerals

A numeral is a sign, digits with an optional point, and an optional exponent, or the name of an
infinity or of what is not a number. Digits of any script count, single underscores may stand
between digits, and white space around the numeral is dropped. A numeral denotes the number nearest
to its exact value.
-/

namespace Avii.Numeral

open Text (isAsciiDigit natOfDigits)

/-- White space that may stand around a numeral: the white-space characters but for the
information separators. -/
def isPadding (c : Char) : Bool :=
  Text.isBlank c && !(28 ≤ c.toNat && c.toNat ≤ 31)

/-- Takes white space off both ends. -/
def unpadded (cs : List Char) : List Char :=
  ((cs.dropWhile isPadding).reverse.dropWhile isPadding).reverse

/-- A decimal digit of any script as the ASCII digit of the same value; other characters stay. -/
def asciiDigit (c : Char) : Char :=
  match Text.digitValue? c with
  | some n => Char.ofNat (48 + n)
  | none => c

/-- Drops underscores, each of which must have a digit on both sides; `before` says whether the
character before was a digit. -/
def joined? (before : Bool) : List Char → Option (List Char)
  | [] => some []
  | '_' :: c :: rest =>
    if before && isAsciiDigit c then (joined? true rest).map (c :: ·) else none
  | '_' :: [] => none
  | c :: rest => (joined? (isAsciiDigit c) rest).map (c :: ·)

/-- Takes a sign off, and says whether it was a minus. -/
def sign : List Char → Bool × List Char
  | '-' :: cs => (true, cs)
  | '+' :: cs => (false, cs)
  | cs => (false, cs)

/-- An exponent with its mark, or nothing at all. -/
def exponent? : List Char → Option Int
  | [] => some 0
  | c :: cs =>
    if c = 'e' ∨ c = 'E' then
      let (negative, ds) := sign cs
      if !ds.isEmpty && ds.all isAsciiDigit then
        some (if negative then -(natOfDigits ds : Int) else natOfDigits ds)
      else none
    else none

/-- The magnitude that an unsigned numeral with digits denotes. -/
def magnitude? (cs : List Char) : Option Nat :=
  let front := cs.takeWhile isAsciiDigit
  let (fraction, tail) :=
    match cs.dropWhile isAsciiDigit with
    | '.' :: rest => (rest.takeWhile isAsciiDigit, rest.dropWhile isAsciiDigit)
    | rest => ([], rest)
  if front.isEmpty && fraction.isEmpty then none
  else (exponent? tail).map fun e =>
    Binary64.nearestDecimal (natOfDigits (front ++ fraction)) (e - fraction.length)

/-- The number that an unsigned numeral denotes, given its sign. -/
def unsigned? (negative : Bool) (cs : List Char) : Option Binary64 :=
  let name := String.ofList (cs.map Char.toLower)
  if name = "inf" ∨ name = "infinity" then some (.infinite negative)
  else if name = "nan" then some .nan
  else (magnitude? cs).map (.ofMagnitude negative)

/-- The number that a numeral denotes. -/
def read? (s : String) : Option Binary64 :=
  match joined? false ((unpadded s.toList).map asciiDigit) with
  | none => none
  | some cs =>
    let (negative, rest) := sign cs
    unsigned? negative rest

end Avii.Numeral
