/-!
# Context-free grammars by number

A grammar whose symbols and rules are numbers, in the form that table construction works on. The
terminals have the lowest numbers and the variables those that follow; rule zero is the start rule.
Sets of numbers are natural numbers, one bit for each member, and a family of sets is one natural
number too: its sets stand side by side, each in a block of bits of its own.
-/

namespace Avii.Lalr

/-- A finite set of natural numbers, as the bits of one. -/
abbrev Bits := Nat

namespace Bits

/-- The set of one number. -/
def single (n : Nat) : Bits := 1 <<< n

/-- Is a number in the set? -/
def has (s : Bits) (n : Nat) : Bool := s.testBit n

/-- The union of the sets that a function gives for the elements of a list. -/
def union {α : Type} (f : α → Bits) : List α → Bits
  | [] => 0
  | a :: as => f a ||| union f as

/-- The set with a given number in a family of sets of numbers below `width`. -/
def block (width i : Nat) (family : Bits) : Bits :=
  (family >>> (i * width)) % (1 <<< width)

/-- The family whose set with a given number is this one, and whose other sets are empty. -/
def place (width i : Nat) (s : Bits) : Bits := s <<< (i * width)

/-- Grows a set, at most a number of times, until it grows no more. -/
def grow (step : Bits → Bits) : Nat → Bits → Bits
  | 0, s => s
  | rounds + 1, s => if step s = s then s else grow step rounds (step s)

end Bits

/-- A rule: a variable and what it may be replaced by. -/
structure Rule where
  head : Nat
  body : List Nat

/-- A grammar: how many of the symbols are terminals, how many symbols there are, and the rules. -/
structure Grammar where
  terminals : Nat
  symbols : Nat
  rules : List Rule

namespace Grammar

/-- How often a set is grown at most, more than any set of a grammar of reasonable size needs. -/
def roundLimit : Nat := 1000

/-! ## Empty words and first terminals -/

/-- One more step in finding the variables that may be empty. -/
def growNullable (g : Grammar) (known : Bits) : Bits :=
  known ||| Bits.union (fun r => if r.body.all known.has then Bits.single r.head else 0) g.rules

/-- The variables that may stand for nothing. -/
def nullable (g : Grammar) : Bits :=
  Bits.grow g.growNullable roundLimit 0

/-- The terminals that may come first in a list of symbols, given the symbols that may be empty and
the terminals that may come first in each symbol. -/
def firstOf (terminals : Nat) (nullable first : Bits) : List Nat → Bits
  | [] => 0
  | x :: xs =>
    if nullable.has x then Bits.block terminals x first ||| firstOf terminals nullable first xs
    else Bits.block terminals x first

/-- One more step in finding first terminals. -/
def growFirst (g : Grammar) (nullable first : Bits) : Bits :=
  first ||| Bits.union
    (fun r => Bits.place g.terminals r.head (firstOf g.terminals nullable first r.body)) g.rules

/-- For each symbol, the terminals that may come first in what it stands for. -/
def first (g : Grammar) : Bits :=
  Bits.grow (g.growFirst g.nullable) roundLimit
    (Bits.union (fun x => Bits.place g.terminals x (Bits.single x)) (List.range g.terminals))

end Grammar

end Avii.Lalr
