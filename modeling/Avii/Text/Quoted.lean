import Avii.Text.Printable

/-!
# Quoted texts

How a text is shown inside a message. The quote is `'`, or `"` when the text holds `'` and not `"`.
The quote in use and the backslash are escaped; line feed, carriage return and tab have short
escapes; any other unprintable character is written by its number in two, four or eight digits.
-/

namespace Avii.Text

/-- The apostrophe. -/
def apostrophe : Char := Char.ofNat 39

/-- The double quote. -/
def doubleQuote : Char := Char.ofNat 34

/-- A number in lower-case hexadecimal, with zeros in front up to a given width. -/
def hex (width n : Nat) : List Char :=
  let digits := Nat.toDigits 16 n
  List.replicate (width - digits.length) '0' ++ digits

/-- The quote for a text: the one that it does not hold, and the apostrophe by preference. -/
def quoteFor (cs : List Char) : Char :=
  if cs.contains apostrophe && !cs.contains doubleQuote then doubleQuote else apostrophe

/-- How one character is shown between two `quote`s. -/
def shown (quote c : Char) : List Char :=
  if c = quote ∨ c = '\\' then ['\\', c]
  else if c = '\n' then ['\\', 'n']
  else if c = '\r' then ['\\', 'r']
  else if c = '\t' then ['\\', 't']
  else if isPrintable c then [c]
  else if c.toNat < 0x100 then '\\' :: 'x' :: hex 2 c.toNat
  else if c.toNat < 0x10000 then '\\' :: 'u' :: hex 4 c.toNat
  else '\\' :: 'U' :: hex 8 c.toNat

/-- A text between quotes. -/
def quote (s : String) : String :=
  let cs := s.toList
  let q := quoteFor cs
  String.ofList (q :: cs.flatMap (shown q) ++ [q])

end Avii.Text
