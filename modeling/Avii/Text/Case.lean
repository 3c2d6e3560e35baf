import Avii.Text.Case.Table
import Avii.Text.Range

/-!
# Lower case

How a text is written small. Every capital has a small form, which is one character but for the
dotted capital I. The capital sigma has a second small form for the end of a word: a letter with
case stands before it and none after it, where characters that do not count are skipped on both
sides.
-/

namespace Avii.Text

/-- A letter that is large or small. -/
def isCased (c : Char) : Bool :=
  inRanges c.toNat casedRanges

/-- A character that does not count in the surroundings of a letter. -/
def isUncounted (c : Char) : Bool :=
  inRanges c.toNat uncountedRanges

/-- Is a character one of the letters of a run? -/
def LetterRun.holds (r : LetterRun) (c : Char) : Bool :=
  r.first ≤ c.toNat && c.toNat ≤ r.last && (c.toNat - r.first) % r.step == 0

/-- The small form of a letter wherever it stands; anything else is its own. -/
def small (c : Char) : Char :=
  match capitals.find? (·.holds c) with
  | some r => Char.ofNat ((c.toNat : Int) + r.offset).toNat
  | none => c

/-- Is a letter with case the first character of a text that counts? -/
def meetsCased : List Char → Bool
  | [] => false
  | c :: rest => if isUncounted c then meetsCased rest else isCased c

/-- The small form of a character between the text `before` it, last character first, and the text
`after` it. -/
def smallBetween (before : List Char) (c : Char) (after : List Char) : List Char :=
  if c.toNat = 0x3a3 then
    [Char.ofNat (if meetsCased before && !meetsCased after then 0x3c2 else 0x3c3)]
  else if c.toNat = 0x130 then ['i', Char.ofNat 0x307]
  else [small c]

/-- Writes characters small that follow the text `before` them, last character first. -/
def lowerAfter (before : List Char) : List Char → List Char
  | [] => []
  | c :: rest => smallBetween before c rest ++ lowerAfter (c :: before) rest

/-- Writes a text small. -/
def lower (s : String) : String :=
  String.ofList (lowerAfter [] s.toList)

end Avii.Text
