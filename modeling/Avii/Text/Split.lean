/-!
# Splitting a text

A text is split at the occurrences of a separator, each time at the leftmost one in what is left.
An empty separator splits a text into its characters.

Occurrences are found in one pass over the text. A window as long as the separator moves along with
it, and the fingerprint of the window, which is the same for equal texts, is brought up to date with
every step. Only where it is that of the separator are the two compared, so the time it takes does
not grow with the length of the separator.
-/

namespace Avii.Text

/-! ## Fingerprints -/

/-- What a fingerprint is multiplied by for every further character. -/
def fingerprintBase : UInt64 := 0x9E3779B97F4A7C15

/-- The share of a character in a fingerprint; no character has none. -/
def share (c : Char) : UInt64 :=
  c.val.toUInt64 + 1

/-- The fingerprint of a text. -/
def fingerprint (cs : List Char) : UInt64 :=
  cs.foldl (fun n c => n * fingerprintBase + share c) 0

/-- The factor of the first character's share in the fingerprint of a text of this length. -/
def leadingFactor (cs : List Char) : UInt64 :=
  cs.tail.foldl (fun n _ => n * fingerprintBase) 1

/-- The share of the first character of a text, if it has one. -/
def leadingShare : List Char → UInt64
  | [] => 0
  | c :: _ => share c

/-! ## Pieces -/

/-- A separator that is looked for, with its fingerprint and the factor of its first character. -/
structure Sought where
  chars : List Char
  mark : UInt64
  factor : UInt64

/-- A separator that is looked for. -/
def Sought.of (sep : List Char) : Sought :=
  ⟨sep, fingerprint sep, leadingFactor sep⟩

/-- Does a text whose window has the fingerprint `mark` start with the separator? -/
def Sought.standsAt (s : Sought) (mark : UInt64) (text : List Char) : Bool :=
  mark == s.mark && s.chars.isPrefixOf text

/-- The fingerprint of the window one step further: it loses `c` and gains what comes first in the
text `ahead` of it. -/
def Sought.moved (s : Sought) (mark : UInt64) (c : Char) (ahead : List Char) : UInt64 :=
  (mark - share c * s.factor) * fingerprintBase + leadingShare ahead

/-- The pieces of a text between the leftmost occurrences of a separator that is not empty.
`skip` counts the characters of an occurrence that are still to be passed, `piece` holds the current
piece, last character first, `mark` is the fingerprint of the window, and `ahead` the text that
follows the window. -/
def pieces (s : Sought) (skip : Nat) (piece : List Char) (mark : UInt64) (ahead : List Char) :
    List Char → List (List Char)
  | [] => [piece.reverse]
  | c :: rest =>
    let next := s.moved mark c ahead
    match skip with
    | k + 1 => pieces s k piece next ahead.tail rest
    | 0 =>
      if s.standsAt mark (c :: rest) then
        piece.reverse :: pieces s (s.chars.length - 1) [] next ahead.tail rest
      else pieces s 0 (c :: piece) next ahead.tail rest

/-- The pieces of a text between the leftmost occurrences of a separator; its characters if the
separator is empty. -/
def splitChars (text sep : List Char) : List (List Char) :=
  if sep.isEmpty then text.map ([·])
  else if text.length < sep.length then [text]
  else
    pieces (.of sep) 0 [] (fingerprint (text.take sep.length)) (text.drop sep.length) text

/-- The pieces of a text between the leftmost occurrences of a separator. -/
def split (text sep : String) : List String :=
  (splitChars text.toList sep.toList).map String.ofList

end Avii.Text
