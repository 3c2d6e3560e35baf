/-!
# White space

The white-space characters of Unicode, and the two operations on texts that depend on them: taking
white space off both ends, and cutting the first word off a text.
-/

namespace Avii.Text

/-- A white-space character: the blanks and separators of Unicode together with the four
information separators and the next-line character. -/
def isBlank (c : Char) : Bool :=
  let n := c.toNat
  (9 ≤ n && n ≤ 13) || (28 ≤ n && n ≤ 32) || n == 0x85 || n == 0xA0 || n == 0x1680
    || (0x2000 ≤ n && n ≤ 0x200A) || n == 0x2028 || n == 0x2029 || n == 0x202F || n == 0x205F
    || n == 0x3000

/-- Takes leading white space off. -/
def stripLeft (cs : List Char) : List Char :=
  cs.dropWhile isBlank

/-- Takes white space off both ends. -/
def stripChars (cs : List Char) : List Char :=
  (stripLeft (stripLeft cs).reverse).reverse

/-- Takes white space off both ends of a text. -/
def strip (s : String) : String :=
  String.ofList (stripChars s.toList)

/-- The first word of a text, and what follows it with the white space between them dropped.
Leading white space is not skipped: the text is expected to start with a word. -/
def splitFirst (s : String) : String × String :=
  let cs := s.toList
  (String.ofList (cs.takeWhile (!isBlank ·)),
    String.ofList (stripLeft (cs.dropWhile (!isBlank ·))))

end Avii.Text
