/-!
# Characters by index

A text has no index of its own; its characters are counted from the start, without a list of them
being made.
-/

namespace Avii.Text

/-- The character of a text at an index. -/
def charAt? (s : String) (i : Nat) : Option Char :=
  s.chars.atIdxSlow? i

/-- It is the item of the list of characters at that index. -/
theorem charAt?_eq (s : String) (i : Nat) : charAt? s i = s.toList[i]? := by
  rw [charAt?, ← String.toList_chars, Std.Iter.getElem?_toList_eq_atIdxSlow?]

end Avii.Text
