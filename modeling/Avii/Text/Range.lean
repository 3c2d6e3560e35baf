/-!
# Ranges of numbers

Sets of code points are kept as lists of ranges, each with its first and its last number, in
ascending order.
-/

namespace Avii.Text

/-- Membership in a list of ascending ranges, which need not be read past the first that begins
after the number. -/
def inRanges (n : Nat) : List (Nat × Nat) → Bool
  | [] => false
  | (lo, hi) :: rest => if n < lo then false else if n ≤ hi then true else inRanges n rest

end Avii.Text
