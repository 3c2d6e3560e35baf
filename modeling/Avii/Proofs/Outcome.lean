/-!
# Outcomes that are mapped

An outcome is an answer or an error. What is done to the answers leaves the errors as they are, so
how a mapped outcome ended is known from how the outcome did.
-/

namespace Avii

variable {ε α β : Type} {x : Except ε α} {f : α → β}

theorem map_eq_ok {b : β} : x.map f = .ok b ↔ ∃ a, x = .ok a ∧ f a = b := by
  cases x with
  | ok a => simp [Except.map]
  | error e => simp [Except.map]

theorem map_eq_error {e : ε} : x.map f = .error e ↔ x = .error e := by
  cases x with
  | ok a => simp [Except.map]
  | error e' => simp [Except.map]

end Avii
