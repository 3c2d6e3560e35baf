import Avii.Proofs.Places.Relocation
import Avii.Proofs.Transplant.Evaluation

/-!
# Evaluation elsewhere

Evaluation does not look at places, nor at what has been noted. Of a relocated tree, on a machine
whose store is relocated, it does the same: it gives the relocated value or stops with the relocated
fault, prints the same text, and leaves the relocated store. `Carries` says this of two
computations. They are preserved by every transplant that moves places and puts nothing below
(`carries_of_preserves`).
-/

namespace Avii

/-- Surroundings with other places and other notes only. -/
def Transplant.elsewhere (φ : Int → Int) (here there : List Event) : Transplant :=
  ⟨.move φ, #[], here, there⟩

namespace Eval

variable {α β : Type} {φ : Int → Int}

/-- The same machine but for the places in its store and for its notes. -/
structure Moved (φ : Int → Int) (m m' : Machine) : Prop where
  store : m'.store = m.store.relocate φ
  output : m'.output = m.output

theorem moved_id {m m' : Machine} :
    Moved id m m' ↔ m'.store = m.store ∧ m'.output = m.output := by
  constructor
  · rintro ⟨hstore, houtput⟩
    exact ⟨by rw [hstore, Store.relocate_id], houtput⟩
  · rintro ⟨hstore, houtput⟩
    exact ⟨by rw [hstore, Store.relocate_id], houtput⟩

/-- Machines that are the same but for places are so but for their surroundings, whatever was noted
on either. -/
theorem Moved.elsewhere {m m' : Machine} (h : Moved φ m m') :
    (Transplant.elsewhere φ m.events m'.events).Moved m m' := by
  refine ⟨?_, h.output, [], rfl, rfl⟩
  rw [h.store, Store.relocate_eq]
  rfl

theorem moved_of_elsewhere {here there : List Event} {m m' : Machine}
    (h : (Transplant.elsewhere φ here there).Moved m m') : Moved φ m m' := by
  refine ⟨?_, h.output⟩
  rw [h.store, Store.relocate_eq]
  rfl

/-- How two computations end that do the same but for places. -/
def Corresponds (φ : Int → Int) (f : α → β) :
    EStateM.Result Fault Machine α → EStateM.Result Fault Machine β → Prop
  | .ok a m, .ok b m' => b = f a ∧ Moved φ m m'
  | .error e m, .error e' m' => e' = e.relocate φ ∧ Moved φ m m'
  | _, _ => False

theorem Corresponds.of_ok {f : α → β} {a : α} {m : Machine} {r : EStateM.Result Fault Machine β}
    (h : Corresponds φ f (.ok a m) r) : ∃ m', r = .ok (f a) m' ∧ Moved φ m m' := by
  cases r with
  | ok b m' => exact ⟨m', by rw [h.1], h.2⟩
  | error => exact h.elim

theorem Corresponds.of_error {f : α → β} {e : Fault} {m : Machine}
    {r : EStateM.Result Fault Machine β} (h : Corresponds φ f (.error e m) r) :
    ∃ m', r = .error (e.relocate φ) m' ∧ Moved φ m m' := by
  cases r with
  | ok => exact h.elim
  | error e' m' => exact ⟨m', by rw [h.1], h.2⟩

/-- Two computations do the same but for places, on machines that are the same but for places. -/
def Carries (φ : Int → Int) (f : α → β) (x : Eval α) (x' : Eval β) : Prop :=
  ∀ m m', Moved φ m m' → Corresponds φ f (x m) (x' m')

/-- What is preserved elsewhere, whatever was noted here and there, is carried along. -/
theorem carries_of_preserves {f : α → β} {x : Eval α} {x' : Eval β}
    (h : ∀ here there, (Transplant.elsewhere φ here there).Preserves f x x') :
    Carries φ f x x' := by
  intro m m' hm
  have hends := h m.events m'.events m m' hm.elsewhere
  cases hx : x m with
  | ok a m₁ =>
    rw [hx] at hends
    obtain ⟨m₁', hx', hm₁⟩ := hends.of_ok
    rw [hx']
    exact ⟨rfl, moved_of_elsewhere hm₁⟩
  | error e m₁ =>
    rw [hx] at hends
    obtain ⟨m₁', hx', hm₁⟩ := hends.of_error
    rw [hx', Transplant.fault]
    exact ⟨by rw [Fault.relocate_eq]; rfl, moved_of_elsewhere hm₁⟩

/-- The statements of a program are carried along. -/
theorem carries_sequence (n : Nat) (scope : ScopeId) (ts : List Tree) :
    Carries φ (Value.relocate φ) (sequence (evalTree n scope) .null ts)
      (sequence (evalTree n scope) .null (ts.map (Tree.relocate φ))) := by
  rw [Value.relocate_eq, Tree.relocate_eq]
  exact carries_of_preserves fun here there =>
    Transplant.preserves_sequence n scope ts

/-- So are the statements of a program whose mistakes have the line of a tree. -/
theorem carries_located (n : Nat) (scope : ScopeId) (t : Tree) (ts : List Tree) :
    Carries φ (Value.relocate φ) (located t (sequence (evalTree n scope) .null ts))
      (located (t.relocate φ) (sequence (evalTree n scope) .null (ts.map (Tree.relocate φ)))) := by
  rw [Value.relocate_eq, Tree.relocate_eq]
  exact carries_of_preserves fun here there =>
    (Transplant.preserves_sequence n scope ts).located t

end Eval

end Avii
