import Avii.Proofs.Simulation.Evaluation
import Avii.Proofs.Transplant.Basic

/-!
# Evaluation in other surroundings

Evaluation looks neither at places, nor at what lies below the scopes that it can reach, nor at what
was noted before it. In other surroundings (`Transplant`) it does the same: it gives the
transplanted value or stops with the transplanted fault, prints the same text, notes the same
events and leaves the transplanted store (`preserves_evaluate`).

This is a simulation whose scopes are the same at all times but for their numbers
(`Transplant.simulation`). `Preserves` says what it comes to for two computations.
-/

namespace Avii

/-- Other surroundings for an evaluation: places are replaced, the scopes lie on top of others, and
something else has been noted before. -/
structure Transplant where
  places : Replacement
  below : Array Scope
  notedHere : List Event
  notedThere : List Event

namespace Transplant

variable (T : Transplant) {α β γ δ : Type}

/-- A scope in other surroundings. -/
abbrev scope (id : ScopeId) : ScopeId := id + T.below.size

/-- A tree in other surroundings. -/
abbrev tree (t : Tree) : Tree := t.transplant T.places

/-- A value in other surroundings. -/
abbrev value (v : Value) : Value := v.transplant T.places T.below.size

/-- A fault in other surroundings. -/
abbrev fault (f : Fault) : Fault := f.transplant T.places

/-- A store in other surroundings. -/
abbrev store (s : Store) : Store := s.transplant T.places T.below

/-- The second machine is the first in other surroundings. -/
structure Moved (m m' : Machine) : Prop where
  store : m'.store = T.store m.store
  output : m'.output = m.output
  events : ∃ new, m.events = new ++ T.notedHere ∧ m'.events = new ++ T.notedThere

/-- How two computations end that do the same but for their surroundings. -/
def Corresponds (f : α → β) :
    EStateM.Result Fault Machine α → EStateM.Result Fault Machine β → Prop
  | .ok a m, .ok b m' => b = f a ∧ T.Moved m m'
  | .error e m, .error e' m' => e' = T.fault e ∧ T.Moved m m'
  | _, _ => False

variable {T}

theorem Corresponds.of_ok {f : α → β} {a : α} {m : Machine} {r : EStateM.Result Fault Machine β}
    (h : T.Corresponds f (.ok a m) r) : ∃ m', r = .ok (f a) m' ∧ T.Moved m m' := by
  cases r with
  | ok b m' => exact ⟨m', by rw [h.1], h.2⟩
  | error => exact h.elim

theorem Corresponds.of_error {f : α → β} {e : Fault} {m : Machine}
    {r : EStateM.Result Fault Machine β} (h : T.Corresponds f (.error e m) r) :
    ∃ m', r = .error (T.fault e) m' ∧ T.Moved m m' := by
  cases r with
  | ok => exact h.elim
  | error e' m' => exact ⟨m', by rw [h.1], h.2⟩

variable (T) in
/-- Two computations do the same but for their surroundings. -/
def Preserves (f : α → β) (x : Eval α) (x' : Eval β) : Prop :=
  ∀ m m', T.Moved m m' → T.Corresponds f (x m) (x' m')

/-! ## The simulation -/

variable (T) in
/-- An evaluation and the same in other surroundings. -/
def simulation : Simulation where
  places := T.places
  Time := Unit
  later _ _ := True
  scope _ a b := b = T.scope a
  captured _ a b := b = T.scope a
  store _ s t := t = T.store s
  notedHere := T.notedHere
  notedThere := T.notedThere

theorem value_iff {v w : Value} : T.simulation.value () v w ↔ w = T.value v :=
  Value.alike_iff_transplant

theorem simulation_lawful : T.simulation.Lawful where
  refl _ := trivial
  trans _ _ := trivial
  scope_later _ h := h
  captured_later _ _ _ h := h
  captured_of_scope h := h
  binding := by
    rintro ⟨⟩ s _ a _ rfl rfl name
    rw [Store.transplant_binding?]
    cases s.binding? a name with
    | none => exact .none
    | some b => exact .some ⟨rfl, rfl, value_iff.mpr rfl⟩
  bindsAt := by
    rintro ⟨⟩ s _ a _ rfl rfl name
    unfold Store.bindsAt
    rw [Store.transplant_scope?]
    cases s.scopes[a]? <;> simp
  bind := by
    rintro ⟨⟩ s _ a _ x ⟨name, v, constant⟩ rfl rfl ⟨rfl, rfl, hv⟩
    obtain rfl := value_iff.mp hv
    exact (s.transplant_bind a x).symm
  rebind := by
    rintro ⟨⟩ s _ a _ name v w rfl rfl hv
    obtain rfl := value_iff.mp hv
    exact (s.transplant_rebind a name v).symm
  create := by
    rintro ⟨⟩ s _ a _ rfl rfl
    have hcreate := @Store.transplant_create T.places T.below s (.empty (some a))
    exact ⟨(), trivial, hcreate.symm, s.transplant_next⟩

/-- What goes on side by side does the same but for the surroundings. -/
theorem preserves_of_mirrors {good : T.simulation.Time → α → β → Prop} {f : α → β}
    (hgood : ∀ {a b}, good () a b → b = f a) {x : Eval α} {x' : Eval β}
    (h : T.simulation.Mirrors () good x x') : T.Preserves f x x' := by
  intro m m' hm
  have hends := h () trivial m m' ⟨hm.store, hm.output, hm.events⟩
  cases hx : x m with
  | ok a m₁ =>
    rw [hx] at hends
    obtain ⟨b, m₁', hx', _, -, hm₁, hab⟩ := hends.of_ok
    rw [hx']
    exact ⟨hgood hab, hm₁.store, hm₁.output, hm₁.events⟩
  | error e m₁ =>
    rw [hx] at hends
    obtain ⟨m₁', hx', _, -, hm₁⟩ := hends.of_error
    rw [hx']
    exact ⟨rfl, hm₁.store, hm₁.output, hm₁.events⟩

open Eval

theorem Preserves.located (hx : T.Preserves f x x') (t : Tree) :
    T.Preserves f (located t x) (located (T.tree t) x') := by
  intro m m' hm
  have h := hx m m' hm
  unfold Eval.located
  cases hxm : x m with
  | ok a m₁ =>
    rw [hxm] at h
    obtain ⟨m₁', hxm', hm₁⟩ := h.of_ok
    rw [hxm']
    exact ⟨rfl, hm₁⟩
  | error e m₁ =>
    rw [hxm] at h
    obtain ⟨m₁', hxm', hm₁⟩ := h.of_error
    rw [hxm']
    exact ⟨by rw [Tree.transplant_sourceLine, ← Fault.transplant_located], hm₁⟩

/-! ## Evaluation -/

/-- Evaluation goes on side by side with itself in other surroundings, whatever the budget. -/
theorem simulates_evaluation (n : Nat) : T.simulation.Simulates
    (evaluator functionDeclaration n) (evaluator functionDeclaration n) :=
  Simulation.simulates simulation_lawful
    (fun hab => Simulation.mirrors_functionDeclaration simulation_lawful hab) n

/-- The statements of a program do the same in other surroundings. -/
theorem preserves_sequence (n : Nat) (scope : ScopeId) (ts : List Tree) :
    T.Preserves T.value (sequence (evalTree n scope) .null ts)
      (sequence (evalTree n (T.scope scope)) .null (ts.map T.tree)) := by
  have h := @(simulates_evaluation (T := T) n).tree () scope _ rfl
  rw [evaluator_declarations] at h
  exact preserves_of_mirrors value_iff.mp
    (Simulation.mirrors_sequence simulation_lawful h .null)

theorem preserves_evaluate (n : Nat) (scope : ScopeId) (t : Tree) :
    T.Preserves T.value (evaluate n scope t) (evaluate n (T.scope scope) (T.tree t)) := by
  rw [← evaluateWith_declarations]
  refine preserves_of_mirrors value_iff.mp ?_
  exact Simulation.mirrors_evaluateWith simulation_lawful
    (fun hab => Simulation.mirrors_functionDeclaration simulation_lawful hab) n rfl t

end Transplant

end Avii
