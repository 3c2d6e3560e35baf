import Avii.Proofs.Simulation.Values

/-!
# Transplants

What evaluation works on can be moved to other surroundings in two ways at once. Lines and columns
are replaced, or forgotten, in trees and so in the bodies of closures. And the scopes of a store are
put on top of other scopes, so that the numbers of scopes go up by as many as there are below.

A transplanted value is the only one that is like the value and whose scopes go up in this way
(`Value.alike_iff_transplant`), so that what is known of alike values holds of it. What stores know
about names is transplanted with them.
-/

namespace Avii

variable {ρ : Replacement} {k : Nat}

/-! ## Values -/

/-- A closure in other surroundings: the places in its body are replaced, and its scope has `k` more
below it. -/
def Closure.transplant (ρ : Replacement) (k : Nat) (c : Closure) : Closure :=
  { c with body := c.body.map (Tree.transplant ρ), scope := c.scope + k }

namespace Value

mutual

/-- A value whose closures are in other surroundings. -/
def transplant (ρ : Replacement) (k : Nat) : Value → Value
  | array items => array (transplantItems ρ k items)
  | object slots => object (transplantSlots ρ k slots)
  | closure c => closure (c.transplant ρ k)
  | v => v

/-- Some values whose closures are in other surroundings. -/
def transplantItems (ρ : Replacement) (k : Nat) : List Value → List Value
  | [] => []
  | v :: vs => v.transplant ρ k :: transplantItems ρ k vs

/-- Some slots whose closures are in other surroundings. -/
def transplantSlots (ρ : Replacement) (k : Nat) : List (String × Value) → List (String × Value)
  | [] => []
  | (key, v) :: rest => (key, v.transplant ρ k) :: transplantSlots ρ k rest

end

/-- A slot whose closures are in other surroundings. -/
def transplantSlot (ρ : Replacement) (k : Nat) (p : String × Value) : String × Value :=
  (p.1, p.2.transplant ρ k)

/-- Items are transplanted one by one. -/
theorem transplantItems_eq_map (vs : List Value) :
    transplantItems ρ k vs = vs.map (transplant ρ k) := by
  induction vs with
  | nil => rfl
  | cons v vs ih => rw [transplantItems, ih, List.map_cons]

/-- Slots are transplanted one by one. -/
theorem transplantSlots_eq_map (slots : List (String × Value)) :
    transplantSlots ρ k slots = slots.map (transplantSlot ρ k) := by
  induction slots with
  | nil => rfl
  | cons p rest ih => rw [transplantSlots, ih, List.map_cons, transplantSlot]

@[simp] theorem transplant_null : null.transplant ρ k = null := rfl

@[simp] theorem transplant_number (x : Binary64) : (number x).transplant ρ k = number x := rfl

@[simp] theorem transplant_string (s : String) : (string s).transplant ρ k = string s := rfl

@[simp] theorem transplant_bool (b : Bool) : (bool b).transplant ρ k = bool b := rfl

@[simp] theorem transplant_native (f : Native) : (native f).transplant ρ k = native f := rfl

/-- Only closures change. -/
@[simp] theorem transplant_closure (c : Closure) :
    (closure c).transplant ρ k = closure (c.transplant ρ k) := rfl

/-- An array is transplanted with its items. -/
@[simp] theorem transplant_array (items : List Value) :
    (array items).transplant ρ k = array (items.map (transplant ρ k)) := by
  rw [transplant, transplantItems_eq_map]

/-- An object is transplanted with its slots, the keys as they are. -/
@[simp] theorem transplant_object (slots : List (String × Value)) :
    (object slots).transplant ρ k = object (slots.map (transplantSlot ρ k)) := by
  rw [transplant, transplantSlots_eq_map]

mutual

/-- A value and what it is transplanted to are alike, captured scopes having moved up. -/
theorem alike_transplant : ∀ v : Value, v.Alike ρ (fun a b => b = a + k) (v.transplant ρ k)
  | null => .null
  | number x => .number x
  | string s => .string s
  | bool b => .bool b
  | native f => .native f
  | closure _ => .closure ⟨rfl, rfl, rfl, rfl⟩
  | array items => by
    rw [transplant_array]
    exact .array (alike_transplantItems items)
  | object slots => by
    rw [transplant_object]
    exact .object (alike_transplantSlots slots)

theorem alike_transplantItems : ∀ vs : List Value,
    List.Forall₂ (Alike ρ fun a b => b = a + k) vs (vs.map (transplant ρ k))
  | [] => .nil
  | v :: vs => .cons (alike_transplant v) (alike_transplantItems vs)

theorem alike_transplantSlots : ∀ slots : List (String × Value),
    List.Forall₂ (SlotAlike ρ fun a b => b = a + k) slots (slots.map (transplantSlot ρ k))
  | [] => .nil
  | (_, v) :: rest => .cons (.slot (alike_transplant v)) (alike_transplantSlots rest)

end

mutual

/-- What is alike to a value with captured scopes moved up is the transplanted value. -/
theorem Alike.eq_transplant : ∀ {v w : Value}, v.Alike ρ (fun a b => b = a + k) w →
    w = v.transplant ρ k
  | .array _, _, .array h => by rw [transplant_array, items_eq_transplant h]
  | .object _, _, .object h => by rw [transplant_object, slots_eq_transplant h]
  | .closure c, .closure d, .closure h => by
    rw [transplant_closure, Closure.transplant, ← h.body, ← h.scope, ← h.name, ← h.params]
  | _, _, .null | _, _, .number _ | _, _, .string _ | _, _, .bool _ | _, _, .native _ => rfl

theorem items_eq_transplant : ∀ {vs ws : List Value},
    List.Forall₂ (Alike ρ fun a b => b = a + k) vs ws → ws = vs.map (transplant ρ k)
  | [], _, .nil => rfl
  | _ :: _, _, .cons h hs => by rw [List.map_cons, h.eq_transplant, items_eq_transplant hs]

theorem slots_eq_transplant : ∀ {ps qs : List (String × Value)},
    List.Forall₂ (SlotAlike ρ fun a b => b = a + k) ps qs → qs = ps.map (transplantSlot ρ k)
  | [], _, .nil => rfl
  | (_, _) :: _, _, .cons (.slot h) hs => by
    rw [List.map_cons, transplantSlot, h.eq_transplant, slots_eq_transplant hs]

end

/-- To be alike with captured scopes moved up is to be transplanted. -/
theorem alike_iff_transplant {v w : Value} :
    v.Alike ρ (fun a b => b = a + k) w ↔ w = v.transplant ρ k :=
  ⟨Alike.eq_transplant, fun h => h ▸ alike_transplant v⟩

/-- How a value is displayed does not show where it is. -/
theorem transplant_display (v : Value) : (v.transplant ρ k).display = v.display :=
  (alike_transplant v).display

/-- Neither does how many steps that takes. -/
theorem transplant_displaySteps (v : Value) : (v.transplant ρ k).displaySteps = v.displaySteps :=
  (alike_transplant v).displaySteps

end Value

/-! ## Stores -/

/-- A binding whose closures are in other surroundings. -/
def Binding.transplant (ρ : Replacement) (k : Nat) (b : Binding) : Binding :=
  { b with value := b.value.transplant ρ k }

namespace Scope

/-- A scope in other surroundings. -/
def transplant (ρ : Replacement) (k : Nat) (s : Scope) : Scope :=
  ⟨s.parent.map (· + k), s.bindings.map (Binding.transplant ρ k)⟩

theorem transplant_parent (s : Scope) : (s.transplant ρ k).parent = s.parent.map (· + k) := rfl

/-- A name is bound in a transplanted scope to what it was bound to, transplanted. -/
theorem transplant_find? (s : Scope) (name : String) :
    (s.transplant ρ k).find? name = (s.find? name).map (Binding.transplant ρ k) := by
  unfold find? transplant
  rw [List.find?_map]
  rfl

@[simp] theorem transplant_binds (s : Scope) (name : String) :
    (s.transplant ρ k).binds name = s.binds name := by
  simp [binds, transplant_find?]

/-- To bind a name and to transplant can change places. -/
theorem transplant_bind (s : Scope) (b : Binding) :
    (s.bind b).transplant ρ k = (s.transplant ρ k).bind (b.transplant ρ k) := by
  simp [bind, transplant]

/-- To give a name another value and to transplant can change places. -/
theorem transplant_update (s : Scope) (name : String) (v : Value) :
    (s.update name v).transplant ρ k = (s.transplant ρ k).update name (v.transplant ρ k) := by
  simp only [update, transplant, List.map_map]
  congr 1
  refine List.map_congr_left fun b _ => ?_
  by_cases hb : b.name = name
  · simp [Binding.transplant, hb]
  · simp [Binding.transplant, hb]

/-- No closure is built in. -/
@[simp] theorem transplant_globalScope :
    Store.globalScope.transplant ρ k = Store.globalScope := rfl

end Scope

namespace Store

variable {below : Array Scope}

/-- A store in other surroundings, on top of other scopes. -/
def transplant (ρ : Replacement) (below : Array Scope) (s : Store) : Store :=
  ⟨below ++ s.scopes.map (Scope.transplant ρ below.size)⟩

/-- The next scope has the number it had, counted from above the scopes below. -/
@[simp] theorem transplant_next (s : Store) :
    (s.transplant ρ below).next = s.next + below.size := by
  simp [next, transplant, Nat.add_comm]

/-- The scopes of a store are those above the ones below. -/
theorem transplant_scope? (s : Store) (id : ScopeId) :
    (s.transplant ρ below).scopes[id + below.size]? =
      s.scopes[id]?.map (Scope.transplant ρ below.size) := by
  simp [transplant, Array.getElem?_append_right]

/-- A search that starts above the scopes below stays above them. -/
theorem transplant_resolve (s : Store) (id : ScopeId) (name : String) :
    (s.transplant ρ below).resolve (id + below.size) name =
      (s.resolve id name).map (· + below.size) := by
  fun_induction Store.resolve s id name with
  | case1 id hnone =>
    rw [resolve, transplant_scope?, hnone]
    rfl
  | case2 id scope hscope hbinds =>
    rw [resolve, transplant_scope?, hscope]
    simp [hbinds]
  | case3 id scope hscope hbinds hparent =>
    rw [resolve, transplant_scope?, hscope]
    simp [hbinds, Scope.transplant_parent, hparent]
  | case4 id scope hscope hbinds parent hparent hlt ih =>
    rw [resolve, transplant_scope?, hscope]
    simp [hbinds, Scope.transplant_parent, hparent, hlt, ih]
  | case5 id scope hscope hbinds parent hparent hle =>
    rw [resolve, transplant_scope?, hscope]
    simp [hbinds, Scope.transplant_parent, hparent, hle]

/-- It finds the binding it would find without them. -/
theorem transplant_binding? (s : Store) (id : ScopeId) (name : String) :
    (s.transplant ρ below).binding? (id + below.size) name =
      (s.binding? id name).map (Binding.transplant ρ below.size) := by
  unfold binding?
  rw [transplant_resolve]
  cases s.resolve id name with
  | none => rfl
  | some owner =>
    simp only [Option.map_some, transplant_scope?]
    cases s.scopes[owner]? with
    | none => rfl
    | some scope => exact scope.transplant_find? name

/-- To create a scope and to transplant can change places. -/
theorem transplant_create (s : Store) (scope : Scope) :
    (s.create scope).transplant ρ below =
      (s.transplant ρ below).create (scope.transplant ρ below.size) := by
  simp [create, transplant]

/-- So can to change a scope, if the change does. -/
theorem transplant_modify (s : Store) (id : ScopeId) {f g : Scope → Scope}
    (h : ∀ scope, (f scope).transplant ρ below.size = g (scope.transplant ρ below.size)) :
    (s.modify id f).transplant ρ below = (s.transplant ρ below).modify (id + below.size) g := by
  unfold modify transplant
  congr 1
  refine Array.ext_getElem? fun i => ?_
  rw [Array.getElem?_modify]
  by_cases hi : i < below.size
  · -- a scope below is none of those that are changed
    rw [if_neg (by omega), Array.getElem?_append_left hi, Array.getElem?_append_left hi]
  · obtain ⟨j, rfl⟩ := Nat.exists_eq_add_of_le' (Nat.not_lt.mp hi)
    have hright : below.size ≤ j + below.size := Nat.le_add_left _ _
    rw [Array.getElem?_append_right hright, Array.getElem?_append_right hright,
      Nat.add_sub_cancel, Array.getElem?_map, Array.getElem?_map, Array.getElem?_modify]
    by_cases hj : id = j
    · subst hj
      simp [Function.comp_def, h]
    · simp [hj]

theorem transplant_bind (s : Store) (id : ScopeId) (b : Binding) :
    (s.bind id b).transplant ρ below =
      (s.transplant ρ below).bind (id + below.size) (b.transplant ρ below.size) :=
  s.transplant_modify id fun scope => scope.transplant_bind b

theorem transplant_rebind (s : Store) (id : ScopeId) (name : String) (v : Value) :
    (s.rebind id name v).transplant ρ below =
      (s.transplant ρ below).rebind (id + below.size) name (v.transplant ρ below.size) := by
  unfold rebind
  rw [transplant_resolve]
  cases s.resolve id name with
  | none => rfl
  | some owner => exact s.transplant_modify owner fun scope => scope.transplant_update name v

/-- The names that a scope binds beyond the built-in ones, sorted, are the same. -/
theorem transplant_ownListing (s : Store) (id : ScopeId) :
    ((s.transplant ρ below).ownListing (id + below.size)).map (·.name) =
      (s.ownListing id).map (·.name) := by
  unfold ownListing listing
  rw [transplant_scope?]
  cases s.scopes[id]? with
  | none => rfl
  | some scope =>
    have hsort := List.map_mergeSort (f := Binding.transplant ρ below.size)
      (r := fun a b => !decide (b.name < a.name)) (s := fun a b => !decide (b.name < a.name))
      (l := scope.bindings) fun _ _ _ _ => rfl
    simp only [Option.map_some, Scope.transplant]
    rw [← hsort, List.filter_map, List.map_map]
    rfl

end Store

end Avii