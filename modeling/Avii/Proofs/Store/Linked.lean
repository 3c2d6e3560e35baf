import Avii.Proofs.Store.Steps
import Avii.Proofs.Value.Linked

/-!
# Stores that differ in closures

Two stores are linked if they have the same scopes, one inside the other in the same way, with the
same names bound in the same order and for good alike, and the values bound are linked
(`Store.Linked`). Then names are found in the same places, and what a step does to both links them
again.
-/

namespace Avii

variable {K : Closure → Closure → Prop}

/-- A binding with the same name and mark as another, and a value linked to that of the other. -/
structure Binding.Linked (K : Closure → Closure → Prop) (b c : Binding) : Prop where
  name : c.name = b.name
  constant : c.constant = b.constant
  value : b.value.Linked K c.value

/-- A scope inside the same scope as another, whose bindings are linked to those of the other. -/
structure Scope.Linked (K : Closure → Closure → Prop) (s t : Scope) : Prop where
  parent : t.parent = s.parent
  bindings : List.Forall₂ (Binding.Linked K) s.bindings t.bindings

/-- The same scopes are there, and they are linked. -/
def Store.Linked (K : Closure → Closure → Prop) (s t : Store) : Prop :=
  ∀ id : ScopeId, Option.Rel (Scope.Linked K) s.scopes[id]? t.scopes[id]?

/-! ## Bindings -/

namespace Binding

variable {R : Binding → Binding → Prop} (hname : ∀ {b c}, R b c → c.name = b.name)
  {xs ys : List Binding} (h : List.Forall₂ R xs ys) (name : String)

include hname h

/-- Bindings are found in the same places if related ones have one name. -/
theorem find?_related : Option.Rel R (xs.find? (·.name = name)) (ys.find? (·.name = name)) := by
  induction h with
  | nil => exact .none
  | @cons x y _ _ hxy _ ih =>
    by_cases hx : x.name = name
    · simpa [hx, hname hxy] using hxy
    · simpa [hx, hname hxy] using ih

/-- An update gives linked bindings the same name and linked values. -/
theorem update_related {v w : Value}
    (hvalue : ∀ {b c}, R b c → R { b with value := v } { c with value := w }) :
    List.Forall₂ R (xs.map fun b => if b.name = name then { b with value := v } else b)
      (ys.map fun b => if b.name = name then { b with value := w } else b) := by
  induction h with
  | nil => exact .nil
  | @cons x y _ _ hxy _ ih =>
    refine .cons ?_ ih
    dsimp only
    by_cases hx : x.name = name
    · rw [if_pos hx, if_pos ((hname hxy).trans hx)]
      exact hvalue hxy
    · rw [if_neg hx, if_neg (hname hxy ▸ hx)]
      exact hxy

end Binding

/-! ## Scopes -/

namespace Scope

variable {s t : Scope}

/-- A name is found in both scopes, or in neither. -/
theorem Linked.find? (h : s.Linked K t) (name : String) :
    Option.Rel (Binding.Linked K) (s.find? name) (t.find? name) :=
  Binding.find?_related (fun hbc => hbc.name) h.bindings name

/-- Both scopes bind it, or neither. -/
theorem Linked.binds (h : s.Linked K t) (name : String) : t.binds name = s.binds name := by
  have hfind := h.find? name
  unfold Scope.binds
  generalize s.find? name = x at hfind ⊢
  generalize t.find? name = y at hfind ⊢
  cases hfind with
  | none => rfl
  | some h => rfl

/-- To bind linked bindings keeps scopes linked. -/
theorem Linked.bind (h : s.Linked K t) {b c : Binding} (hbc : b.Linked K c) :
    (s.bind b).Linked K (t.bind c) :=
  ⟨h.parent, List.rel_append h.bindings (.cons hbc .nil)⟩

theorem Linked.update (h : s.Linked K t) (name : String) {v w : Value} (hvw : v.Linked K w) :
    (s.update name v).Linked K (t.update name w) :=
  ⟨h.parent, Binding.update_related (fun hbc => hbc.name) h.bindings name
    fun hbc => ⟨hbc.name, hbc.constant, hvw⟩⟩

/-- A scope is linked to itself. -/
theorem linked_refl (hK : ∀ c, K c c) (s : Scope) : s.Linked K s :=
  ⟨rfl, List.forall₂_same.mpr fun b _ => ⟨rfl, rfl, b.value.linked_refl hK⟩⟩

end Scope

/-! ## Stores -/

namespace Store

variable {s t : Store} {id : ScopeId} {name : String} {v w : Value}

/-- A store is linked to itself. -/
theorem linked_refl (hK : ∀ c, K c c) (s : Store) : s.Linked K s := by
  intro id
  cases s.scopes[id]? with
  | none => exact .none
  | some scope => exact .some (scope.linked_refl hK)

/-- A scope of one of two linked stores, and that of the other. -/
theorem Linked.cases (h : s.Linked K t) (id : ScopeId) :
    (s.scopes[id]? = none ∧ t.scopes[id]? = none) ∨
      ∃ x y, s.scopes[id]? = some x ∧ t.scopes[id]? = some y ∧ x.Linked K y := by
  have hid := h id
  generalize s.scopes[id]? = x at hid ⊢
  generalize t.scopes[id]? = y at hid ⊢
  cases hid with
  | none => exact .inl ⟨rfl, rfl⟩
  | some hxy => exact .inr ⟨_, _, rfl, rfl, hxy⟩

/-- A scope of one store has its partner in the other. -/
theorem Linked.scope (h : s.Linked K t) {x : Scope} (hs : s.scopes[id]? = some x) :
    ∃ y, t.scopes[id]? = some y ∧ x.Linked K y := by
  rcases h.cases id with ⟨hnone, -⟩ | ⟨x', y, hs', ht, hxy⟩
  · cases hnone.symm.trans hs
  · cases hs'.symm.trans hs
    exact ⟨y, ht, hxy⟩

/-- The next scope has the same number in both. -/
theorem Linked.next (h : s.Linked K t) : t.next = s.next := by
  have hend : ∀ id, s.next ≤ id ↔ t.next ≤ id := fun id => by
    unfold Store.next
    rw [← Array.getElem?_eq_none_iff, ← Array.getElem?_eq_none_iff]
    rcases h.cases id with ⟨hs, ht⟩ | ⟨x, y, hs, ht, -⟩ <;> simp [hs, ht]
  exact Nat.le_antisymm ((hend s.next).mp (Nat.le_refl _)) ((hend t.next).mpr (Nat.le_refl _))

/-- A search ends in the same scope in both. -/
theorem Linked.resolve (h : s.Linked K t) (id : ScopeId) (name : String) :
    t.resolve id name = s.resolve id name := by
  fun_induction Store.resolve s id name with
  | case1 id hnone =>
    rcases h.cases id with ⟨-, ht⟩ | ⟨x, y, hs, -, -⟩
    · rw [Store.resolve, ht]
    · cases hnone.symm.trans hs
  | case2 id scope hscope hbinds =>
    obtain ⟨y, ht, hxy⟩ := h.scope hscope
    rw [Store.resolve, ht]
    simp [hxy.binds, hbinds]
  | case3 id scope hscope hbinds hparent =>
    obtain ⟨y, ht, hxy⟩ := h.scope hscope
    rw [Store.resolve, ht]
    simp [hxy.binds, hbinds, hxy.parent, hparent]
  | case4 id scope hscope hbinds parent hparent hlt ih =>
    obtain ⟨y, ht, hxy⟩ := h.scope hscope
    rw [Store.resolve, ht]
    simp [hxy.binds, hbinds, hxy.parent, hparent, hlt, ih]
  | case5 id scope hscope hbinds parent hparent hle =>
    obtain ⟨y, ht, hxy⟩ := h.scope hscope
    rw [Store.resolve, ht]
    simp [hxy.binds, hbinds, hxy.parent, hparent, hle]

/-- It finds linked bindings. -/
theorem Linked.binding? (h : s.Linked K t) (id : ScopeId) (name : String) :
    Option.Rel (Binding.Linked K) (s.binding? id name) (t.binding? id name) := by
  unfold Store.binding?
  rw [h.resolve]
  cases s.resolve id name with
  | none => exact .none
  | some owner =>
    rcases h.cases owner with ⟨hs, ht⟩ | ⟨x, y, hs, ht, hxy⟩
    · simp only [hs, ht]
      exact .none
    · simp only [hs, ht]
      exact hxy.find? name

theorem Linked.bindsAt (h : s.Linked K t) (id : ScopeId) (name : String) :
    t.bindsAt id name = s.bindsAt id name := by
  unfold Store.bindsAt
  rcases h.cases id with ⟨hs, ht⟩ | ⟨x, y, hs, ht, hxy⟩
  · rw [hs, ht]
  · simp [hs, ht, hxy.binds]

/-- A name has linked values in both, or is undefined in both. -/
theorem Linked.lookup (h : s.Linked K t) (id : ScopeId) (name : String) :
    ResultLinked (Value.Linked K) (s.lookup id name) (t.lookup id name) := by
  have hbinding := h.binding? id name
  unfold Store.lookup Store.get?
  generalize s.binding? id name = x at hbinding ⊢
  generalize t.binding? id name = y at hbinding ⊢
  cases hbinding with
  | none => rfl
  | some h => exact h.value

/-- It can be defined in both, or in neither. -/
theorem Linked.definitionFault? (h : s.Linked K t) (id : ScopeId) (name : String) :
    t.definitionFault? id name = s.definitionFault? id name := by
  unfold Store.definitionFault?
  rw [h.bindsAt]

/-- It can be assigned in both, or in neither. -/
theorem Linked.assignmentFault? (h : s.Linked K t) (id : ScopeId) (name : String) :
    t.assignmentFault? id name = s.assignmentFault? id name := by
  have hbinding := h.binding? id name
  unfold Store.assignmentFault?
  generalize s.binding? id name = x at hbinding ⊢
  generalize t.binding? id name = y at hbinding ⊢
  cases hbinding with
  | none => rfl
  | some h => simp only [h.constant]

/-! ## Steps -/

/-- To create linked scopes keeps stores linked. -/
theorem Linked.create (h : s.Linked K t) {x y : Scope} (hxy : x.Linked K y) :
    (s.create x).Linked K (t.create y) := by
  intro id
  rw [scopes_create, scopes_create, h.next]
  split
  next => exact .some hxy
  next => exact h id

theorem Linked.modify (h : s.Linked K t) (id : ScopeId) {f g : Scope → Scope}
    (hfg : ∀ {x y : Scope}, x.Linked K y → (f x).Linked K (g y)) :
    (s.modify id f).Linked K (t.modify id g) := by
  intro other
  rw [scopes_modify, scopes_modify]
  split
  next =>
    rcases h.cases other with ⟨hs, ht⟩ | ⟨x, y, hs, ht, hxy⟩
    · rw [hs, ht]
      exact .none
    · rw [hs, ht]
      exact .some (hfg hxy)
  next => exact h other

theorem Linked.bind (h : s.Linked K t) (id : ScopeId) {b c : Binding} (hbc : b.Linked K c) :
    (s.bind id b).Linked K (t.bind id c) :=
  h.modify id fun hxy => hxy.bind hbc

theorem Linked.rebind (h : s.Linked K t) (id : ScopeId) (name : String) (hvw : v.Linked K w) :
    (s.rebind id name v).Linked K (t.rebind id name w) := by
  unfold Store.rebind
  rw [h.resolve]
  cases s.resolve id name with
  | none => exact h
  | some owner => exact h.modify owner fun hxy => hxy.update name hvw

end Store

end Avii
