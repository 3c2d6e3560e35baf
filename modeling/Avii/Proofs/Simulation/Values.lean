import Avii.Proofs.Places.Replacement
import Avii.Proofs.Store.Linked

/-!
# Alike values

Two values are alike if they differ at most in the closures that occur in them, and these only in
the places in their bodies and in the scopes that they have captured (`Value.Alike`). A relation
says which scopes may stand for each other.

What is computed from values looks at neither, because alike values are linked (`Alike.linked`). So
their displayed forms are the same, and members, lengths and the results of operators are alike, or
the same mistakes (`ResultAlike`), which have no place where they are made.
-/

namespace Avii

variable {ρ : Replacement} {R R' : ScopeId → ScopeId → Prop}

/-- A closure that differs from another in the places in its body and in its scope. -/
structure Closure.Alike (ρ : Replacement) (R : ScopeId → ScopeId → Prop) (c d : Closure) :
    Prop where
  name : d.name = c.name
  params : d.params = c.params
  body : d.body = c.body.map (Tree.transplant ρ)
  scope : R c.scope d.scope

/-- Alike closures have one name and the same parameters. -/
theorem Closure.alike_keepsHeads : Closure.KeepsHeads (Closure.Alike ρ R) :=
  fun h => ⟨h.name, h.params⟩

/-- Closures that are alike stay so while more scopes belong together. -/
theorem Closure.Alike.later {c d : Closure} (h : c.Alike ρ R d) (hR : ∀ a b, R a b → R' a b) :
    c.Alike ρ R' d :=
  ⟨h.name, h.params, h.body, hR _ _ h.scope⟩

namespace Value

mutual

/-- A value that differs from another only in its closures, which are alike. -/
inductive Alike (ρ : Replacement) (R : ScopeId → ScopeId → Prop) : Value → Value → Prop where
  | null : Alike ρ R .null .null
  | number (x : Binary64) : Alike ρ R (.number x) (.number x)
  | string (s : String) : Alike ρ R (.string s) (.string s)
  | bool (b : Bool) : Alike ρ R (.bool b) (.bool b)
  | array {vs ws : List Value} (h : List.Forall₂ (Alike ρ R) vs ws) :
      Alike ρ R (.array vs) (.array ws)
  | object {ps qs : List (String × Value)} (h : List.Forall₂ (SlotAlike ρ R) ps qs) :
      Alike ρ R (.object ps) (.object qs)
  | closure {c d : Closure} (h : c.Alike ρ R d) : Alike ρ R (.closure c) (.closure d)
  | native (f : Native) : Alike ρ R (.native f) (.native f)

/-- A slot with the same key as another and a value like that of the other. -/
inductive SlotAlike (ρ : Replacement) (R : ScopeId → ScopeId → Prop) :
    String × Value → String × Value → Prop where
  | slot {key : String} {v w : Value} (h : Alike ρ R v w) : SlotAlike ρ R (key, v) (key, w)

end

variable {v w k k' : Value} {vs ws : List Value} {ps qs : List (String × Value)}

mutual

/-- Alike values are linked by alike closures. -/
theorem Alike.linked : ∀ {v w : Value}, Alike ρ R v w → Linked (Closure.Alike ρ R) v w
  | .array _, _, .array h => .array (items_linked_of_alike h)
  | .object _, _, .object h => .object (slots_linked_of_alike h)
  | .closure _, _, .closure h => .closure h
  | _, _, .null => .null
  | _, _, .number x => .number x
  | _, _, .string s => .string s
  | _, _, .bool b => .bool b
  | _, _, .native f => .native f

theorem items_linked_of_alike : ∀ {vs ws : List Value}, List.Forall₂ (Alike ρ R) vs ws →
    List.Forall₂ (Linked (Closure.Alike ρ R)) vs ws
  | [], _, .nil => .nil
  | _ :: _, _, .cons h hs => .cons h.linked (items_linked_of_alike hs)

theorem slots_linked_of_alike : ∀ {ps qs : List (String × Value)},
    List.Forall₂ (SlotAlike ρ R) ps qs → List.Forall₂ (SlotLinked (Closure.Alike ρ R)) ps qs
  | [], _, .nil => .nil
  | (_, _) :: _, _, .cons (.slot h) hs => .cons (.slot h.linked) (slots_linked_of_alike hs)

end

mutual

/-- Values that are linked by alike closures are alike. -/
theorem Linked.alike : ∀ {v w : Value}, Linked (Closure.Alike ρ R) v w → Alike ρ R v w
  | .array _, _, .array h => .array (items_alike_of_linked h)
  | .object _, _, .object h => .object (slots_alike_of_linked h)
  | .closure _, _, .closure h => .closure h
  | _, _, .null => .null
  | _, _, .number x => .number x
  | _, _, .string s => .string s
  | _, _, .bool b => .bool b
  | _, _, .native f => .native f

theorem items_alike_of_linked : ∀ {vs ws : List Value},
    List.Forall₂ (Linked (Closure.Alike ρ R)) vs ws → List.Forall₂ (Alike ρ R) vs ws
  | [], _, .nil => .nil
  | _ :: _, _, .cons h hs => .cons h.alike (items_alike_of_linked hs)

theorem slots_alike_of_linked : ∀ {ps qs : List (String × Value)},
    List.Forall₂ (SlotLinked (Closure.Alike ρ R)) ps qs → List.Forall₂ (SlotAlike ρ R) ps qs
  | [], _, .nil => .nil
  | (_, _) :: _, _, .cons (.slot h) hs => .cons (.slot h.alike) (slots_alike_of_linked hs)

end

/-- Alike values are displayed in the same way. -/
theorem Alike.display (h : Alike ρ R v w) : w.display = v.display :=
  h.linked.display Closure.alike_keepsHeads

theorem displayItems_alike (h : List.Forall₂ (Alike ρ R) vs ws) :
    displayItems ws = displayItems vs :=
  displayItems_linked Closure.alike_keepsHeads (items_linked_of_alike h)

/-- To display them takes equally many steps. -/
theorem Alike.displaySteps (h : Alike ρ R v w) : w.displaySteps = v.displaySteps :=
  h.linked.displaySteps

theorem mostDisplaySteps_alike (h : List.Forall₂ (Alike ρ R) vs ws) :
    mostDisplaySteps ws = mostDisplaySteps vs :=
  mostDisplaySteps_linked (items_linked_of_alike h)

/-- Values that are alike stay so when more scopes may stand for each other. -/
theorem Alike.later (hR : ∀ a b, R a b → R' a b) (h : Alike ρ R v w) : Alike ρ R' v w :=
  (h.linked.mono fun hc => hc.later hR).alike

/-- Values stay alike while more scopes belong together. -/
theorem alike_later (hR : ∀ a b, R a b → R' a b) (h : List.Forall₂ (Alike ρ R) vs ws) :
    List.Forall₂ (Alike ρ R') vs ws :=
  h.imp fun _ _ => Alike.later hR

theorem slots_later (hR : ∀ a b, R a b → R' a b) (h : List.Forall₂ (SlotAlike ρ R) ps qs) :
    List.Forall₂ (SlotAlike ρ R') ps qs := by
  refine h.imp fun p q hpq => ?_
  cases hpq with
  | slot h => exact .slot (h.later hR)

end Value

/-- A slot is set to alike values under the same key. -/
theorem setSlot_alike {ps qs : List (String × Value)} (h : List.Forall₂ (Value.SlotAlike ρ R) ps qs)
    (key : String) {v w : Value} (hv : v.Alike ρ R w) :
    List.Forall₂ (Value.SlotAlike ρ R) (setSlot ps key v) (setSlot qs key w) :=
  Value.slots_alike_of_linked
    (Value.setSlot_linked (Value.slots_linked_of_alike h) key hv.linked)

/-! ## Operations -/

/-- Two operations on alike values have alike results, or make the same mistake. -/
def ResultAlike {α β : Type} (ρ : Replacement) (good : α → β → Prop) :
    Except Fault α → Except Fault β → Prop
  | .ok a, .ok b => good a b
  | .error f, .error g => g = f.transplant ρ
  | _, _ => False

/-- Operations on linked values, whose mistakes have no place. -/
theorem ResultLinked.alike {r r' : Except Fault Value}
    (h : ResultLinked (Value.Linked (Closure.Alike ρ R)) r r')
    (hr : ∀ e, r = .error e → e.transplant ρ = e) : ResultAlike ρ (Value.Alike ρ R) r r' := by
  cases r with
  | ok v =>
    cases r' with
    | ok w => exact Value.Linked.alike h
    | error => exact h.elim
  | error e =>
    cases r' with
    | ok => exact h.elim
    | error f =>
      obtain rfl : f = e := h
      exact (hr f rfl).symm

namespace Value

variable {v w k k' : Value} {e : Fault}

/-- What is made of a result without a place has none if it is a mistake. -/
theorem map_unplaced {α β : Type} {r : Except Fault α} {f : α → β}
    (hr : ∀ e, r = .error e → e.transplant ρ = e) (h : r.map f = .error e) :
    e.transplant ρ = e := by
  cases r with
  | ok a => cases h
  | error e' =>
    cases h
    exact hr e rfl

/-- The length of a value fails without a place. -/
theorem length_unplaced (h : v.length = .error e) : e.transplant ρ = e := by
  unfold Value.length at h
  split at h
  all_goals cases h
  exact Fault.transplant_of _

theorem objectKey_unplaced (h : k.objectKey = .error e) : e.transplant ρ = e := by
  unfold Value.objectKey at h
  split at h
  all_goals cases h
  exact Fault.transplant_of _

theorem sequenceIndex_unplaced (h : k.sequenceIndex = .error e) : e.transplant ρ = e := by
  cases k with
  | number x | string s =>
    simp only [Value.sequenceIndex] at h
    repeat' split at h
    all_goals cases h
    all_goals simp
  | _ =>
    cases h
    exact Fault.transplant_of _

theorem member_unplaced (h : v.member k = .error e) : e.transplant ρ = e := by
  unfold Value.member at h
  split at h
  next => exact map_unplaced (fun _ => objectKey_unplaced) h
  next => exact map_unplaced (fun _ => sequenceIndex_unplaced) h
  next => exact map_unplaced (fun _ => sequenceIndex_unplaced) h
  next =>
    cases h
    exact Fault.transplant_of _

theorem apply_unplaced {op : Arithmetic} {x y : Binary64} (h : op.apply x y = .error e) :
    e.transplant ρ = e := by
  unfold Arithmetic.apply at h
  repeat' split at h
  all_goals cases h
  all_goals simp

theorem binary_unplaced {sign : String} (h : binary sign v w = .error e) :
    e.transplant ρ = e := by
  unfold binary at h
  split at h
  next =>
    cases h
    exact Fault.transplant_of _
  next =>
    split at h
    next => exact map_unplaced (fun _ => apply_unplaced) h
    next =>
      repeat' split at h
      all_goals cases h
      exact Fault.transplant_of _

theorem condition_unplaced {sign : String} (h : condition sign v w = .error e) :
    e.transplant ρ = e := by
  unfold condition equality at h
  repeat' split at h
  all_goals cases h
  all_goals simp

/-- Alike values are equally long, or have no length. -/
theorem Alike.length (h : Alike ρ R v w) : ResultAlike ρ (Alike ρ R) v.length w.length :=
  h.linked.length.alike fun _ => length_unplaced

/-- Alike values have alike members under alike keys. -/
theorem Alike.member (h : Alike ρ R v w) (hk : Alike ρ R k k') :
    ResultAlike ρ (Alike ρ R) (v.member k) (w.member k') :=
  (h.linked.member hk.linked).alike fun _ => member_unplaced

/-- Operators give alike results for alike operands. -/
theorem Alike.binary (sign : String) {l l' r r' : Value} (hl : Alike ρ R l l')
    (hr : Alike ρ R r r') :
    ResultAlike ρ (Alike ρ R) (Value.binary sign l r) (Value.binary sign l' r') :=
  (hl.linked.binary Closure.alike_keepsHeads sign hr.linked).alike fun _ => binary_unplaced

theorem Alike.condition (sign : String) {l l' r r' : Value} (hl : Alike ρ R l l')
    (hr : Alike ρ R r r') :
    ResultAlike ρ (Alike ρ R) (Value.condition sign l r) (Value.condition sign l' r') :=
  (hl.linked.condition sign hr.linked).alike fun _ => condition_unplaced

end Value

/-! ## Bindings -/

/-- A binding with the same name and mark as another, and a value like that of the other. -/
structure Binding.Alike (ρ : Replacement) (R : ScopeId → ScopeId → Prop) (b c : Binding) :
    Prop where
  name : c.name = b.name
  constant : c.constant = b.constant
  value : b.value.Alike ρ R c.value

/-- Bindings stay alike while more scopes belong together. -/
theorem Binding.Alike.later {b c : Binding} (h : b.Alike ρ R c) (hR : ∀ a b, R a b → R' a b) :
    b.Alike ρ R' c :=
  ⟨h.name, h.constant, h.value.later hR⟩

/-- A name is found in both of two lists of bindings, or in neither. -/
theorem find?_alike {xs ys : List Binding} (h : List.Forall₂ (Binding.Alike ρ R) xs ys)
    (name : String) : Option.Rel (Binding.Alike ρ R) (xs.find? (·.name = name))
      (ys.find? (·.name = name)) :=
  Binding.find?_related (fun hbc => hbc.name) h name

/-- A name gets alike values in both. -/
theorem update_alike {xs ys : List Binding} (h : List.Forall₂ (Binding.Alike ρ R) xs ys)
    (name : String) {v w : Value} (hvw : v.Alike ρ R w) :
    List.Forall₂ (Binding.Alike ρ R)
      (xs.map fun b => if b.name = name then { b with value := v } else b)
      (ys.map fun b => if b.name = name then { b with value := w } else b) :=
  Binding.update_related (fun hbc => hbc.name) h name fun hbc => ⟨hbc.name, hbc.constant, hvw⟩

end Avii
