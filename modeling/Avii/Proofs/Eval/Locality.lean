import Avii.Proofs.Eval.Moments
import Avii.Proofs.Eval.Permanence

/-!
# Where definitions go

An evaluation in a scope defines names in that scope and in scopes that it creates itself, and
nowhere else; a call defines names in scopes of its own only (`definitions_local`). Other scopes can
be assigned to, but their outline stays: the parent, and the names with their marks. So whatever a
function declares, a scope from before the call sees the same names as before, each in the same
scope (`resolve_of_outlines`).

Conditionals share the scope that they stand in and calls open a new one. For all constructs at once
this is a lawful discipline (`locality`): trees are evaluated in scopes that may be added to, and
every new scope is one of these.
-/

namespace Avii

open Store (Leads)

namespace Scope

/-- What assignments leave as it is: the parent, and the names that are bound, each with whether it
is a constant. -/
def outline (s : Scope) : Option ScopeId × List (String × Bool) :=
  (s.parent, s.bindings.map fun b => (b.name, b.constant))

@[simp] theorem outline_update (s : Scope) (name : String) (v : Value) :
    (s.update name v).outline = s.outline := by
  unfold outline update
  rw [List.map_map]
  congr 1
  refine List.map_congr_left fun b _ => ?_
  by_cases hb : b.name = name <;> simp [hb]

/-- Whether a name is bound, and for good, can be read off the outline. -/
theorem find?_constant (s : Scope) (name : String) :
    (s.find? name).map (·.constant) = (s.outline.2.find? (·.1 = name)).map (·.2) := by
  unfold find? outline
  rw [List.find?_map, Option.map_map]
  rfl

theorem find?_of_outline {s t : Scope} (h : t.outline = s.outline) (name : String) :
    (t.find? name).map (·.constant) = (s.find? name).map (·.constant) := by
  rw [find?_constant, find?_constant, h]

theorem binds_of_outline {s t : Scope} (h : t.outline = s.outline) (name : String) :
    t.binds name = s.binds name := by
  unfold binds
  rw [← Option.isSome_map, find?_of_outline h, Option.isSome_map]

theorem marks_of_outline {s t : Scope} (h : t.outline = s.outline) (name : String) :
    t.marks name = s.marks name := by
  have hmark : ∀ u : Scope, u.marks name = ((u.find? name).map (·.constant)).any id := by
    intro u
    unfold marks
    cases u.find? name <;> rfl
  rw [hmark, hmark, find?_of_outline h]

end Scope

namespace Store

variable {s t : Store} {bound : Nat}

/-- The outlines of the scopes below a bound are the same in two stores. -/
def SameOutlines (bound : Nat) (s t : Store) : Prop :=
  ∀ id < bound, t.scopes[id]?.map (·.outline) = s.scopes[id]?.map (·.outline)

/-- A name is found in the same scope: the search goes outward, to scopes created earlier. -/
theorem resolve_of_outlines (h : SameOutlines bound s t) {id : ScopeId} (hid : id < bound)
    (name : String) : t.resolve id name = s.resolve id name := by
  have hsame := h id hid
  cases hs : s.scopes[id]? with
  | none =>
    rw [hs, Option.map_none, Option.map_eq_none_iff] at hsame
    rw [resolve, resolve, hs, hsame]
  | some scope =>
    rw [hs] at hsame
    obtain ⟨scope', hscope', houtline⟩ := Option.map_eq_some_iff.mp hsame
    have hbinds := Scope.binds_of_outline houtline name
    have hparent : scope'.parent = scope.parent := congrArg Prod.fst houtline
    rw [resolve, resolve, hs, hscope']
    simp only [hbinds, hparent]
    split
    next => rfl
    next =>
      split
      next => rfl
      next parent _ =>
        split
        next hlt => exact resolve_of_outlines h (Nat.lt_trans hlt hid) name
        next => rfl
termination_by id

/-- The scope that binds a name is not younger than the one that it is looked up from. -/
theorem resolve_le {id owner : ScopeId} {name : String} (h : s.resolve id name = some owner) :
    owner ≤ id := by
  fun_induction resolve s id name with
  | case1 | case3 | case5 => cases h
  | case2 =>
    cases h
    exact Nat.le_refl _
  | case4 id scope hscope hbinds parent hparent hlt ih =>
    exact Nat.le_trans (ih h) (Nat.le_of_lt hlt)

/-- A name is a constant as seen from a scope if it was one before. -/
theorem isConstant_of_outlines (h : SameOutlines bound s t) {id : ScopeId} (hid : id < bound)
    (name : String) : t.isConstant id name = s.isConstant id name := by
  unfold isConstant binding?
  rw [resolve_of_outlines h hid]
  cases hr : s.resolve id name with
  | none => rfl
  | some owner =>
    have hsame := h owner (Nat.lt_of_le_of_lt (resolve_le hr) hid)
    cases hs : s.scopes[owner]? with
    | none =>
      rw [hs, Option.map_none, Option.map_eq_none_iff] at hsame
      simp [hs, hsame]
    | some scope =>
      rw [hs] at hsame
      obtain ⟨scope', hscope', houtline⟩ := Option.map_eq_some_iff.mp hsame
      simpa [hs, hscope', Scope.marks] using Scope.marks_of_outline houtline name

end Store

namespace Eval

/-! ## Locality -/

/-- A store that has kept the outlines of the scopes of an earlier one, those of a kind excepted. -/
structure Local (mine : ScopeId → Prop) (before now : Store) : Prop where
  next : before.next ≤ now.next
  outline : ∀ {id}, id < before.next → ¬ mine id →
    now.scopes[id]?.map (·.outline) = before.scopes[id]?.map (·.outline)

/-- Defining names in scopes of a kind, and in new ones. -/
def locality (mine : ScopeId → Prop) (before : Store) : Discipline :=
  .ofScopes (fun _ id => mine id ∨ before.next ≤ id) (Local mine before)

variable {mine : ScopeId → Prop} {before now : Store}

theorem local_refl (mine : ScopeId → Prop) (before : Store) : Local mine before before :=
  ⟨Nat.le_refl _, fun _ _ => rfl⟩

theorem Local.create (h : Local mine before now) (scope : Scope) :
    Local mine before (now.create scope) := by
  refine ⟨Nat.le_trans h.next (by simp), ?_⟩
  intro id hid hmine
  have hne : id ≠ now.next := Nat.ne_of_lt (Nat.lt_of_lt_of_le hid h.next)
  rw [Store.scopes_create, if_neg hne]
  exact h.outline hid hmine

/-- A change that keeps the outline of a scope, or of one that may be added to. -/
theorem Local.modify (h : Local mine before now) {id : ScopeId} {f : Scope → Scope}
    (hf : (mine id ∨ before.next ≤ id) ∨ ∀ scope, (f scope).outline = scope.outline) :
    Local mine before (now.modify id f) := by
  refine ⟨Nat.le_trans h.next (by simp), ?_⟩
  intro other hother hmine
  rw [Store.scopes_modify, ← h.outline hother hmine]
  split
  next heq =>
    subst heq
    rcases hf with (hin | hnew) | hkeep
    · exact absurd hin hmine
    · exact absurd hother (Nat.not_lt_of_le hnew)
    · rw [Option.map_map]
      exact congrArg (Option.map · _) (funext hkeep)
  next => rfl

theorem locality_lawful (mine : ScopeId → Prop) (before : Store) :
    (locality mine before).Lawful := by
  refine Discipline.ofScopes_lawful (fun _ h => h) (fun h => ⟨h.create _, .inr h.next⟩)
    (fun h hid => h.modify (.inl hid)) ?_
  intro s id name v h _
  unfold Store.rebind
  split
  next => exact h
  next => exact h.modify (.inr fun scope => scope.outline_update name v)

/-- A moment of a call finds the outlines of all scopes from before the call. -/
theorem call_outlines {budget : Nat} {callee : Value} {args : List Value} {m : Machine} {q : Moment}
    (h : Reaches ⟨budget, .call callee args, m⟩ q) :
    Store.SameOutlines m.store.next m.store q.machine.store := by
  have hstart : (locality (fun _ => False) m.store).Holds ⟨budget, .call callee args, m⟩ :=
    ⟨local_refl _ m.store, trivial, fun _ _ => trivial⟩
  have hq := reaches_holds (locality_lawful _ m.store) h hstart
  exact fun _ hid => hq.store.outline hid not_false

/-- Definitions stay in their own scope. In any store, an evaluation in a scope, of any tree, with
any budget and any outcome, leaves every other scope that was there with the same parent and the
same names and marks. The call of any value leaves all of them so; hence at every moment of the call
and after it, a scope from before the call sees the names that it saw, each bound in the same scope
and a constant if it was one, and no others. -/
theorem definitions_local :
    (∀ (budget : Nat) (root : ScopeId) (t : Tree) (m : Machine) (id : ScopeId) (scope : Scope),
      m.store.scopes[id]? = some scope → id ≠ root →
      ∃ scope', (final (evaluate budget root t m)).store.scopes[id]? = some scope' ∧
        scope'.outline = scope.outline) ∧
    ∀ (budget : Nat) (callee : Value) (args : List Value) (m : Machine),
      let after := (final (callValue budget callee args m)).store
      (∀ (id : ScopeId) (scope : Scope), m.store.scopes[id]? = some scope →
        ∃ scope', after.scopes[id]? = some scope' ∧ scope'.outline = scope.outline) ∧
      ∀ (now : Store) (id : ScopeId) (name : String),
        (now = after ∨ ∃ q, Reaches ⟨budget, .call callee args, m⟩ q ∧ now = q.machine.store) →
        id < m.store.next → now.resolve id name = m.store.resolve id name ∧
          now.isConstant id name = m.store.isConstant id name := by
  have hfound : ∀ {s t : Store} {id : ScopeId} {scope : Scope}, s.scopes[id]? = some scope →
      t.scopes[id]?.map (·.outline) = s.scopes[id]?.map (·.outline) →
      ∃ scope', t.scopes[id]? = some scope' ∧ scope'.outline = scope.outline := by
    intro s t id scope hs h
    rw [hs] at h
    exact Option.map_eq_some_iff.mp h
  have hbound : ∀ {s : Store} {id : ScopeId} {scope : Scope}, s.scopes[id]? = some scope →
      id < s.next := fun h => (Array.getElem?_eq_some_iff.mp h).1
  refine ⟨?_, ?_⟩
  · intro budget root t m id scope hscope hne
    have hD := locality_lawful (· = root) m.store
    have hkeeps : Keeps (locality (· = root) m.store) m.store
        (locality (· = root) m.store).value (evaluate budget root t) :=
      (keeps_note _).bind fun _ _ => (evaluates hD budget).tree (.inl rfl) trivial
    have hafter := (hkeeps.final (local_refl _ m.store)).2
    exact hfound hscope (hafter.outline (hbound hscope) hne)
  · intro budget callee args m after
    have hD := locality_lawful (fun _ => False) m.store
    have hkeeps : Keeps (locality (fun _ => False) m.store) m.store
        (locality (fun _ => False) m.store).value (callValue budget callee args) :=
      (evaluates hD budget).call trivial fun _ _ => trivial
    have hafter : Store.SameOutlines m.store.next m.store after := fun _ hid =>
      (hkeeps.final (local_refl _ m.store)).2.outline hid not_false
    refine ⟨fun id scope hscope => hfound hscope (hafter id (hbound hscope)), ?_⟩
    intro now id name hnow hid
    have hsame : Store.SameOutlines m.store.next m.store now := by
      rcases hnow with rfl | ⟨q, hq, rfl⟩
      · exact hafter
      · exact call_outlines hq
    exact ⟨Store.resolve_of_outlines hsame hid name, Store.isConstant_of_outlines hsame hid name⟩

/-- For instance the parameter of a function is not visible after a call. -/
theorem definitions_local_parameter :
    let c : Closure := ⟨some "f", ["a"], [.leaf ⟨.ident, "a", none, none⟩], Machine.globalId⟩
    let called := callValue 10 (.closure c) [.bool true] .fresh
    faultOf called = none ∧ (final called).store.resolve Machine.globalId "a" = none := by
  intro c called
  obtain ⟨-, hseen⟩ := definitions_local.2 10 (.closure c) [.bool true] .fresh
  obtain ⟨hresolve, -⟩ := hseen _ Machine.globalId "a" (.inl rfl) (by decide)
  have hfresh : Machine.fresh.store.resolve Machine.globalId "a" = none := by decide +kernel
  exact ⟨by decide +kernel, hresolve.trans hfresh⟩

end Eval

end Avii
