import Avii.Scope
import Mathlib.Logic.Relation

/-!
# How a store changes

A store changes in few ways: a scope is created, a name is defined where it is not bound, a name
is assigned to that is not a constant. `Step` lists them with what is asked before, `Leads` is any
number of them, and `Reachable` is what a single outermost scope can become. Evaluation goes
through such steps only, so what every step keeps holds at all times.

Scopes are numbered as they are created, and there are never fewer (`leads_next`). Two more things
are kept. A scope stays, with its parent, what it binds and its constants (`leads_kept`); and in a
store that has grown from an outermost scope no scope binds a name twice (`reachable_distinct`), so
that a name is a constant exactly if its one binding says so.
-/

namespace Avii

namespace Scope

/-! ## One scope -/

/-- Is a name bound in this very scope, and for good? -/
def marks (s : Scope) (name : String) : Bool :=
  (s.find? name).any (·.constant)

/-- The value that a name has in this very scope. -/
def value? (s : Scope) (name : String) : Option Value :=
  (s.find? name).map (·.value)

/-- No name is bound twice. -/
def Distinct (s : Scope) : Prop :=
  (s.bindings.map (·.name)).Nodup

/-- What is found by a name has it. -/
theorem find?_name {s : Scope} {name : String} {b : Binding} (h : s.find? name = some b) :
    b.name = name := by
  have := List.find?_some h
  simpa using this

/-- A name that a scope binds is found as before, and another one if it is what is added. -/
theorem find?_bind (s : Scope) (b : Binding) (name : String) :
    (s.bind b).find? name = (s.find? name).or (if b.name = name then some b else none) := by
  unfold find? bind
  rw [List.find?_append]
  by_cases hb : b.name = name <;> simp [hb]

/-- Another binding does not hide what was found before. -/
theorem find?_bind_of_some {s : Scope} {name : String} {b : Binding}
    (h : s.find? name = some b) (c : Binding) : (s.bind c).find? name = some b := by
  rw [find?_bind, h, Option.some_or]

/-- An update changes the value of one name only. -/
theorem find?_update (s : Scope) (name other : String) (v : Value) :
    (s.update name v).find? other =
      (s.find? other).map fun b => if b.name = name then { b with value := v } else b := by
  unfold find? update
  rw [List.find?_map]
  congr 2
  funext b
  by_cases h : b.name = name <;> simp [h]

/-- What is not found is not bound. -/
theorem find?_eq_none {s : Scope} {name : String} :
    s.find? name = none ↔ name ∉ s.bindings.map (·.name) := by
  unfold find?
  simp only [List.find?_eq_none, decide_eq_true_eq, List.mem_map, not_exists, not_and]

/-- In a scope without repetitions every binding is the one that is found. -/
theorem find?_of_mem {s : Scope} (h : s.Distinct) {b : Binding} (hb : b ∈ s.bindings) :
    s.find? b.name = some b := by
  unfold Distinct at h
  unfold find?
  induction hs : s.bindings generalizing s with
  | nil => simp [hs] at hb
  | cons c cs ih =>
    rw [hs] at h hb
    simp only [List.map_cons, List.nodup_cons] at h
    rcases List.mem_cons.mp hb with rfl | hb
    · simp
    · have hne : c.name ≠ b.name := by
        -- an earlier binding of the same name would be a second one
        intro heq
        exact h.1 (heq ▸ List.mem_map_of_mem hb)
      rw [List.find?_cons_of_neg (by simpa using hne)]
      exact @ih ⟨s.parent, cs⟩ h.2 hb rfl

/-- To bind a new name binds none twice. -/
theorem distinct_bind {s : Scope} (h : s.Distinct) {b : Binding} (hb : s.find? b.name = none) :
    (s.bind b).Distinct := by
  have hnew := find?_eq_none.mp hb
  unfold Distinct bind at *
  rw [List.map_append, List.nodup_append]
  refine ⟨h, by simp, ?_⟩
  intro x hx y hy hxy
  simp only [List.map_cons, List.map_nil, List.mem_singleton] at hy
  exact hnew (hy ▸ hxy ▸ hx)

/-- To give a name another value binds none twice. -/
theorem distinct_update {s : Scope} (h : s.Distinct) (name : String) (v : Value) :
    (s.update name v).Distinct := by
  have hnames : (s.update name v).bindings.map (·.name) = s.bindings.map (·.name) := by
    unfold update
    rw [List.map_map]
    refine List.map_congr_left ?_
    intro b _
    by_cases hb : b.name = name <;> simp [hb]
  unfold Distinct
  rw [hnames]
  exact h

/-- What stays of a scope: its parent, the names it binds, its constants and their values. -/
structure Kept (old new : Scope) : Prop where
  parent : new.parent = old.parent
  binds : ∀ name, old.binds name = true → new.binds name = true
  marks : ∀ name, old.marks name = true → new.marks name = true
  value : ∀ name, old.marks name = true → new.value? name = old.value? name

/-- Everything of a scope is kept by doing nothing. -/
theorem Kept.refl (s : Scope) : Kept s s :=
  ⟨rfl, fun _ h => h, fun _ h => h, fun _ _ => rfl⟩

/-- What is kept step by step is kept. -/
theorem Kept.trans {a b c : Scope} (h : Kept a b) (h' : Kept b c) : Kept a c where
  parent := h'.parent.trans h.parent
  binds name hn := h'.binds name (h.binds name hn)
  marks name hn := h'.marks name (h.marks name hn)
  value name hn := (h'.value name (h.marks name hn)).trans (h.value name hn)

/-- A scope is kept if each of its bindings is found again, a constant one unchanged. -/
theorem kept_of_find? {old new : Scope} (hp : new.parent = old.parent)
    (h : ∀ name b, old.find? name = some b →
      ∃ b', new.find? name = some b' ∧ (b.constant = true → b' = b)) : Kept old new := by
  have found : ∀ name, old.marks name = true → new.find? name = old.find? name := by
    intro name hm
    unfold Scope.marks at hm
    cases hf : old.find? name with
    | none => simp [hf] at hm
    | some b =>
      obtain ⟨b', hb', heq⟩ := h name b hf
      rw [hb', heq (by simpa [hf] using hm)]
  refine ⟨hp, ?_, ?_, ?_⟩
  · intro name hb
    unfold Scope.binds at hb ⊢
    cases hf : old.find? name with
    | none => simp [hf] at hb
    | some b =>
      obtain ⟨b', hb', -⟩ := h name b hf
      simp [hb']
  · intro name hm
    unfold Scope.marks at hm ⊢
    rw [found name hm]
    exact hm
  · intro name hm
    unfold value?
    rw [found name hm]

/-- Another binding keeps those there are. -/
theorem kept_bind (s : Scope) (b : Binding) : Kept s (s.bind b) := by
  refine kept_of_find? rfl ?_
  intro name c hc
  exact ⟨c, find?_bind_of_some hc b, fun _ => rfl⟩

/-- Another value for a name that is not a constant keeps the scope. -/
theorem kept_update {s : Scope} {name : String} (h : s.marks name = false) (v : Value) :
    Kept s (s.update name v) := by
  refine kept_of_find? rfl ?_
  intro other b hb
  rw [find?_update, hb]
  refine ⟨_, rfl, ?_⟩
  intro hc
  have hne : b.name ≠ name := by
    rw [find?_name hb]
    -- the name that gets another value is not marked, and this one is
    rintro rfl
    simp [Scope.marks, hb, hc] at h
  simp [hne]

end Scope

namespace Store

/-! ## Steps -/

/-- One change of a store, with what is asked before it. -/
inductive Step : Store → Store → Prop where
  | create (s : Store) (parent : Option ScopeId) : Step s (s.create (.empty parent))
  | createGlobal (s : Store) : Step s s.createGlobal
  | bind (s : Store) (id : ScopeId) (b : Binding) (h : s.definitionFault? id b.name = none) :
      Step s (s.bind id b)
  | rebind (s : Store) (id : ScopeId) (name : String) (v : Value)
      (h : s.assignmentFault? id name = none) : Step s (s.rebind id name v)

/-- Any number of changes. -/
def Leads : Store → Store → Prop :=
  Relation.ReflTransGen Step

/-- A store leads to itself. -/
theorem Leads.refl (s : Store) : Leads s s :=
  Relation.ReflTransGen.refl

/-- What a store leads to step by step it leads to. -/
theorem Leads.trans {s t u : Store} (h : Leads s t) (h' : Leads t u) : Leads s u :=
  Relation.ReflTransGen.trans h h'

/-- A single change leads further. -/
theorem Step.leads {s t : Store} (h : Step s t) : Leads s t :=
  Relation.ReflTransGen.single h

/-- The stores that a single outermost scope can become. -/
def Reachable (s : Store) : Prop :=
  Leads Store.empty.createGlobal s

/-- A new scope has the next number, and those there are keep theirs. -/
theorem scopes_create (s : Store) (scope : Scope) (id : ScopeId) :
    (s.create scope).scopes[id]? = if id = s.next then some scope else s.scopes[id]? := by
  unfold create next
  rw [Array.getElem?_push]

/-- To change a scope changes no other. -/
theorem scopes_modify (s : Store) (id other : ScopeId) (f : Scope → Scope) :
    (s.modify id f).scopes[other]? =
      if id = other then s.scopes[other]?.map f else s.scopes[other]? := by
  unfold modify
  exact Array.getElem?_modify

/-- What holds of every scope of a store, and of a new one, holds of every scope after it is
created. -/
theorem forall_create {P : Scope → Prop} {s : Store}
    (h : ∀ (id : ScopeId) (scope : Scope), s.scopes[id]? = some scope → P scope) {scope : Scope}
    (hs : P scope) (id : ScopeId) (scope' : Scope)
    (h' : (s.create scope).scopes[id]? = some scope') : P scope' := by
  rw [scopes_create] at h'
  split at h'
  next =>
    cases h'
    exact hs
  next => exact h id scope' h'

/-- What holds of every scope of a store, and of one that is changed, holds of every scope after the
change. -/
theorem forall_modify {P : Scope → Prop} {s : Store}
    (h : ∀ (id : ScopeId) (scope : Scope), s.scopes[id]? = some scope → P scope) {id : ScopeId}
    {f : Scope → Scope} (hf : ∀ scope, s.scopes[id]? = some scope → P (f scope))
    (other : ScopeId) (scope' : Scope) (h' : (s.modify id f).scopes[other]? = some scope') :
    P scope' := by
  rw [scopes_modify] at h'
  split at h'
  next hid =>
    subst hid
    cases hs : s.scopes[id]? with
    | none => simp [hs] at h'
    | some scope =>
      rw [hs] at h'
      cases h'
      exact hf scope hs
  next => exact h other scope' h'

/-- A scope that exists is not the next one. -/
theorem ne_next {s : Store} {id : ScopeId} {scope : Scope} (h : s.scopes[id]? = some scope) :
    id ≠ s.next := by
  rintro rfl
  simp [next] at h

/-- Where an assignment goes: to a scope that binds the name, but not for good. -/
theorem owner_of_assignment {s : Store} {id : ScopeId} {name : String}
    (h : s.assignmentFault? id name = none) :
    ∃ owner scope b, s.resolve id name = some owner ∧ s.scopes[owner]? = some scope ∧
      scope.find? name = some b ∧ b.constant = false := by
  unfold assignmentFault? binding? at h
  cases hr : s.resolve id name with
  | none => simp [hr] at h
  | some owner =>
    cases hs : s.scopes[owner]? with
    | none => simp [hr, hs] at h
    | some scope =>
      cases hf : scope.find? name with
      | none => simp [hr, hs, hf] at h
      | some b =>
        refine ⟨owner, scope, b, rfl, hs, hf, ?_⟩
        simpa [hr, hs, hf] using h

/-- What is found by looking a name up is bound in the scope that the name resolves to. -/
theorem bound_of_lookup {s : Store} {id : ScopeId} {name : String} {v : Value}
    (h : s.lookup id name = .ok v) :
    ∃ owner scope b, s.resolve id name = some owner ∧ s.scopes[owner]? = some scope ∧
      b ∈ scope.bindings ∧ b.value = v := by
  unfold lookup get? binding? at h
  cases hr : s.resolve id name with
  | none => simp [hr] at h
  | some owner =>
    cases hs : s.scopes[owner]? with
    | none => simp [hr, hs] at h
    | some scope =>
      cases hf : scope.find? name with
      | none => simp [hr, hs, hf] at h
      | some b =>
        simp only [hr, hs, hf, Option.bind_some, Option.map_some, Except.ok.injEq] at h
        exact ⟨owner, scope, b, rfl, hs, List.mem_of_find?_eq_some hf, h⟩

/-! ## What is bound -/

/-- Every value that is bound in a store is of a kind. -/
def AllBound (P : Value → Prop) (s : Store) : Prop :=
  ∀ (id : ScopeId) (scope : Scope), s.scopes[id]? = some scope → ∀ b ∈ scope.bindings, P b.value

section AllBound

variable {P Q : Value → Prop} {s : Store}

/-- Nothing is bound in a store without scopes. -/
theorem allBound_empty (P : Value → Prop) : empty.AllBound P := by
  intro id scope h
  simp [empty] at h

/-- A kind of values can be widened. -/
theorem AllBound.mono (h : s.AllBound P) (hPQ : ∀ v, P v → Q v) : s.AllBound Q :=
  fun id scope hscope b hb => hPQ b.value (h id scope hscope b hb)

/-- What is looked up is bound somewhere. -/
theorem AllBound.lookup (h : s.AllBound P) {id : ScopeId} {name : String} {v : Value}
    (hv : s.lookup id name = .ok v) : P v := by
  obtain ⟨owner, scope, b, -, hscope, hb, rfl⟩ := bound_of_lookup hv
  exact h owner scope hscope b hb

/-- A new scope binds nothing. -/
theorem AllBound.create (h : s.AllBound P) (parent : Option ScopeId) :
    (s.create (.empty parent)).AllBound P :=
  forall_create h (by simp [Scope.empty])

/-- The values that are built in are simple, or built-in functions. -/
theorem AllBound.createGlobal (h : s.AllBound P) (hnull : P .null) (hnumber : ∀ x, P (.number x))
    (hbool : ∀ b, P (.bool b)) (hnative : ∀ f, P (.native f)) : s.createGlobal.AllBound P := by
  refine forall_create h ?_
  intro b hb
  have hb' : b ∈ builtins := hb
  unfold builtins at hb'
  rcases List.mem_append.mp hb' with hb' | hb'
  · simp only [List.mem_cons, List.not_mem_nil, or_false] at hb'
    rcases hb' with rfl | rfl | rfl | rfl
    · exact hbool true
    · exact hbool false
    · exact hnull
    · exact hnumber .pi
  · obtain ⟨f, -, rfl⟩ := List.mem_map.mp hb'
    exact hnative f

/-- To bind a value of the kind keeps all values of the kind. -/
theorem AllBound.bind (h : s.AllBound P) (id : ScopeId) {b : Binding} (hb : P b.value) :
    (s.bind id b).AllBound P := by
  refine forall_modify h ?_
  intro scope hscope b' hb'
  rcases List.mem_append.mp hb' with hb' | hb'
  · exact h id scope hscope b' hb'
  · rw [List.mem_singleton.mp hb']
    exact hb

theorem AllBound.rebind (h : s.AllBound P) (id : ScopeId) (name : String) {v : Value}
    (hv : P v) : (s.rebind id name v).AllBound P := by
  unfold Store.rebind
  split
  next => exact h
  next owner _ =>
    refine forall_modify h ?_
    intro scope hscope b hb
    obtain ⟨b', hb', rfl⟩ := List.mem_map.mp hb
    split
    next => exact hv
    next => exact h owner scope hscope b' hb'

end AllBound

/-- Where a definition goes, if anywhere: to a scope that does not bind the name. -/
theorem unbound_of_definition {s : Store} {id : ScopeId} {name : String} {scope : Scope}
    (h : s.definitionFault? id name = none) (hs : s.scopes[id]? = some scope) :
    scope.find? name = none := by
  unfold definitionFault? bindsAt Scope.binds at h
  cases hf : scope.find? name with
  | none => rfl
  | some b => simp [hs, hf] at h

/-! ## Numbers of scopes -/

/-- A new scope takes a number. -/
@[simp] theorem next_create (s : Store) (scope : Scope) : (s.create scope).next = s.next + 1 := by
  simp [create, next]

/-- A change of a scope takes none. -/
@[simp] theorem next_modify (s : Store) (id : ScopeId) (f : Scope → Scope) :
    (s.modify id f).next = s.next := by
  simp [modify, next]

@[simp] theorem next_bind (s : Store) (id : ScopeId) (b : Binding) :
    (s.bind id b).next = s.next :=
  next_modify s id _

@[simp] theorem next_rebind (s : Store) (id : ScopeId) (name : String) (v : Value) :
    (s.rebind id name v).next = s.next := by
  unfold rebind
  split
  next => rfl
  next => exact next_modify s _ _

/-- No step takes a number back. -/
theorem step_next {s t : Store} (h : Step s t) : s.next ≤ t.next := by
  cases h with
  | create | createGlobal => exact Nat.le_trans (Nat.le_succ _) (Nat.le_of_eq (next_create ..).symm)
  | bind => exact Nat.le_of_eq (next_bind ..).symm
  | rebind => exact Nat.le_of_eq (next_rebind ..).symm

/-- So numbers stay taken. -/
theorem leads_next {s t : Store} (h : Leads s t) : s.next ≤ t.next := by
  induction h with
  | refl => exact Nat.le_refl _
  | tail _ hstep ih => exact Nat.le_trans ih (step_next hstep)

/-! ## What every step keeps -/

/-- Every scope of a store is there in another, and kept. -/
def Kept (s t : Store) : Prop :=
  ∀ (id : ScopeId) (scope : Scope), s.scopes[id]? = some scope →
    ∃ scope', t.scopes[id]? = some scope' ∧ scope.Kept scope'

/-- Every scope of a store is kept by doing nothing. -/
theorem Kept.refl (s : Store) : Kept s s :=
  fun _ scope h => ⟨scope, h, .refl scope⟩

/-- Scopes that are kept step by step are kept. -/
theorem Kept.trans {s t u : Store} (h : Kept s t) (h' : Kept t u) : Kept s u := by
  intro id scope hs
  obtain ⟨scope', ht, hk⟩ := h id scope hs
  obtain ⟨scope'', hu, hk'⟩ := h' id scope' ht
  exact ⟨scope'', hu, hk.trans hk'⟩

/-- A new scope keeps those there are. -/
theorem kept_create (s : Store) (scope : Scope) : Kept s (s.create scope) := by
  intro id old hs
  refine ⟨old, ?_, .refl old⟩
  rw [scopes_create, if_neg (ne_next hs), hs]

/-- A change of one scope that keeps it keeps the store. -/
theorem kept_modify {s : Store} {id : ScopeId} {f : Scope → Scope}
    (h : ∀ scope, s.scopes[id]? = some scope → scope.Kept (f scope)) :
    Kept s (s.modify id f) := by
  intro other scope hs
  rw [scopes_modify]
  by_cases hid : id = other
  · subst hid
    exact ⟨f scope, by simp [hs], h scope hs⟩
  · exact ⟨scope, by simp [hid, hs], .refl scope⟩

/-- A step keeps every scope. -/
theorem step_kept {s t : Store} (h : Step s t) : Kept s t := by
  cases h with
  | create parent => exact kept_create s _
  | createGlobal => exact kept_create s _
  | bind id b h => exact kept_modify fun scope _ => Scope.kept_bind scope b
  | rebind id name v h =>
    obtain ⟨owner, scope, b, hr, hs, hf, hc⟩ := owner_of_assignment h
    -- the scope that is changed is the one that binds the name, and there it is no constant
    unfold rebind
    rw [hr]
    refine kept_modify ?_
    intro scope' hs'
    rw [hs] at hs'
    cases hs'
    exact Scope.kept_update (by simp [Scope.marks, hf, hc]) v

/-- However far a store goes, every scope is kept. -/
theorem leads_kept {s t : Store} (h : Leads s t) : Kept s t := by
  induction h with
  | refl => exact .refl s
  | tail _ hstep ih => exact ih.trans (step_kept hstep)

/-- No scope binds a name twice. -/
def Distinct (s : Store) : Prop :=
  ∀ (id : ScopeId) (scope : Scope), s.scopes[id]? = some scope → scope.Distinct

/-- No step binds a name twice in one scope. -/
theorem step_distinct {s t : Store} (h : Step s t) (hs : s.Distinct) : t.Distinct := by
  cases h with
  | create parent => exact forall_create hs (by simp [Scope.Distinct, Scope.empty])
  | createGlobal => exact forall_create hs (by unfold Scope.Distinct; decide)
  | bind id b h =>
    refine forall_modify hs ?_
    intro scope hscope
    exact Scope.distinct_bind (hs id scope hscope) (unbound_of_definition h hscope)
  | rebind id name v h =>
    unfold rebind
    split
    next => exact hs
    next owner _ =>
      refine forall_modify hs ?_
      intro scope hscope
      exact Scope.distinct_update (hs owner scope hscope) name v

/-- So no store further on does, by induction on the steps. -/
theorem leads_distinct {s t : Store} (h : Leads s t) (hs : s.Distinct) : t.Distinct := by
  induction h with
  | refl => exact hs
  | tail _ hstep ih => exact step_distinct hstep ih

/-- In a store grown from an outermost scope no scope binds a name twice. -/
theorem reachable_distinct {s : Store} (h : Reachable s) : s.Distinct := by
  refine leads_distinct h (step_distinct (.createGlobal _) ?_)
  intro id scope hs
  simp [Store.empty] at hs

end Store

end Avii
