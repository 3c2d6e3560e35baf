import Avii.Eval
import Avii.Proofs.Store.Chains
import Mathlib.Data.List.Find
import Mathlib.Tactic.ByContra

/-!
# What a definition and an assignment change

A definition in a scope is seen from the scopes whose chain leads to it and binds the name nowhere
before (`Sees`); an assignment is seen from where the name is found in the same scope. From anywhere
else, and under other names, everything is seen as before; and a change that is refused leaves all
as it was. This holds for every store that scopes can be made and filled in (`Built`), whatever is
bound in it: the changes themselves only need its scopes to be in order (`Built.ordered`).
-/

namespace Avii

namespace Store

/-! ## Stores that are built -/

/-- The stores that come about when scopes are created, outermost ones and ones inside scopes that
are there, and names are defined and assigned to in them. -/
inductive Built : Store → Prop where
  | empty : Built .empty
  | root {s : Store} (h : Built s) : Built (s.create (.empty none))
  | createGlobal {s : Store} (h : Built s) : Built s.createGlobal
  | child {s : Store} (h : Built s) {parent : ScopeId} (hp : parent < s.next) :
      Built (s.create (.empty (some parent)))
  | define {s t : Store} (h : Built s) {id : ScopeId} {name : String} {v : Value} {constant : Bool}
      (ht : s.define id name v constant = .ok t) : Built t
  | assign {s t : Store} (h : Built s) {id : ScopeId} {name : String} {v : Value}
      (ht : s.assign id name v = .ok t) : Built t

variable {s t : Store} {e f : ScopeId} {x y : String} {v : Value} {constant : Bool}

/-- A definition succeeds exactly on a name that is new in its scope. -/
theorem define_ok (h : s.define e x v constant = .ok t) :
    s.bindsAt e x = false ∧ t = s.bind e ⟨x, v, constant⟩ := by
  unfold define definitionFault? at h
  by_cases hb : s.bindsAt e x
  · simp [hb] at h
  · simp only [hb, Bool.false_eq_true, if_false, Except.ok.injEq] at h
    exact ⟨Bool.eq_false_iff.mpr hb, h.symm⟩

/-- An assignment changes the scope in which its name is found. -/
theorem assign_ok (h : s.assign e x v = .ok t) :
    ∃ owner, s.resolve e x = some owner ∧ t = s.modify owner (·.update x v) := by
  unfold assign at h
  cases hfault : s.assignmentFault? e x with
  | some fault => simp [hfault] at h
  | none =>
    obtain ⟨owner, -, -, hr, -⟩ := owner_of_assignment hfault
    simp only [hfault, rebind, hr, Except.ok.injEq] at h
    exact ⟨owner, hr, h.symm⟩

/-- In a store that is built every scope was created after the one that encloses it. -/
theorem Built.ordered (h : s.Built) : s.Ordered := by
  induction h with
  | empty =>
    intro id scope parent hscope
    simp [Store.empty] at hscope
  | root h ih => exact ih.create (by simp [Scope.empty])
  | createGlobal h ih => exact ih.create (by simp [globalScope])
  | child h hp ih =>
    refine ih.create ?_
    rintro _ ⟨⟩
    exact hp
  | define h ht ih =>
    obtain ⟨-, rfl⟩ := define_ok ht
    exact ih.modify fun _ => rfl
  | assign h ht ih =>
    obtain ⟨owner, -, rfl⟩ := assign_ok ht
    exact ih.modify fun _ => rfl

/-! ## Definitions -/

/-- A scope is on the chain of another, and no scope of the chain before it binds a name. -/
def Sees (s : Store) (f e : ScopeId) (x : String) : Prop :=
  ∃ closer further, s.Chain f (closer ++ e :: further) ∧ ∀ g ∈ closer, s.bindsAt g x = false

theorem bindsAt_eq (s : Store) (id : ScopeId) (name : String) :
    s.bindsAt id name = (s.scopes[id]?.bind (·.find? name)).isSome := by
  unfold bindsAt Scope.binds
  cases s.scopes[id]? <;> rfl

/-- What was defined is found in its scope. -/
theorem find?_define (he : e < s.next) (hx : s.bindsAt e x = false) :
    (s.bind e ⟨x, v, constant⟩).scopes[e]?.bind (·.find? x) = some ⟨x, v, constant⟩ := by
  have hscope : s.scopes[e]? = some s.scopes[e] := Array.getElem?_eq_getElem he
  have hfree : s.scopes[e].find? x = none := by
    rw [bindsAt_eq, hscope] at hx
    exact Option.isNone_iff_eq_none.mp (by simpa using hx)
  rw [bind, scopes_modify, if_pos rfl, hscope]
  simp [Scope.find?_bind, hfree]

/-- Elsewhere, and under other names, the same is bound as before. -/
theorem find?_define_of_ne {b : Binding} {owner : ScopeId} (h : owner ≠ e ∨ y ≠ b.name) :
    (s.bind e b).scopes[owner]?.bind (·.find? y) = s.scopes[owner]?.bind (·.find? y) := by
  rw [bind, scopes_modify]
  split
  next heq =>
    have hy : b.name ≠ y := (h.resolve_left (· heq.symm)).symm
    cases s.scopes[owner]? <;> simp [Scope.find?_bind, hy]
  next => rfl

/-- A name that is defined is found where it is defined if no scope on the way binds it. -/
theorem resolve_define (hs : s.Ordered) (hx : s.bindsAt e x = false) (h : s.Sees f e x) :
    (s.bind e ⟨x, v, constant⟩).resolve f x = some e := by
  obtain ⟨closer, further, hchain, hcloser⟩ := h
  have ht : (s.bind e ⟨x, v, constant⟩).Ordered := hs.modify fun _ => rfl
  rw [ht.resolve_chain (hchain.modify fun _ => rfl), List.find?_eq_some_iff_append]
  refine ⟨?_, closer, further, rfl, ?_⟩
  · rw [bindsAt_eq, find?_define (hchain.exists e (by simp)) hx]
    rfl
  · intro g hg
    have hne : g ≠ e := by
      have hnodup := (hs.chain_decreasing hchain).1.imp (fun h => Nat.ne_of_gt h)
      exact (List.pairwise_append.mp hnodup).2.2 g hg e (by simp)
    rw [bindsAt_eq, find?_define_of_ne (.inl hne), ← bindsAt_eq, hcloser g hg]
    rfl

/-- From anywhere else, and under other names, the same is found as before. -/
theorem resolve_define_of_unseen (hs : s.Ordered) {b : Binding}
    (h : ¬ (y = b.name ∧ s.Sees f e y)) : (s.bind e b).resolve f y = s.resolve f y := by
  have hsame : ∀ {g}, g ≠ e ∨ y ≠ b.name → (s.bind e b).bindsAt g y = s.bindsAt g y := by
    intro g hg
    rw [bindsAt_eq, find?_define_of_ne hg, ← bindsAt_eq]
  refine hs.resolve_modify (f := (·.bind b)) (fun _ => rfl) fun ids hchain => ?_
  by_cases hy : y = b.name
  · by_cases he : e ∈ ids
    · obtain ⟨closer, further, rfl, hfirst⟩ := List.eq_append_cons_of_mem he
      have hcloser : closer.find? ((s.bind e b).bindsAt · y) = closer.find? (s.bindsAt · y) :=
        List.find?_congr fun g hg => hsame (.inl fun heq => hfirst (heq ▸ hg))
      -- a scope on the way binds the name already, so the search ends before the definition
      have hfound : (closer.find? (s.bindsAt · y)).isSome := by
        rw [List.find?_isSome]
        by_contra hnone
        refine h ⟨hy, closer, further, hchain, fun g hg => ?_⟩
        exact Bool.eq_false_iff.mpr fun hg' => hnone ⟨g, hg, hg'⟩
      obtain ⟨g, hg⟩ := Option.isSome_iff_exists.mp hfound
      change (closer ++ e :: further).find? ((s.bind e b).bindsAt · y) = _
      rw [List.find?_append, List.find?_append, hcloser, hg]
      rfl
    · exact List.find?_congr fun g hg => hsame (.inl fun heq => he (heq ▸ hg))
  · exact List.find?_congr fun g _ => hsame (.inr hy)

/-- A name is bound where the search for it ends. -/
theorem binding?_eq (s : Store) (id : ScopeId) (name : String) :
    s.binding? id name =
      (s.resolve id name).bind fun owner => s.scopes[owner]?.bind (·.find? name) := by
  unfold binding?
  cases s.resolve id name <;> rfl

/-- What is seen under a name depends on its binding only. -/
theorem lookup_of_binding? (h : t.binding? f y = s.binding? f y) :
    t.lookup f y = s.lookup f y := by
  unfold lookup get?
  rw [h]

/-- What is defined is what is seen from where the definition is seen. -/
theorem binding?_define (hs : s.Ordered) (hx : s.bindsAt e x = false) (h : s.Sees f e x) :
    (s.bind e ⟨x, v, constant⟩).binding? f x = some ⟨x, v, constant⟩ := by
  obtain ⟨closer, further, hchain, -⟩ := id h
  rw [binding?_eq, resolve_define hs hx h]
  exact find?_define (hchain.exists e (by simp)) hx

theorem binding?_define_of_unseen (hs : s.Ordered) {b : Binding} (hb : s.bindsAt e b.name = false)
    (h : ¬ (y = b.name ∧ s.Sees f e y)) : (s.bind e b).binding? f y = s.binding? f y := by
  rw [binding?_eq, binding?_eq, resolve_define_of_unseen hs h]
  cases hr : s.resolve f y with
  | none => rfl
  | some owner =>
    refine find?_define_of_ne ?_
    by_contra hnot
    obtain ⟨rfl, rfl⟩ : owner = e ∧ y = b.name := by
      simpa only [not_or, ne_eq, not_not] using hnot
    -- the name would have been bound already where it is defined
    rw [bindsAt_of_resolve hr] at hb
    cases hb

/-! ## Assignments -/

/-- An assignment changes one name of one scope. -/
theorem find?_assign (s : Store) (e owner : ScopeId) (x y : String) (v : Value) :
    (s.modify e (·.update x v)).scopes[owner]?.bind (·.find? y) =
      (s.scopes[owner]?.bind (·.find? y)).map fun b =>
        if owner = e ∧ y = x then { b with value := v } else b := by
  rw [scopes_modify]
  cases hscope : s.scopes[owner]? with
  | none => simp
  | some scope =>
    by_cases he : e = owner
    · cases hf : scope.find? y with
      | none => simp [he, Scope.find?_update, hf]
      | some b => simp [he, Scope.find?_update, hf, Scope.find?_name hf]
    · simp [he, Ne.symm he]

/-- An assignment moves no name. -/
theorem resolve_assign (hs : s.Ordered) (e f : ScopeId) (x y : String) (v : Value) :
    (s.modify e (·.update x v)).resolve f y = s.resolve f y := by
  refine hs.resolve_modify (f := (·.update x v)) (fun _ => rfl) fun ids _ => ?_
  refine List.find?_congr fun g _ => ?_
  rw [bindsAt_eq, bindsAt_eq, find?_assign, Option.isSome_map]

/-- What is assigned is the value seen from where the name is found in the same scope; all other
bindings are seen as they were. -/
theorem binding?_assign (hs : s.Ordered) {owner : ScopeId} :
    (s.modify owner (·.update x v)).binding? f y =
      (s.binding? f y).map fun b =>
        if s.resolve f y = some owner ∧ y = x then { b with value := v } else b := by
  rw [binding?_eq, binding?_eq, resolve_assign hs]
  cases hr : s.resolve f y with
  | none => rfl
  | some g => simp [find?_assign]

end Store

/-! ## Definitions and assignments of the evaluation -/

namespace Eval

/-- The evaluator defines a name as the store does. -/
theorem define_eq (e : ScopeId) (x : String) (v : Value) (constant : Bool) (m : Machine) :
    define e x v constant m =
      match m.store.define e x v constant with
      | .ok t => .ok () { m with store := t }
      | .error fault => .error fault m := by
  unfold define update Store.define
  dsimp only
  cases m.store.definitionFault? e x <;> rfl

/-- The evaluator assigns to a name as the store does. -/
theorem assign_eq (e : ScopeId) (x : String) (v : Value) (m : Machine) :
    assign e x v m =
      match m.store.assign e x v with
      | .ok t => .ok () { m with store := t }
      | .error fault => .error fault m := by
  unfold assign update Store.assign
  dsimp only
  cases m.store.assignmentFault? e x <;> rfl

variable {m m' : Machine} {e f : ScopeId} {x y : String} {v : Value} {constant : Bool}
  {fault : Fault}

/-- A definition that is refused changes nothing. -/
theorem define_refused (h : define e x v constant m = .error fault m') : m' = m := by
  rw [define_eq] at h
  split at h
  next => cases h
  next => exact (EStateM.Result.error.inj h).2.symm

/-- An assignment that is refused changes nothing. -/
theorem assign_refused (h : assign e x v m = .error fault m') : m' = m := by
  rw [assign_eq] at h
  split at h
  next => cases h
  next => exact (EStateM.Result.error.inj h).2.symm

/-- The definition of the evaluation is that of the store. -/
theorem define_done (h : define e x v constant m = .ok () m') :
    m.store.bindsAt e x = false ∧ m'.store = m.store.bind e ⟨x, v, constant⟩ := by
  rw [define_eq] at h
  split at h
  next t ht =>
    cases h
    exact Store.define_ok ht
  next => cases h

theorem assign_done (h : assign e x v m = .ok () m') :
    ∃ owner, m.store.resolve e x = some owner ∧
      m'.store = m.store.modify owner (·.update x v) := by
  rw [assign_eq] at h
  split at h
  next t ht =>
    cases h
    exact Store.assign_ok ht
  next => cases h

/-- Whatever finds the assigned name in the same scope finds the value. -/
theorem lookup_assign (hs : m.store.Ordered) (h : assign e x v m = .ok () m')
    (hy : y = x ∧ m.store.resolve f x = m.store.resolve e x) : m'.store.lookup f y = .ok v := by
  obtain ⟨owner, howner, hstore⟩ := assign_done h
  obtain ⟨rfl, hsame⟩ := hy
  have hfound : m.store.resolve f y = some owner := hsame.trans howner
  have hbound := Store.bindsAt_of_resolve hfound
  rw [Store.bindsAt_eq] at hbound
  obtain ⟨b, hb⟩ := Option.isSome_iff_exists.mp hbound
  have hbinding : m.store.binding? f y = some b := by rw [Store.binding?_eq, hfound]; exact hb
  unfold Store.lookup Store.get?
  rw [hstore, Store.binding?_assign hs, hbinding, hfound]
  simp

/-- Any other name is looked up as before. -/
theorem lookup_assign_of_unseen (hs : m.store.Ordered) (h : assign e x v m = .ok () m')
    (hy : ¬ (y = x ∧ m.store.resolve f x = m.store.resolve e x)) :
    m'.store.lookup f y = m.store.lookup f y := by
  obtain ⟨owner, howner, hstore⟩ := assign_done h
  refine Store.lookup_of_binding? ?_
  have hnot : ¬ (m.store.resolve f y = some owner ∧ y = x) := by
    rintro ⟨hfound, rfl⟩
    exact hy ⟨rfl, hfound.trans howner.symm⟩
  rw [hstore, Store.binding?_assign hs]
  simp only [if_neg hnot, Option.map_id']

/-- Whatever sees the definition finds its value and its mark. -/
theorem lookup_define (hs : m.store.Ordered) (h : define e x v constant m = .ok () m')
    (hy : m.store.Sees f e x) :
    m'.store.lookup f x = .ok v ∧ m'.store.isConstant f x = constant := by
  obtain ⟨hx, hstore⟩ := define_done h
  unfold Store.lookup Store.get? Store.isConstant
  rw [hstore, Store.binding?_define hs hx hy]
  exact ⟨rfl, rfl⟩

/-- Any other name is looked up as before. -/
theorem lookup_define_of_unseen (hs : m.store.Ordered) (h : define e x v constant m = .ok () m')
    (hy : ¬ (y = x ∧ m.store.Sees f e x)) : m'.store.lookup f y = m.store.lookup f y := by
  obtain ⟨hx, hstore⟩ := define_done h
  refine Store.lookup_of_binding? ?_
  rw [hstore]
  refine Store.binding?_define_of_unseen hs hx ?_
  rintro ⟨rfl, hsees⟩
  exact hy ⟨rfl, hsees⟩

/-- Definitions and assignments are atomic and touch exactly what resolution says. In any store that
is built, one that is refused leaves the machine as it was. After an assignment from one scope,
another scope sees the value under the name if it found the name in the same scope, and otherwise,
and under any other name, what it saw before, if anything. After a definition a scope sees the value
under the name, and the name as a constant or not as it was defined, if the scope of the definition
is on its chain and no scope of the chain before it binds the name; and otherwise what it saw
before. -/
theorem changes_touch (hm : m.store.Built) (m' : Machine) (e f : ScopeId) (x y : String)
    (v : Value) (constant : Bool) :
    (∀ fault, define e x v constant m = .error fault m' ∨ assign e x v m = .error fault m' →
      m' = m) ∧
    (assign e x v m = .ok () m' →
      (y = x ∧ m.store.resolve f x = m.store.resolve e x → m'.store.lookup f y = .ok v) ∧
      (¬ (y = x ∧ m.store.resolve f x = m.store.resolve e x) →
        m'.store.lookup f y = m.store.lookup f y)) ∧
    (define e x v constant m = .ok () m' →
      (y = x ∧ m.store.Sees f e x →
        m'.store.lookup f y = .ok v ∧ m'.store.isConstant f y = constant) ∧
      (¬ (y = x ∧ m.store.Sees f e x) → m'.store.lookup f y = m.store.lookup f y)) := by
  have hs := hm.ordered
  refine ⟨?_, fun h => ⟨lookup_assign hs h, lookup_assign_of_unseen hs h⟩,
    fun h => ⟨?_, lookup_define_of_unseen hs h⟩⟩
  · rintro fault (h | h)
    · exact define_refused h
    · exact assign_refused h
  · rintro ⟨rfl, hsees⟩
    exact lookup_define hs h hsees

/-- For instance a name of the outermost scope is assigned to from the inner of two nested scopes,
and the assignment is seen from a third scope beside them; then the outer of the two defines the
name itself, which the inner one sees and the third does not. -/
theorem changes_touch_nested :
    let nested : Store := ((Store.empty.createGlobal.create (.empty (some 0))).create
      (.empty (some 1))).create (.empty (some 0))
    let m : Machine := ⟨nested.bind 0 ⟨"a", .null, false⟩, "", []⟩
    ∃ assigned defined, assign 2 "a" (.bool true) m = .ok () assigned ∧
      define 1 "a" (.bool false) true assigned = .ok () defined ∧
      assigned.store.lookup 3 "a" = .ok (.bool true) ∧
      defined.store.lookup 2 "a" = .ok (.bool false) ∧ defined.store.isConstant 2 "a" = true ∧
      defined.store.lookup 3 "a" = .ok (.bool true) := by
  intro nested m
  let assigned : Machine := { m with store := m.store.modify 0 (·.update "a" (.bool true)) }
  let defined : Machine := { assigned with store := assigned.store.bind 1 ⟨"a", .bool false, true⟩ }
  have hnested : nested.Built :=
    ((Store.Built.empty.createGlobal.child (by decide)).child (by decide)).child (by decide)
  have hfree : nested.definitionFault? 0 "a" = none := by decide +kernel
  have hm : m.store.Built := hnested.define (by rw [Store.define, hfree])
  have hset : m.store.assignmentFault? 2 "a" = none := by decide +kernel
  have hfound : m.store.resolve 2 "a" = some 0 := by decide +kernel
  have hrebind : m.store.assign 2 "a" (.bool true) = .ok assigned.store := by
    rw [Store.assign, hset, Store.rebind, hfound]
  have hassigned : assigned.store.Built := hm.assign hrebind
  have hassign : assign 2 "a" (.bool true) m = .ok () assigned := by rw [assign_eq, hrebind]
  have hfree' : assigned.store.definitionFault? 1 "a" = none := by decide +kernel
  have hdefine : define 1 "a" (.bool false) true assigned = .ok () defined := by
    simp only [define, update, hfree', defined]
  have houter : assigned.store.Chain 0 [0] := .outermost rfl rfl
  have hsees : assigned.store.Sees 2 1 "a" :=
    ⟨[2], [0], .inside rfl rfl (.inside rfl rfl houter), by decide +kernel⟩
  have hunseen : ¬ assigned.store.Sees 3 1 "a" := by
    rintro ⟨closer, further, hchain, -⟩
    have hids : closer ++ 1 :: further = [3, 0] := (Store.Chain.inside rfl rfl houter).unique hchain
    have hmem : 1 ∈ [3, 0] := hids ▸ List.mem_append_right closer List.mem_cons_self
    exact absurd hmem (by decide)
  obtain ⟨-, hafter, -⟩ := changes_touch hm assigned 2 3 "a" "a" (.bool true) false
  obtain ⟨-, -, hinner⟩ := changes_touch hassigned defined 1 2 "a" "a" (.bool false) true
  obtain ⟨-, -, hbeside⟩ := changes_touch hassigned defined 1 3 "a" "a" (.bool false) true
  have hset' := (hafter hassign).1 ⟨rfl, by decide +kernel⟩
  obtain ⟨hlookup, hconstant⟩ := (hinner hdefine).1 ⟨rfl, hsees⟩
  refine ⟨assigned, defined, hassign, hdefine, hset', hlookup, hconstant, ?_⟩
  exact ((hbeside hdefine).2 fun h => hunseen h.2).trans hset'

end Eval

end Avii
