import Avii.Proofs.Store.Steps

/-!
# Chains of scopes

From a scope the enclosing scopes lead outward to one that is in no other: its chain. In a store
where every scope is created after the one that encloses it (`Store.Ordered`) each scope has exactly
one chain, and a name is found in the first scope of the chain that binds it
(`Ordered.resolve_chain`). Definitions and assignments leave the chains as they are.
-/

namespace Avii

namespace Store

variable {s : Store} {id : ScopeId} {ids : List ScopeId}

/-- Every scope has a later number than the one that encloses it. -/
def Ordered (s : Store) : Prop :=
  ∀ (id : ScopeId) (scope : Scope) (parent : ScopeId), s.scopes[id]? = some scope →
    scope.parent = some parent → parent < id

/-- The scopes from a given one outward to an outermost one. -/
inductive Chain (s : Store) : ScopeId → List ScopeId → Prop where
  | outermost {id : ScopeId} {scope : Scope} (hs : s.scopes[id]? = some scope)
      (hp : scope.parent = none) : Chain s id [id]
  | inside {id parent : ScopeId} {scope : Scope} {ids : List ScopeId}
      (hs : s.scopes[id]? = some scope) (hp : scope.parent = some parent)
      (h : Chain s parent ids) : Chain s id (id :: ids)

theorem lt_next {scope : Scope} (h : s.scopes[id]? = some scope) : id < s.next :=
  (Array.getElem?_eq_some_iff.mp h).1

/-- The scopes of a chain exist. -/
theorem Chain.exists (h : s.Chain id ids) : ∀ g ∈ ids, g < s.next := by
  induction h with
  | outermost hs hp => exact List.forall_mem_singleton.mpr (lt_next hs)
  | inside hs hp h ih => exact List.forall_mem_cons.mpr ⟨lt_next hs, ih⟩

theorem Chain.unique {ids' : List ScopeId} (h : s.Chain id ids) (h' : s.Chain id ids') :
    ids' = ids := by
  induction h generalizing ids' with
  | outermost hs hp =>
    cases h' with
    | outermost => rfl
    | inside hs' hp' =>
      obtain rfl := Option.some.inj (hs'.symm.trans hs)
      cases hp'.symm.trans hp
  | inside hs hp h ih =>
    cases h' with
    | outermost hs' hp' =>
      obtain rfl := Option.some.inj (hs'.symm.trans hs)
      cases hp'.symm.trans hp
    | inside hs' hp' h' =>
      obtain rfl := Option.some.inj (hs'.symm.trans hs)
      obtain rfl := Option.some.inj (hp'.symm.trans hp)
      rw [ih h']

namespace Ordered

variable (hs : s.Ordered)

include hs

/-- Every scope that exists has a chain, as the numbers of the enclosing scopes get smaller. -/
theorem exists_chain {id : ScopeId} (hid : id < s.next) : ∃ ids, s.Chain id ids := by
  have hscope : s.scopes[id]? = some s.scopes[id] := Array.getElem?_eq_getElem hid
  cases hp : s.scopes[id].parent with
  | none => exact ⟨_, .outermost hscope hp⟩
  | some parent =>
    have hlt := hs id _ parent hscope hp
    obtain ⟨ids, hids⟩ := exists_chain (Nat.lt_trans hlt hid)
    exact ⟨_, .inside hscope hp hids⟩
termination_by id

/-- Outward the numbers of the scopes get smaller; so no scope is on a chain twice. -/
theorem chain_decreasing (h : s.Chain id ids) : ids.Pairwise (· > ·) ∧ ∀ g ∈ ids, g ≤ id := by
  induction h with
  | outermost => simp
  | @inside id parent scope ids hscope hp h ih =>
    obtain ⟨hpairwise, hle⟩ := ih
    have hlt : ∀ g ∈ ids, g < id := fun g hg =>
      Nat.lt_of_le_of_lt (hle g hg) (hs id scope parent hscope hp)
    exact ⟨.cons hlt hpairwise,
      List.forall_mem_cons.mpr ⟨Nat.le_refl id, fun g hg => Nat.le_of_lt (hlt g hg)⟩⟩

/-- A name is found in the first scope of the chain that binds it. -/
theorem resolve_chain (h : s.Chain id ids) (name : String) :
    s.resolve id name = ids.find? (s.bindsAt · name) := by
  induction h with
  | @outermost id scope hscope hp =>
    rw [resolve, hscope]
    by_cases hb : scope.binds name <;> simp [bindsAt, hscope, hb, hp]
  | @inside id parent scope ids hscope hp h ih =>
    have hlt := hs id scope parent hscope hp
    rw [resolve, hscope]
    by_cases hb : scope.binds name <;> simp [bindsAt, hscope, hb, hp, hlt, ih]

/-- As many scopes enclose a scope as follow it on its chain. -/
theorem depth_chain (h : s.Chain id ids) : s.depth id + 1 = ids.length := by
  induction h with
  | outermost hscope hp =>
    rw [depth]
    simp [hscope, hp]
  | @inside id parent scope ids hscope hp h ih =>
    have hlt := hs id scope parent hscope hp
    rw [depth]
    simp [hscope, hp, hlt, ih]

theorem create {scope : Scope} (hp : ∀ parent, scope.parent = some parent → parent < s.next) :
    (s.create scope).Ordered := by
  intro id scope' parent hscope hparent
  rw [scopes_create] at hscope
  split at hscope
  next hid =>
    cases hscope
    exact hid ▸ hp parent hparent
  next => exact hs id scope' parent hscope hparent

theorem modify {id : ScopeId} {f : Scope → Scope} (hf : ∀ scope, (f scope).parent = scope.parent) :
    (s.modify id f).Ordered := by
  intro other scope' parent hscope hparent
  rw [scopes_modify] at hscope
  split at hscope
  next heq =>
    subst heq
    obtain ⟨scope, hold, rfl⟩ := Option.map_eq_some_iff.mp hscope
    exact hs id scope parent hold ((hf scope).symm.trans hparent)
  next => exact hs other scope' parent hscope hparent

end Ordered

/-- A name that is found is bound where it is found. -/
theorem bindsAt_of_resolve {name : String} {owner : ScopeId} (h : s.resolve id name = some owner) :
    s.bindsAt owner name = true := by
  fun_induction resolve s id name with
  | case1 | case3 | case5 => cases h
  | case2 id scope hscope hbinds =>
    cases h
    simp [bindsAt, hscope, hbinds]
  | case4 id scope hscope hbinds parent hparent hlt ih => exact ih h

/-- The binding that is found where a name is found is what is looked up, and assigned to unless it
is a constant. -/
theorem binding_of_resolve {name : String} {owner : ScopeId} (h : s.resolve id name = some owner) :
    ∃ scope b, s.scopes[owner]? = some scope ∧ scope.find? name = some b ∧
      s.lookup id name = .ok b.value ∧ ∀ v, s.assign id name v =
        if b.constant then .error (.of (.assignConstant name))
        else .ok (s.modify owner (·.update name v)) := by
  have hbinds := bindsAt_of_resolve h
  unfold bindsAt at hbinds
  cases hscope : s.scopes[owner]? with
  | none => simp [hscope] at hbinds
  | some scope =>
    simp only [hscope, Option.any_some, Scope.binds, Option.isSome_iff_exists] at hbinds
    obtain ⟨b, hb⟩ := hbinds
    have hbinding : s.binding? id name = some b := by simp [binding?, h, hscope, hb]
    refine ⟨scope, b, rfl, hb, by simp [lookup, get?, hbinding], fun v => ?_⟩
    cases hc : b.constant <;> simp [assign, assignmentFault?, hbinding, hc, rebind, h]

/-- A name that is found nowhere can be neither looked up nor assigned to. -/
theorem unbound_of_resolve {name : String} (h : s.resolve id name = none) :
    s.lookup id name = .error (.of (.undefined name)) ∧
      ∀ v, s.assign id name v = .error (.of (.assignUndefined name)) := by
  have hbinding : s.binding? id name = none := by simp [binding?, h]
  exact ⟨by simp [lookup, get?, hbinding], fun v => by simp [assign, assignmentFault?, hbinding]⟩

/-- Nothing is found from a scope that does not exist. -/
theorem resolve_of_next_le (h : s.next ≤ id) (name : String) : s.resolve id name = none := by
  rw [resolve, Array.getElem?_eq_none h]

/-- A change of one scope that leaves its parent leaves the chains. -/
theorem Chain.modify (h : s.Chain id ids) {changed : ScopeId} {f : Scope → Scope}
    (hf : ∀ scope, (f scope).parent = scope.parent) : (s.modify changed f).Chain id ids := by
  have hkept : ∀ {id : ScopeId} {scope : Scope}, s.scopes[id]? = some scope →
      ∃ scope', (s.modify changed f).scopes[id]? = some scope' ∧ scope'.parent = scope.parent := by
    intro id scope hscope
    rw [scopes_modify, hscope]
    split
    next => exact ⟨f scope, rfl, hf scope⟩
    next => exact ⟨scope, rfl, rfl⟩
  induction h with
  | outermost hscope hp =>
    obtain ⟨scope', hscope', hparent⟩ := hkept hscope
    exact .outermost hscope' (hparent.trans hp)
  | inside hscope hp h ih =>
    obtain ⟨scope', hscope', hparent⟩ := hkept hscope
    exact .inside hscope' (hparent.trans hp) ih

/-- Such a change leaves what a name resolves to if the first scope of the chain that binds the name
is the same as before. -/
theorem Ordered.resolve_modify (hs : s.Ordered) {changed : ScopeId} {f : Scope → Scope}
    (hf : ∀ scope, (f scope).parent = scope.parent) {name : String}
    (h : ∀ ids, s.Chain id ids →
      ids.find? ((s.modify changed f).bindsAt · name) = ids.find? (s.bindsAt · name)) :
    (s.modify changed f).resolve id name = s.resolve id name := by
  rcases Nat.lt_or_ge id s.next with hid | hid
  · obtain ⟨ids, hchain⟩ := hs.exists_chain hid
    rw [hs.resolve_chain hchain, (hs.modify hf).resolve_chain (hchain.modify hf), h ids hchain]
  · rw [resolve_of_next_le hid, resolve_of_next_le (by simpa using hid)]

end Store

end Avii
