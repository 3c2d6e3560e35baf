import Avii.Proofs.Eval.Moments
import Avii.Proofs.Eval.Permanence
import Avii.Proofs.Value.Objects

/-!
# What evaluation can touch

From a scope one gets at the scopes around it and at those that the closures in its bindings have
captured, and so on from each of these (`Store.Accessible`). An evaluation in a scope stays within
what is accessible from there when it starts, and within the scopes that it creates itself: it
changes no other scope, and every closure that it gives back, binds or passes on has captured a
scope of that kind (`evaluation_isolated`).

Both halves need each other, since a call goes wherever the closure came from. They make up one
lawful discipline (`confinement`). What is bound only for a while is covered by `Writes`, which
says of each moment of an evaluation which binding it makes or changes.
-/

namespace Avii

/-- A closure occurs in a value, at any depth. -/
inductive Value.Contains : Value → Closure → Prop where
  | closure (c : Closure) : Contains (.closure c) c
  | item {vs : List Value} {v : Value} {c : Closure} (hv : v ∈ vs) (h : Contains v c) :
      Contains (.array vs) c
  | slot {slots : List (String × Value)} {p : String × Value} {c : Closure} (hp : p ∈ slots)
      (h : Contains p.2 c) : Contains (.object slots) c

/-- What a slot that is put into an object contains, the object contained before or the new value
does. -/
theorem Value.contains_setSlot {slots : List (String × Value)} {key : String} {v : Value}
    {c : Closure} (h : (Value.object (setSlot slots key v)).Contains c) :
    (Value.object slots).Contains c ∨ v.Contains c := by
  cases h with
  | slot hp hc =>
    rcases mem_setSlot hp with hp | hp
    · exact .inl (.slot hp hc)
    · exact .inr (hp ▸ hc)

namespace Store

/-- The scopes that one gets at from a scope: itself, the parents of such scopes, and what the
closures in their bindings have captured. -/
inductive Accessible (s : Store) (root : ScopeId) : ScopeId → Prop where
  | self : Accessible s root root
  | parent {id parent : ScopeId} {scope : Scope} (h : Accessible s root id)
      (hs : s.scopes[id]? = some scope) (hp : scope.parent = some parent) :
      Accessible s root parent
  | captured {id : ScopeId} {scope : Scope} {b : Binding} {c : Closure}
      (h : Accessible s root id) (hs : s.scopes[id]? = some scope) (hb : b ∈ scope.bindings)
      (hc : b.value.Contains c) : Accessible s root c.scope

/-- The scopes that belong to an evaluation that began with the store `before` and has come to
`now`: those accessible from its scope at the beginning, and those created since. -/
def Owned (before : Store) (root : ScopeId) (now : Store) (id : ScopeId) : Prop :=
  before.Accessible root id ∨ (before.next ≤ id ∧ id < now.next)

variable {before now later : Store} {root id : ScopeId}

/-- What belongs to an evaluation does so to its end. -/
theorem Owned.mono (h : before.Owned root now id) (hnext : now.next ≤ later.next) :
    before.Owned root later id :=
  h.imp_right fun ⟨hle, hlt⟩ => ⟨hle, Nat.lt_of_lt_of_le hlt hnext⟩

/-- Only an accessible scope is old and belongs to an evaluation. -/
theorem Owned.accessible (h : before.Owned root now id) (hid : id < before.next) :
    before.Accessible root id :=
  h.resolve_right fun ⟨hle, _⟩ => Nat.not_le_of_lt hid hle

end Store

namespace Eval

open Store (Leads Owned)

/-! ## Disciplines of what is captured -/

/-- A choice of scopes and stores, and with it of the values whose closures have captured chosen
scopes only. -/
def Discipline.ofCaptured (captured : Store → ScopeId → Prop) (store : Store → Prop) :
    Discipline where
  tree _ := True
  scope := captured
  captured := captured
  value s v := ∀ c, v.Contains c → captured s c.scope
  store := store

theorem Discipline.ofCaptured_lawful {captured : Store → ScopeId → Prop} {store : Store → Prop}
    (hmono : ∀ {s t : Store} {id : ScopeId}, Leads s t → captured s id → captured t id)
    (hlookup : ∀ {s : Store} {id : ScopeId} {name : String} {v : Value}, store s →
      captured s id → s.lookup id name = .ok v → ∀ c, v.Contains c → captured s c.scope)
    (hcreate : ∀ {s : Store} {parent : ScopeId}, store s → captured s parent →
      store (s.create (.empty (some parent))) ∧ captured (s.create (.empty (some parent))) s.next)
    (hbind : ∀ {s : Store} {id : ScopeId} {b : Binding}, store s → captured s id →
      (∀ c, b.value.Contains c → captured s c.scope) → s.definitionFault? id b.name = none →
      store (s.bind id b))
    (hrebind : ∀ {s : Store} {id : ScopeId} {name : String} {v : Value}, store s →
      captured s id → (∀ c, v.Contains c → captured s c.scope) →
      s.assignmentFault? id name = none → store (s.rebind id name v)) :
    (ofCaptured captured store).Lawful where
  child _ _ := trivial
  scope_mono := hmono
  captured_mono := hmono
  value_mono hleads h c hc := hmono hleads (h c hc)
  captured_of_scope h := h
  null _ _ hc := nomatch hc
  number _ _ _ hc := nomatch hc
  string _ _ _ hc := nomatch hc
  bool _ _ _ hc := nomatch hc
  array h c hc := by
    cases hc with
    | item hv hc => exact h _ hv c hc
  item h hv c hc := h c (.item hv hc)
  noSlots _ c hc := by
    cases hc with
    | slot hp _ => simp at hp
  setSlot _ _ hslots hv c hc := (Value.contains_setSlot hc).elim (hslots c) (hv c)
  slot h hp c hc := h c (.slot hp hc)
  closure _ _ hid name c hc := by
    cases hc
    exact hid
  made h := ⟨h _ (.closure _), fun _ _ => trivial⟩
  lookup := hlookup
  create := hcreate
  bind := hbind
  rebind := hrebind

/-! ## Confinement -/

/-- A store that an evaluation in a scope may have come to: its own scopes lead to its own only,
and the others are as they were. -/
structure Confined (before : Store) (root : ScopeId) (now : Store) : Prop where
  next : before.next ≤ now.next
  parent : ∀ {id scope parent}, before.Owned root now id → now.scopes[id]? = some scope →
    scope.parent = some parent → before.Owned root now parent
  bound : ∀ {id scope b c}, before.Owned root now id → now.scopes[id]? = some scope →
    b ∈ scope.bindings → b.value.Contains c → before.Owned root now c.scope
  frame : ∀ {id}, id < before.next → ¬ before.Accessible root id →
    now.scopes[id]? = before.scopes[id]?

/-- Every closure in a value has captured a scope that belongs to the evaluation. -/
def Captive (before : Store) (root : ScopeId) (now : Store) (v : Value) : Prop :=
  ∀ c, v.Contains c → before.Owned root now c.scope

/-- Staying within one's own scopes. -/
def confinement (before : Store) (root : ScopeId) : Discipline where
  tree _ := True
  scope := before.Owned root
  captured := before.Owned root
  value := Captive before root
  store := Confined before root

variable {before now : Store} {root : ScopeId}

/-- An evaluation begins with a store that it may have. -/
theorem confined_refl (before : Store) (root : ScopeId) : Confined before root before := by
  -- of the scopes that belong to it, only the accessible ones are there yet
  have haccessible : ∀ {id}, before.Owned root before id → before.Accessible root id := by
    rintro id (h | ⟨hle, hlt⟩)
    · exact h
    · exact absurd hlt (Nat.not_lt_of_le hle)
  exact
    { next := Nat.le_refl _
      parent := fun h hs hp => .inl (.parent (haccessible h) hs hp)
      bound := fun h hs hb hc => .inl (.captured (haccessible h) hs hb hc)
      frame := fun _ _ => rfl }

theorem Confined.resolve (h : Confined before root now) {id owner : ScopeId} {name : String}
    (hid : before.Owned root now id) (hr : now.resolve id name = some owner) :
    before.Owned root now owner := by
  fun_induction Store.resolve now id name with
  | case1 => cases hr
  | case2 id scope hscope hbinds =>
    cases hr
    exact hid
  | case3 => cases hr
  | case4 id scope hscope hbinds parent hparent hlt ih => exact ih (h.parent hid hscope hparent) hr
  | case5 => cases hr

theorem Confined.lookup (h : Confined before root now) {id : ScopeId} {name : String} {v : Value}
    (hid : before.Owned root now id) (hv : now.lookup id name = .ok v) :
    Captive before root now v := by
  obtain ⟨owner, scope, b, hr, hscope, hb, rfl⟩ := Store.bound_of_lookup hv
  exact fun c hc => h.bound (h.resolve hid hr) hscope hb hc

/-- A new scope inside one of the evaluation's own. -/
theorem Confined.create (h : Confined before root now) {parent : ScopeId}
    (hp : before.Owned root now parent) :
    Confined before root (now.create (.empty (some parent))) := by
  have hnext : now.next ≤ (now.create (.empty (some parent))).next := by simp
  -- a scope that belongs to the evaluation now is the new one, or did so before
  have hold : ∀ {id}, before.Owned root (now.create (.empty (some parent))) id →
      id ≠ now.next → before.Owned root now id := by
    rintro id (h | ⟨hle, hlt⟩) hne
    · exact .inl h
    · rw [Store.next_create] at hlt
      exact .inr ⟨hle, Nat.lt_of_le_of_ne (Nat.lt_succ_iff.mp hlt) hne⟩
  refine ⟨Nat.le_trans h.next hnext, ?_, ?_, ?_⟩
  · intro id scope outer hid hscope houter
    rw [Store.scopes_create] at hscope
    split at hscope
    next =>
      cases hscope
      cases houter
      exact hp.mono hnext
    next hne => exact (h.parent (hold hid hne) hscope houter).mono hnext
  · intro id scope b c hid hscope hb hc
    rw [Store.scopes_create] at hscope
    split at hscope
    next =>
      cases hscope
      simp [Scope.empty] at hb
    next hne => exact (h.bound (hold hid hne) hscope hb hc).mono hnext
  · intro id hid hna
    have hne : id ≠ now.next := Nat.ne_of_lt (Nat.lt_of_lt_of_le hid h.next)
    rw [Store.scopes_create, if_neg hne]
    exact h.frame hid hna

/-- A change to the bindings of one of the evaluation's own scopes. -/
theorem Confined.modify (h : Confined before root now) {id : ScopeId} {f : Scope → Scope}
    (hid : before.Owned root now id) (hparent : ∀ scope, (f scope).parent = scope.parent)
    (hbound : ∀ scope, now.scopes[id]? = some scope →
      ∀ b ∈ (f scope).bindings, b ∈ scope.bindings ∨ Captive before root now b.value) :
    Confined before root (now.modify id f) := by
  have hnext : now.next = (now.modify id f).next := (Store.next_modify ..).symm
  have hown : ∀ {i}, before.Owned root (now.modify id f) i ↔ before.Owned root now i := by
    intro i
    unfold Store.Owned
    rw [← hnext]
  refine ⟨hnext ▸ h.next, ?_, ?_, ?_⟩
  · intro other scope outer ho hscope houter
    rw [hown] at ho ⊢
    rw [Store.scopes_modify] at hscope
    split at hscope
    next =>
      obtain ⟨old, hold, rfl⟩ := Option.map_eq_some_iff.mp hscope
      exact h.parent ho hold ((hparent old).symm.trans houter)
    next => exact h.parent ho hscope houter
  · intro other scope b c ho hscope hb hc
    rw [hown] at ho ⊢
    rw [Store.scopes_modify] at hscope
    split at hscope
    next heq =>
      subst heq
      obtain ⟨old, hold, rfl⟩ := Option.map_eq_some_iff.mp hscope
      rcases hbound old hold b hb with hb | hv
      · exact h.bound ho hold hb hc
      · exact hv c hc
    next => exact h.bound ho hscope hb hc
  · intro other hother hna
    -- what is changed is accessible or new, and this is neither
    have hne : id ≠ other := by
      rintro rfl
      exact hna (hid.accessible hother)
    rw [Store.scopes_modify, if_neg hne]
    exact h.frame hother hna

theorem confinement_lawful (before : Store) (root : ScopeId) :
    (confinement before root).Lawful := by
  refine Discipline.ofCaptured_lawful (fun hleads h => h.mono (Store.leads_next hleads))
    (fun h hid hv => h.lookup hid hv) ?_ ?_ ?_
  · intro s parent h hp
    refine ⟨h.create hp, .inr ⟨h.next, ?_⟩⟩
    rw [Store.next_create]
    exact Nat.lt_succ_self _
  · intro s id b h hid hv _
    refine h.modify hid (fun _ => rfl) ?_
    intro scope _ b' hb'
    rcases List.mem_append.mp hb' with hb' | hb'
    · exact .inl hb'
    · rw [List.mem_singleton.mp hb']
      exact .inr hv
  · intro s id name v h hid hv hf
    obtain ⟨owner, _, _, hr, -⟩ := Store.owner_of_assignment hf
    unfold Store.rebind
    rw [hr]
    refine h.modify (h.resolve hid hr) (fun _ => rfl) ?_
    intro scope _ b hb
    obtain ⟨b', hb', rfl⟩ := List.mem_map.mp hb
    split
    next => exact .inr hv
    next => exact .inl hb'

/-! ## Writes -/

/-- A moment makes or changes the binding of a name in a scope, itself and not through its parts:
the value that it writes and the machine right after. -/
inductive Writes : Moment → ScopeId → String → Value → Machine → Prop where
  | variableDeclaration {n : Nat} {scope : ScopeId} {keyword nameTree init : Tree} {name : String}
      {v : Value} {m m₁ m' : Machine} (hn : identifier "Variable name" nameTree = .ok name)
      (hv : optional (pure .null) (evalTree n scope) init m = .ok v m₁)
      (hd : define scope name v (isConstWord keyword) m₁ = .ok () m') :
      Writes ⟨n + 1, .construct scope .vardecl [keyword, nameTree, init], m⟩ scope name v m'
  | functionDeclaration {n : Nat} {scope inner : ScopeId} {nameTree paramsTree bodyTree : Tree}
      {name : String} {ps body : List Tree} {m m₁ m' : Machine}
      (hn : identifier "Function name" nameTree = .ok name)
      (hp : childrenOf .params paramsTree = .ok ps) (hb : childrenOf .body bodyTree = .ok body)
      (hc : child scope m = .ok inner m₁)
      (hd : define scope name (.closure ⟨some name, ps.map Tree.word, body, inner⟩) false m₁
        = .ok () m') :
      Writes ⟨n + 1, .construct scope .fndecl [nameTree, paramsTree, bodyTree], m⟩ scope name
        (.closure ⟨some name, ps.map Tree.word, body, inner⟩) m'
  | assignment {n : Nat} {scope owner : ScopeId} {target valueTree : Tree} {name : String}
      {v : Value} {m m₁ m' : Machine} (hn : identifier "Assignment target" target = .ok name)
      (hv : evalTree n scope valueTree m = .ok v m₁)
      (ho : m₁.store.resolve scope name = some owner)
      (ha : assign scope name v m₁ = .ok () m') :
      Writes ⟨n + 1, .construct scope .assign [target, valueTree], m⟩ owner name v m'
  | parameter {n : Nat} {c : Closure} {scope : ScopeId} {ps ps' : List String} {name : String}
      {vs vs' : List Value} {v : Value} {m m₁ m₂ m' : Machine}
      (hps : c.params = ps ++ name :: ps') (hlen : ps.length = vs.length)
      (hlen' : ps'.length = vs'.length) (hc : child c.scope m = .ok scope m₁)
      (hb : bindParams scope ps vs m₁ = .ok () m₂) (hd : define scope name v false m₂ = .ok () m') :
      Writes ⟨n + 1, .enter c (vs ++ v :: vs'), m⟩ scope name v m'

/-- What a confined moment writes, and where, belongs to the evaluation. -/
theorem writes_confined {q : Moment} {id : ScopeId} {name : String} {v : Value} {m' : Machine}
    (hq : (confinement before root).Holds q) (h : Writes q id name v m') :
    before.Owned root m'.store id ∧ Captive before root m'.store v := by
  have hD := confinement_lawful before root
  obtain ⟨hm, ht⟩ := hq
  cases h with
  | @variableDeclaration n _ keyword nameTree init _ _ m m₁ _ hn hv hd =>
    obtain ⟨hs, -⟩ := ht
    have hinit : Keeps (confinement before root) m.store (confinement before root).value
        (optional (pure .null) (evalTree n id) init) :=
      keeps_optional (keeps_pure fun _ => hD.null _) (fun c hc => (evaluates hD n).tree hs hc)
        trivial
    obtain ⟨hleads, hm₁, hv₁⟩ := hinit.reaches hm hv
    have hs₁ := hD.scope_mono hleads hs
    obtain ⟨hleads', -⟩ := (keeps_define hD hs₁ hv₁ _ _).reaches hm₁ hd
    exact ⟨hD.scope_mono hleads' hs₁, hD.value_mono hleads' hv₁⟩
  | @functionDeclaration _ _ inner _ _ _ _ ps body _ m₁ _ hn hp hb hc hd =>
    obtain ⟨hs, -⟩ := ht
    obtain ⟨hleads, hm₁, hinner⟩ := (keeps_child hD hs).reaches hm hc
    have hs₁ := hD.scope_mono hleads hs
    -- the closure has captured the scope that was made for it
    have hv : Captive before root m₁.store
        (.closure ⟨some name, ps.map Tree.word, body, inner⟩) := by
      intro c hc'
      cases hc'
      exact hinner
    obtain ⟨hleads', -⟩ := (keeps_define hD hs₁ hv _ _).reaches hm₁ hd
    exact ⟨hD.scope_mono hleads' hs₁, hD.value_mono hleads' hv⟩
  | assignment hn hv ho ha =>
    obtain ⟨hs, -⟩ := ht
    obtain ⟨hm₁, hs₁, hv₁⟩ := evalTree_kept hD hm hs trivial hv
    obtain ⟨hleads, -⟩ := (keeps_assign hD hs₁ hv₁ _).reaches hm₁ ha
    exact ⟨hD.scope_mono hleads (hm₁.resolve hs₁ ho), hD.value_mono hleads hv₁⟩
  | parameter hps hlen hlen' hc hb hd =>
    obtain ⟨hclosure, hargs⟩ := ht
    obtain ⟨hleads, hm₁, hs₁⟩ := (keeps_child hD (hD.made hclosure).1).reaches hm hc
    have hargs₁ := fun w hw => hD.value_mono hleads (hargs w hw)
    -- the parameters before this one are bound to arguments too
    have hbefore := fun w hw => hargs₁ w (List.mem_append_left _ hw)
    obtain ⟨hleads₁, hm₂, -⟩ := (keeps_bindParams hD hs₁ hbefore).reaches hm₁ hb
    have hs₂ := hD.scope_mono hleads₁ hs₁
    have hv₂ := hD.value_mono hleads₁ (hargs₁ v (by simp))
    obtain ⟨hleads₂, -⟩ := (keeps_define hD hs₂ hv₂ _ _).reaches hm₂ hd
    exact ⟨hD.scope_mono hleads₂ hs₂, hD.value_mono hleads₂ hv₂⟩

/-! ## Isolation -/

/-- Evaluation is isolated by accessibility. In any store, an evaluation in any scope, of any tree,
with any budget and any outcome, leaves every scope as it was that was there and was not
accessible from its own. Every closure in its result, in a binding that one of its own scopes ends
up with, or in a binding written on the way has captured a scope that was accessible or was created
by then; and what is written on the way is written to such a scope. -/
theorem evaluation_isolated (budget : Nat) (root : ScopeId) (t : Tree) (m : Machine) :
    let after := (final (evaluate budget root t m)).store
    let start : Moment :=
      ⟨budget, .tree root t, { m with events := .evaluating t.heading :: m.events }⟩
    (∀ id scope, m.store.scopes[id]? = some scope → ¬ m.store.Accessible root id →
      after.scopes[id]? = some scope) ∧
    (∀ v m', evaluate budget root t m = .ok v m' → ∀ c, v.Contains c →
      m.store.Owned root after c.scope) ∧
    (∀ id scope, m.store.Owned root after id → after.scopes[id]? = some scope →
      ∀ b ∈ scope.bindings, ∀ c, b.value.Contains c → m.store.Owned root after c.scope) ∧
    ∀ q id name v m', Reaches start q → Writes q id name v m' →
      m.store.Owned root m'.store id ∧
        ∀ c, v.Contains c → m.store.Owned root m'.store c.scope := by
  intro after start
  have hD := confinement_lawful m.store root
  have hroot : m.store.Owned root m.store root := .inl .self
  have hkeeps : Keeps (confinement m.store root) m.store (confinement m.store root).value
      (evaluate budget root t) :=
    (keeps_note _).bind fun hleads _ =>
      (evaluates hD budget).tree (hD.scope_mono hleads hroot) trivial
  have hafter : Confined m.store root after := (hkeeps.final (confined_refl m.store root)).2
  refine ⟨?_, ?_, fun id scope hid hscope b hb c hc => hafter.bound hid hscope hb hc, ?_⟩
  · intro id scope hscope hna
    have hid : id < m.store.next := (Array.getElem?_eq_some_iff.mp hscope).1
    rw [hafter.frame hid hna, hscope]
  · intro v m' hv c hc
    have hvalue := (hkeeps.reaches (confined_refl m.store root) hv).2.2 c hc
    have hstore : after = m'.store := by simp only [after, hv, final]
    rw [hstore]
    exact hvalue
  · intro q id name v m' hreaches hwrites
    have hstart : (confinement m.store root).Holds start :=
      ⟨confined_refl m.store root, hroot, trivial⟩
    exact writes_confined (reaches_holds hD hreaches hstart) hwrites

end Eval

end Avii
