import Avii.Proofs.Eval.Isolation

/-!
# What trees hand down

Evaluation makes no trees: it takes the children of those that it is given, and the bodies of
closures that were made out of such children. So what a tree hands down to its children is a
discipline that evaluation keeps (`inheritance_lawful`): it holds of every tree that a run comes
across, if it holds of the tree that is run and of the bodies in the store.
-/

namespace Avii.Eval

open Store (Leads)

/-- The bodies of all closures in a value are made of chosen trees. -/
def BodiesIn (chosen : Tree → Prop) (v : Value) : Prop :=
  ∀ c, v.Contains c → ∀ t ∈ c.body, chosen t

/-- The bodies of all closures in a store are made of chosen trees. -/
def StoreBodiesIn (chosen : Tree → Prop) (s : Store) : Prop :=
  ∀ (id : ScopeId) (scope : Scope), s.scopes[id]? = some scope →
    ∀ b ∈ scope.bindings, BodiesIn chosen b.value

/-- Chosen trees, wherever they are evaluated. -/
def inheritance (chosen : Tree → Prop) : Discipline :=
  ⟨chosen, fun _ _ => True, fun _ _ => True, fun _ v => BodiesIn chosen v, StoreBodiesIn chosen⟩

variable {chosen : Tree → Prop}

theorem inheritance_lawful (hchild : ∀ {label : Label} {line : Option Int} {cs : List Tree}
    {c : Tree}, chosen (.node label line cs) → c ∈ cs → chosen c) :
    (inheritance chosen).Lawful where
  child h hc := hchild h hc
  scope_mono _ _ := trivial
  captured_mono _ _ := trivial
  value_mono _ h := h
  captured_of_scope _ := trivial
  null _ _ hc := nomatch hc
  number _ _ _ hc := nomatch hc
  string _ _ _ hc := nomatch hc
  bool _ _ _ hc := nomatch hc
  array h c hc := by
    cases hc with
    | item hv hc => exact h _ hv c hc
  item h hv c hc := h c (.item hv hc)
  noSlots _ c hc := by
    cases hc with
    | slot hp _ => simp at hp
  setSlot _ _ hslots hv c hc := (Value.contains_setSlot hc).elim (hslots c) (hv c)
  slot h hp c hc := h c (.slot hp hc)
  closure _ hbody _ name c hc := by
    cases hc
    exact fun t ht => hchild hbody ht
  made h := ⟨trivial, h _ (.closure _)⟩
  lookup hs _ hv := Store.AllBound.lookup hs hv
  create hs _ := ⟨Store.AllBound.create hs _, trivial⟩
  bind hs _ hv _ := Store.AllBound.bind hs _ hv
  rebind hs _ hv _ := Store.AllBound.rebind hs _ _ hv

/-- No closure is built in. -/
theorem fresh_bodies (chosen : Tree → Prop) : StoreBodiesIn chosen Machine.fresh.store :=
  (Store.allBound_empty _).createGlobal nofun (fun _ => nofun) (fun _ => nofun) fun _ => nofun

end Avii.Eval
