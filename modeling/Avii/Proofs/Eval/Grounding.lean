import Avii.Proofs.Eval.Declarations
import Avii.Proofs.Eval.Isolation
import Avii.Proofs.Store.Chains

/-!
# Stores stay grounded

Scopes and closures refer to each other in circles: a scope may bind a closure that has captured a
scope inside it. What is ordered are the links from a scope to the one that encloses it, and what
holds of the others is that they lead somewhere. A store is `Grounded` if both is so.

Every step that evaluation takes keeps this, so it is one more discipline (`grounding`), and a store
is grounded at every moment of a run, however it goes on and ends. From any scope the way outward is
then finite, and searches along it, which give up where a scope is not older than the one it
encloses, never give up for that reason (`grown_grounded`).
-/

namespace Avii

namespace Store

variable {s : Store}

/-- Every scope was created after the one that encloses it, and closures that are bound have
captured scopes that there are. -/
structure Grounded (s : Store) : Prop where
  ordered : s.Ordered
  captured : s.AllBound fun v => ∀ c, v.Contains c → c.scope < s.next

theorem grounded_fresh : Machine.fresh.store.Grounded where
  ordered := by
    intro id scope parent hscope hparent
    unfold Machine.fresh createGlobal at hscope
    rw [scopes_create] at hscope
    split at hscope
    next =>
      -- the only scope is the outermost one
      cases hscope
      cases hparent
    next => simp [empty] at hscope
  captured :=
    (allBound_empty _).createGlobal nofun (fun _ => nofun) (fun _ => nofun) fun _ => nofun

theorem Grounded.create (h : s.Grounded) {parent : ScopeId} (hp : parent < s.next) :
    (s.create (.empty (some parent))).Grounded where
  ordered := by
    refine h.ordered.create ?_
    rintro _ ⟨⟩
    exact hp
  captured := by
    refine (h.captured.mono fun v hv c hc => ?_).create _
    rw [next_create]
    exact Nat.lt_succ_of_lt (hv c hc)

theorem Grounded.bind (h : s.Grounded) (id : ScopeId) {b : Binding}
    (hb : ∀ c, b.value.Contains c → c.scope < s.next) : (s.bind id b).Grounded where
  ordered := h.ordered.modify fun _ => rfl
  captured := by
    rw [next_bind]
    exact h.captured.bind id hb

theorem Grounded.rebind (h : s.Grounded) (id : ScopeId) (name : String) {v : Value}
    (hv : ∀ c, v.Contains c → c.scope < s.next) : (s.rebind id name v).Grounded where
  ordered := by
    unfold Store.rebind
    split
    next => exact h.ordered
    next => exact h.ordered.modify fun _ => rfl
  captured := by
    rw [next_rebind]
    exact h.captured.rebind id name hv

end Store

namespace Eval

/-- Scopes that there are, in a grounded store. -/
def grounding : Discipline :=
  .ofCaptured (fun s id => id < s.next) Store.Grounded

theorem grounding_lawful : grounding.Lawful := by
  refine Discipline.ofCaptured_lawful
    (fun hleads h => Nat.lt_of_lt_of_le h (Store.leads_next hleads))
    (fun h _ hv => h.captured.lookup hv) ?_ (fun h _ hv _ => h.bind _ hv)
    (fun h _ hv _ => h.rebind _ _ hv)
  intro s parent h hp
  exact ⟨h.create hp, by rw [Store.next_create]; exact Nat.lt_succ_self _⟩

/-- The machines that evaluations make out of a fresh one. Each evaluation is of any tree, within
any budget, in any of the scopes that there are; the machine may be met at any moment of it, and
after it, whatever its outcome. -/
inductive Grown : Machine → Prop where
  | fresh : Grown .fresh
  | during {m : Machine} {budget : Nat} {scope : ScopeId} {t : Tree} {q : Moment} (h : Grown m)
      (hscope : scope < m.store.next) (hq : Reaches (.start budget scope t m) q) : Grown q.machine
  | after {m : Machine} {scope : ScopeId} (h : Grown m) (budget : Nat) (t : Tree)
      (hscope : scope < m.store.next) : Grown (final (evaluate budget scope t m))

theorem Grown.grounded {m : Machine} (h : Grown m) : m.store.Grounded := by
  induction h with
  | fresh => exact Store.grounded_fresh
  | @during m budget scope t q h hscope hq ih =>
    have hstart : grounding.Holds (.start budget scope t m) := ⟨ih, hscope, trivial⟩
    exact (reaches_holds grounding_lawful hq hstart).store
  | @after m scope h budget t hscope ih =>
    have hkeeps : Keeps grounding m.store grounding.value (evaluate budget scope t) :=
      (keeps_note _).bind fun hleads _ =>
        (evaluates grounding_lawful budget).tree (grounding_lawful.scope_mono hleads hscope) trivial
    exact (hkeeps.final ih).2

/-- The store stays grounded. In every machine that evaluations make out of a fresh one, at any
moment and after any outcome, each scope is enclosed by an older one that is there, and every
closure in a binding, at any depth, has captured a scope that is there. So from every scope there is
exactly one chain outward. It is finite, and its scopes get older, so none is on it twice; the depth
of the scope is their number, itself not counted; and a name resolves to the first of them that
binds it, where it is looked up and assigned to, or to none, and then it can be neither. -/
theorem grown_grounded {m : Machine} (h : Grown m) :
    let s := m.store
    (∀ id scope parent, s.scopes[id]? = some scope → scope.parent = some parent →
      parent < id ∧ parent < s.next) ∧
    (∀ (id : ScopeId) (scope : Scope) (b : Binding) (c : Closure), s.scopes[id]? = some scope →
      b ∈ scope.bindings → b.value.Contains c → c.scope < s.next) ∧
    ∀ id < s.next, ∃ ids, s.Chain id ids ∧ (∀ ids', s.Chain id ids' → ids' = ids) ∧
      ids.Pairwise (· > ·) ∧ (∀ g ∈ ids, g < s.next) ∧ s.depth id + 1 = ids.length ∧
      ∀ name, s.resolve id name = ids.find? (s.bindsAt · name) ∧
        (s.resolve id name = none →
          s.lookup id name = .error (.of (.undefined name)) ∧
          ∀ v, s.assign id name v = .error (.of (.assignUndefined name))) ∧
        ∀ owner, s.resolve id name = some owner →
          ∃ scope b, s.scopes[owner]? = some scope ∧ scope.find? name = some b ∧
            s.lookup id name = .ok b.value ∧ ∀ v, s.assign id name v =
              if b.constant then .error (.of (.assignConstant name))
              else .ok (s.modify owner (·.update name v)) := by
  intro s
  have hs : s.Grounded := h.grounded
  refine ⟨?_, fun id scope b c hscope hb hc => hs.captured id scope hscope b hb c hc, ?_⟩
  · intro id scope parent hscope hparent
    have hlt := hs.ordered id scope parent hscope hparent
    exact ⟨hlt, Nat.lt_trans hlt (Store.lt_next hscope)⟩
  · intro id hid
    obtain ⟨ids, hchain⟩ := hs.ordered.exists_chain hid
    refine ⟨ids, hchain, fun _ => hchain.unique, (hs.ordered.chain_decreasing hchain).1,
      hchain.exists, hs.ordered.depth_chain hchain, fun name => ⟨?_, ?_, ?_⟩⟩
    · exact hs.ordered.resolve_chain hchain name
    · exact Store.unbound_of_resolve
    · intro owner howner
      exact Store.binding_of_resolve howner

/-- For instance the scope that a function was declared into has the outermost one around it, which
binds the function. -/
theorem grown_grounded_function :
    let t : Tree := .node .fndecl (some 1) [.leaf ⟨.ident, "f", some 1, some 6⟩,
      .node .params none [], .node .body none []]
    let s := (final (evaluate 10 Machine.globalId t .fresh)).store
    1 < s.next ∧ (∃ ids, s.Chain 1 ids ∧ ids.length = 2) ∧
      s.resolve 1 "f" = some Machine.globalId := by
  intro t s
  have hgrown : Grown (final (evaluate 10 Machine.globalId t .fresh)) :=
    Grown.fresh.after 10 t (by decide)
  have hnext : 1 < s.next := by decide +kernel
  obtain ⟨ids, hchain, -, -, -, hdepth, -⟩ := (grown_grounded hgrown).2.2 1 hnext
  have htwo : s.depth 1 = 1 := by decide +kernel
  exact ⟨hnext, ⟨ids, hchain, by rw [← hdepth, htwo]⟩, by decide +kernel⟩

end Eval

end Avii
