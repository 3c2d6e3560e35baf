import Avii.Eval
import Avii.Proofs.Outcome
import Avii.Proofs.Store.Steps

/-!
# Disciplines of evaluation

What evaluation keeps is proved once, for any `Discipline`: a choice of trees, scopes, values and
stores such that what evaluation makes out of chosen ones is chosen again (`Lawful`). Then every
evaluation that starts from chosen ones, with any budget and any outcome, ends in a chosen store
that the one before leads to, and gives a chosen value if it gives one (`evaluates`).

`Keeps` states this for a single computation, from any store that a given one leads to, so that a
fact about a value found earlier is still there later. There is one lemma for each step and each
construct; the induction is on the budget.
-/

namespace Avii.Eval

open Store (Leads)

variable {α β : Type}

/-- What evaluation is to keep: which trees there are, which scopes trees are evaluated in, which
scopes closures are made in, and which values and stores there are. -/
structure Discipline where
  tree : Tree → Prop
  scope : Store → ScopeId → Prop
  captured : Store → ScopeId → Prop
  value : Store → Value → Prop
  store : Store → Prop

/-- Chosen things make chosen things. -/
structure Discipline.Lawful (D : Discipline) : Prop where
  child : ∀ {label : Label} {line : Option Int} {cs : List Tree} {c : Tree},
    D.tree (.node label line cs) → c ∈ cs → D.tree c
  scope_mono : ∀ {s t : Store} {id : ScopeId}, Leads s t → D.scope s id → D.scope t id
  captured_mono : ∀ {s t : Store} {id : ScopeId}, Leads s t → D.captured s id → D.captured t id
  value_mono : ∀ {s t : Store} {v : Value}, Leads s t → D.value s v → D.value t v
  captured_of_scope : ∀ {s : Store} {id : ScopeId}, D.scope s id → D.captured s id
  null : ∀ s : Store, D.value s .null
  number : ∀ (s : Store) (x : Binary64), D.value s (.number x)
  string : ∀ (s : Store) (x : String), D.value s (.string x)
  bool : ∀ (s : Store) (b : Bool), D.value s (.bool b)
  array : ∀ {s : Store} {vs : List Value}, (∀ v ∈ vs, D.value s v) → D.value s (.array vs)
  item : ∀ {s : Store} {vs : List Value} {v : Value}, D.value s (.array vs) → v ∈ vs → D.value s v
  noSlots : ∀ s : Store, D.value s (.object [])
  setSlot : ∀ {s : Store} {slots : List (String × Value)} {l : Leaf} {v : Value},
    D.tree (.leaf l) → l.kind = .ident → D.value s (.object slots) → D.value s v →
    D.value s (.object (setSlot slots l.text v))
  slot : ∀ {s : Store} {slots : List (String × Value)} {p : String × Value},
    D.value s (.object slots) → p ∈ slots → D.value s p.2
  closure : ∀ {s : Store} {line line' : Option Int} {ps body : List Tree} {id : ScopeId},
    D.tree (.node .params line ps) → D.tree (.node .body line' body) → D.captured s id →
    ∀ name, D.value s (.closure ⟨name, ps.map Tree.word, body, id⟩)
  made : ∀ {s : Store} {c : Closure}, D.value s (.closure c) →
    D.captured s c.scope ∧ ∀ t ∈ c.body, D.tree t
  lookup : ∀ {s : Store} {id : ScopeId} {name : String} {v : Value}, D.store s → D.scope s id →
    s.lookup id name = .ok v → D.value s v
  create : ∀ {s : Store} {parent : ScopeId}, D.store s → D.captured s parent →
    D.store (s.create (.empty (some parent))) ∧ D.scope (s.create (.empty (some parent))) s.next
  bind : ∀ {s : Store} {id : ScopeId} {b : Binding}, D.store s → D.scope s id →
    D.value s b.value → s.definitionFault? id b.name = none → D.store (s.bind id b)
  rebind : ∀ {s : Store} {id : ScopeId} {name : String} {v : Value}, D.store s → D.scope s id →
    D.value s v → s.assignmentFault? id name = none → D.store (s.rebind id name v)

/-- A choice of scopes and stores only. -/
def Discipline.ofScopes (scope : Store → ScopeId → Prop) (store : Store → Prop) : Discipline :=
  ⟨fun _ => True, scope, fun _ _ => True, fun _ _ => True, store⟩

/-- A choice of scopes and stores is lawful if creating, binding and rebinding keep it. -/
theorem Discipline.ofScopes_lawful {scope : Store → ScopeId → Prop} {store : Store → Prop}
    (hmono : ∀ {s t : Store} {id : ScopeId}, Leads s t → scope s id → scope t id)
    (hcreate : ∀ {s : Store} {parent : ScopeId}, store s →
      store (s.create (.empty (some parent))) ∧ scope (s.create (.empty (some parent))) s.next)
    (hbind : ∀ {s : Store} {id : ScopeId} {b : Binding}, store s → scope s id →
      store (s.bind id b))
    (hrebind : ∀ {s : Store} {id : ScopeId} {name : String} {v : Value}, store s → scope s id →
      store (s.rebind id name v)) : (ofScopes scope store).Lawful where
  child _ _ := trivial
  scope_mono := hmono
  captured_mono _ _ := trivial
  value_mono _ _ := trivial
  captured_of_scope _ := trivial
  null _ := trivial
  number _ _ := trivial
  string _ _ := trivial
  bool _ _ := trivial
  array _ := trivial
  item _ _ := trivial
  noSlots _ := trivial
  setSlot _ _ _ _ := trivial
  slot _ _ := trivial
  closure _ _ _ _ := trivial
  made _ := ⟨trivial, fun _ _ => trivial⟩
  lookup _ _ _ := trivial
  create h _ := hcreate h
  bind h hid _ _ := hbind h hid
  rebind h hid _ _ := hrebind h hid

/-- A computation, from any chosen store that a given one leads to, ends in a chosen one further
on, and what it gives is as it should be. -/
def Keeps (D : Discipline) (s : Store) (good : Store → α → Prop) (x : Eval α) : Prop :=
  ∀ m, Leads s m.store → D.store m.store →
    match x m with
    | .ok a m' => Leads m.store m'.store ∧ D.store m'.store ∧ good m'.store a
    | .error _ m' => Leads m.store m'.store ∧ D.store m'.store

/-- Nothing is asked of what is given. -/
def any : Store → α → Prop := fun _ _ => True

section Steps

variable {D : Discipline} {s t : Store} {good : Store → α → Prop} {good' : Store → β → Prop}

/-- What keeps a discipline from a store on does so from all it leads to. -/
theorem Keeps.later {x : Eval α} (hx : Keeps D s good x) (h : Leads s t) : Keeps D t good x :=
  fun m hm => hx m (h.trans hm)

/-- It does so whatever is given. -/
theorem Keeps.any {x : Eval α} (hx : Keeps D s good x) : Keeps D s any x := by
  intro m hm hstore
  have h := hx m hm hstore
  show match x m with | .ok a m' => _ | .error _ m' => _
  cases hxm : x m with
  | ok a m' =>
    rw [hxm] at h
    exact ⟨h.1, h.2.1, trivial⟩
  | error f m' =>
    rw [hxm] at h
    exact h

/-- Where a computation that keeps a discipline has got, with a result. -/
theorem Keeps.reaches {x : Eval α} {m m' : Machine} {a : α} (hx : Keeps D m.store good x)
    (hm : D.store m.store) (h : x m = .ok a m') :
    Leads m.store m'.store ∧ D.store m'.store ∧ good m'.store a := by
  have hrun := hx m (.refl _) hm
  rw [h] at hrun
  exact hrun

/-- A discipline is kept step by step, each step from a store further on. -/
theorem Keeps.bind {x : Eval α} {f : α → Eval β} (hx : Keeps D s good x)
    (hf : ∀ {t a}, Leads s t → good t a → Keeps D t good' (f a)) :
    Keeps D s good' (x >>= f) := by
  intro m hm hstore
  have hfirst := hx m hm hstore
  show match (x >>= f) m with | .ok a m' => _ | .error _ m' => _
  simp only [Bind.bind, EStateM.bind]
  cases hxm : x m with
  | error e m₁ =>
    rw [hxm] at hfirst
    exact hfirst
  | ok a m₁ =>
    rw [hxm] at hfirst
    obtain ⟨hleads, hstore₁, hgood⟩ := hfirst
    -- the second computation starts in the store that the first one left
    have hsecond := hf (hm.trans hleads) hgood m₁ (.refl _) hstore₁
    show match f a m₁ with | .ok a m' => _ | .error _ m' => _
    cases hfm : f a m₁ with
    | error e m₂ =>
      rw [hfm] at hsecond
      exact ⟨hleads.trans hsecond.1, hsecond.2⟩
    | ok b m₂ =>
      rw [hfm] at hsecond
      exact ⟨hleads.trans hsecond.1, hsecond.2⟩

theorem keeps_pure {a : α} (h : ∀ {t}, Leads s t → good t a) :
    Keeps D s good (pure a : Eval α) := by
  intro m hm hstore
  exact ⟨.refl _, hstore, h hm⟩

theorem keeps_fail (f : Fault) : Keeps D s good (fail f : Eval α) := by
  intro m hm hstore
  exact ⟨.refl _, hstore⟩

/-- An operation on values keeps what it finds. -/
theorem keeps_ofExcept {x : Except Fault α}
    (h : ∀ {t a}, Leads s t → x = .ok a → good t a) : Keeps D s good (ofExcept x) := by
  intro m hm hstore
  cases x with
  | ok a => exact ⟨.refl _, hstore, h hm rfl⟩
  | error f => exact ⟨.refl _, hstore⟩

/-- To give a fault a line touches no store. -/
theorem Keeps.located {x : Eval α} (hx : Keeps D s good x) (tree : Tree) :
    Keeps D s good (located tree x) := by
  intro m hm hstore
  have h := hx m hm hstore
  unfold Eval.located
  cases hxm : x m <;> simpa [hxm] using h

theorem keeps_print (text : String) : Keeps D s any (print text) := by
  intro m hm hstore
  exact ⟨.refl _, hstore, trivial⟩

theorem keeps_note (e : Event) : Keeps D s any (note e) := by
  intro m hm hstore
  exact ⟨.refl _, hstore, trivial⟩

end Steps

section Constructs

variable {D : Discipline} (hD : D.Lawful) {s t : Store} {scope : ScopeId}
  {eval : Tree → Eval Value}

/-! ## Steps that touch the store -/

include hD

/-- A chosen store gives chosen values. -/
theorem keeps_lookup (hs : D.scope s scope) (name : String) :
    Keeps D s D.value (lookup scope name) := by
  intro m hm hstore
  have hscope := hD.scope_mono hm hs
  unfold lookup
  cases hl : m.store.lookup scope name with
  | error f => exact ⟨.refl _, hstore⟩
  | ok v => exact ⟨.refl _, hstore, hD.lookup hstore hscope hl⟩

/-- To define a name with a chosen value keeps the store chosen. -/
theorem keeps_define (hs : D.scope s scope) {v : Value} (hv : D.value s v) (name : String)
    (constant : Bool) : Keeps D s any (define scope name v constant) := by
  intro m hm hstore
  unfold define update
  cases hf : m.store.definitionFault? scope name with
  | some f =>
    simp only [hf]
    exact ⟨.refl _, hstore⟩
  | none =>
    simp only [hf]
    refine ⟨(Store.Step.bind _ _ _ hf).leads, ?_, trivial⟩
    exact hD.bind hstore (hD.scope_mono hm hs) (hD.value_mono hm hv) hf

theorem keeps_assign (hs : D.scope s scope) {v : Value} (hv : D.value s v) (name : String) :
    Keeps D s any (assign scope name v) := by
  intro m hm hstore
  unfold assign update
  cases hf : m.store.assignmentFault? scope name with
  | some f =>
    simp only [hf]
    exact ⟨.refl _, hstore⟩
  | none =>
    simp only [hf]
    refine ⟨(Store.Step.rebind _ _ _ _ hf).leads, ?_, trivial⟩
    exact hD.rebind hstore (hD.scope_mono hm hs) (hD.value_mono hm hv) hf

/-- A new scope below a captured one is chosen. -/
theorem keeps_child (hs : D.captured s scope) : Keeps D s D.scope (child scope) := by
  intro m hm hstore
  have h := hD.create hstore (hD.captured_mono hm hs)
  exact ⟨(Store.Step.create _ _).leads, h.1, h.2⟩

/-- A leaf has a chosen value. -/
theorem keeps_leaf (hs : D.scope s scope) (l : Leaf) : Keeps D s D.value (leaf scope l) := by
  unfold leaf
  split
  next =>
    refine keeps_ofExcept ?_
    intro t v _ hv
    unfold numeral at hv
    split at hv
    next x _ =>
      cases hv
      exact hD.number t x
    next => cases hv
  next => exact keeps_pure fun _ => hD.string _ _
  next => exact keeps_lookup hD hs l.text
  next => exact keeps_fail _

/-! ## Constructs -/

/-- Trees keep a discipline one after the other, and their values are chosen when the last is. -/
theorem keeps_all (he : ∀ c, D.tree c → Keeps D s D.value (eval c)) :
    ∀ {ts : List Tree}, (∀ c ∈ ts, D.tree c) →
      Keeps D s (fun t vs => ∀ v ∈ vs, D.value t v) (all eval ts)
  | [], _ => keeps_pure fun _ => by simp
  | c :: cs, h => by
    have hc := he c (h c (List.mem_cons_self ..))
    have hcs := keeps_all he fun c' hc' => h c' (List.mem_cons_of_mem c hc')
    refine hc.bind fun ht hv => ?_
    refine (hcs.later ht).bind fun ht' hvs => ?_
    refine keeps_pure fun ht'' => ?_
    intro v hmem
    rcases List.mem_cons.mp hmem with rfl | hmem
    · exact hD.value_mono (ht'.trans ht'') hv
    · exact hD.value_mono ht'' (hvs v hmem)

/-- So do statements, by induction on the list. -/
theorem keeps_sequence : ∀ {ts : List Tree} {s : Store} {last : Value},
    (∀ c, D.tree c → Keeps D s D.value (eval c)) → (∀ c ∈ ts, D.tree c) → D.value s last →
      Keeps D s D.value (sequence eval last ts)
  | [], s, last, _, _, hlast => keeps_pure fun ht => hD.value_mono ht hlast
  | c :: cs, s, last, he, h, _ => by
    have hc := he c (h c (List.mem_cons_self ..))
    refine hc.bind fun ht hv => ?_
    exact keeps_sequence (fun c' hc' => (he c' hc').later ht)
      (fun c' hc' => h c' (List.mem_cons_of_mem c hc')) hv

omit hD in
/-- A part that may be absent keeps it either way. -/
theorem keeps_optional {otherwise : Eval Value} (ho : Keeps D s D.value otherwise)
    (he : ∀ c, D.tree c → Keeps D s D.value (eval c)) {c : Tree} (hc : D.tree c) :
    Keeps D s D.value (optional otherwise eval c) := by
  unfold optional
  split
  next => exact ho
  next => exact he _ hc

/-- A variable declaration keeps it if its value does. -/
theorem keeps_variableDeclaration (hs : D.scope s scope)
    (he : ∀ c, D.tree c → Keeps D s D.value (eval c)) {cs : List Tree}
    (hcs : ∀ c ∈ cs, D.tree c) : Keeps D s D.value (variableDeclaration eval scope cs) := by
  unfold variableDeclaration
  split
  next keyword nameTree init =>
    have hinit := keeps_optional (keeps_pure fun _ => hD.null _) he (hcs init (by simp))
    refine (keeps_ofExcept fun _ _ => trivial : Keeps D s any _).bind fun ht _ => ?_
    refine (hinit.later ht).bind fun ht' hv => ?_
    have hs' := hD.scope_mono (ht.trans ht') hs
    refine (keeps_define hD hs' hv _ (isConstWord keyword)).bind fun ht'' _ => ?_
    exact keeps_pure fun ht₃ => hD.value_mono (ht''.trans ht₃) hv
  next => exact keeps_fail _

omit hD in
/-- The children of a chosen tree that has a given label belong to a chosen node. -/
theorem keeps_childrenOf {label : Label} {c : Tree} (hc : D.tree c) :
    Keeps D s (fun _ cs => ∃ line, D.tree (.node label line cs))
      (ofExcept (childrenOf label c)) := by
  refine keeps_ofExcept ?_
  intro t cs _ h
  unfold childrenOf at h
  split at h
  next l line cs' =>
    split at h
    next hl =>
      cases h
      subst hl
      exact ⟨line, hc⟩
    next => cases h
  next => cases h

/-- A function declaration binds a closure made of chosen parts. -/
theorem keeps_functionDeclaration (hs : D.scope s scope) {cs : List Tree}
    (hcs : ∀ c ∈ cs, D.tree c) : Keeps D s D.value (functionDeclaration scope cs) := by
  unfold functionDeclaration
  split
  next nameTree paramsTree bodyTree =>
    refine (keeps_ofExcept fun _ _ => trivial : Keeps D s any _).bind fun ht _ => ?_
    refine (keeps_childrenOf (hcs _ (by simp))).bind fun ht₁ hps => ?_
    refine (keeps_childrenOf (hcs _ (by simp))).bind fun ht₂ hbody => ?_
    have hs₂ := hD.scope_mono (ht.trans (ht₁.trans ht₂)) hs
    -- the closure captures a scope of its own, inside the one it is declared in
    refine (keeps_child hD (hD.captured_of_scope hs₂)).bind fun ht₃ hinner => ?_
    obtain ⟨line, hps⟩ := hps
    obtain ⟨line', hbody⟩ := hbody
    have hv := fun name => hD.closure hps hbody (hD.captured_of_scope hinner) name
    refine (keeps_define hD (hD.scope_mono ht₃ hs₂) (hv _) _ false).bind fun ht₄ _ => ?_
    exact keeps_pure fun ht₅ => hD.value_mono (ht₄.trans ht₅) (hv _)
  next => exact keeps_fail _

/-- A function literal gives one. -/
theorem keeps_functionLiteral (hs : D.scope s scope) {cs : List Tree}
    (hcs : ∀ c ∈ cs, D.tree c) : Keeps D s D.value (functionLiteral scope cs) := by
  unfold functionLiteral
  split
  next paramsTree bodyTree =>
    refine (keeps_childrenOf (hcs _ (by simp))).bind fun ht hps => ?_
    refine (keeps_childrenOf (hcs _ (by simp))).bind fun ht₁ hbody => ?_
    obtain ⟨line, hps⟩ := hps
    obtain ⟨line', hbody⟩ := hbody
    refine keeps_pure fun ht₂ => ?_
    have hs₂ := hD.scope_mono (ht.trans (ht₁.trans ht₂)) hs
    exact hD.closure hps hbody (hD.captured_of_scope hs₂) none
  next => exact keeps_fail _

theorem keeps_block {statements : List Tree → Eval Value}
    (hst : ∀ ts, (∀ c ∈ ts, D.tree c) → Keeps D s D.value (statements ts)) {c : Tree}
    (hc : D.tree c) : Keeps D s D.value (block statements c) := by
  refine (keeps_childrenOf hc).bind fun ht hbody => ?_
  obtain ⟨line, hbody⟩ := hbody
  exact (hst _ fun c hc => hD.child hbody hc).later ht

/-- A conditional keeps it if its test and its branches do. -/
theorem keeps_conditional (he : ∀ c, D.tree c → Keeps D s D.value (eval c))
    {statements : List Tree → Eval Value}
    (hst : ∀ ts, (∀ c ∈ ts, D.tree c) → Keeps D s D.value (statements ts)) {cs : List Tree}
    (hcs : ∀ c ∈ cs, D.tree c) : Keeps D s D.value (conditional eval statements cs) := by
  unfold conditional
  split
  next test consequent alternate =>
    refine (he test (hcs _ (by simp))).bind fun ht hv => ?_
    split
    next b =>
      have hbranch : D.tree (if b then consequent else alternate) := by
        split
        next => exact hcs _ (by simp)
        next => exact hcs _ (by simp)
      refine (keeps_optional ?_ (fun c hc => keeps_block hD hst hc) hbranch).later ht
      exact keeps_pure fun _ => hD.null _
    next => exact keeps_fail _
  next => exact keeps_fail _

omit hD in
/-- An operation keeps it if its operator gives chosen values. -/
theorem keeps_operation (he : ∀ c, D.tree c → Keeps D s D.value (eval c))
    {apply : String → Value → Value → Except Fault Value}
    (ha : ∀ {t sign l r v}, apply sign l r = .ok v → D.value t v) {cs : List Tree}
    (hcs : ∀ c ∈ cs, D.tree c) : Keeps D s D.value (operation eval apply cs) := by
  unfold operation
  split
  next left op right =>
    refine (he left (hcs _ (by simp))).bind fun ht _ => ?_
    refine ((he right (hcs _ (by simp))).later ht).bind fun _ _ => ?_
    exact keeps_ofExcept fun _ h => ha h
  next => exact keeps_fail _

/-- An assignment keeps it if its value does. -/
theorem keeps_assignment (hs : D.scope s scope)
    (he : ∀ c, D.tree c → Keeps D s D.value (eval c)) {cs : List Tree}
    (hcs : ∀ c ∈ cs, D.tree c) : Keeps D s D.value (assignment eval scope cs) := by
  unfold assignment
  split
  next target valueTree =>
    refine (keeps_ofExcept fun _ _ => trivial : Keeps D s any _).bind fun ht _ => ?_
    refine ((he valueTree (hcs _ (by simp))).later ht).bind fun ht₁ hv => ?_
    have hs₁ := hD.scope_mono (ht.trans ht₁) hs
    refine (keeps_assign hD hs₁ hv _).bind fun ht₂ _ => ?_
    exact keeps_pure fun ht₃ => hD.value_mono (ht₂.trans ht₃) hv
  next => exact keeps_fail _

/-- The key of a property is the text of a chosen name. -/
theorem keeps_property (hs : D.scope s scope)
    (he : ∀ c, D.tree c → Keeps D s D.value (eval c)) {c : Tree} (hc : D.tree c) :
    Keeps D s (fun t p => D.value t p.2 ∧
      ∃ l, D.tree (.leaf l) ∧ l.kind = .ident ∧ p.1 = l.text) (property eval scope c) := by
  unfold property
  refine (keeps_childrenOf hc).bind fun ht hcs => ?_
  obtain ⟨line, hcs⟩ := hcs
  split
  next keyTree valueTree =>
    have hkey : Keeps D s (fun _ key => ∃ l, D.tree (.leaf l) ∧ l.kind = .ident ∧ key = l.text)
        (ofExcept (identifier "Object key" keyTree)) := by
      refine keeps_ofExcept fun _ h => ?_
      unfold identifier at h
      split at h
      next l =>
        split at h
        next hk =>
          cases h
          exact ⟨l, hD.child hcs (by simp), hk, rfl⟩
        next => cases h
      next => cases h
    refine (hkey.later ht).bind fun ht₁ hkey => ?_
    have hlookup := keeps_lookup hD (hD.scope_mono (ht.trans ht₁) hs)
    have hvalue := fun name => keeps_optional (hlookup name)
      (fun c hc => (he c hc).later (ht.trans ht₁)) (hD.child hcs (c := valueTree) (by simp))
    refine (hvalue _).bind fun _ hv => ?_
    exact keeps_pure fun ht₂ => ⟨hD.value_mono ht₂ hv, hkey⟩
  next => exact keeps_fail _

/-- The properties of an object keep it one after the other, by induction on the list. -/
theorem keeps_properties : ∀ {ts : List Tree} {s : Store} {slots : List (String × Value)},
    D.scope s scope → (∀ c, D.tree c → Keeps D s D.value (eval c)) → (∀ c ∈ ts, D.tree c) →
      D.value s (.object slots) →
      Keeps D s (fun t slots => D.value t (.object slots)) (properties eval scope slots ts)
  | [], s, slots, _, _, _, hslots => keeps_pure fun ht => hD.value_mono ht hslots
  | c :: cs, s, slots, hs, he, h, hslots => by
    refine (keeps_property hD hs he (h c (List.mem_cons_self ..))).bind fun ht hp => ?_
    obtain ⟨hv, l, hl, hk, hkey⟩ := hp
    refine keeps_properties (hD.scope_mono ht hs) (fun c' hc' => (he c' hc').later ht)
      (fun c' hc' => h c' (List.mem_cons_of_mem c hc')) ?_
    rw [hkey]
    exact hD.setSlot hl hk (hD.value_mono ht hslots) hv

/-- A member of a chosen value is chosen. -/
theorem member_value {v k r : Value} (hv : D.value s v) (h : v.member k = .ok r) :
    D.value s r := by
  unfold Value.member at h
  split at h
  next slots =>
    obtain ⟨key, -, rfl⟩ := map_eq_ok.mp h
    unfold getSlot?
    cases hf : slots.find? (·.1 = key) with
    | none => exact hD.null s
    | some p => exact hD.slot hv (List.mem_of_find?_eq_some hf)
  next items =>
    obtain ⟨i, -, rfl⟩ := map_eq_ok.mp h
    cases hi : i.bind (items[·]?) with
    -- an index that is out of range gives null
    | none => exact hD.null s
    | some v =>
      obtain ⟨j, -, hj⟩ := Option.bind_eq_some_iff.mp hi
      exact hD.item hv (List.mem_of_getElem? hj)
  next text =>
    obtain ⟨i, -, rfl⟩ := map_eq_ok.mp h
    cases i.bind (Text.charAt? text) with
    | none => exact hD.null s
    | some c => exact hD.string s _
  next => cases h

/-- A field is a part of a chosen value. -/
theorem keeps_field (he : ∀ c, D.tree c → Keeps D s D.value (eval c)) {cs : List Tree}
    (hcs : ∀ c ∈ cs, D.tree c) : Keeps D s D.value (field eval cs) := by
  unfold field
  split
  next target name =>
    refine (he target (hcs _ (by simp))).bind fun _ hv => ?_
    exact keeps_ofExcept fun ht h => member_value hD (hD.value_mono ht hv) h
  next => exact keeps_fail _

theorem keeps_index (he : ∀ c, D.tree c → Keeps D s D.value (eval c)) {cs : List Tree}
    (hcs : ∀ c ∈ cs, D.tree c) : Keeps D s D.value (index eval cs) := by
  unfold index
  split
  next target key =>
    refine (he target (hcs _ (by simp))).bind fun ht hv => ?_
    refine ((he key (hcs _ (by simp))).later ht).bind fun ht₁ _ => ?_
    exact keeps_ofExcept fun ht₂ h => member_value hD (hD.value_mono (ht₁.trans ht₂) hv) h
  next => exact keeps_fail _

/-- A call keeps it if its parts and the application do. -/
theorem keeps_call (he : ∀ c, D.tree c → Keeps D s D.value (eval c))
    {arguments : Tree → Eval (List Value)}
    (hargs : ∀ c, D.tree c → Keeps D s (fun t vs => ∀ v ∈ vs, D.value t v) (arguments c))
    {apply : Value → List Value → Eval Value}
    (happly : ∀ {t v vs}, Leads s t → D.value t v → (∀ v ∈ vs, D.value t v) →
      Keeps D t D.value (apply v vs)) {cs : List Tree}
    (hcs : ∀ c ∈ cs, D.tree c) : Keeps D s D.value (call eval arguments apply cs) := by
  unfold call
  split
  next calleeTree argsTree =>
    refine (he calleeTree (hcs _ (by simp))).bind fun ht hv => ?_
    refine ((hargs argsTree (hcs _ (by simp))).later ht).bind fun ht₁ hvs => ?_
    exact happly (ht.trans ht₁) (hD.value_mono ht₁ hv) hvs
  next => exact keeps_fail _

/-- What an arithmetic operator gives is a number, a text or an array of texts. -/
theorem binary_value {sign : String} {l r v : Value} (h : Value.binary sign l r = .ok v) :
    D.value s v := by
  unfold Value.binary at h
  split at h
  next => cases h
  next op _ =>
    split at h
    next x y =>
      obtain ⟨z, -, rfl⟩ := map_eq_ok.mp h
      exact hD.number s z
    next =>
      split at h
      next =>
        cases h
        exact hD.string s _
      next =>
        split at h
        next =>
          cases h
          refine hD.array ?_
          intro v hv
          obtain ⟨p, -, rfl⟩ := List.mem_map.mp hv
          exact hD.string s p
        next => cases h

/-- An equality gives a truth value. -/
theorem equality_value {sign : String} {type : ValueType} {b : Bool} {v : Value}
    (h : Value.equality sign type b = .ok v) : D.value s v := by
  unfold Value.equality at h
  split at h
  next =>
    cases h
    exact hD.bool s _
  next =>
    split at h
    next =>
      cases h
      exact hD.bool s _
    next => cases h

/-- What a condition gives is a truth value. -/
theorem condition_value {sign : String} {l r v : Value}
    (h : Value.condition sign l r = .ok v) : D.value s v := by
  unfold Value.condition at h
  split at h
  next =>
    split at h
    next =>
      cases h
      exact hD.bool s _
    next =>
      split at h
      next =>
        cases h
        exact hD.bool s _
      next => exact equality_value hD h
  next => exact equality_value hD h
  next => exact equality_value hD h
  next =>
    cases h
    exact hD.bool s _

/-! ## Calls -/

omit hD in
theorem keeps_checkArity (name : String) (wanted : Option Nat) (args : List Value) :
    Keeps D s any (checkArity name wanted args) := by
  unfold checkArity
  split
  next =>
    split
    next => exact keeps_pure fun _ => trivial
    next => exact keeps_fail _
  next => exact keeps_pure fun _ => trivial

/-- A built-in function gives null or a number. -/
theorem keeps_native (budget : Nat) (f : Native) (args : List Value) :
    Keeps D s D.value (callHost f.name f.arity (native budget f) args) := by
  have hdisplayed : ∀ {t : Store}, Keeps D t any (displayed budget args) := by
    intro t
    unfold displayed
    split
    next => exact keeps_fail _
    next => exact keeps_pure fun _ => trivial
  have hnative : ∀ {t : Store}, Keeps D t (fun t a => ∀ v, a = .value v → D.value t v)
      (native budget f args) := by
    intro t
    unfold native
    split
    next =>
      refine hdisplayed.bind fun _ _ => (keeps_print _).bind fun _ _ => keeps_pure fun _ => ?_
      rintro _ ⟨⟩
      exact hD.null _
    next =>
      refine hdisplayed.bind fun _ _ => (keeps_print _).bind fun _ _ => keeps_pure fun _ => ?_
      rintro _ ⟨⟩
      exact hD.null _
    next =>
      split
      next v _ =>
        have hlength : Keeps D t D.value (ofExcept v.length) := by
          refine keeps_ofExcept fun _ h => ?_
          unfold Value.length at h
          split at h <;> cases h <;> exact hD.number _ _
        refine hlength.bind fun _ hn => keeps_pure fun ht => ?_
        rintro _ ⟨⟩
        exact hD.value_mono ht hn
      next => exact keeps_pure fun _ _ h => by cases h
  refine (keeps_checkArity f.name f.arity args).bind fun _ _ => ?_
  refine hnative.bind fun _ ha => ?_
  split
  next => exact keeps_pure fun _ => hD.null _
  next v => exact keeps_pure fun ht => hD.value_mono ht (ha v rfl)
  next => exact keeps_fail _

/-- To bind parameters to chosen arguments keeps the store chosen. -/
theorem keeps_bindParams : ∀ {ps : List String} {vs : List Value} {s : Store},
    D.scope s scope → (∀ v ∈ vs, D.value s v) → Keeps D s any (bindParams scope ps vs)
  | [], vs, s, _, _ => by
    unfold bindParams
    exact keeps_pure fun _ => trivial
  | p :: ps, [], s, _, _ => keeps_pure fun _ => trivial
  | p :: ps, v :: vs, s, hs, hvs => by
    refine (keeps_define hD hs (hvs v (List.mem_cons_self ..)) p false).bind fun ht _ => ?_
    exact keeps_bindParams (hD.scope_mono ht hs) fun v' hv' =>
      hD.value_mono ht (hvs v' (List.mem_cons_of_mem v hv'))

/-- To open the scope of a chosen closure does so too. -/
theorem keeps_openScope {c : Closure} (hc : D.value s (.closure c)) {args : List Value}
    (hargs : ∀ v ∈ args, D.value s v) : Keeps D s D.scope (openScope c args) := by
  obtain ⟨hcaptured, -⟩ := hD.made hc
  refine (keeps_checkArity _ _ args).bind fun ht _ => ?_
  refine (keeps_child hD (hD.captured_mono ht hcaptured)).bind fun ht₁ hscope => ?_
  have hargs₁ := fun v hv => hD.value_mono (ht.trans ht₁) (hargs v hv)
  refine (keeps_bindParams hD hscope hargs₁).bind fun ht₂ _ => ?_
  refine (keeps_note _).bind fun ht₃ _ => ?_
  exact keeps_pure fun ht₄ => hD.scope_mono (ht₂.trans (ht₃.trans ht₄)) hscope

/-- The call of a closure keeps a discipline if statements do in every chosen scope. -/
theorem keeps_callClosure {statements : ScopeId → List Tree → Eval Value}
    (hst : ∀ {t id ts}, Leads s t → D.scope t id → (∀ c ∈ ts, D.tree c) →
      Keeps D t D.value (statements id ts)) {c : Closure} (hc : D.value s (.closure c))
    {args : List Value} (hargs : ∀ v ∈ args, D.value s v) :
    Keeps D s D.value (callClosure statements c args) := by
  refine (keeps_openScope hD hc hargs).bind fun ht hscope => ?_
  exact hst ht hscope (hD.made hc).2

/-- An application does if to enter a closure does: built-in functions touch no store. -/
theorem keeps_apply (budget : Nat) {enter : Closure → List Value → Eval Value} {callee : Value}
    {args : List Value}
    (henter : ∀ c, callee = .closure c → Keeps D s D.value (enter c args)) :
    Keeps D s D.value (apply budget enter callee args) := by
  unfold apply
  split
  next c => exact henter c rfl
  next f => exact keeps_native hD budget f args
  next => exact keeps_fail _

end Constructs

/-! ## Evaluation -/

/-- Within a budget, every part of evaluation keeps a discipline. -/
structure Evaluates (D : Discipline) (n : Nat) : Prop where
  tree : ∀ {s scope c}, D.scope s scope → D.tree c → Keeps D s D.value (evalTree n scope c)
  construct : ∀ {s scope label line cs}, D.scope s scope → D.tree (.node label line cs) →
    Keeps D s D.value (evalConstruct n scope label cs)
  items : ∀ {s scope cs}, D.scope s scope → (∀ c ∈ cs, D.tree c) →
    Keeps D s (fun t vs => ∀ v ∈ vs, D.value t v) (evalItems n scope cs)
  arguments : ∀ {s scope c}, D.scope s scope → D.tree c →
    Keeps D s (fun t vs => ∀ v ∈ vs, D.value t v) (evalArguments n scope c)
  statements : ∀ {s scope cs}, D.scope s scope → (∀ c ∈ cs, D.tree c) →
    Keeps D s D.value (evalStatements n scope cs)
  call : ∀ {s v vs}, D.value s v → (∀ v ∈ vs, D.value s v) →
    Keeps D s D.value (callValue n v vs)
  enter : ∀ {s c vs}, D.value s (.closure c) → (∀ v ∈ vs, D.value s v) →
    Keeps D s D.value (enterClosure n c vs)

/-- The construct that a node is keeps a discipline that its parts keep. -/
theorem keeps_construct {D : Discipline} (hD : D.Lawful) {n : Nat} (ih : Evaluates D n)
    {s : Store} {scope : ScopeId} {label : Label} {line : Option Int} {cs : List Tree}
    (hs : D.scope s scope) (hc : D.tree (.node label line cs)) :
    Keeps D s D.value (evalConstruct (n + 1) scope label cs) := by
  have htree : ∀ c, D.tree c → Keeps D s D.value (evalTree n scope c) := fun c hc =>
    ih.tree hs hc
  have hcs : ∀ c ∈ cs, D.tree c := fun c hmem => hD.child hc hmem
  rw [evalConstruct]
  unfold construct
  -- one goal for each label, in the order of the definition; the last four are no constructs
  split
  next => exact ih.statements hs hcs
  next => exact ih.statements hs hcs
  next => exact keeps_variableDeclaration hD hs htree hcs
  next => exact keeps_functionDeclaration hD hs hcs
  next => exact keeps_conditional hD htree (fun ts hts => ih.statements hs hts) hcs
  next => exact keeps_operation htree (fun h => binary_value hD h) hcs
  next => exact keeps_operation htree (fun h => condition_value hD h) hcs
  next => exact keeps_assignment hD hs htree hcs
  next =>
    refine (keeps_properties hD hs htree hcs (hD.noSlots s)).bind fun _ hslots => ?_
    exact keeps_pure fun ht => hD.value_mono ht hslots
  next =>
    refine (ih.items hs hcs).bind fun _ hvs => ?_
    exact keeps_pure fun ht => hD.value_mono ht (hD.array hvs)
  next => exact keeps_field hD htree hcs
  next => exact keeps_index hD htree hcs
  next =>
    refine keeps_call hD htree (fun c hc => ih.arguments hs hc) ?_ hcs
    intro t v vs _ hv hvs
    exact ih.call hv hvs
  next => exact keeps_functionLiteral hD hs hcs
  next => exact keeps_fail _
  next => exact keeps_fail _
  next => exact keeps_fail _
  next => exact keeps_fail _

/-- Evaluation keeps every lawful discipline, whatever the budget. -/
theorem evaluates {D : Discipline} (hD : D.Lawful) : ∀ n : Nat, Evaluates D n
  | 0 => by constructor <;> intros <;> exact keeps_fail _
  | n + 1 => by
    have ih := evaluates hD n
    refine ⟨?_, keeps_construct hD ih, ?_, ?_, ?_, ?_, ?_⟩
    · intro s scope c hs hc
      cases c with
      | absent => exact (keeps_fail _).located _
      | leaf l => exact (keeps_leaf hD hs l).located _
      | node label line cs => exact (ih.construct hs hc).located _
    · intro s scope cs hs hcs
      rw [evalItems]
      exact keeps_all hD (fun c hc => ih.tree hs hc) hcs
    · intro s scope c hs hc
      rw [evalArguments]
      refine (keeps_childrenOf hc).bind fun ht hts => ?_
      obtain ⟨line, hts⟩ := hts
      exact ih.items (hD.scope_mono ht hs) fun c hmem => hD.child hts hmem
    · intro s scope cs hs hcs
      rw [evalStatements]
      exact keeps_sequence hD (fun c hc => ih.tree hs hc) hcs (hD.null s)
    · intro s v vs hv hvs
      rw [callValue]
      -- only a closure is entered with what is left of the budget
      refine keeps_apply hD n ?_
      rintro c rfl
      exact ih.enter hv hvs
    · intro s c vs hc hvs
      rw [enterClosure]
      exact keeps_callClosure hD (fun _ hs hts => ih.statements hs hts) hc hvs

end Avii.Eval
