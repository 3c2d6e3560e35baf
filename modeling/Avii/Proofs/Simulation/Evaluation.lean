import Avii.Proofs.Eval.Provenance
import Avii.Proofs.Simulation.Evaluator
import Avii.Proofs.Simulation.Values

/-!
# Simulations

Two evaluations that go on side by side may differ in places, in the numbers of scopes, in which
scopes there are, and in what a declaration of a function does. A `Simulation` says at each time
which scopes and which stores belong together. If looking names up, binding them and creating scopes
goes well together (`Lawful`), and so do declarations, then so do whole evaluations (`simulates`):
both give values, which are alike, or both stop, with the same fault; they print the same text and
note the same events, and leave stores that belong together at a later time.

`Mirrors` says this of two computations, from any later time on, since what was found to belong
together earlier still does so then. There is one lemma for each step and each construct; the
induction is on the budget.
-/

namespace Avii

/-- Which evaluations go on side by side: the places that are replaced, and at each time which
scopes that trees are evaluated in, which scopes that closures have captured, and which stores
belong together. The evaluations may have noted something else before. -/
structure Simulation where
  places : Replacement
  Time : Type
  later : Time → Time → Prop
  scope : Time → ScopeId → ScopeId → Prop
  captured : Time → ScopeId → ScopeId → Prop
  store : Time → Store → Store → Prop
  notedHere : List Event
  notedThere : List Event

namespace Simulation

variable (S : Simulation) {α β γ δ : Type}

/-- Two values belong together. -/
abbrev value (τ : S.Time) : Value → Value → Prop :=
  Value.Alike S.places (S.captured τ)

/-- Some values belong together with some others. -/
abbrev values (τ : S.Time) : List Value → List Value → Prop :=
  List.Forall₂ (S.value τ)

/-- Some slots belong together with some others. -/
abbrev slots (τ : S.Time) : List (String × Value) → List (String × Value) → Prop :=
  List.Forall₂ (Value.SlotAlike S.places (S.captured τ))

/-- Two closures belong together. -/
abbrev closure (τ : S.Time) : Closure → Closure → Prop :=
  Closure.Alike S.places (S.captured τ)

/-- A tree with its places replaced. -/
abbrev tree (t : Tree) : Tree := t.transplant S.places

/-- Two results are the same. -/
def same (_ : S.Time) (a b : α) : Prop := b = a

/-- Some trees are others with their places replaced. -/
def replaced (_ : S.Time) (ts ts' : List Tree) : Prop := ts' = ts.map S.tree

/-- Two machines belong together. -/
structure Machines (τ : S.Time) (m m' : Machine) : Prop where
  store : S.store τ m.store m'.store
  output : m'.output = m.output
  events : ∃ new, m.events = new ++ S.notedHere ∧ m'.events = new ++ S.notedThere

/-- What belongs together does so later on, and stores that belong together stay so. -/
structure Lawful : Prop where
  refl : ∀ τ : S.Time, S.later τ τ
  trans : ∀ {τ τ₁ τ₂ : S.Time}, S.later τ τ₁ → S.later τ₁ τ₂ → S.later τ τ₂
  scope_later : ∀ {τ τ' : S.Time} {a b : ScopeId}, S.later τ τ' → S.scope τ a b → S.scope τ' a b
  captured_later : ∀ {τ τ' : S.Time}, S.later τ τ' → ∀ a b : ScopeId,
    S.captured τ a b → S.captured τ' a b
  captured_of_scope : ∀ {τ : S.Time} {a b : ScopeId}, S.scope τ a b → S.captured τ a b
  binding : ∀ {τ : S.Time} {s t : Store} {a b : ScopeId}, S.store τ s t → S.scope τ a b →
    ∀ name, Option.Rel (Binding.Alike S.places (S.captured τ)) (s.binding? a name)
      (t.binding? b name)
  bindsAt : ∀ {τ : S.Time} {s t : Store} {a b : ScopeId}, S.store τ s t → S.scope τ a b →
    ∀ name, t.bindsAt b name = s.bindsAt a name
  bind : ∀ {τ : S.Time} {s t : Store} {a b : ScopeId} {x y : Binding}, S.store τ s t →
    S.scope τ a b → x.Alike S.places (S.captured τ) y → S.store τ (s.bind a x) (t.bind b y)
  rebind : ∀ {τ : S.Time} {s t : Store} {a b : ScopeId} {name : String} {v w : Value},
    S.store τ s t → S.scope τ a b → S.value τ v w →
    S.store τ (s.rebind a name v) (t.rebind b name w)
  create : ∀ {τ : S.Time} {s t : Store} {a b : ScopeId}, S.store τ s t → S.captured τ a b →
    ∃ τ', S.later τ τ' ∧ S.store τ' (s.create (.empty (some a))) (t.create (.empty (some b))) ∧
      S.scope τ' s.next t.next

/-- Two computations end side by side: with results that belong together, or with the same fault. -/
def Ends (τ : S.Time) (good : S.Time → α → β → Prop) :
    EStateM.Result Fault Machine α → EStateM.Result Fault Machine β → Prop
  | .ok a m, .ok b m' => ∃ τ', S.later τ τ' ∧ S.Machines τ' m m' ∧ good τ' a b
  | .error f m, .error g m' => g = f.transplant S.places ∧ ∃ τ', S.later τ τ' ∧ S.Machines τ' m m'
  | _, _ => False

/-- Two computations go on side by side, from machines that belong together at any later time. -/
def Mirrors (τ : S.Time) (good : S.Time → α → β → Prop) (x : Eval α) (x' : Eval β) : Prop :=
  ∀ τ', S.later τ τ' → ∀ m m', S.Machines τ' m m' → S.Ends τ' good (x m) (x' m')

variable {S} {τ τ' : S.Time}

/-- What ends beside a result is a result that belongs to it. -/
theorem Ends.of_ok {good : S.Time → α → β → Prop} {a : α} {m : Machine}
    {r : EStateM.Result Fault Machine β} (h : S.Ends τ good (.ok a m) r) :
    ∃ b m', r = .ok b m' ∧ ∃ τ', S.later τ τ' ∧ S.Machines τ' m m' ∧ good τ' a b := by
  cases r with
  | ok b m' => exact ⟨b, m', rfl, h⟩
  | error => exact h.elim

/-- What ends beside a fault is the same fault, its place replaced. -/
theorem Ends.of_error {good : S.Time → α → β → Prop} {f : Fault} {m : Machine}
    {r : EStateM.Result Fault Machine β} (h : S.Ends τ good (.error f m) r) :
    ∃ m', r = .error (f.transplant S.places) m' ∧ ∃ τ', S.later τ τ' ∧ S.Machines τ' m m' := by
  cases r with
  | ok => exact h.elim
  | error g m' => exact ⟨m', by rw [h.1], h.2⟩

/-- What ends side by side from some time on does so from any earlier time on. -/
theorem Ends.earlier (hS : S.Lawful) (h : S.later τ τ') {good : S.Time → α → β → Prop}
    {r : EStateM.Result Fault Machine α} {r' : EStateM.Result Fault Machine β}
    (hr : S.Ends τ' good r r') : S.Ends τ good r r' := by
  cases r with
  | ok a m =>
    obtain ⟨b, m', rfl, τ₁, h₁, hm, hab⟩ := hr.of_ok
    exact ⟨τ₁, hS.trans h h₁, hm, hab⟩
  | error f m =>
    obtain ⟨m', rfl, τ₁, h₁, hm⟩ := hr.of_error
    exact ⟨rfl, τ₁, hS.trans h h₁, hm⟩

/-- Values that belong together do so later on. -/
theorem Lawful.value_later (hS : S.Lawful) (h : S.later τ τ') {v w : Value} (hv : S.value τ v w) :
    S.value τ' v w :=
  hv.later (hS.captured_later h)

theorem Lawful.values_later (hS : S.Lawful) (h : S.later τ τ') {vs ws : List Value}
    (hvs : S.values τ vs ws) : S.values τ' vs ws :=
  Value.alike_later (hS.captured_later h) hvs

theorem Lawful.slots_later (hS : S.Lawful) (h : S.later τ τ') {ps qs : List (String × Value)}
    (hps : S.slots τ ps qs) : S.slots τ' ps qs :=
  Value.slots_later (hS.captured_later h) hps

open Eval

section Steps

variable (hS : S.Lawful) {good : S.Time → α → β → Prop} {good' : S.Time → γ → δ → Prop}
  {x : Eval α} {x' : Eval β}

include hS

/-- What goes on side by side does so later on. -/
theorem Mirrors.later (hx : S.Mirrors τ good x x') (h : S.later τ τ') : S.Mirrors τ' good x x' :=
  fun τ'' h' => hx τ'' (hS.trans h h')

/-- Computations go on side by side step by step, each from a later time. -/
theorem Mirrors.bind {k : α → Eval γ} {k' : β → Eval δ} (hx : S.Mirrors τ good x x')
    (hk : ∀ {τ' a b}, S.later τ τ' → good τ' a b → S.Mirrors τ' good' (k a) (k' b)) :
    S.Mirrors τ good' (x >>= k) (x' >>= k') := by
  intro τ₁ h₁ m m' hm
  have h := hx τ₁ h₁ m m' hm
  cases hxm : x m with
  | ok a m₁ =>
    rw [hxm] at h
    obtain ⟨b, m₁', hxm', τ₂, h₂, hm₁, hab⟩ := h.of_ok
    rw [bind_run hxm, bind_run hxm']
    -- the second computations start at the time at which the first ones ended
    exact (hk (hS.trans h₁ h₂) hab τ₂ (hS.refl _) m₁ m₁' hm₁).earlier hS h₂
  | error f m₁ =>
    rw [hxm] at h
    obtain ⟨m₁', hxm', τ₂, h₂, hm₁⟩ := h.of_error
    rw [bind_fails hxm, bind_fails hxm']
    exact ⟨rfl, τ₂, h₂, hm₁⟩

/-- What follows on the same result. -/
theorem Mirrors.bindSame {x' : Eval α} {k : α → Eval γ} {k' : α → Eval δ}
    (hx : S.Mirrors τ S.same x x')
    (hk : ∀ {τ'} a, S.later τ τ' → S.Mirrors τ' good' (k a) (k' a)) :
    S.Mirrors τ good' (x >>= k) (x' >>= k') :=
  hx.bind hS fun {_ a _} h hab => by
    cases hab
    exact hk a h

/-- What follows on the children of a tree. -/
theorem Mirrors.bindTrees {x x' : Eval (List Tree)} {k : List Tree → Eval γ}
    {k' : List Tree → Eval δ} (hx : S.Mirrors τ S.replaced x x')
    (hk : ∀ {τ'} ts, S.later τ τ' → S.Mirrors τ' good' (k ts) (k' (ts.map S.tree))) :
    S.Mirrors τ good' (x >>= k) (x' >>= k') :=
  hx.bind hS fun {_ ts _} h hts => by
    cases hts
    exact hk ts h

/-- Results that belong together at every later time may be given. -/
theorem mirrors_pure {a : α} {b : β} (h : ∀ {τ'}, S.later τ τ' → good τ' a b) :
    S.Mirrors τ good (pure a : Eval α) (pure b : Eval β) :=
  fun τ' hτ _ _ hm => ⟨τ', hS.refl _, hm, h hτ⟩

theorem mirrors_fail {f g : Fault} (h : g = f.transplant S.places) :
    S.Mirrors τ good (fail f : Eval α) (fail g : Eval β) :=
  fun τ' _ _ _ hm => ⟨h, τ', hS.refl _, hm⟩

/-- A mistake has no place where it is made. -/
theorem mirrors_mistake {cause cause' : RuntimeCause} (h : cause' = cause) :
    S.Mirrors τ good (fail (.of cause) : Eval α) (fail (.of cause') : Eval β) :=
  mirrors_fail hS (by rw [h, Fault.transplant_of])

/-- Operations on values go on side by side if their results are alike. -/
theorem mirrors_ofExcept {r : Except Fault α} {r' : Except Fault β}
    (h : ∀ {τ'}, S.later τ τ' → ResultAlike S.places (good τ') r r') :
    S.Mirrors τ good (Eval.ofExcept r) (Eval.ofExcept r') := by
  intro τ' hτ m m' hm
  have hr := h hτ
  cases r with
  | ok a =>
    cases r' with
    | ok b => exact ⟨τ', hS.refl _, hm, hr⟩
    | error => exact hr.elim
  | error f =>
    cases r' with
    | ok => exact hr.elim
    | error g => exact ⟨hr, τ', hS.refl _, hm⟩

omit hS in
/-- A fault without a line gets those of two trees, one with the places of the other replaced. -/
theorem Mirrors.located (hx : S.Mirrors τ good x x') (t : Tree) :
    S.Mirrors τ good (located t x) (located (S.tree t) x') := by
  intro τ₁ h₁ m m' hm
  have h := hx τ₁ h₁ m m' hm
  unfold Eval.located
  cases hxm : x m with
  | ok a m₁ =>
    rw [hxm] at h
    obtain ⟨b, m₁', hxm', hlater⟩ := h.of_ok
    rw [hxm']
    exact hlater
  | error f m₁ =>
    rw [hxm] at h
    obtain ⟨m₁', hxm', hlater⟩ := h.of_error
    rw [hxm']
    exact ⟨by rw [Tree.transplant_sourceLine, ← Fault.transplant_located], hlater⟩

theorem mirrors_print (text : String) : S.Mirrors τ S.same (print text) (print text) :=
  fun τ' _ _ _ hm =>
    ⟨τ', hS.refl _, ⟨hm.store, congrArg (· ++ text) hm.output, hm.events⟩, rfl⟩

theorem mirrors_note (e : Event) : S.Mirrors τ S.same (note e) (note e) := by
  intro τ' _ m m' hm
  obtain ⟨new, hnew, hnew'⟩ := hm.events
  exact ⟨τ', hS.refl _, ⟨hm.store, hm.output, e :: new, congrArg _ hnew, congrArg _ hnew'⟩, rfl⟩

variable {a b : ScopeId}

/-- A name is found in both stores, with values that belong together, or in neither. -/
theorem mirrors_lookup (hab : S.scope τ a b) (name : String) :
    S.Mirrors τ S.value (lookup a name) (lookup b name) := by
  intro τ' hτ m m' hm
  have hbinding := hS.binding hm.store (hS.scope_later hτ hab) name
  unfold lookup Store.lookup Store.get?
  cases hx : m.store.binding? a name with
  | none =>
    rw [hx] at hbinding
    cases hy : m'.store.binding? b name with
    | none => exact ⟨(Fault.transplant_of _).symm, τ', hS.refl _, hm⟩
    | some y =>
      rw [hy] at hbinding
      cases hbinding
  | some x =>
    rw [hx] at hbinding
    cases hy : m'.store.binding? b name with
    | none =>
      rw [hy] at hbinding
      cases hbinding
    | some y =>
      rw [hy] at hbinding
      cases hbinding with
      | some h => exact ⟨τ', hS.refl _, hm, h.value⟩

/-- A change of the stores is mirrored if the stores belong together afterwards, and the same keeps
both from it, which has no place yet. -/
theorem mirrors_update {fault? fault?' : Store → Option Fault} {change change' : Store → Store}
    (hfault : ∀ {τ' s t}, S.later τ τ' → S.store τ' s t → fault?' t = fault? s)
    (hplain : ∀ {s f}, fault? s = some f → f.transplant S.places = f)
    (hchange : ∀ {τ' s t}, S.later τ τ' → S.store τ' s t → S.store τ' (change s) (change' t)) :
    S.Mirrors τ S.same (update fault? change) (update fault?' change') := by
  intro τ' hτ m m' hm
  unfold update
  rw [hfault hτ hm.store]
  cases hf : fault? m.store with
  | none => exact ⟨τ', hS.refl _, ⟨hchange hτ hm.store, hm.output, hm.events⟩, rfl⟩
  | some f => exact ⟨(hplain hf).symm, τ', hS.refl _, hm⟩

/-- A name is defined in both stores, or is there already in both. -/
theorem mirrors_define (hab : S.scope τ a b) (name : String) {v w : Value} (hv : S.value τ v w)
    (constant : Bool) :
    S.Mirrors τ S.same (define a name v constant) (define b name w constant) := by
  refine mirrors_update hS (fun hτ hs => ?_) (fun {s f} h => ?_) fun hτ hs => ?_
  · unfold Store.definitionFault?
    rw [hS.bindsAt hs (hS.scope_later hτ hab)]
  · unfold Store.definitionFault? at h
    split at h
    all_goals cases h
    exact Fault.transplant_of _
  · exact hS.bind hs (hS.scope_later hτ hab) ⟨rfl, rfl, hS.value_later hτ hv⟩

/-- A name is assigned in both stores, or refused in both. -/
theorem mirrors_assign (hab : S.scope τ a b) (name : String) {v w : Value} (hv : S.value τ v w) :
    S.Mirrors τ S.same (assign a name v) (assign b name w) := by
  refine mirrors_update hS (fun {τ' s t} hτ hs => ?_) (fun {s f} h => ?_) fun hτ hs => ?_
  · have hbinding := hS.binding hs (hS.scope_later hτ hab) name
    unfold Store.assignmentFault?
    generalize s.binding? a name = x at hbinding ⊢
    generalize t.binding? b name = y at hbinding ⊢
    cases hbinding with
    | none => rfl
    | some h => simp only [h.constant]
  · unfold Store.assignmentFault? at h
    repeat' split at h
    all_goals cases h
    all_goals exact Fault.transplant_of _
  · exact hS.rebind hs (hS.scope_later hτ hab) (hS.value_later hτ hv)

/-- New scopes below captured ones belong together. -/
theorem mirrors_child (hab : S.captured τ a b) : S.Mirrors τ S.scope (child a) (child b) := by
  intro τ' hτ m m' hm
  obtain ⟨τ₁, h₁, hstore, hscope⟩ := hS.create hm.store (hS.captured_later hτ a b hab)
  exact ⟨τ₁, h₁, ⟨hstore, hm.output, hm.events⟩, hscope⟩

/-- A leaf has the same value with another place. -/
theorem mirrors_leaf (hab : S.scope τ a b) (l : Leaf) :
    S.Mirrors τ S.value (leaf a l) (leaf b (l.transplant S.places)) := by
  unfold leaf
  simp only [Leaf.transplant_kind, Leaf.transplant_text]
  split
  next =>
    refine mirrors_ofExcept hS fun _ => ?_
    unfold numeral
    split
    next => exact .number _
    next => rfl
  next => exact mirrors_pure hS fun _ => .string _
  next => exact mirrors_lookup hS hab l.text
  next => exact mirrors_fail hS rfl

end Steps

/-! ## Parts of trees -/

section Parts

variable (hS : S.Lawful)

include hS

/-- Names have no places in them, so the same name is read off both trees. -/
theorem mirrors_identifier (role : String) (t : Tree) : S.Mirrors τ S.same
    (Eval.ofExcept (identifier role t)) (Eval.ofExcept (identifier role (S.tree t))) := by
  refine mirrors_ofExcept hS fun _ => ?_
  cases t with
  | leaf l =>
    show ResultAlike _ _ (if l.kind = .ident then _ else _) (if l.kind = .ident then _ else _)
    split <;> rfl
  | absent => rfl
  | node label line cs =>
    simp only [Tree.transplant_node]
    rfl

/-- The children of a tree are those of the other, their places replaced. -/
theorem mirrors_childrenOf (label : Label) (t : Tree) : S.Mirrors τ S.replaced
    (Eval.ofExcept (childrenOf label t)) (Eval.ofExcept (childrenOf label (S.tree t))) := by
  refine mirrors_ofExcept hS fun _ => ?_
  cases t with
  | node l line cs =>
    simp only [Tree.transplant_node, childrenOf]
    split
    next => rfl
    next =>
      rw [← Tree.transplant_node, Tree.transplant_describe]
      rfl
  | absent => rfl
  | leaf l => rfl

end Parts

/-- The keyword of a constant is one wherever it stands. -/
theorem transplant_isConstWord {ρ : Replacement} (t : Tree) :
    isConstWord (t.transplant ρ) = isConstWord t := by
  cases t <;> rfl

/-! ## Constructs -/

section Constructs

variable (hS : S.Lawful) {a b : ScopeId} {eval eval' : Tree → Eval Value}

include hS

/-- Trees are evaluated side by side, one after the other. -/
theorem mirrors_all (he : ∀ t, S.Mirrors τ S.value (eval t) (eval' (S.tree t))) (ts : List Tree) :
    S.Mirrors τ S.values (all eval ts) (all eval' (ts.map S.tree)) := by
  induction ts with
  | nil => exact mirrors_pure hS fun _ => .nil
  | cons t ts ih =>
    refine (he t).bind hS fun h₁ hv => ?_
    refine (ih.later hS h₁).bind hS fun h₂ hvs => ?_
    exact mirrors_pure hS fun h₃ =>
      .cons (hS.value_later (hS.trans h₂ h₃) hv) (hS.values_later h₃ hvs)

/-- So are statements, and the last value stands for all. -/
theorem mirrors_sequence : ∀ {ts : List Tree} {τ : S.Time} {last last' : Value},
    (∀ t, S.Mirrors τ S.value (eval t) (eval' (S.tree t))) → S.value τ last last' →
      S.Mirrors τ S.value (sequence eval last ts) (sequence eval' last' (ts.map S.tree))
  | [], _, _, _, _, hlast => mirrors_pure hS fun h => hS.value_later h hlast
  | t :: _, _, _, _, he, _ =>
    (he t).bind hS fun h hv => mirrors_sequence (fun t => (he t).later hS h) hv

omit hS in
/-- A part that may be absent is absent on both sides. -/
theorem mirrors_optional {otherwise otherwise' : Eval Value}
    (ho : S.Mirrors τ S.value otherwise otherwise')
    (he : ∀ t, S.Mirrors τ S.value (eval t) (eval' (S.tree t))) (t : Tree) :
    S.Mirrors τ S.value (optional otherwise eval t) (optional otherwise' eval' (S.tree t)) := by
  cases t with
  | absent => exact ho
  | leaf l => exact he (.leaf l)
  | node label line cs =>
    have h := he (.node label line cs)
    simp only [Tree.transplant_node] at h ⊢
    exact h

theorem mirrors_null : S.Mirrors τ S.value (pure .null) (pure .null) :=
  mirrors_pure hS fun _ => .null

/-- A variable declaration goes on side by side if its value does. -/
theorem mirrors_variableDeclaration (hab : S.scope τ a b)
    (he : ∀ t, S.Mirrors τ S.value (eval t) (eval' (S.tree t))) : ∀ cs : List Tree,
    S.Mirrors τ S.value (variableDeclaration eval a cs)
      (variableDeclaration eval' b (cs.map S.tree))
  | [keyword, nameTree, init] => by
    refine (mirrors_identifier hS _ nameTree).bindSame hS fun name h₁ => ?_
    have hinit := mirrors_optional (mirrors_null hS) he init
    refine (hinit.later hS h₁).bind hS fun h₂ hv => ?_
    rw [transplant_isConstWord]
    have hab₂ := hS.scope_later (hS.trans h₁ h₂) hab
    refine (mirrors_define hS hab₂ _ hv _).bind hS fun h₃ _ => ?_
    exact mirrors_pure hS fun h₄ => hS.value_later (hS.trans h₃ h₄) hv
  | [] | [_] | [_, _] | _ :: _ :: _ :: _ :: _ => mirrors_fail hS rfl

omit hS in
/-- Closures with the same text, made in scopes that belong together, belong together. -/
theorem closure_alike (hab : S.captured τ a b) (name : Option String) (params body : List Tree) :
    S.closure τ ⟨name, params.map Tree.word, body, a⟩
      ⟨name, (params.map S.tree).map Tree.word, body.map S.tree, b⟩ :=
  ⟨rfl, Tree.transplant_words params, rfl, hab⟩

/-- A declared closure captures scopes that belong together. -/
theorem mirrors_functionDeclaration (hab : S.scope τ a b) : ∀ cs : List Tree,
    S.Mirrors τ S.value (functionDeclaration a cs) (functionDeclaration b (cs.map S.tree))
  | [nameTree, paramsTree, bodyTree] => by
    refine (mirrors_identifier hS _ nameTree).bindSame hS fun name h₁ => ?_
    refine (mirrors_childrenOf hS _ paramsTree).bindTrees hS fun params h₂ => ?_
    refine (mirrors_childrenOf hS _ bodyTree).bindTrees hS fun body h₃ => ?_
    have hab₃ := hS.scope_later (hS.trans h₁ (hS.trans h₂ h₃)) hab
    refine (mirrors_child hS (hS.captured_of_scope hab₃)).bind hS fun h₄ hinner => ?_
    have hc := closure_alike (hS.captured_of_scope hinner) (some name) params body
    have hab₄ := hS.scope_later h₄ hab₃
    refine (mirrors_define hS hab₄ name (.closure hc) false).bind hS fun h₅ _ => ?_
    exact mirrors_pure hS fun h₆ => hS.value_later (hS.trans h₅ h₆) (.closure hc)
  | [] | [_] | [_, _] | _ :: _ :: _ :: _ :: _ => mirrors_fail hS rfl

theorem mirrors_functionLiteral (hab : S.scope τ a b) : ∀ cs : List Tree,
    S.Mirrors τ S.value (functionLiteral a cs) (functionLiteral b (cs.map S.tree))
  | [paramsTree, bodyTree] => by
    refine (mirrors_childrenOf hS _ paramsTree).bindTrees hS fun params h₁ => ?_
    refine (mirrors_childrenOf hS _ bodyTree).bindTrees hS fun body h₂ => ?_
    refine mirrors_pure hS fun h₃ => .closure ?_
    have hab₃ := hS.scope_later (hS.trans h₁ (hS.trans h₂ h₃)) hab
    exact closure_alike (hS.captured_of_scope hab₃) none params body
  | [] | [_] | _ :: _ :: _ :: _ => mirrors_fail hS rfl

variable {statements statements' : List Tree → Eval Value}

theorem mirrors_block
    (hs : ∀ ts, S.Mirrors τ S.value (statements ts) (statements' (ts.map S.tree))) (t : Tree) :
    S.Mirrors τ S.value (block statements t) (block statements' (S.tree t)) := by
  refine (mirrors_childrenOf hS .body t).bindTrees hS fun body h => ?_
  exact (hs body).later hS h

/-- Tests that belong together choose the same branch. -/
theorem mirrors_conditional (he : ∀ t, S.Mirrors τ S.value (eval t) (eval' (S.tree t)))
    (hs : ∀ ts, S.Mirrors τ S.value (statements ts) (statements' (ts.map S.tree))) :
    ∀ cs : List Tree, S.Mirrors τ S.value (conditional eval statements cs)
      (conditional eval' statements' (cs.map S.tree))
  | [test, consequent, alternate] => by
    refine (he test).bind hS fun h hv => ?_
    cases hv with
    | bool x =>
      have hbranch := mirrors_optional (mirrors_null hS) (mirrors_block hS hs)
        (if x then consequent else alternate)
      rw [apply_ite S.tree] at hbranch
      exact hbranch.later hS h
    | _ => exact mirrors_mistake hS rfl
  | [] | [_] | [_, _] | _ :: _ :: _ :: _ :: _ => mirrors_fail hS rfl

/-- An operation goes on side by side if its operator keeps what belongs together. -/
theorem mirrors_operation (he : ∀ t, S.Mirrors τ S.value (eval t) (eval' (S.tree t)))
    {apply : String → Value → Value → Except Fault Value}
    (ha : ∀ {τ' : S.Time} {l l' r r' : Value} (sign : String), S.value τ' l l' → S.value τ' r r' →
      ResultAlike S.places (S.value τ') (apply sign l r) (apply sign l' r')) :
    ∀ cs : List Tree,
      S.Mirrors τ S.value (operation eval apply cs) (operation eval' apply (cs.map S.tree))
  | [left, op, right] => by
    refine (he left).bind hS fun h₁ hl => ?_
    refine ((he right).later hS h₁).bind hS fun h₂ hr => ?_
    rw [Tree.transplant_word]
    exact mirrors_ofExcept hS fun h₃ =>
      ha op.word (hS.value_later (hS.trans h₂ h₃) hl) (hS.value_later h₃ hr)
  | [] | [_] | [_, _] | _ :: _ :: _ :: _ :: _ => mirrors_fail hS rfl

/-- An assignment goes on side by side if its value does. -/
theorem mirrors_assignment (hab : S.scope τ a b)
    (he : ∀ t, S.Mirrors τ S.value (eval t) (eval' (S.tree t))) : ∀ cs : List Tree,
    S.Mirrors τ S.value (assignment eval a cs) (assignment eval' b (cs.map S.tree))
  | [target, valueTree] => by
    refine (mirrors_identifier hS _ target).bindSame hS fun name h₁ => ?_
    refine ((he valueTree).later hS h₁).bind hS fun h₂ hv => ?_
    have hab₂ := hS.scope_later (hS.trans h₁ h₂) hab
    refine (mirrors_assign hS hab₂ name hv).bind hS fun h₃ _ => ?_
    exact mirrors_pure hS fun h₄ => hS.value_later (hS.trans h₃ h₄) hv
  | [] | [_] | _ :: _ :: _ :: _ => mirrors_fail hS rfl

/-- Two slots belong together. -/
abbrev slot (S : Simulation) (τ : S.Time) : String × Value → String × Value → Prop :=
  Value.SlotAlike S.places (S.captured τ)

/-- A property goes on side by side: its key is the same, a shorthand is looked up. -/
theorem mirrors_property (hab : S.scope τ a b)
    (he : ∀ t, S.Mirrors τ S.value (eval t) (eval' (S.tree t))) (t : Tree) :
    S.Mirrors τ S.slot (property eval a t) (property eval' b (S.tree t)) := by
  refine (mirrors_childrenOf hS .prop t).bindTrees hS fun cs h₁ => ?_
  match cs with
  | [keyTree, valueTree] =>
    refine (mirrors_identifier hS _ keyTree).bindSame hS fun key h₂ => ?_
    have hvalue := mirrors_optional (mirrors_lookup hS hab key) he valueTree
    refine (hvalue.later hS (hS.trans h₁ h₂)).bind hS fun _ hv => ?_
    exact mirrors_pure hS fun h₄ => .slot (hS.value_later h₄ hv)
  | [] | [_] | _ :: _ :: _ :: _ => exact mirrors_fail hS rfl

/-- The properties of an object do so one after the other, by induction on the list. -/
theorem mirrors_properties : ∀ {ts : List Tree} {τ : S.Time} {ps qs : List (String × Value)},
    S.scope τ a b → (∀ t, S.Mirrors τ S.value (eval t) (eval' (S.tree t))) → S.slots τ ps qs →
      S.Mirrors τ S.slots (properties eval a ps ts) (properties eval' b qs (ts.map S.tree))
  | [], _, _, _, _, _, hps => mirrors_pure hS fun h => hS.slots_later h hps
  | t :: ts, _, _, _, hab, he, hps => by
    refine (mirrors_property hS hab he t).bind hS fun h hp => ?_
    cases hp with
    | slot hv =>
      exact mirrors_properties (hS.scope_later h hab) (fun t => (he t).later hS h)
        (setSlot_alike (hS.slots_later h hps) _ hv)

/-- A field is taken from targets that belong together. -/
theorem mirrors_field (he : ∀ t, S.Mirrors τ S.value (eval t) (eval' (S.tree t))) :
    ∀ cs : List Tree, S.Mirrors τ S.value (field eval cs) (field eval' (cs.map S.tree))
  | [target, name] => by
    refine (he target).bind hS fun _ hv => ?_
    rw [Tree.transplant_word]
    exact mirrors_ofExcept hS fun h₂ => (hS.value_later h₂ hv).member (.string name.word)
  | [] | [_] | _ :: _ :: _ :: _ => mirrors_fail hS rfl

/-- An index is taken of targets that belong together, by keys that do. -/
theorem mirrors_index (he : ∀ t, S.Mirrors τ S.value (eval t) (eval' (S.tree t))) :
    ∀ cs : List Tree, S.Mirrors τ S.value (index eval cs) (index eval' (cs.map S.tree))
  | [target, key] => by
    refine (he target).bind hS fun h₁ hv => ?_
    refine ((he key).later hS h₁).bind hS fun h₂ hk => ?_
    exact mirrors_ofExcept hS fun h₃ =>
      (hS.value_later (hS.trans h₂ h₃) hv).member (hS.value_later h₃ hk)
  | [] | [_] | _ :: _ :: _ :: _ => mirrors_fail hS rfl

/-- A call goes on side by side if its parts and the application do. -/
theorem mirrors_call (he : ∀ t, S.Mirrors τ S.value (eval t) (eval' (S.tree t)))
    {args args' : Tree → Eval (List Value)} {apply apply' : Value → List Value → Eval Value}
    (hargs : ∀ t, S.Mirrors τ S.values (args t) (args' (S.tree t)))
    (happly : ∀ {τ' v w vs ws}, S.later τ τ' → S.value τ' v w → S.values τ' vs ws →
      S.Mirrors τ' S.value (apply v vs) (apply' w ws)) : ∀ cs : List Tree,
    S.Mirrors τ S.value (call eval args apply cs) (call eval' args' apply' (cs.map S.tree))
  | [calleeTree, argsTree] => by
    refine (he calleeTree).bind hS fun h₁ hv => ?_
    refine ((hargs argsTree).later hS h₁).bind hS fun h₂ hvs => ?_
    exact happly (hS.trans h₁ h₂) (hS.value_later h₂ hv) hvs
  | [] | [_] | _ :: _ :: _ :: _ => mirrors_fail hS rfl

end Constructs

/-! ## Calls -/

/-- The answers of functions that are not written in the program belong together. -/
inductive AnswerAlike (S : Simulation) (τ : S.Time) : HostAnswer → HostAnswer → Prop where
  | nothing : AnswerAlike S τ .nothing .nothing
  | value {v w : Value} (h : S.value τ v w) : AnswerAlike S τ (.value v) (.value w)
  | foreign (type : String) : AnswerAlike S τ (.foreign type) (.foreign type)

section Calls

variable (hS : S.Lawful) {a b : ScopeId}

include hS

/-- The numbers of arguments are the same on both sides. -/
theorem mirrors_checkArity (name : String) (wanted : Option Nat) {args args' : List Value}
    (h : S.values τ args args') :
    S.Mirrors τ S.same (checkArity name wanted args) (checkArity name wanted args') := by
  unfold checkArity
  rw [h.length_eq]
  split
  next =>
    split
    next => exact mirrors_pure hS fun _ => rfl
    next => exact mirrors_mistake hS rfl
  next => exact mirrors_pure hS fun _ => rfl

/-- What is shown of values that belong together is the same. -/
theorem mirrors_displayed (budget : Nat) {args args' : List Value} (h : S.values τ args args') :
    S.Mirrors τ S.same (displayed budget args) (displayed budget args') := by
  unfold displayed
  rw [Value.mostDisplaySteps_alike h, Value.displayItems_alike h]
  split
  next => exact mirrors_fail hS rfl
  next => exact mirrors_pure hS fun _ => rfl

/-- A built-in function answers alike. -/
theorem mirrors_native (budget : Nat) (f : Native) {args args' : List Value}
    (h : S.values τ args args') :
    S.Mirrors τ S.AnswerAlike (native budget f args) (native budget f args') := by
  cases f with
  | print =>
    refine (mirrors_displayed hS budget h).bindSame hS fun text _ => ?_
    refine (mirrors_print hS text).bind hS fun _ _ => ?_
    exact mirrors_pure hS fun _ => .value .null
  | println =>
    refine (mirrors_displayed hS budget h).bindSame hS fun text _ => ?_
    refine (mirrors_print hS (text ++ "\n")).bind hS fun _ _ => ?_
    exact mirrors_pure hS fun _ => .value .null
  | len =>
    cases h with
    | nil => exact mirrors_pure hS fun _ => .nothing
    | cons hv =>
      refine (mirrors_ofExcept hS fun h => (hS.value_later h hv).length).bind hS fun _ hn => ?_
      exact mirrors_pure hS fun h => .value (hS.value_later h hn)

/-- The call of a function that is not written in the program goes on side by side. -/
theorem mirrors_callHost (name : String) (arity : Option Nat)
    {act act' : List Value → Eval HostAnswer} {args args' : List Value} (h : S.values τ args args')
    (hact : S.Mirrors τ S.AnswerAlike (act args) (act' args')) :
    S.Mirrors τ S.value (callHost name arity act args) (callHost name arity act' args') := by
  refine (mirrors_checkArity hS name arity h).bind hS fun h₁ _ => ?_
  refine (hact.later hS h₁).bind hS fun _ hanswer => ?_
  cases hanswer with
  | nothing => exact mirrors_null hS
  | value hv => exact mirrors_pure hS fun h₃ => hS.value_later h₃ hv
  | foreign type => exact mirrors_fail hS rfl

/-- Parameters are bound to arguments that belong together, in one scope after the other. -/
theorem mirrors_bindParams : ∀ {ps : List String} {vs ws : List Value} {τ : S.Time},
    S.scope τ a b → S.values τ vs ws →
      S.Mirrors τ S.same (bindParams a ps vs) (bindParams b ps ws)
  | [], _, _, _, _, _ => by
    unfold bindParams
    exact mirrors_pure hS fun _ => rfl
  | _ :: _, _, _, _, _, .nil => mirrors_pure hS fun _ => rfl
  | p :: _, _, _, _, hab, .cons hv hvs =>
    (mirrors_define hS hab p hv false).bind hS fun h _ =>
      mirrors_bindParams (hS.scope_later h hab) (hS.values_later h hvs)

/-- Closures that belong together open scopes that do. -/
theorem mirrors_openScope {c c' : Closure} (hc : S.closure τ c c') {args args' : List Value}
    (h : S.values τ args args') : S.Mirrors τ S.scope (openScope c args) (openScope c' args') := by
  have hname : ∀ words, nameOr words c' = nameOr words c := fun words => by
    unfold nameOr
    rw [hc.name]
  unfold openScope
  rw [hname, hname, hc.params]
  refine (mirrors_checkArity hS _ (some c.params.length) h).bind hS fun h₁ _ => ?_
  have hcaptured := hS.captured_later h₁ _ _ hc.scope
  refine (mirrors_child hS hcaptured).bind hS fun h₂ hab => ?_
  have h' := hS.values_later (hS.trans h₁ h₂) h
  refine (mirrors_bindParams hS hab h').bind hS fun h₃ _ => ?_
  refine (mirrors_note hS _).bind hS fun h₄ _ => ?_
  exact mirrors_pure hS fun h₅ => hS.scope_later (hS.trans h₃ (hS.trans h₄ h₅)) hab

/-- Closures that belong together are called side by side, if their bodies are evaluated so. -/
theorem mirrors_callClosure {statements statements' : ScopeId → List Tree → Eval Value}
    (hs : ∀ {τ' a b}, S.later τ τ' → S.scope τ' a b → ∀ ts,
      S.Mirrors τ' S.value (statements a ts) (statements' b (ts.map S.tree)))
    {c c' : Closure} (hc : S.closure τ c c') {args args' : List Value} (h : S.values τ args args') :
    S.Mirrors τ S.value (callClosure statements c args) (callClosure statements' c' args') := by
  refine (mirrors_openScope hS hc h).bind hS fun h₁ hab => ?_
  rw [hc.body]
  exact hs h₁ hab c.body

/-- Callees that belong together are applied side by side. -/
theorem mirrors_apply (budget : Nat) {enter enter' : Closure → List Value → Eval Value}
    (henter : ∀ {c c' vs ws}, S.closure τ c c' → S.values τ vs ws →
      S.Mirrors τ S.value (enter c vs) (enter' c' ws)) {callee callee' : Value}
    (hcallee : S.value τ callee callee') {args args' : List Value} (h : S.values τ args args') :
    S.Mirrors τ S.value (apply budget enter callee args) (apply budget enter' callee' args') := by
  cases hcallee with
  | closure hc => exact henter hc h
  | native f => exact mirrors_callHost hS f.name f.arity h (mirrors_native hS budget f h)
  | _ => exact mirrors_mistake hS rfl

end Calls

/-! ## Evaluation -/

/-- Every part of an evaluation goes on side by side with that of another. -/
structure Simulates (S : Simulation) (e e' : Evaluator) : Prop where
  tree : ∀ {τ a b}, S.scope τ a b → ∀ t,
    S.Mirrors τ S.value (e.tree a t) (e'.tree b (S.tree t))
  construct : ∀ {τ a b}, S.scope τ a b → ∀ label cs,
    S.Mirrors τ S.value (e.construct a label cs) (e'.construct b label (cs.map S.tree))
  items : ∀ {τ a b}, S.scope τ a b → ∀ ts,
    S.Mirrors τ S.values (e.items a ts) (e'.items b (ts.map S.tree))
  arguments : ∀ {τ a b}, S.scope τ a b → ∀ t,
    S.Mirrors τ S.values (e.arguments a t) (e'.arguments b (S.tree t))
  statements : ∀ {τ a b}, S.scope τ a b → ∀ ts,
    S.Mirrors τ S.value (e.statements a ts) (e'.statements b (ts.map S.tree))
  call : ∀ {τ v w vs ws}, S.value τ v w → S.values τ vs ws →
    S.Mirrors τ S.value (e.call v vs) (e'.call w ws)
  enter : ∀ {τ c c' vs ws}, S.closure τ c c' → S.values τ vs ws →
    S.Mirrors τ S.value (e.enter c vs) (e'.enter c' ws)

section Evaluation

variable (hS : S.Lawful) {declare declare' : ScopeId → List Tree → Eval Value}
  (hd : ∀ {τ a b}, S.scope τ a b → ∀ cs,
    S.Mirrors τ S.value (declare a cs) (declare' b (cs.map S.tree)))

include hS hd

/-- One construct goes on side by side if evaluations with less budget do. -/
theorem simulates_construct {e e' : Evaluator} (ih : S.Simulates e e') (n : Nat) {a b : ScopeId}
    (hab : S.scope τ a b) (label : Label) (cs : List Tree) :
    S.Mirrors τ S.value ((e.next declare n).construct a label cs)
      ((e'.next declare' n).construct b label (cs.map S.tree)) := by
  have he : ∀ t, S.Mirrors τ S.value (e.tree a t) (e'.tree b (S.tree t)) := ih.tree hab
  cases label with
  | program | body => exact ih.statements hab cs
  | vardecl => exact mirrors_variableDeclaration hS hab he cs
  | fndecl => exact hd hab cs
  | ifstmt => exact mirrors_conditional hS he (ih.statements hab) cs
  | binary => exact mirrors_operation hS he (fun sign hl hr => hl.binary sign hr) cs
  | condition => exact mirrors_operation hS he (fun sign hl hr => hl.condition sign hr) cs
  | assign => exact mirrors_assignment hS hab he cs
  | object =>
    refine (mirrors_properties hS hab he .nil).bind hS fun _ hslots => ?_
    exact mirrors_pure hS fun h => .object (hS.slots_later h hslots)
  | array =>
    refine (ih.items hab cs).bind hS fun _ hitems => ?_
    exact mirrors_pure hS fun h => .array (hS.values_later h hitems)
  | field => exact mirrors_field hS he cs
  | index => exact mirrors_index hS he cs
  | call => exact mirrors_call hS he (ih.arguments hab) (fun _ hv hvs => ih.call hv hvs) cs
  | fnliteral => exact mirrors_functionLiteral hS hab cs
  | prop | params | args | other => exact mirrors_fail hS rfl

/-- Where declarations go well together, so do evaluations, whatever the budget. -/
theorem simulates : ∀ n : Nat, S.Simulates (evaluator declare n) (evaluator declare' n)
  | 0 => by constructor <;> intros <;> exact mirrors_fail hS rfl
  | n + 1 => by
    have ih := simulates n
    refine ⟨fun hab t => ?_, fun hab => simulates_construct hS hd ih n hab, fun hab ts => ?_,
      fun hab t => ?_, fun hab ts => ?_, fun hv hvs => ?_, fun hc hvs => ?_⟩
    · cases t with
      | absent => exact (mirrors_fail hS rfl).located .absent
      | leaf l => exact (mirrors_leaf hS hab l).located (.leaf l)
      | node label line cs =>
        have h := (ih.construct hab label cs).located (.node label line cs)
        simp only [Tree.transplant_node] at h ⊢
        exact h
    · exact mirrors_all hS (ih.tree hab) ts
    · refine (mirrors_childrenOf hS .args t).bindTrees hS fun ts h => ?_
      exact ih.items (hS.scope_later h hab) ts
    · exact mirrors_sequence hS (ih.tree hab) .null
    · exact mirrors_apply hS n ih.enter hv hvs
    · exact mirrors_callClosure hS (fun _ => ih.statements) hc hvs

/-- A tree and the same with its places replaced are evaluated side by side. -/
theorem mirrors_evaluateWith (budget : Nat) {a b : ScopeId} (hab : S.scope τ a b) (t : Tree) :
    S.Mirrors τ S.value (evaluateWith declare budget a t)
      (evaluateWith declare' budget b (S.tree t)) := by
  have hheading : (S.tree t).heading = t.heading := by
    cases t with
    | absent | leaf => rfl
    | node label line cs => simp only [Tree.transplant_node, Tree.heading]
  unfold evaluateWith
  rw [hheading]
  refine (mirrors_note hS _).bind hS fun h _ => ?_
  exact (simulates hS hd budget).tree (hS.scope_later h hab) t

end Evaluation

end Simulation

end Avii
