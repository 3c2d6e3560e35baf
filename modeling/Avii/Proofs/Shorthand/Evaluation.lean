import Avii.Proofs.Eval.Afterwards
import Avii.Proofs.Shorthand.Expansion
import Avii.Proofs.Store.Linked
import Avii.Proofs.Syntax.Acceptance
import Avii.Proofs.Token.Texts

/-!
# Evaluation of the longhand

Whether the properties of a tree are written out makes no difference to its evaluation but for one:
where the variable of a property is not defined, the mistake is reported on the line of the key if
the property is written out, and on the line of the object if it is not. An object that starts on
the line of its keys does not show this.

`Agrees` says of two computations that they go on side by side, in machines that agree, one of them
with more properties written out than the other. One of them may run out of budget where the other
does not, and then nothing more is said of it. Which one this may be is part of `Agrees`. The
evaluation of a property that is written out takes one nested step more, and nothing else does; so
the longhand may run out of the same budget sooner, and does not run out of a larger one if the tree
does not run out of its own (`agreeing`).
-/

namespace Avii

open Eval
open Syntax (Shape Labelled IsName)

variable {P : String → Int → Int → Prop} {less : Prop} {α β γ δ : Type}

/-- A closure whose body has properties written out. -/
structure Closure.Expands (P : String → Int → Int → Prop) (c d : Closure) : Prop where
  name : d.name = c.name
  params : d.params = c.params
  scope : d.scope = c.scope
  body : List.Forall₂ (Avii.Expands P) c.body d.body

/-- Writing out properties keeps the name and the parameters of a closure. -/
theorem Closure.expands_keepsHeads : Closure.KeepsHeads (Closure.Expands P) :=
  fun h => ⟨h.name, h.params⟩

/-- A closure agrees with itself. -/
theorem Closure.expands_refl (c : Closure) : c.Expands P c :=
  ⟨rfl, rfl, rfl, Avii.Expands.all_same c.body⟩

/-- Two values agree but for properties written out in the bodies of closures. -/
abbrev Value.Expands (P : String → Int → Int → Prop) : Value → Value → Prop :=
  Value.Linked (Closure.Expands P)

/-- Two machines agree but for properties written out in the bodies of closures. -/
structure Machine.Expands (P : String → Int → Int → Prop) (m m' : Machine) : Prop where
  store : m.store.Linked (Closure.Expands P) m'.store
  output : m'.output = m.output
  events : m'.events = m.events

/-- So does a machine, with all that is stored in it. -/
theorem Machine.expands_refl (m : Machine) : m.Expands P m :=
  ⟨m.store.linked_refl Closure.expands_refl, rfl, rfl⟩

/-- Two faults are the same, but for the line of a variable that is not defined. Within an object
the first of them may still be without a line; it will get that of the object. -/
inductive Fault.Expands (P : String → Int → Int → Prop) (object? : Option Int) :
    Fault → Fault → Prop where
  | same (f : Fault) : Fault.Expands P object? f f
  | undefined {name : String} {a b : Int} (h : P name a b) :
      Fault.Expands P object? (.runtime (.undefined name) (some a))
        (.runtime (.undefined name) (some b))
  | pending {name : String} {a b : Int} (ho : object? = some a) (h : P name a b) :
      Fault.Expands P object? (.of (.undefined name)) (.runtime (.undefined name) (some b))

/-- What agrees outside of any object agrees within one. -/
theorem Fault.Expands.weaken {f g : Fault} (h : Fault.Expands P none f g) (object? : Option Int) :
    Fault.Expands P object? f g := by
  cases h with
  | same => exact .same f
  | undefined h => exact .undefined h
  | pending ho => cases ho

/-- The line that is missing is filled in by the object. -/
theorem Fault.Expands.located {object? line : Option Int} {f g : Fault}
    (h : Fault.Expands P object? f g) (hline : ∀ a, object? = some a → line = some a) :
    Fault.Expands P none (f.located line) (g.located line) := by
  cases h with
  | same => exact .same _
  | undefined h => exact .undefined h
  | pending ho h =>
    rw [hline _ ho]
    exact .undefined h

/-- A lack of budget agrees with nothing else. -/
theorem Fault.Expands.depth_iff {object? : Option Int} {f g : Fault}
    (h : Fault.Expands P object? f g) : g = .depth ↔ f = .depth := by
  cases h with
  | same => rfl
  | undefined | pending => simp [Fault.of]

/-- How two computations end side by side: with results that belong together, or with faults that
agree; unless the one with less budget runs out of it, which `less` says is the first one. -/
inductive Ends (P : String → Int → Int → Prop) (less : Prop) (object? : Option Int)
    (good : α → β → Prop) :
    EStateM.Result Fault Machine α → EStateM.Result Fault Machine β → Prop where
  | ok {a : α} {b : β} {m m' : Machine} (h : good a b) (hm : m.Expands P m') :
      Ends P less object? good (.ok a m) (.ok b m')
  | error {f g : Fault} {m m' : Machine} (h : Fault.Expands P object? f g) (hm : m.Expands P m') :
      Ends P less object? good (.error f m) (.error g m')
  | sooner (h : less) (m : Machine) (r : EStateM.Result Fault Machine β) :
      Ends P less object? good (.error .depth m) r
  | later (h : ¬less) (r : EStateM.Result Fault Machine α) (m : Machine) :
      Ends P less object? good r (.error .depth m)

/-- How a computation ends, and another one with properties written out: with values that agree,
with one fault, or with a variable that is not defined, on two lines. -/
inductive EndsAlike (P : String → Int → Int → Prop) :
    EStateM.Result Fault Machine Value → EStateM.Result Fault Machine Value → Prop where
  | value {v w : Value} {m m' : Machine} (h : v.Expands P w) (hm : m.Expands P m') :
      EndsAlike P (.ok v m) (.ok w m')
  | fault (f : Fault) {m m' : Machine} (hm : m.Expands P m') :
      EndsAlike P (.error f m) (.error f m')
  | undefined {name : String} {a b : Int} {m m' : Machine} (h : P name a b)
      (hm : m.Expands P m') :
      EndsAlike P (.error (.runtime (.undefined name) (some a)) m)
        (.error (.runtime (.undefined name) (some b)) m')

section Ends

variable {object? : Option Int} {good : α → β → Prop} {r : EStateM.Result Fault Machine α}
  {r' : EStateM.Result Fault Machine β}

/-- If the first computation has no less budget, it does not run out before the second. -/
theorem Ends.first_lasts (h : Ends P less object? good r r') (hless : ¬less)
    (hr' : faultOf r' ≠ some .depth) : faultOf r ≠ some .depth := by
  cases h with
  | ok => simp [faultOf]
  | error h => simpa [faultOf, h.depth_iff] using hr'
  | sooner h => exact absurd h hless
  | later => exact absurd rfl hr'

/-- If the first computation has less budget, the second does not run out before it. -/
theorem Ends.second_lasts (h : Ends P less object? good r r') (hless : less)
    (hr : faultOf r ≠ some .depth) : faultOf r' ≠ some .depth := by
  cases h with
  | ok => simp [faultOf]
  | error h => simpa [faultOf, h.depth_iff] using hr
  | sooner => exact absurd rfl hr
  | later h => exact absurd hless h

/-- If neither computation runs out of budget, they end alike. -/
theorem Ends.alike {r r' : EStateM.Result Fault Machine Value}
    (h : Ends P less none (Value.Expands P) r r') (hr : faultOf r ≠ some .depth)
    (hr' : faultOf r' ≠ some .depth) : EndsAlike P r r' := by
  cases h with
  | ok h hm => exact .value h hm
  | error h hm =>
    cases h with
    | same => exact .fault _ hm
    | undefined h => exact .undefined h hm
    | pending ho => cases ho
  | sooner => exact absurd rfl hr
  | later => exact absurd rfl hr'

end Ends

/-- Two computations go on side by side, from machines that agree. -/
def Agrees (P : String → Int → Int → Prop) (less : Prop) (object? : Option Int)
    (good : α → β → Prop) (x : Eval α) (y : Eval β) : Prop :=
  ∀ m m', m.Expands P m' → Ends P less object? good (x m) (y m')

section Steps

variable {object? : Option Int} {good : α → β → Prop} {good' : γ → δ → Prop} {x : Eval α}
  {y : Eval β}

/-- Computations that agree outside of any object agree within one. -/
theorem Agrees.weaken (h : Agrees P less none good x y) (object? : Option Int) :
    Agrees P less object? good x y := by
  intro m m' hm
  have hends := h m m' hm
  generalize x m = r at hends ⊢
  generalize y m' = r' at hends ⊢
  cases hends with
  | ok hab hm => exact .ok hab hm
  | error hfg hm => exact .error (hfg.weaken object?) hm
  | sooner h => exact .sooner h _ _
  | later h => exact .later h _ _

/-- Computations agree step by step. -/
theorem Agrees.bind {f : α → Eval γ} {g : β → Eval δ} (hx : Agrees P less object? good x y)
    (hf : ∀ {a b}, good a b → Agrees P less object? good' (f a) (g b)) :
    Agrees P less object? good' (x >>= f) (y >>= g) := by
  intro m m' hm
  have hends := hx m m' hm
  generalize hxm : x m = r at hends
  generalize hym : y m' = r' at hends
  cases hends with
  | ok hab hm₁ =>
    rw [bind_run hxm, bind_run hym]
    exact hf hab _ _ hm₁
  | error hfault hm₁ =>
    rw [bind_fails hxm, bind_fails hym]
    exact .error hfault hm₁
  | sooner h =>
    rw [bind_fails hxm]
    exact .sooner h _ _
  | later h =>
    rw [bind_fails hym]
    exact .later h _ _

/-- What follows on the same result. -/
theorem Agrees.bindSame {y : Eval α} {f : α → Eval γ} {g : α → Eval δ}
    (hx : Agrees P less object? Eq x y) (hf : ∀ a, Agrees P less object? good' (f a) (g a)) :
    Agrees P less object? good' (x >>= f) (y >>= g) :=
  hx.bind fun {a _} hab => hab ▸ hf a

/-- A node with the line that its first mistakes wait for. -/
theorem Agrees.located (hx : Agrees P less object? good x y) {t u : Tree}
    (hobject : ∀ a, object? = some a → t.sourceLine = some a)
    (hline : u.sourceLine = t.sourceLine) :
    Agrees P less none good (located t x) (located u y) := by
  intro m m' hm
  have hends := hx m m' hm
  unfold Eval.located
  rw [hline]
  generalize x m = r at hends ⊢
  generalize y m' = r' at hends ⊢
  cases hends with
  | ok hab hm₁ => exact .ok hab hm₁
  | error hfault hm₁ => exact .error (hfault.located hobject) hm₁
  | sooner h => exact .sooner h _ _
  | later h => exact .later h _ _

theorem agrees_pure {a : α} {b : β} (h : good a b) :
    Agrees P less object? good (pure a : Eval α) (pure b : Eval β) :=
  fun _ _ hm => .ok h hm

theorem agrees_fail (f : Fault) : Agrees P less object? good (fail f : Eval α) (fail f : Eval β) :=
  fun _ _ hm => .error (.same f) hm

/-- Results of operations on values agree if the results are linked. -/
theorem agrees_ofExcept {r : Except Fault α} {r' : Except Fault β} (h : ResultLinked good r r') :
    Agrees P less object? good (Eval.ofExcept r) (Eval.ofExcept r') := by
  intro m m' hm
  cases r with
  | ok a =>
    cases r' with
    | ok b => exact .ok h hm
    | error => exact h.elim
  | error f =>
    cases r' with
    | ok => exact h.elim
    | error g =>
      cases h
      exact .error (.same f) hm

/-- A result that no tree enters into agrees with itself. -/
theorem agrees_same (r : Except Fault α) :
    Agrees P less object? Eq (Eval.ofExcept r) (Eval.ofExcept r) :=
  agrees_ofExcept (by cases r <;> rfl)

/-- A name is looked up in two stores that agree. -/
theorem agrees_lookup (scope : ScopeId) (name : String) :
    Agrees P less object? (Value.Expands P) (lookup scope name) (lookup scope name) := by
  intro m m' hm
  have hlookup := hm.store.lookup scope name
  unfold lookup
  generalize m.store.lookup scope name = r at hlookup ⊢
  generalize m'.store.lookup scope name = r' at hlookup ⊢
  cases r with
  | ok v =>
    cases r' with
    | ok w => exact .ok hlookup hm
    | error => exact hlookup.elim
  | error f =>
    cases r' with
    | ok => exact hlookup.elim
    | error g =>
      cases hlookup
      exact .error (.same f) hm

/-- A change of the stores that the same keeps from both, if it does. -/
theorem agrees_update {fault? : Store → Option Fault} {change change' : Store → Store}
    (hfault : ∀ {s t : Store}, s.Linked (Closure.Expands P) t → fault? t = fault? s)
    (hchange : ∀ {s t : Store}, s.Linked (Closure.Expands P) t →
      (change s).Linked (Closure.Expands P) (change' t)) :
    Agrees P less object? Eq (update fault? change) (update fault? change') := by
  intro m m' hm
  unfold update
  rw [hfault hm.store]
  cases fault? m.store with
  | none => exact .ok rfl ⟨hchange hm.store, hm.output, hm.events⟩
  | some f => exact .error (.same f) hm

/-- A name is defined in both stores, or is there already in both. -/
theorem agrees_define (scope : ScopeId) (name : String) {v w : Value} (h : v.Expands P w)
    (constant : Bool) :
    Agrees P less object? Eq (define scope name v constant) (define scope name w constant) :=
  agrees_update (fun hs => hs.definitionFault? scope name) fun hs => hs.bind scope ⟨rfl, rfl, h⟩

/-- A name is assigned in both stores, or refused in both. -/
theorem agrees_assign (scope : ScopeId) (name : String) {v w : Value} (h : v.Expands P w) :
    Agrees P less object? Eq (assign scope name v) (assign scope name w) :=
  agrees_update (fun hs => hs.assignmentFault? scope name) fun hs => hs.rebind scope name h

/-- A new scope has the same number in both stores. -/
theorem agrees_child (parent : ScopeId) :
    Agrees P less object? Eq (child parent) (child parent) := by
  intro m m' hm
  exact .ok hm.store.next.symm
    ⟨hm.store.create (Scope.linked_refl Closure.expands_refl _), hm.output, hm.events⟩

theorem agrees_print (text : String) : Agrees P less object? Eq (print text) (print text) :=
  fun _ _ hm => .ok rfl ⟨hm.store, congrArg (· ++ text) hm.output, hm.events⟩

theorem agrees_note (e : Event) : Agrees P less object? Eq (note e) (note e) :=
  fun _ _ hm => .ok rfl ⟨hm.store, hm.output, congrArg (e :: ·) hm.events⟩

/-- A leaf is the same in both trees. -/
theorem agrees_leaf (scope : ScopeId) (l : Leaf) :
    Agrees P less object? (Value.Expands P) (leaf scope l) (leaf scope l) := by
  unfold leaf
  split
  next =>
    refine agrees_ofExcept ?_
    unfold numeral
    split
    next x _ => exact .number x
    next => rfl
  next => exact agrees_pure (.string _)
  next => exact agrees_lookup scope l.text
  next => exact agrees_fail _

end Steps

/-! ## Parts of trees -/

section Parts

variable {t u : Tree}

/-- A tree is a name exactly if it is one with its properties written out. -/
theorem Expands.identifier (h : Expands P t u) (role : String) :
    Eval.identifier role u = Eval.identifier role t := by
  cases t with
  | absent => rw [h.absent_left]
  | leaf l => rw [h.leaf_left]
  | node label line cs =>
    obtain ⟨ds, rfl, -⟩ := h.node_left
    rfl

theorem Expands.isConstWord (h : Expands P t u) : Eval.isConstWord u = Eval.isConstWord t := by
  cases t with
  | absent => rw [h.absent_left]
  | leaf l => rw [h.leaf_left]
  | node label line cs =>
    obtain ⟨ds, rfl, -⟩ := h.node_left
    rfl

/-- The note at the start of an evaluation does not show what is written out. -/
theorem Expands.heading (h : Expands P t u) : u.heading = t.heading := by
  cases t with
  | absent => rw [h.absent_left]
  | leaf l => rw [h.leaf_left]
  | node label line cs =>
    obtain ⟨ds, rfl, -⟩ := h.node_left
    rfl

/-- The children of two nodes, other than objects. -/
def ChildrenExpand (P : String → Int → Int → Prop) (label : Label) (cs ds : List Tree) : Prop :=
  (cs = ds ∨ Shape label cs) ∧ List.Forall₂ (Expands P) cs ds

/-- The children of a node other than an object agree one by one. -/
theorem NodeExpands.children {label : Label} {line : Option Int} {cs ds : List Tree}
    (h : NodeExpands P label line cs ds) (hlabel : label ≠ .object) :
    ChildrenExpand P label cs ds := by
  cases h with
  | plain _ hshape h => exact ⟨hshape, h⟩
  | object => exact absurd rfl hlabel

/-- A part is taken apart into children that agree, or is wrong in both trees. -/
theorem agrees_childrenOf {label : Label} (hlabel : label ≠ .object) (h : PartExpands P label t u) :
    Agrees P less none (ChildrenExpand P label) (Eval.ofExcept (childrenOf label t))
      (Eval.ofExcept (childrenOf label u)) := by
  refine agrees_ofExcept ?_
  rcases h.part with rfl | ⟨line, cs, rfl⟩
  · cases childrenOf label t with
    | ok cs => exact ⟨.inl rfl, Expands.all_same cs⟩
    | error f => rfl
  · obtain ⟨ds, rfl, hds⟩ := h.expands.node_left
    simp only [childrenOf, if_true]
    exact hds.children hlabel

section Shapes

variable {a b c a' b' c' : Tree}

/-- The operator between two operands is the same leaf. -/
theorem operator_same {label : Label} (hlabel : label = .binary ∨ label = .condition)
    (h : [a, b, c] = [a', b', c'] ∨ Shape label [a, b, c]) (hb : Expands P b b') : b' = b := by
  rcases h with heq | hshape
  · cases heq
    rfl
  · rcases hlabel with rfl | rfl
    · obtain ⟨_, _, _, heq, -⟩ := hshape
      cases heq
      exact hb.leaf_left
    · obtain ⟨_, _, _, heq, -⟩ := hshape
      cases heq
      exact hb.leaf_left

/-- The name of a field is the same leaf. -/
theorem fieldName_same (h : [a, b] = [a', b'] ∨ Shape .field [a, b]) (hb : Expands P b b') :
    b' = b := by
  rcases h with heq | ⟨_, _, heq, -, hname⟩
  · cases heq
    rfl
  · cases heq
    exact hb.name_left (.inr hname)

/-- The second part of a call is its arguments. -/
theorem call_part (h : [a, b] = [a', b'] ∨ Shape .call [a, b]) (hb : Expands P b b') :
    PartExpands P .args b b' := by
  rcases h with heq | ⟨_, _, heq, -, hlabelled⟩
  · cases heq
    exact ⟨.inl rfl, hb⟩
  · cases heq
    exact ⟨.inr hlabelled, hb⟩

/-- The last two parts of a function declaration are its parameters and its body. -/
theorem declaration_parts (h : [a, b, c] = [a', b', c'] ∨ Shape .fndecl [a, b, c])
    (hb : Expands P b b') (hc : Expands P c c') :
    PartExpands P .params b b' ∧ PartExpands P .body c c' := by
  rcases h with heq | ⟨_, _, _, heq, -, hparams, hbody⟩
  · cases heq
    exact ⟨⟨.inl rfl, hb⟩, .inl rfl, hc⟩
  · cases heq
    exact ⟨⟨.inr hparams, hb⟩, .inr hbody, hc⟩

/-- The two parts of a function literal are its parameters and its body. -/
theorem literal_parts (h : [a, b] = [a', b'] ∨ Shape .fnliteral [a, b])
    (ha : Expands P a a') (hb : Expands P b b') :
    PartExpands P .params a a' ∧ PartExpands P .body b b' := by
  rcases h with heq | ⟨_, _, heq, hparams, hbody⟩
  · cases heq
    exact ⟨⟨.inl rfl, ha⟩, .inl rfl, hb⟩
  · cases heq
    exact ⟨⟨.inr hparams, ha⟩, .inr hbody, hb⟩

/-- The last two parts of a conditional are blocks. -/
theorem conditional_parts (h : [a, b, c] = [a', b', c'] ∨ Shape .ifstmt [a, b, c])
    (hb : Expands P b b') (hc : Expands P c c') :
    PartExpands P .body b b' ∧ PartExpands P .body c c' := by
  rcases h with heq | ⟨_, _, _, heq, -, hconsequent, halternate⟩
  · cases heq
    exact ⟨⟨.inl rfl, hb⟩, .inl rfl, hc⟩
  · cases heq
    refine ⟨⟨.inr hconsequent, hb⟩, ?_, hc⟩
    rcases halternate with rfl | halternate
    · exact .inl hc.absent_left.symm
    · exact .inr halternate

end Shapes

/-- Parameters are names, which are the same in both trees. -/
theorem ChildrenExpand.params {cs ds : List Tree} (h : ChildrenExpand P .params cs ds) :
    ds = cs := by
  obtain ⟨rfl | hshape, h⟩ := h
  · rfl
  · have hnames : ∀ c ∈ cs, IsName c := hshape.1
    clear hshape
    induction h with
    | nil => rfl
    | cons hc _ ih =>
      rw [List.forall_mem_cons] at hnames
      rw [hc.name_left (.inr hnames.1), ih hnames.2]

end Parts

/-! ## Constructs -/

section Constructs

variable {eval eval' : Tree → Eval Value}
  (he : ∀ {t u}, Expands P t u → Agrees P less none (Value.Expands P) (eval t) (eval' u))
  {statements statements' : List Tree → Eval Value}
  (hs : ∀ {ts us}, List.Forall₂ (Expands P) ts us →
    Agrees P less none (Value.Expands P) (statements ts) (statements' us)) (scope : ScopeId)

/-- A part that may be absent is absent in both trees. -/
theorem agrees_optional {otherwise : Eval Value}
    (ho : Agrees P less none (Value.Expands P) otherwise otherwise) {t u : Tree} (h : Expands P t u)
    (he : Agrees P less none (Value.Expands P) (eval t) (eval' u)) :
    Agrees P less none (Value.Expands P) (optional otherwise eval t)
      (optional otherwise eval' u) := by
  cases t with
  | absent =>
    rw [h.absent_left]
    exact ho
  | leaf l =>
    rw [h.leaf_left] at he ⊢
    exact he
  | node label line cs =>
    obtain ⟨ds, rfl, -⟩ := h.node_left
    exact he

include he

/-- Trees that agree are evaluated to values that agree, one after the other. -/
theorem agrees_all {ts us : List Tree} (h : List.Forall₂ (Expands P) ts us) :
    Agrees P less none (List.Forall₂ (Value.Expands P)) (all eval ts) (all eval' us) := by
  induction h with
  | nil => exact agrees_pure .nil
  | cons h _ ih =>
    refine (he h).bind fun hv => ih.bind fun hvs => ?_
    exact agrees_pure (.cons hv hvs)

/-- Statements that agree have values that agree. -/
theorem agrees_sequence {ts us : List Tree} (h : List.Forall₂ (Expands P) ts us) {v w : Value}
    (hvw : v.Expands P w) :
    Agrees P less none (Value.Expands P) (sequence eval v ts) (sequence eval' w us) := by
  induction h generalizing v w with
  | nil => exact agrees_pure hvw
  | cons h _ ih => exact (he h).bind fun hv => ih hv

/-- A declaration binds values that agree. -/
theorem agrees_variableDeclaration : ∀ {cs ds : List Tree}, ChildrenExpand P .vardecl cs ds →
    Agrees P less none (Value.Expands P) (variableDeclaration eval scope cs)
      (variableDeclaration eval' scope ds)
  | [keyword, nameTree, init], _, ⟨_, .cons hk (.cons hn (.cons hi .nil))⟩ => by
    unfold variableDeclaration
    simp only [hn.identifier, hk.isConstWord]
    refine (agrees_same _).bindSame fun name => ?_
    refine (agrees_optional (agrees_pure .null) hi (he hi)).bind fun hv => ?_
    exact (agrees_define scope name hv _).bind fun _ => agrees_pure hv
  | [], _, ⟨_, .nil⟩ | [_], _, ⟨_, .cons _ .nil⟩ | [_, _], _, ⟨_, .cons _ (.cons _ .nil)⟩
  | _ :: _ :: _ :: _ :: _, _, ⟨_, .cons _ (.cons _ (.cons _ (.cons _ _)))⟩ => agrees_fail _

/-- An operation applies its operator to operands that agree. -/
theorem agrees_operation {label : Label} (hlabel : label = .binary ∨ label = .condition)
    {apply : String → Value → Value → Except Fault Value}
    (ha : ∀ {l l' r r' : Value} (sign : String), l.Expands P l' → r.Expands P r' →
      ResultLinked (Value.Expands P) (apply sign l r) (apply sign l' r')) :
    ∀ {cs ds : List Tree}, ChildrenExpand P label cs ds →
      Agrees P less none (Value.Expands P) (operation eval apply cs) (operation eval' apply ds)
  | [_, _, _], _, ⟨hshape, .cons hl (.cons hop (.cons hr .nil))⟩ => by
    rw [operator_same hlabel hshape hop]
    exact (he hl).bind fun hv => (he hr).bind fun hw => agrees_ofExcept (ha _ hv hw)
  | [], _, ⟨_, .nil⟩ | [_], _, ⟨_, .cons _ .nil⟩ | [_, _], _, ⟨_, .cons _ (.cons _ .nil)⟩
  | _ :: _ :: _ :: _ :: _, _, ⟨_, .cons _ (.cons _ (.cons _ (.cons _ _)))⟩ => agrees_fail _

/-- An assignment gives a name values that agree. -/
theorem agrees_assignment : ∀ {cs ds : List Tree}, ChildrenExpand P .assign cs ds →
    Agrees P less none (Value.Expands P) (assignment eval scope cs) (assignment eval' scope ds)
  | [target, valueTree], _, ⟨_, .cons ht (.cons hv .nil)⟩ => by
    unfold assignment
    simp only [ht.identifier]
    refine (agrees_same _).bindSame fun name => (he hv).bind fun hv => ?_
    exact (agrees_assign scope name hv).bind fun _ => agrees_pure hv
  | [], _, ⟨_, .nil⟩ | [_], _, ⟨_, .cons _ .nil⟩
  | _ :: _ :: _ :: _, _, ⟨_, .cons _ (.cons _ (.cons _ _))⟩ => agrees_fail _

/-- A field is taken from values that agree. -/
theorem agrees_field : ∀ {cs ds : List Tree}, ChildrenExpand P .field cs ds →
    Agrees P less none (Value.Expands P) (field eval cs) (field eval' ds)
  | [_, _], _, ⟨hshape, .cons ht (.cons hn .nil)⟩ => by
    rw [fieldName_same hshape hn]
    exact (he ht).bind fun hv => agrees_ofExcept (hv.member (.string _))
  | [], _, ⟨_, .nil⟩ | [_], _, ⟨_, .cons _ .nil⟩
  | _ :: _ :: _ :: _, _, ⟨_, .cons _ (.cons _ (.cons _ _))⟩ => agrees_fail _

/-- An index is taken of values that agree, by keys that agree. -/
theorem agrees_index : ∀ {cs ds : List Tree}, ChildrenExpand P .index cs ds →
    Agrees P less none (Value.Expands P) (index eval cs) (index eval' ds)
  | [_, _], _, ⟨_, .cons ht (.cons hk .nil)⟩ =>
    (he ht).bind fun hv => (he hk).bind fun hk => agrees_ofExcept (hv.member hk)
  | [], _, ⟨_, .nil⟩ | [_], _, ⟨_, .cons _ .nil⟩
  | _ :: _ :: _ :: _, _, ⟨_, .cons _ (.cons _ (.cons _ _))⟩ => agrees_fail _

/-- A call applies values that agree to arguments that agree. -/
theorem agrees_call {args args' : Tree → Eval (List Value)}
    {apply apply' : Value → List Value → Eval Value}
    (hargs : ∀ {t u}, PartExpands P .args t u →
      Agrees P less none (List.Forall₂ (Value.Expands P)) (args t) (args' u))
    (happly : ∀ {v w vs ws}, v.Expands P w → List.Forall₂ (Value.Expands P) vs ws →
      Agrees P less none (Value.Expands P) (apply v vs) (apply' w ws)) :
    ∀ {cs ds : List Tree}, ChildrenExpand P .call cs ds →
      Agrees P less none (Value.Expands P) (call eval args apply cs) (call eval' args' apply' ds)
  | [_, _], _, ⟨hshape, .cons hc (.cons ha .nil)⟩ =>
    (he hc).bind fun hv => (hargs (call_part hshape ha)).bind fun hvs => happly hv hvs
  | [], _, ⟨_, .nil⟩ | [_], _, ⟨_, .cons _ .nil⟩
  | _ :: _ :: _ :: _, _, ⟨_, .cons _ (.cons _ (.cons _ _))⟩ => agrees_fail _

omit he

/-- Closures with related bodies, made in the same scope. -/
theorem closure_expands (name : Option String) (params : List Tree) {body body' : List Tree}
    (h : List.Forall₂ (Expands P) body body') (scope : ScopeId) :
    Value.Expands P (.closure ⟨name, params.map Tree.word, body, scope⟩)
      (.closure ⟨name, params.map Tree.word, body', scope⟩) :=
  .closure ⟨rfl, rfl, rfl, h⟩

/-- A function declaration binds closures whose bodies agree. -/
theorem agrees_functionDeclaration : ∀ {cs ds : List Tree}, ChildrenExpand P .fndecl cs ds →
    Agrees P less none (Value.Expands P) (functionDeclaration scope cs)
      (functionDeclaration scope ds)
  | [_, _, _], _, ⟨hshape, .cons hn (.cons hps (.cons hb .nil))⟩ => by
    obtain ⟨hparams, hbody⟩ := declaration_parts hshape hps hb
    unfold functionDeclaration
    simp only [hn.identifier]
    refine (agrees_same _).bindSame fun name => ?_
    refine (agrees_childrenOf (by decide) hparams).bind fun {params _} hparams => ?_
    rw [hparams.params]
    refine (agrees_childrenOf (by decide) hbody).bind fun hbody => ?_
    refine (agrees_child scope).bindSame fun inner => ?_
    have hc := closure_expands (some name) params hbody.2 inner
    exact (agrees_define scope name hc false).bind fun _ => agrees_pure hc
  | [], _, ⟨_, .nil⟩ | [_], _, ⟨_, .cons _ .nil⟩ | [_, _], _, ⟨_, .cons _ (.cons _ .nil)⟩
  | _ :: _ :: _ :: _ :: _, _, ⟨_, .cons _ (.cons _ (.cons _ (.cons _ _)))⟩ => agrees_fail _

/-- A function literal makes closures whose bodies agree. -/
theorem agrees_functionLiteral : ∀ {cs ds : List Tree}, ChildrenExpand P .fnliteral cs ds →
    Agrees P less none (Value.Expands P) (functionLiteral scope cs) (functionLiteral scope ds)
  | [_, _], _, ⟨hshape, .cons hps (.cons hb .nil)⟩ => by
    obtain ⟨hparams, hbody⟩ := literal_parts hshape hps hb
    refine (agrees_childrenOf (by decide) hparams).bind fun {params _} hparams => ?_
    rw [hparams.params]
    refine (agrees_childrenOf (by decide) hbody).bind fun hbody => ?_
    exact agrees_pure (closure_expands none params hbody.2 scope)
  | [], _, ⟨_, .nil⟩ | [_], _, ⟨_, .cons _ .nil⟩
  | _ :: _ :: _ :: _, _, ⟨_, .cons _ (.cons _ (.cons _ _))⟩ => agrees_fail _

include hs in
theorem agrees_block {t u : Tree} (h : PartExpands P .body t u) :
    Agrees P less none (Value.Expands P) (block statements t) (block statements' u) :=
  (agrees_childrenOf (by decide) h).bind fun hbody => hs hbody.2

include he hs in
/-- Tests that agree choose the same branch. -/
theorem agrees_conditional : ∀ {cs ds : List Tree}, ChildrenExpand P .ifstmt cs ds →
    Agrees P less none (Value.Expands P) (conditional eval statements cs)
      (conditional eval' statements' ds)
  | [_, _, _], _, ⟨hshape, .cons ht (.cons hc (.cons ha .nil))⟩ => by
    obtain ⟨hconsequent, halternate⟩ := conditional_parts hshape hc ha
    refine (he ht).bind fun hv => ?_
    cases hv with
    | bool b =>
      have hbranch := fun {t u} (h : PartExpands P .body t u) =>
        agrees_optional (agrees_pure .null) h.expands (agrees_block hs h)
      cases b with
      | true => exact hbranch hconsequent
      | false => exact hbranch halternate
    | _ => exact agrees_fail _
  | [], _, ⟨_, .nil⟩ | [_], _, ⟨_, .cons _ .nil⟩ | [_, _], _, ⟨_, .cons _ (.cons _ .nil)⟩
  | _ :: _ :: _ :: _ :: _, _, ⟨_, .cons _ (.cons _ (.cons _ (.cons _ _)))⟩ => agrees_fail _

/-! ## Objects -/

/-- Two properties with the same key, whose values agree. -/
abbrev SlotExpands (P : String → Int → Int → Prop) : String × Value → String × Value → Prop :=
  Value.SlotLinked (Closure.Expands P)

include he in
/-- A property that is not a shorthand has the same key in both trees. -/
theorem agrees_property {t u : Tree} (h : PartExpands P .prop t u) :
    Agrees P less none (SlotExpands P) (property eval scope t) (property eval' scope u) := by
  refine (agrees_childrenOf (by decide) h).bind fun {cs ds} hcs => ?_
  match cs, ds, hcs with
  | [_, _], _, ⟨_, .cons hk (.cons hv .nil)⟩ =>
    simp only [hk.identifier]
    refine (agrees_same _).bindSame fun key => ?_
    refine (agrees_optional (agrees_lookup scope key) hv (he hv)).bind fun hvalue => ?_
    exact agrees_pure (.slot hvalue)
  | [], _, ⟨_, .nil⟩ | [_], _, ⟨_, .cons _ .nil⟩
  | _ :: _ :: _ :: _, _, ⟨_, .cons _ (.cons _ (.cons _ _))⟩ => exact agrees_fail _

/-- A property that is written out looks the same name up. If it is not defined, the mistake has the
line of the key, and that without the property written out will get the line of the object. -/
theorem agrees_written {a : Int} {line : Option Int} {key : Leaf} (hkind : key.kind = .ident)
    (hkey : Agrees P less (some a) (Value.Expands P) (lookup scope key.text) (eval' (.leaf key))) :
    Agrees P less (some a) (SlotExpands P)
      (property eval scope (.node .prop line [.leaf key, .absent]))
      (property eval' scope (.node .prop line [.leaf key, .leaf key])) := by
  have hname : Eval.identifier "Object key" (.leaf key) = .ok key.text := by
    simp [Eval.identifier, hkind]
  show Agrees P less (some a) (SlotExpands P)
    (Eval.ofExcept (Eval.identifier "Object key" (.leaf key)) >>= fun k =>
      lookup scope k >>= fun v => pure (k, v))
    (Eval.ofExcept (Eval.identifier "Object key" (.leaf key)) >>= fun k =>
      eval' (.leaf key) >>= fun v => pure (k, v))
  rw [hname]
  exact hkey.bind fun hv => agrees_pure (.slot hv)

include he in
/-- The properties of an object agree one after the other. Where a shorthand is written out, the
same variable is looked up, once for the object and once for the key. -/
theorem agrees_properties {object? : Option Int}
    (hkey : ∀ {a b : Int} {key : Leaf}, key.line = some b → P key.text a b →
      key.kind = .ident →
      Agrees P less (some a) (Value.Expands P) (lookup scope key.text) (eval' (.leaf key))) :
    ∀ {ps qs : List Tree} {slots slots' : List (String × Value)},
      PropertiesExpand P object? ps qs → List.Forall₂ (SlotExpands P) slots slots' →
      Agrees P less object? (List.Forall₂ (SlotExpands P)) (properties eval scope slots ps)
        (properties eval' scope slots' qs)
  | [], _, _, _, .nil _, hslots => agrees_pure hslots
  | _ :: _, _, _, _, .kept hpart h hps, hslots => by
    refine ((agrees_property he scope ⟨hpart, h⟩).weaken object?).bind fun hp => ?_
    cases hp with
    | slot hv => exact agrees_properties hkey hps (Value.setSlot_linked hslots _ hv)
  | _ :: _, _, _, _, .written hkind hb hP hps, hslots => by
    refine (agrees_written scope hkind (hkey hb hP hkind)).bind fun hp => ?_
    cases hp with
    | slot hv => exact agrees_properties hkey hps (Value.setSlot_linked hslots _ hv)

end Constructs

/-! ## Calls -/

section Calls

variable {n n' : Nat} (hless : less ↔ n < n') {args args' : List Value}
  (h : List.Forall₂ (Value.Expands P) args args')

include h

/-- The numbers of arguments are the same. -/
theorem agrees_checkArity (name : String) (wanted : Option Nat) :
    Agrees P less none Eq (checkArity name wanted args) (checkArity name wanted args') := by
  unfold checkArity
  rw [h.length_eq]
  split
  next =>
    split
    next => exact agrees_pure rfl
    next => exact agrees_fail _
  next => exact agrees_pure rfl

include hless in
/-- Values that agree are shown alike, if there is budget for it. -/
theorem agrees_displayed : Agrees P less none Eq (displayed n args) (displayed n' args') := by
  unfold displayed
  rw [Value.mostDisplaySteps_linked h, Value.displayItems_linked Closure.expands_keepsHeads h]
  split
  next hn =>
    split
    next => exact agrees_fail _
    next hn' => exact fun _ _ _ => .sooner (hless.mpr (by omega)) _ _
  next hn =>
    split
    next hn' => exact fun _ _ _ => .later (fun hlt => by have := hless.mp hlt; omega) _ _
    next => exact agrees_pure rfl

/-- The answers of functions that are not written in the program agree. -/
inductive AnswerExpands (P : String → Int → Int → Prop) : HostAnswer → HostAnswer → Prop where
  | nothing : AnswerExpands P .nothing .nothing
  | value {v w : Value} (h : v.Expands P w) : AnswerExpands P (.value v) (.value w)
  | foreign (type : String) : AnswerExpands P (.foreign type) (.foreign type)

include hless in
/-- A built-in function does the same with arguments that agree. -/
theorem agrees_native (f : Native) :
    Agrees P less none (AnswerExpands P) (native n f args) (native n' f args') := by
  cases f with
  | print =>
    refine (agrees_displayed hless h).bindSame fun text => ?_
    exact (agrees_print text).bind fun _ => agrees_pure (.value .null)
  | println =>
    refine (agrees_displayed hless h).bindSame fun text => ?_
    exact (agrees_print (text ++ "\n")).bind fun _ => agrees_pure (.value .null)
  | len =>
    cases h with
    | nil => exact agrees_pure .nothing
    | cons hv => exact (agrees_ofExcept hv.length).bind fun hn => agrees_pure (.value hn)

/-- The call of a function that is not written in the program goes on alike. -/
theorem agrees_callHost (name : String) (arity : Option Nat)
    {act act' : List Value → Eval HostAnswer}
    (hact : Agrees P less none (AnswerExpands P) (act args) (act' args')) :
    Agrees P less none (Value.Expands P) (callHost name arity act args)
      (callHost name arity act' args') := by
  refine (agrees_checkArity h name arity).bind fun _ => hact.bind fun hanswer => ?_
  cases hanswer with
  | nothing => exact agrees_pure .null
  | value hv => exact agrees_pure hv
  | foreign type => exact agrees_fail _

omit h in
/-- Parameters are bound to arguments that agree. -/
theorem agrees_bindParams (scope : ScopeId) : ∀ {ps : List String} {vs ws : List Value},
    List.Forall₂ (Value.Expands P) vs ws →
      Agrees P less none Eq (bindParams scope ps vs) (bindParams scope ps ws)
  | [], _, _, _ => by
    unfold bindParams
    exact agrees_pure rfl
  | _ :: _, _, _, .nil => agrees_pure rfl
  | p :: _, _, _, .cons hv hvs =>
    (agrees_define scope p hv false).bind fun _ => agrees_bindParams scope hvs

/-- Closures that agree open scopes of the same number. -/
theorem agrees_openScope {c d : Closure} (hc : c.Expands P d) :
    Agrees P less none Eq (openScope c args) (openScope d args') := by
  have hname : ∀ words, nameOr words d = nameOr words c := fun words => by
    unfold nameOr
    rw [hc.name]
  unfold openScope
  rw [hname, hname, hc.params, hc.scope]
  refine (agrees_checkArity h _ _).bind fun _ => (agrees_child c.scope).bindSame fun scope => ?_
  refine (agrees_bindParams scope h).bind fun _ => (agrees_note _).bind fun _ => ?_
  exact agrees_pure rfl

/-- Closures that agree are called alike, if their bodies are evaluated alike. -/
theorem agrees_callClosure {statements statements' : ScopeId → List Tree → Eval Value}
    (hs : ∀ scope {ts us}, List.Forall₂ (Expands P) ts us →
      Agrees P less none (Value.Expands P) (statements scope ts) (statements' scope us))
    {c d : Closure} (hc : c.Expands P d) :
    Agrees P less none (Value.Expands P) (callClosure statements c args)
      (callClosure statements' d args') :=
  (agrees_openScope h hc).bindSame fun scope => hs scope hc.body

include hless in
/-- Callees that agree are applied alike. -/
theorem agrees_apply {enter enter' : Closure → List Value → Eval Value}
    (henter : ∀ {c d}, c.Expands P d →
      Agrees P less none (Value.Expands P) (enter c args) (enter' d args')) {callee callee' : Value}
    (hcallee : callee.Expands P callee') :
    Agrees P less none (Value.Expands P) (apply n enter callee args)
      (apply n' enter' callee' args') := by
  cases hcallee with
  | closure hc => exact henter hc
  | native f =>
    unfold apply
    exact agrees_callHost h f.name f.arity (agrees_native hless h f)
  | _ => exact agrees_fail _

end Calls

/-! ## Evaluation -/

/-- Every part of evaluation within a budget goes on side by side with that, within another budget,
of trees in which properties are written out. -/
structure Agreeing (P : String → Int → Int → Prop) (less : Prop) (n n' : Nat) : Prop where
  tree : ∀ scope {t u}, Expands P t u →
    Agrees P less none (Value.Expands P) (evalTree n scope t) (evalTree n' scope u)
  construct : ∀ scope {label line cs ds}, NodeExpands P label line cs ds →
    Agrees P less line (Value.Expands P) (evalConstruct n scope label cs)
      (evalConstruct n' scope label ds)
  items : ∀ scope {ts us}, List.Forall₂ (Expands P) ts us →
    Agrees P less none (List.Forall₂ (Value.Expands P)) (evalItems n scope ts)
      (evalItems n' scope us)
  arguments : ∀ scope {t u}, PartExpands P .args t u →
    Agrees P less none (List.Forall₂ (Value.Expands P)) (evalArguments n scope t)
      (evalArguments n' scope u)
  statements : ∀ scope {ts us}, List.Forall₂ (Expands P) ts us →
    Agrees P less none (Value.Expands P) (evalStatements n scope ts) (evalStatements n' scope us)
  call : ∀ {v w vs ws}, v.Expands P w → List.Forall₂ (Value.Expands P) vs ws →
    Agrees P less none (Value.Expands P) (callValue n v vs) (callValue n' w ws)
  enter : ∀ {c d vs ws}, c.Expands P d → List.Forall₂ (Value.Expands P) vs ws →
    Agrees P less none (Value.Expands P) (enterClosure n c vs) (enterClosure n' d ws)

variable {n n' : Nat}

/-- Looking a name up, and evaluating the leaf with that name, which may lack the budget. -/
theorem agrees_key (hless : less ↔ n < n') {a b : Int} {key : Leaf} (scope : ScopeId)
    (hb : key.line = some b) (hP : P key.text a b) (hkind : key.kind = .ident) :
    Agrees P less (some a) (Value.Expands P) (lookup scope key.text)
      (evalTree n' scope (.leaf key)) := by
  cases n' with
  | zero => exact fun _ _ _ => .later (fun hlt => Nat.not_lt_zero n (hless.mp hlt)) _ _
  | succ n' =>
    intro m m' hm
    have hlong : evalTree (n' + 1) scope (.leaf key)
        = located (.leaf key) (lookup scope key.text) := by
      simp only [evalTree, leaf, hkind]
    have hlookup := hm.store.lookup scope key.text
    have hundefined : ∀ f, m.store.lookup scope key.text = .error f →
        f = .of (.undefined key.text) := fun f hf => by
      unfold Store.lookup at hf
      split at hf
      · cases hf
      · cases hf
        rfl
    rw [hlong]
    unfold Eval.located lookup
    generalize m.store.lookup scope key.text = r at hlookup hundefined ⊢
    generalize m'.store.lookup scope key.text = r' at hlookup ⊢
    cases r with
    | ok v =>
      cases r' with
      | ok w => exact .ok hlookup hm
      | error => exact hlookup.elim
    | error f =>
      cases r' with
      | ok => exact hlookup.elim
      | error g =>
        obtain rfl : g = f := hlookup
        obtain rfl := hundefined g rfl
        refine .error ?_ hm
        simp only [Tree.sourceLine, hb]
        exact .pending rfl hP

/-- One construct, from evaluations with less budget. An object is the only one that differs. -/
theorem agrees_construct (hless : less ↔ n < n') (ih : Agreeing P less n n') (scope : ScopeId)
    {label : Label} {line : Option Int} {cs ds : List Tree} (h : NodeExpands P label line cs ds) :
    Agrees P less line (Value.Expands P) (evalConstruct (n + 1) scope label cs)
      (evalConstruct (n' + 1) scope label ds) := by
  have he : ∀ {t u}, Expands P t u → Agrees P less none (Value.Expands P) (evalTree n scope t)
      (evalTree n' scope u) := ih.tree scope
  have hs : ∀ {ts us}, List.Forall₂ (Expands P) ts us → Agrees P less none (Value.Expands P)
      (evalStatements n scope ts) (evalStatements n' scope us) := ih.statements scope
  rw [evalConstruct, evalConstruct]
  cases label with
  | object =>
    cases h with
    | plain hlabel => exact absurd rfl hlabel
    | object h =>
      refine (agrees_properties he scope (agrees_key hless scope) h .nil).bind fun hslots => ?_
      exact agrees_pure (.object hslots)
  | program | body => exact (hs (h.children (by decide)).2).weaken line
  | vardecl => exact (agrees_variableDeclaration he scope (h.children (by decide))).weaken line
  | fndecl => exact (agrees_functionDeclaration scope (h.children (by decide))).weaken line
  | ifstmt => exact (agrees_conditional he hs (h.children (by decide))).weaken line
  | binary =>
    have happly := fun {l l' r r'} sign (hl : Value.Expands P l l') (hr : Value.Expands P r r') =>
      hl.binary Closure.expands_keepsHeads sign hr
    exact (agrees_operation he (.inl rfl) happly (h.children (by decide))).weaken line
  | condition =>
    have happly := fun {l l' r r'} sign (hl : Value.Expands P l l') (hr : Value.Expands P r r') =>
      hl.condition sign hr
    exact (agrees_operation he (.inr rfl) happly (h.children (by decide))).weaken line
  | assign => exact (agrees_assignment he scope (h.children (by decide))).weaken line
  | array =>
    refine ((ih.items scope (h.children (by decide)).2).weaken line).bind fun hitems => ?_
    exact agrees_pure (.array hitems)
  | field => exact (agrees_field he (h.children (by decide))).weaken line
  | index => exact (agrees_index he (h.children (by decide))).weaken line
  | call =>
    exact (agrees_call he (ih.arguments scope) ih.call (h.children (by decide))).weaken line
  | fnliteral => exact (agrees_functionLiteral scope (h.children (by decide))).weaken line
  | prop | params | args | other => exact agrees_fail _

/-- Evaluation goes on side by side with that of trees in which properties are written out. Of two
evaluations within different budgets the one within the larger is not the first to run out. -/
theorem agreeing : ∀ {n n' : Nat}, (less ↔ n < n') → Agreeing P less n n'
  | 0, 0, _ => by constructor <;> intros <;> exact agrees_fail _
  | 0, n' + 1, hless => by
    have h : less := hless.mpr n'.succ_pos
    constructor <;> intros <;> exact fun _ _ _ => .sooner h _ _
  | n + 1, 0, hless => by
    have h : ¬less := fun hlt => Nat.not_lt_zero _ (hless.mp hlt)
    constructor <;> intros <;> exact fun _ _ _ => .later h _ _
  | n + 1, n' + 1, hless => by
    replace hless : less ↔ n < n' := hless.trans Nat.succ_lt_succ_iff
    have ih : Agreeing P less n n' := agreeing hless
    refine ⟨fun scope t u h => ?_, fun scope _ _ _ _ h => agrees_construct hless ih scope h,
      fun scope _ _ h => agrees_all (ih.tree scope) h, fun scope _ _ h => ?_,
      fun scope _ _ h => agrees_sequence (ih.tree scope) h .null, fun hv hvs => ?_,
      fun hc hvs => agrees_callClosure hvs ih.statements hc⟩
    · have hline := h.sourceLine
      have hnone : ∀ a, (none : Option Int) = some a → t.sourceLine = some a := nofun
      cases t with
      | absent =>
        obtain rfl := h.absent_left
        exact (agrees_fail _).located hnone hline
      | leaf l =>
        obtain rfl := h.leaf_left
        exact (agrees_leaf scope l).located hnone hline
      | node label line cs =>
        obtain ⟨ds, rfl, hds⟩ := h.node_left
        refine (ih.construct scope hds).located (fun a ha => ?_) hline
        rw [ha, Tree.sourceLine]
    · exact (agrees_childrenOf (by decide) h).bind fun hts => ih.items scope hts.2
    · exact agrees_apply hless hvs (fun hc => ih.enter hc hvs) hv

/-- A tree and one with properties written out are evaluated side by side, each with a budget of its
own. -/
theorem agrees_evaluate (n n' : Nat) (scope : ScopeId) {t u : Tree} (h : Expands P t u) :
    Agrees P (n < n') none (Value.Expands P) (evaluate n scope t) (evaluate n' scope u) := by
  unfold evaluate
  rw [h.heading]
  exact (agrees_note _).bind fun _ => (agreeing Iff.rfl).tree scope h

/-- Writing out the properties of a program leaves none without a value, and changes nothing about
its evaluation but, perhaps, the line of a mistake. The longhand ends within one step more than the
program, if that ends at all, and the program within what the longhand takes. Both then give the
same value, or the same fault, and leave the same printed text and the same bindings, but for the
properties that are written out in the bodies of closures. Only where the variable of a property is
not defined is the mistake reported on the line of the object in the program, and on that of the key
in the longhand. -/
theorem shorthand_written_out {source : String} {limit : Nat} {ts : List Token} {t : Tree}
    (hts : tokenize source = .ok ts) (ht : parseTokens limit ts = .ok t) (scope : ScopeId)
    (m : Machine) :
    (∀ name a b, ¬t.longhand.Abbreviates name a b) ∧
    (∀ n, faultOf (evaluate n scope t m) ≠ some .depth →
      faultOf (evaluate (n + 1) scope t.longhand m) ≠ some .depth) ∧
    (∀ n, faultOf (evaluate n scope t.longhand m) ≠ some .depth →
      faultOf (evaluate n scope t m) ≠ some .depth) ∧
    ∀ n n', faultOf (evaluate n scope t m) ≠ some .depth →
      faultOf (evaluate n' scope t.longhand m) ≠ some .depth →
      EndsAlike t.Abbreviates (evaluate n scope t m) (evaluate n' scope t.longhand m) := by
  have hexpands := program_expands (Syntax.program_reads ht (tokenize_endsOnce hts))
  have hends := fun n n' => agrees_evaluate n n' scope hexpands m m m.expands_refl
  exact ⟨fun _ _ _ h => h.ne_longhand t rfl,
    fun n hn => (hends n (n + 1)).second_lasts (Nat.lt_succ_self n) hn,
    fun n hn => (hends n n).first_lasts (Nat.lt_irrefl n) hn,
    fun n n' hn hn' => (hends n n').alike hn hn'⟩

/-- For instance an object with an undefined variable: the object starts on the first line, the key
is on the second one. -/
theorem shorthand_written_out_undefined :
    let leaf : Tree := .leaf ⟨.ident, "x", some 2, some 3⟩
    let t : Tree :=
      .node .program none [.node .object (some 1) [.node .prop (some 2) [leaf, .absent]]]
    tokenize "\x7b\n  x\n\x7d" = .ok [⟨.lbrace, "\x7b", 1, 1⟩, ⟨.ident, "x", 2, 3⟩,
      ⟨.rbrace, "\x7d", 3, 1⟩, ⟨.eof, "", 3, 2⟩] ∧
    t.longhand = .node .program none [.node .object (some 1) [.node .prop (some 2) [leaf, leaf]]] ∧
    EndsAlike t.Abbreviates (evaluate 20 Machine.globalId t .fresh)
      (evaluate 20 Machine.globalId t.longhand .fresh) := by
  intro leaf t
  have hts : tokenize "\x7b\n  x\n\x7d" = .ok [⟨.lbrace, "\x7b", 1, 1⟩, ⟨.ident, "x", 2, 3⟩,
      ⟨.rbrace, "\x7d", 3, 1⟩, ⟨.eof, "", 3, 2⟩] := by with_unfolding_all rfl
  have hshort : faultOf (evaluate 20 Machine.globalId t .fresh)
      = some (.runtime (.undefined "x") (some 1)) := by with_unfolding_all rfl
  have hlong : faultOf (evaluate 20 Machine.globalId t.longhand .fresh)
      = some (.runtime (.undefined "x") (some 2)) := by with_unfolding_all rfl
  have ht : parseTokens 100 [⟨.lbrace, "\x7b", 1, 1⟩, ⟨.ident, "x", 2, 3⟩,
      ⟨.rbrace, "\x7d", 3, 1⟩, ⟨.eof, "", 3, 2⟩] = .ok t := rfl
  have h := (shorthand_written_out hts ht Machine.globalId .fresh).2.2.2 20 20
  exact ⟨hts, rfl, h (by rw [hshort]; simp) (by rw [hlong]; simp)⟩

/-- Writing out the property of such an object does change the line of the mistake. -/
theorem shorthand_line_differs :
    ∃ ts t, tokenize "\x7b\n  x\n\x7d" = .ok ts ∧ parseTokens 100 ts = .ok t ∧
      faultOf (evaluate 20 Machine.globalId t .fresh)
        = some (.runtime (.undefined "x") (some 1)) ∧
      faultOf (evaluate 20 Machine.globalId t.longhand .fresh)
        = some (.runtime (.undefined "x") (some 2)) := by
  have hts : tokenize "\x7b\n  x\n\x7d" = .ok [⟨.lbrace, "\x7b", 1, 1⟩, ⟨.ident, "x", 2, 3⟩,
      ⟨.rbrace, "\x7d", 3, 1⟩, ⟨.eof, "", 3, 2⟩] := by with_unfolding_all rfl
  refine ⟨_, _, hts, rfl, ?_, ?_⟩ <;> with_unfolding_all rfl

end Avii
