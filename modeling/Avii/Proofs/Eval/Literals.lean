import Avii.Proofs.Eval.Afterwards
import Avii.Proofs.Value.Objects

/-!
# Where objects come from

An object literal evaluates its properties one after the other and collapses their keys and values
into slots (`makes_collapses`). Nothing else makes an object. So where the objects in the store and
in the values that a moment starts with are of a kind, and those that object literals within the
moment make are, so are all objects that the moment comes across: those that its parts start with
(`reaches_starts`) and those that it leaves and gives (`starts_ends`).

Which literals there are depends on the course that the evaluation takes, not on trees and scopes
alone, so this is no discipline: the induction is on the budget, along the parts of a moment.
-/

namespace Avii.Eval

variable {α β : Type}

/-! ## Object literals -/

/-- The properties of an object are evaluated one after the other, and what they give is put into
slots. -/
theorem properties_eq (eval : Tree → Eval Value) (scope : ScopeId)
    (slots : List (String × Value)) (ts : List Tree) : properties eval scope slots ts = do
      let pairs ← ts.mapM (property eval scope)
      return setSlots slots pairs := by
  induction ts generalizing slots with
  | nil => simp [properties, setSlots]
  | cons t ts ih => simp [properties, List.mapM_cons, ih, setSlots]

/-- A moment is an object literal that gives the object with some slots. -/
inductive Makes : Moment → List (String × Value) → Prop where
  | literal {n : Nat} {scope : ScopeId} {cs : List Tree} {slots : List (String × Value)}
      {m m' : Machine} (h : evalConstruct n scope .object cs m = .ok (.object slots) m') :
      Makes ⟨n, .construct scope .object cs, m⟩ slots

/-- A tree is the property of a key. -/
def IsProperty (t : Tree) (key : String) : Prop :=
  ∃ line l value, t = .node .prop line [.leaf l, value] ∧ l.kind = .ident ∧ l.text = key

/-- A tree that gives a name is a leaf with it. -/
theorem identifier_ok {role : String} {t : Tree} {name : String}
    (h : identifier role t = .ok name) : ∃ l, t = .leaf l ∧ l.kind = .ident ∧ l.text = name := by
  unfold identifier at h
  split at h
  next l =>
    split at h
    next hl => exact ⟨l, rfl, hl, Except.ok.inj h⟩
    next => cases h
  next => cases h

/-- A property that is evaluated gives the key that it is the property of. -/
theorem property_key {eval : Tree → Eval Value} {scope : ScopeId} {t : Tree}
    {p : String × Value} {m m' : Machine} (h : property eval scope t m = .ok p m') :
    IsProperty t p.1 := by
  unfold property at h
  obtain ⟨cs, m₁, hcs, hrest⟩ := bind_eq_ok.mp h
  obtain ⟨line, rfl⟩ := childrenOf_ok (ofExcept_eq_ok.mp hcs).1
  match cs, hrest with
  | [key, value], hrest =>
    obtain ⟨name, m₂, hname, hrest⟩ := bind_eq_ok.mp hrest
    obtain ⟨l, rfl, hl, rfl⟩ := identifier_ok (ofExcept_eq_ok.mp hname).1
    obtain ⟨v, m₃, -, hrest⟩ := bind_eq_ok.mp hrest
    cases hrest
    exact ⟨line, l, value, rfl, hl, rfl⟩
  | [], hrest | [_], hrest | _ :: _ :: _ :: _, hrest => cases hrest

/-- The pairs of properties have their keys, in order. -/
theorem pairs_keys {eval : Tree → Eval Value} {scope : ScopeId} {ts : List Tree}
    {pairs : List (String × Value)} {m m' : Machine}
    (h : ts.mapM (property eval scope) m = .ok pairs m') :
    List.Forall₂ (fun t p => IsProperty t p.1) ts pairs := by
  induction ts generalizing pairs m with
  | nil =>
    cases h
    exact .nil
  | cons t ts ih =>
    rw [List.mapM_cons] at h
    obtain ⟨p, m₁, hp, hrest⟩ := bind_eq_ok.mp h
    obtain ⟨ps, m₂, hps, hrest⟩ := bind_eq_ok.mp hrest
    cases hrest
    exact .cons (property_key hp) (ih hps)

/-- An object literal evaluates its properties to pairs with their keys, and gives the slots in
which the pairs come together. -/
theorem makes_collapses {q : Moment} {slots : List (String × Value)} (h : Makes q slots) :
    ∃ n scope cs m pairs m', q = ⟨n + 1, .construct scope .object cs, m⟩ ∧
      cs.mapM (property (evalTree n scope) scope) m = .ok pairs m' ∧
      List.Forall₂ (fun t p => IsProperty t p.1) cs pairs ∧ Collapses pairs slots := by
  cases h with
  | @literal n scope cs _ m m' h =>
    cases n with
    | zero => cases h
    | succ n =>
      rw [evalConstruct, construct, properties_eq] at h
      simp only [bind_assoc, pure_bind] at h
      obtain ⟨pairs, m₁, hpairs, hrest⟩ := bind_eq_ok.mp h
      cases hrest
      exact ⟨n, scope, cs, m, pairs, m', rfl, hpairs, pairs_keys hpairs, collapses_setSlots pairs⟩

/-! ## Objects of a kind -/

/-- All objects in a value are of a kind. -/
def ObjectsIn (made : List (String × Value) → Prop) (v : Value) : Prop :=
  ∀ slots, v.Nests slots → made slots

/-- All objects in the values that a store binds are of a kind. -/
def StoreObjectsIn (made : List (String × Value) → Prop) (s : Store) : Prop :=
  ∀ (id : ScopeId) (scope : Scope), s.scopes[id]? = some scope →
    ∀ b ∈ scope.bindings, ObjectsIn made b.value

/-- A computation on a machine ends with a store in which all objects are of a kind, and what it
gives is good. -/
def EndsIn (made : List (String × Value) → Prop) (good : α → Prop) (x : Eval α) (m : Machine) :
    Prop :=
  match x m with
  | .ok a m => StoreObjectsIn made m.store ∧ good a
  | .error _ m => StoreObjectsIn made m.store

variable {made : List (String × Value) → Prop} {good : α → Prop} {good' : β → Prop}
  {m : Machine}

/-- There are no objects in a plain value. -/
theorem objectsIn_plain {v : Value} (h : v.Plain) : ObjectsIn made v :=
  fun slots hslots => absurd hslots (h slots)

theorem objectsIn_null : ObjectsIn made .null := objectsIn_plain fun _ h => nomatch h

/-- A closure holds no values. -/
theorem objectsIn_closure (c : Closure) : ObjectsIn made (.closure c) :=
  objectsIn_plain fun _ h => nomatch h

/-- The objects in an array are those in its items. -/
theorem objectsIn_array {vs : List Value} (h : ∀ v ∈ vs, ObjectsIn made v) :
    ObjectsIn made (.array vs) := by
  intro slots hslots
  cases hslots with
  | item hv hslots => exact h _ hv slots hslots

/-- The objects in an object are itself and those in its slots. -/
theorem objectsIn_object {slots : List (String × Value)} (h : made slots)
    (hslots : ∀ p ∈ slots, ObjectsIn made p.2) : ObjectsIn made (.object slots) := by
  intro inner hinner
  cases hinner with
  | self => exact h
  | slot hp hinner => exact hslots _ hp inner hinner

/-! ## Steps -/

/-- The second half of a computation starts with the store in which the first one ends. -/
theorem EndsIn.bind {x : Eval α} {k : α → Eval β} (hx : EndsIn made good x m)
    (hk : ∀ {a m₁}, x m = .ok a m₁ → StoreObjectsIn made m₁.store → good a →
      EndsIn made good' (k a) m₁) : EndsIn made good' (x >>= k) m := by
  unfold EndsIn at hx ⊢
  cases hxm : x m with
  | ok a m₁ =>
    rw [hxm] at hx
    rw [bind_run hxm]
    exact hk hxm hx.1 hx.2
  | error f m₁ =>
    rw [hxm] at hx
    rw [bind_fails hxm]
    exact hx

/-- To give a fault a line changes nothing of how a computation ends. -/
theorem EndsIn.located {x : Eval α} (hx : EndsIn made good x m) (t : Tree) :
    EndsIn made good (located t x) m := by
  unfold EndsIn at hx ⊢
  unfold Eval.located
  cases hxm : x m <;> rw [hxm] at hx <;> exact hx

/-- What a computation has given, and the store then. -/
theorem EndsIn.given {x : Eval α} {a : α} {m' : Machine} (h : EndsIn made good x m)
    (hx : x m = .ok a m') : StoreObjectsIn made m'.store ∧ good a := by
  unfold EndsIn at h
  rwa [hx] at h

/-- With or without a result, all objects in the last store are of the kind. -/
theorem EndsIn.final {x : Eval α} (h : EndsIn made good x m) :
    StoreObjectsIn made (final (x m)).store := by
  unfold EndsIn at h
  cases hx : x m with
  | ok a m' =>
    rw [hx] at h
    exact h.1
  | error f m' =>
    rw [hx] at h
    exact h

section Steps

variable (hm : StoreObjectsIn made m.store)

include hm

theorem endsIn_fail (f : Fault) : EndsIn made good (fail f) m := hm

theorem endsIn_pure {a : α} (h : good a) : EndsIn made good (pure a) m := ⟨hm, h⟩

/-- An operation on values leaves the store as it is. -/
theorem endsIn_ofExcept {x : Except Fault α} (h : ∀ a, x = .ok a → good a) :
    EndsIn made good (ofExcept x) m := by
  cases x with
  | ok a => exact ⟨hm, h a rfl⟩
  | error f => exact hm

theorem endsIn_note (e : Event) : EndsIn made (fun _ => True) (note e) m := ⟨hm, trivial⟩

theorem endsIn_print (s : String) : EndsIn made (fun _ => True) (print s) m := ⟨hm, trivial⟩

/-- A new scope binds nothing. -/
theorem endsIn_child (scope : ScopeId) : EndsIn made (fun _ => True) (child scope) m :=
  ⟨Store.AllBound.create hm _, trivial⟩

/-- What a store binds is made of objects of the kind. -/
theorem endsIn_lookup (scope : ScopeId) (name : String) :
    EndsIn made (ObjectsIn made) (lookup scope name) m := by
  unfold EndsIn lookup
  cases hv : m.store.lookup scope name with
  | error f => exact hm
  | ok v => exact ⟨hm, Store.AllBound.lookup hm hv⟩

theorem endsIn_update {fault? : Store → Option Fault} {change : Store → Store}
    (h : StoreObjectsIn made (change m.store)) :
    EndsIn made (fun _ => True) (update fault? change) m := by
  unfold EndsIn update
  cases fault? m.store with
  | some f => exact hm
  | none => exact ⟨h, trivial⟩

/-- To define a name adds the objects in its value. -/
theorem endsIn_define (scope : ScopeId) (name : String) {v : Value} (hv : ObjectsIn made v)
    (constant : Bool) : EndsIn made (fun _ => True) (define scope name v constant) m :=
  endsIn_update hm (Store.AllBound.bind hm scope hv)

theorem endsIn_assign (scope : ScopeId) (name : String) {v : Value} (hv : ObjectsIn made v) :
    EndsIn made (fun _ => True) (assign scope name v) m :=
  endsIn_update hm (Store.AllBound.rebind hm scope name hv)

/-- A leaf makes no object. -/
theorem endsIn_leaf (scope : ScopeId) (l : Leaf) :
    EndsIn made (ObjectsIn made) (leaf scope l) m := by
  unfold leaf
  split
  next =>
    refine endsIn_ofExcept hm fun v hv => ?_
    unfold numeral at hv
    split at hv <;> cases hv
    exact objectsIn_plain (Value.plain_number _)
  next => exact endsIn_pure hm (objectsIn_plain (Value.plain_string _))
  next => exact endsIn_lookup hm scope l.text
  next => exact endsIn_fail hm _

theorem endsIn_checkArity (name : String) (wanted : Option Nat) (args : List Value) :
    EndsIn made (fun _ => True) (checkArity name wanted args) m := by
  unfold checkArity
  split
  next =>
    split
    next => exact endsIn_pure hm trivial
    next => exact endsIn_fail hm _
  next => exact endsIn_pure hm trivial

/-- Built-in functions give values without objects. -/
theorem endsIn_native (budget : Nat) (f : Native) (args : List Value) :
    EndsIn made (ObjectsIn made) (callHost f.name f.arity (native budget f) args) m := by
  have hprinted : ∀ {m : Machine} (text : String → String), StoreObjectsIn made m.store →
      EndsIn made (fun a => ∀ v, a = HostAnswer.value v → ObjectsIn made v)
        (displayed budget args >>= fun s =>
          print (text s) >>= fun _ => pure (HostAnswer.value .null)) m := by
    intro m text hm
    have hdisplayed : EndsIn made (fun _ => True) (displayed budget args) m := by
      unfold displayed
      split
      next => exact endsIn_fail hm _
      next => exact endsIn_pure hm trivial
    refine hdisplayed.bind fun _ hm₁ _ => (endsIn_print hm₁ _).bind fun _ hm₂ _ => ?_
    refine endsIn_pure hm₂ ?_
    rintro _ ⟨⟩
    exact objectsIn_null
  have hnative : ∀ {m : Machine}, StoreObjectsIn made m.store →
      EndsIn made (fun a => ∀ v, a = HostAnswer.value v → ObjectsIn made v)
        (native budget f args) m := by
    intro m hm
    unfold native
    split
    next => exact hprinted id hm
    next => exact hprinted (· ++ "\n") hm
    next =>
      split
      next v _ =>
        have hlength : EndsIn made (ObjectsIn made) (ofExcept v.length) m :=
          endsIn_ofExcept hm fun _ h => objectsIn_plain (Value.length_plain h)
        refine hlength.bind fun _ hm₁ hn => endsIn_pure hm₁ ?_
        rintro _ ⟨⟩
        exact hn
      next => exact endsIn_pure hm fun _ h => nomatch h
  refine (endsIn_checkArity hm f.name f.arity args).bind fun _ hm₁ _ => ?_
  refine (hnative hm₁).bind fun _ hm₂ ha => ?_
  split
  next => exact endsIn_pure hm₂ objectsIn_null
  next => exact endsIn_pure hm₂ (ha _ rfl)
  next => exact endsIn_fail hm₂ _

end Steps

/-- To bind parameters adds the objects in the arguments, one after the other. -/
theorem endsIn_bindParams {scope : ScopeId} : ∀ {ps : List String} {vs : List Value}
    {m : Machine}, StoreObjectsIn made m.store → (∀ v ∈ vs, ObjectsIn made v) →
      EndsIn made (fun _ => True) (bindParams scope ps vs) m
  | [], vs, m, hm, _ => by
    unfold bindParams
    exact endsIn_pure hm trivial
  | p :: ps, [], m, hm, _ => endsIn_pure hm trivial
  | p :: ps, v :: vs, m, hm, hvs => by
    refine (endsIn_define hm scope p (hvs v List.mem_cons_self) false).bind fun _ hm₁ _ => ?_
    exact endsIn_bindParams hm₁ fun w hw => hvs w (List.mem_cons_of_mem v hw)

theorem endsIn_openScope (hm : StoreObjectsIn made m.store) (c : Closure) {args : List Value}
    (hargs : ∀ v ∈ args, ObjectsIn made v) :
    EndsIn made (fun _ => True) (openScope c args) m := by
  refine (endsIn_checkArity hm _ _ args).bind fun _ hm₁ _ => ?_
  refine (endsIn_child hm₁ c.scope).bind fun _ hm₂ _ => ?_
  refine (endsIn_bindParams hm₂ hargs).bind fun _ hm₃ _ => ?_
  exact (endsIn_note hm₃ _).bind fun _ hm₄ _ => endsIn_pure hm₄ trivial

/-! ## Loops -/

section Loops

variable {eval : Tree → Eval Value} {ts : List Tree}

/-- A loop over trees ends as it should if each tree does, on the machine that the trees before it
leave. -/
theorem endsIn_all (hm : StoreObjectsIn made m.store)
    (he : ∀ {before t vs m₁}, before ++ [t] <+: ts → all eval before m = .ok vs m₁ →
      StoreObjectsIn made m₁.store → EndsIn made (ObjectsIn made) (eval t) m₁) :
    EndsIn made (fun vs => ∀ v ∈ vs, ObjectsIn made v) (all eval ts) m := by
  induction ts using List.reverseRecOn with
  | nil => exact endsIn_pure hm (by simp)
  | append_singleton ts t ih =>
    have hts := ih fun h => he (h.trans (List.prefix_append ts [t]))
    rw [all_append]
    refine hts.bind fun hrun hm₁ hvs => ?_
    simp only [all, bind_assoc, pure_bind]
    refine (he (List.prefix_refl _) hrun hm₁).bind fun _ hm₂ hv => endsIn_pure hm₂ ?_
    intro w hw
    rcases List.mem_append.mp hw with hw | hw
    · exact hvs w hw
    · exact List.mem_singleton.mp hw ▸ hv

/-- Statements end with objects of the kind if each of them does after those before it. -/
theorem endsIn_sequence {last : Value} (hlast : ObjectsIn made last)
    (hm : StoreObjectsIn made m.store)
    (he : ∀ {before t v m₁}, before ++ [t] <+: ts →
      sequence eval last before m = .ok v m₁ → StoreObjectsIn made m₁.store →
      EndsIn made (ObjectsIn made) (eval t) m₁) :
    EndsIn made (ObjectsIn made) (sequence eval last ts) m := by
  induction ts using List.reverseRecOn with
  | nil => exact endsIn_pure hm hlast
  | append_singleton ts t ih =>
    have hts := ih fun h => he (h.trans (List.prefix_append ts [t]))
    rw [sequence_append]
    refine hts.bind fun hrun hm₁ _ => ?_
    exact (he (List.prefix_refl _) hrun hm₁).bind fun _ hm₂ hv => endsIn_pure hm₂ hv

/-- A property gives the objects of its value, or of the variable that a shorthand names. -/
theorem endsIn_property {scope : ScopeId} {t : Tree} (hm : StoreObjectsIn made m.store)
    (he : ∀ {key value name}, childrenOf .prop t = .ok [key, value] →
      identifier "Object key" key = .ok name → value ≠ .absent →
      EndsIn made (ObjectsIn made) (eval value) m) :
    EndsIn made (fun p => ObjectsIn made p.2) (property eval scope t) m := by
  refine (endsIn_ofExcept hm fun _ _ => trivial).bind fun hrun _ _ => ?_
  obtain ⟨ht, rfl⟩ := ofExcept_eq_ok.mp hrun
  split
  next key value =>
    refine (endsIn_ofExcept hm fun _ _ => trivial).bind fun {name m₁} hrun _ _ => ?_
    obtain ⟨hk, rfl⟩ := ofExcept_eq_ok.mp hrun
    have hgiven : EndsIn made (ObjectsIn made) (optional (lookup scope name) eval value) m := by
      by_cases hvalue : value = .absent
      · rw [hvalue]
        exact endsIn_lookup hm scope name
      · rw [optional_present hvalue]
        exact he ht hk hvalue
    exact hgiven.bind fun _ hm₁ hv => endsIn_pure hm₁ hv
  next => exact endsIn_fail hm _

/-- Properties end with objects of the kind if each value does after those before it. -/
theorem endsIn_properties {scope : ScopeId} (hm : StoreObjectsIn made m.store)
    (he : ∀ {before t key value name slots m₁}, before ++ [t] <+: ts →
      properties eval scope [] before m = .ok slots m₁ → childrenOf .prop t = .ok [key, value] →
      identifier "Object key" key = .ok name → value ≠ .absent →
      StoreObjectsIn made m₁.store → EndsIn made (ObjectsIn made) (eval value) m₁) :
    EndsIn made (fun slots => ∀ p ∈ slots, ObjectsIn made p.2)
      (properties eval scope [] ts) m := by
  induction ts using List.reverseRecOn with
  | nil => exact endsIn_pure hm (by simp)
  | append_singleton ts t ih =>
    have hts := ih fun h => he (h.trans (List.prefix_append ts [t]))
    rw [properties_append]
    refine hts.bind fun hrun hm₁ hslots => ?_
    have hproperty : EndsIn made (fun p : String × Value => ObjectsIn made p.2)
        (property eval scope t) _ :=
      endsIn_property hm₁ fun ht hk hv => he (List.prefix_refl _) hrun ht hk hv hm₁
    refine hproperty.bind fun _ hm₂ hp => endsIn_pure hm₂ ?_
    intro q hq
    rcases mem_setSlot hq with hq | hq
    · exact hslots q hq
    · exact hq ▸ hp

end Loops

/-! ## Moments -/

/-- All objects among the values that a task is given are of a kind. -/
def Task.ObjectsIn (made : List (String × Value) → Prop) : Task → Prop
  | .call v vs => Eval.ObjectsIn made v ∧ ∀ v ∈ vs, Eval.ObjectsIn made v
  | .enter _ vs => ∀ v ∈ vs, Eval.ObjectsIn made v
  | .tree _ _ | .construct _ _ _ | .items _ _ | .arguments _ _ | .statements _ _ => True

/-- A moment that starts with objects of a kind only, and within which object literals only make
objects of that kind. -/
structure Moment.Starts (made : List (String × Value) → Prop) (p : Moment) : Prop where
  store : StoreObjectsIn made p.machine.store
  task : p.task.ObjectsIn made
  literals : ∀ q slots, Reaches p q → Makes q slots → made slots

/-- A moment ends with objects of a kind only. -/
def Moment.Ends (made : List (String × Value) → Prop) : Moment → Prop
  | ⟨n, .tree scope t, m⟩ => EndsIn made (ObjectsIn made) (evalTree n scope t) m
  | ⟨n, .construct scope label cs, m⟩ =>
    EndsIn made (ObjectsIn made) (evalConstruct n scope label cs) m
  | ⟨n, .items scope ts, m⟩ =>
    EndsIn made (fun vs => ∀ v ∈ vs, ObjectsIn made v) (evalItems n scope ts) m
  | ⟨n, .arguments scope t, m⟩ =>
    EndsIn made (fun vs => ∀ v ∈ vs, ObjectsIn made v) (evalArguments n scope t) m
  | ⟨n, .statements scope ts, m⟩ => EndsIn made (ObjectsIn made) (evalStatements n scope ts) m
  | ⟨n, .call callee args, m⟩ => EndsIn made (ObjectsIn made) (callValue n callee args) m
  | ⟨n, .enter c args, m⟩ => EndsIn made (ObjectsIn made) (enterClosure n c args) m

/-- The parts of a moment end with objects of a kind if they start so. -/
def PartsEnd (made : List (String × Value) → Prop) (p : Moment) : Prop :=
  ∀ {q}, Part p q → StoreObjectsIn made q.machine.store → q.task.ObjectsIn made → q.Ends made

section Loops

variable {n : Nat} {scope : ScopeId} {ts before : List Tree} (hm : StoreObjectsIn made m.store)

include hm

/-- The first items of a list give objects of the kind. -/
theorem PartsEnd.all (hparts : PartsEnd made ⟨n + 1, .items scope ts, m⟩) (h : before <+: ts) :
    EndsIn made (fun vs => ∀ v ∈ vs, ObjectsIn made v) (all (evalTree n scope) before) m := by
  refine endsIn_all hm ?_
  intro before' t vs m₁ hprefix hb hm₁
  obtain ⟨after, rfl⟩ := hprefix.trans h
  rw [List.append_assoc] at hparts
  exact hparts (.item hb) hm₁ trivial

theorem PartsEnd.sequence (hparts : PartsEnd made ⟨n + 1, .statements scope ts, m⟩)
    (h : before <+: ts) :
    EndsIn made (ObjectsIn made) (sequence (evalTree n scope) .null before) m := by
  refine endsIn_sequence objectsIn_null hm ?_
  intro before' t v m₁ hprefix hb hm₁
  obtain ⟨after, rfl⟩ := hprefix.trans h
  rw [List.append_assoc] at hparts
  exact hparts (.statement hb) hm₁ trivial

theorem PartsEnd.properties (hparts : PartsEnd made ⟨n + 1, .construct scope .object ts, m⟩)
    (h : before <+: ts) :
    EndsIn made (fun slots => ∀ p ∈ slots, ObjectsIn made p.2)
      (properties (evalTree n scope) scope [] before) m := by
  refine endsIn_properties hm ?_
  intro before' t key value name slots m₁ hprefix hb ht hk hv hm₁
  obtain ⟨after, rfl⟩ := hprefix.trans h
  rw [List.append_assoc] at hparts
  exact hparts (.property hb ht hk hv) hm₁ trivial

end Loops

/-! ## Constructs -/

section Constructs

variable {n : Nat} {scope : ScopeId} {label : Label} {cs : List Tree}
  (hm : StoreObjectsIn made m.store)
  (hparts : PartsEnd made ⟨n + 1, .construct scope label cs, m⟩)

include hm

theorem ends_functionDeclaration (scope : ScopeId) (cs : List Tree) :
    EndsIn made (ObjectsIn made) (functionDeclaration scope cs) m := by
  unfold functionDeclaration
  split
  next nameTree paramsTree bodyTree =>
    refine (endsIn_ofExcept hm fun _ _ => trivial).bind fun _ hm₁ _ => ?_
    refine (endsIn_ofExcept hm₁ fun _ _ => trivial).bind fun _ hm₂ _ => ?_
    refine (endsIn_ofExcept hm₂ fun _ _ => trivial).bind fun _ hm₃ _ => ?_
    refine (endsIn_child hm₃ scope).bind fun _ hm₄ _ => ?_
    refine (endsIn_define hm₄ scope _ (objectsIn_closure _) false).bind fun _ hm₅ _ => ?_
    exact endsIn_pure hm₅ (objectsIn_closure _)
  next => exact endsIn_fail hm _

theorem ends_functionLiteral (scope : ScopeId) (cs : List Tree) :
    EndsIn made (ObjectsIn made) (functionLiteral scope cs) m := by
  unfold functionLiteral
  split
  next paramsTree bodyTree =>
    refine (endsIn_ofExcept hm fun _ _ => trivial).bind fun _ hm₁ _ => ?_
    refine (endsIn_ofExcept hm₁ fun _ _ => trivial).bind fun _ hm₂ _ => ?_
    exact endsIn_pure hm₂ (objectsIn_closure _)
  next => exact endsIn_fail hm _

include hparts

/-- A declaration binds the objects of its value. -/
theorem ends_variableDeclaration (hlabel : label = .vardecl) :
    EndsIn made (ObjectsIn made) (variableDeclaration (evalTree n scope) scope cs) m := by
  subst hlabel
  unfold variableDeclaration
  split
  next keyword nameTree init =>
    refine (endsIn_ofExcept hm fun _ _ => trivial).bind fun hrun _ _ => ?_
    obtain ⟨hn, rfl⟩ := ofExcept_eq_ok.mp hrun
    have hinit : EndsIn made (ObjectsIn made)
        (optional (pure .null) (evalTree n scope) init) m := by
      by_cases hi : init = .absent
      · rw [hi]
        exact endsIn_pure hm objectsIn_null
      · rw [optional_present hi]
        exact hparts (.initial hn hi) hm trivial
    refine hinit.bind fun _ hm₁ hv => ?_
    exact (endsIn_define hm₁ scope _ hv _).bind fun _ hm₂ _ => endsIn_pure hm₂ hv
  next => exact endsIn_fail hm _

/-- A conditional gives the objects of its branch. -/
theorem ends_conditional (hlabel : label = .ifstmt) :
    EndsIn made (ObjectsIn made)
      (conditional (evalTree n scope) (evalStatements n scope) cs) m := by
  subst hlabel
  unfold conditional
  split
  next test consequent alternate =>
    have htest : EndsIn made (ObjectsIn made) (evalTree n scope test) m :=
      hparts .test hm trivial
    refine htest.bind fun {v m₁} hrun hm₁ _ => ?_
    cases v with
    | bool b =>
      dsimp only
      by_cases hbranch : (if b then consequent else alternate) = .absent
      · rw [hbranch]
        exact endsIn_pure hm₁ objectsIn_null
      · rw [optional_present hbranch]
        refine (endsIn_ofExcept hm₁ fun _ _ => trivial).bind fun hrun' _ _ => ?_
        obtain ⟨hbody, rfl⟩ := ofExcept_eq_ok.mp hrun'
        exact hparts (.branch hrun hbody) hm₁ trivial
    | _ => exact endsIn_fail hm₁ _
  next => exact endsIn_fail hm _

/-- An operation gives a plain value. -/
theorem ends_operation {apply : String → Value → Value → Except Fault Value}
    (hlabel : label = .binary ∨ label = .condition)
    (happly : ∀ {sign l r v}, apply sign l r = .ok v → v.Plain) :
    EndsIn made (ObjectsIn made) (operation (evalTree n scope) apply cs) m := by
  unfold operation
  split
  next left op right =>
    have hleft : EndsIn made (ObjectsIn made) (evalTree n scope left) m :=
      hparts (.left hlabel) hm trivial
    refine hleft.bind fun hrun hm₁ _ => ?_
    have hright : EndsIn made (ObjectsIn made) (evalTree n scope right) _ :=
      hparts (.right hlabel hrun) hm₁ trivial
    refine hright.bind fun _ hm₂ _ => ?_
    exact endsIn_ofExcept hm₂ fun _ h => objectsIn_plain (happly h)
  next => exact endsIn_fail hm _

/-- An assignment gives the objects of its value. -/
theorem ends_assignment (hlabel : label = .assign) :
    EndsIn made (ObjectsIn made) (assignment (evalTree n scope) scope cs) m := by
  subst hlabel
  unfold assignment
  split
  next target valueTree =>
    refine (endsIn_ofExcept hm fun _ _ => trivial).bind fun hrun _ _ => ?_
    obtain ⟨ht, rfl⟩ := ofExcept_eq_ok.mp hrun
    have hvalue : EndsIn made (ObjectsIn made) (evalTree n scope valueTree) m :=
      hparts (.assigned ht) hm trivial
    refine hvalue.bind fun _ hm₁ hv => ?_
    exact (endsIn_assign hm₁ scope _ hv).bind fun _ hm₂ _ => endsIn_pure hm₂ hv
  next => exact endsIn_fail hm _

/-- The only construct that makes an object. -/
theorem ends_object (hlabel : label = .object)
    (hmade : ∀ slots, Makes ⟨n + 1, .construct scope label cs, m⟩ slots → made slots) :
    EndsIn made (ObjectsIn made)
      (properties (evalTree n scope) scope [] cs >>= fun slots => pure (.object slots)) m := by
  subst hlabel
  refine (hparts.properties hm List.prefix_rfl).bind fun {slots m₁} hrun hm₁ hslots => ?_
  have hgives : evalConstruct (n + 1) scope .object cs m = .ok (.object slots) m₁ := by
    rw [evalConstruct, construct, bind_run hrun]
    rfl
  exact endsIn_pure hm₁ (objectsIn_object (hmade slots (.literal hgives)) hslots)

/-- A field holds objects of its target. -/
theorem ends_field (hlabel : label = .field) :
    EndsIn made (ObjectsIn made) (field (evalTree n scope) cs) m := by
  unfold field
  split
  next target name =>
    have htarget : EndsIn made (ObjectsIn made) (evalTree n scope target) m :=
      hparts (.target (.inl hlabel)) hm trivial
    refine htarget.bind fun _ hm₁ hv => endsIn_ofExcept hm₁ fun _ h slots hslots => ?_
    exact hv slots (Value.member_nests h hslots)
  next => exact endsIn_fail hm _

theorem ends_index (hlabel : label = .index) :
    EndsIn made (ObjectsIn made) (index (evalTree n scope) cs) m := by
  unfold index
  split
  next target key =>
    have htarget : EndsIn made (ObjectsIn made) (evalTree n scope target) m :=
      hparts (.target (.inr hlabel)) hm trivial
    subst hlabel
    refine htarget.bind fun hrun hm₁ hv => ?_
    have hkey : EndsIn made (ObjectsIn made) (evalTree n scope key) _ :=
      hparts (.key hrun) hm₁ trivial
    refine hkey.bind fun _ hm₂ _ => endsIn_ofExcept hm₂ fun _ h slots hslots => ?_
    exact hv slots (Value.member_nests h hslots)
  next => exact endsIn_fail hm _

/-- A call gives what its application does. -/
theorem ends_call (hlabel : label = .call) :
    EndsIn made (ObjectsIn made)
      (call (evalTree n scope) (evalArguments n scope) (callValue n) cs) m := by
  subst hlabel
  unfold call
  split
  next calleeTree argsTree =>
    have hcallee : EndsIn made (ObjectsIn made) (evalTree n scope calleeTree) m :=
      hparts .callee hm trivial
    refine hcallee.bind fun hrun hm₁ hv => ?_
    have hargs : EndsIn made (fun vs => ∀ v ∈ vs, ObjectsIn made v)
        (evalArguments n scope argsTree) _ := hparts (.arguments hrun) hm₁ trivial
    refine hargs.bind fun hrun' hm₂ hvs => ?_
    exact hparts (.call hrun hrun') hm₂ ⟨hv, hvs⟩
  next => exact endsIn_fail hm _

/-- A construct ends as it should if its parts do. -/
theorem construct_ends
    (hmade : ∀ slots, Makes ⟨n + 1, .construct scope label cs, m⟩ slots → made slots) :
    EndsIn made (ObjectsIn made) (evalConstruct (n + 1) scope label cs) m := by
  rw [evalConstruct]
  unfold construct
  -- one goal for each label, in the order of the definition; the last four are no constructs
  split
  next => exact hparts (.body (.inl rfl)) hm trivial
  next => exact hparts (.body (.inr rfl)) hm trivial
  next => exact ends_variableDeclaration hm hparts rfl
  next => exact ends_functionDeclaration hm scope cs
  next => exact ends_conditional hm hparts rfl
  next => exact ends_operation hm hparts (.inl rfl) Value.binary_plain
  next => exact ends_operation hm hparts (.inr rfl) Value.condition_plain
  next => exact ends_assignment hm hparts rfl
  next => exact ends_object hm hparts rfl hmade
  next =>
    have hitems : EndsIn made (fun vs => ∀ v ∈ vs, ObjectsIn made v) (evalItems n scope cs) m :=
      hparts .array hm trivial
    exact hitems.bind fun _ hm₁ hvs => endsIn_pure hm₁ (objectsIn_array hvs)
  next => exact ends_field hm hparts rfl
  next => exact ends_index hm hparts rfl
  next => exact ends_call hm hparts rfl
  next => exact ends_functionLiteral hm scope cs
  next => exact endsIn_fail hm _
  next => exact endsIn_fail hm _
  next => exact endsIn_fail hm _
  next => exact endsIn_fail hm _

end Constructs

/-! ## Evaluation -/

/-- A moment ends as it should if its parts do. -/
theorem ends_of_parts {p : Moment} (hp : p.Starts made) (hparts : PartsEnd made p) :
    p.Ends made := by
  obtain ⟨budget, task, m⟩ := p
  obtain ⟨hm, ht, hmade⟩ := hp
  cases budget with
  | zero => cases task <;> exact hm
  | succ n =>
    cases task with
    | tree scope t =>
      cases t with
      | absent => exact hm
      | leaf l => exact (endsIn_leaf hm scope l).located _
      | node label line cs =>
        have hnode : EndsIn made (ObjectsIn made) (evalConstruct n scope label cs) m :=
          hparts .node hm trivial
        exact hnode.located _
    | construct scope label cs =>
      exact construct_ends hm hparts fun slots => hmade _ slots .refl
    | items scope ts => exact hparts.all hm List.prefix_rfl
    | arguments scope t =>
      refine (endsIn_ofExcept hm fun _ _ => trivial).bind fun hrun _ _ => ?_
      obtain ⟨hts, rfl⟩ := ofExcept_eq_ok.mp hrun
      exact hparts (.argumentItems hts) hm trivial
    | statements scope ts => exact hparts.sequence hm List.prefix_rfl
    | call callee args =>
      cases callee with
      | closure c =>
        have hentered : EndsIn made (ObjectsIn made) (enterClosure n c args) m :=
          hparts .closure hm ht.2
        exact hentered
      | native f => exact endsIn_native hm n f args
      | _ => exact hm
    | enter c args =>
      refine (endsIn_openScope hm c ht).bind fun hrun hm₁ _ => ?_
      exact hparts (.enter hrun) hm₁ trivial

/-- The parts of a moment start as it does if the evaluations before them leave what they should. -/
theorem Moment.Starts.part {p q : Moment} (hp : p.Starts made) (h : Part p q)
    (hm : StoreObjectsIn made q.machine.store) (ht : q.task.ObjectsIn made) : q.Starts made :=
  ⟨hm, ht, fun r slots hr => hp.literals r slots (.head h hr)⟩

/-- A moment that starts with objects of a kind only ends with such objects only. -/
theorem starts_ends {p : Moment} (hp : p.Starts made) : p.Ends made := by
  induction hn : p.budget using Nat.strongRecOn generalizing p with
  | ind n ih =>
    refine ends_of_parts hp ?_
    intro q hq hm ht
    exact ih q.budget (hn ▸ part_budget hq) (hp.part hq hm ht) rfl

/-- The parts of a moment that starts with objects of a kind only start so too. -/
theorem part_starts {p q : Moment} (h : Part p q) (hp : p.Starts made) : q.Starts made := by
  have hparts : PartsEnd made p := fun hq hm ht => starts_ends (hp.part hq hm ht)
  have htree : ∀ {n scope t m v m'}, Part p ⟨n, .tree scope t, m⟩ → StoreObjectsIn made m.store →
      evalTree n scope t m = .ok v m' → StoreObjectsIn made m'.store ∧ ObjectsIn made v :=
    fun hq hm h => EndsIn.given (hparts hq hm trivial) h
  have hargs : ∀ {n scope t m vs m'}, Part p ⟨n, .arguments scope t, m⟩ →
      StoreObjectsIn made m.store → evalArguments n scope t m = .ok vs m' →
      StoreObjectsIn made m'.store ∧ ∀ v ∈ vs, ObjectsIn made v :=
    fun hq hm h => EndsIn.given (hparts hq hm trivial) h
  have hm := hp.store
  have ht := hp.task
  have hq := fun hm ht => hp.part h hm ht
  -- the machine that a part finds is the one that the parts before it leave
  cases h with
  | node | body | initial | test | left | assigned | array | target | callee | argumentItems =>
    exact hq hm trivial
  | closure => exact hq hm ht.2
  | branch hb => exact hq (htree .test hm hb).1 trivial
  | right h hl => exact hq (htree (.left h) hm hl).1 trivial
  | key hk => exact hq (htree (.target (.inr rfl)) hm hk).1 trivial
  | arguments hc => exact hq (htree .callee hm hc).1 trivial
  | call hc ha =>
    obtain ⟨hm₁, hv⟩ := htree .callee hm hc
    obtain ⟨hm₂, hvs⟩ := hargs (.arguments hc) hm₁ ha
    exact hq hm₂ ⟨hv, hvs⟩
  | property hb => exact hq ((hparts.properties hm (List.prefix_append _ _)).given hb).1 trivial
  | item hb => exact hq ((hparts.all hm (List.prefix_append _ _)).given hb).1 trivial
  | statement hb => exact hq ((hparts.sequence hm (List.prefix_append _ _)).given hb).1 trivial
  | enter ho => exact hq ((endsIn_openScope hm _ ht).given ho).1 trivial

/-- So does all that it carries out. -/
theorem reaches_starts {p q : Moment} (h : Reaches p q) (hp : p.Starts made) : q.Starts made := by
  induction h with
  | refl => exact hp
  | tail _ hpart ih => exact part_starts hpart ih

/-! ## What a moment handles -/

/-- A moment gives a value, or gives it among others. -/
def Moment.Gives : Moment → Value → Prop
  | ⟨n, .tree scope t, m⟩, v => ∃ m', evalTree n scope t m = .ok v m'
  | ⟨n, .construct scope label cs, m⟩, v => ∃ m', evalConstruct n scope label cs m = .ok v m'
  | ⟨n, .items scope ts, m⟩, v => ∃ vs m', evalItems n scope ts m = .ok vs m' ∧ v ∈ vs
  | ⟨n, .arguments scope t, m⟩, v => ∃ vs m', evalArguments n scope t m = .ok vs m' ∧ v ∈ vs
  | ⟨n, .statements scope ts, m⟩, v => ∃ m', evalStatements n scope ts m = .ok v m'
  | ⟨n, .call callee args, m⟩, v => ∃ m', callValue n callee args m = .ok v m'
  | ⟨n, .enter c args, m⟩, v => ∃ m', enterClosure n c args m = .ok v m'

/-- A value turns up at a moment: bound in the machine that the moment finds or in the one that it
leaves, as what is called or as an argument, or among its results. -/
inductive Moment.Handles : Moment → Value → Prop where
  | found {q : Moment} {id : ScopeId} {scope : Scope} {b : Binding}
      (hs : q.machine.store.scopes[id]? = some scope) (hb : b ∈ scope.bindings) :
      Handles q b.value
  | left {q : Moment} {id : ScopeId} {scope : Scope} {b : Binding}
      (hs : q.after.store.scopes[id]? = some scope) (hb : b ∈ scope.bindings) :
      Handles q b.value
  | callee {n : Nat} {callee : Value} {args : List Value} {m : Machine} :
      Handles ⟨n, .call callee args, m⟩ callee
  | argument {n : Nat} {callee v : Value} {args : List Value} {m : Machine} (hv : v ∈ args) :
      Handles ⟨n, .call callee args, m⟩ v
  | entered {n : Nat} {c : Closure} {v : Value} {args : List Value} {m : Machine}
      (hv : v ∈ args) : Handles ⟨n, .enter c args, m⟩ v
  | result {q : Moment} {v : Value} (h : q.Gives v) : Handles q v

/-- The machine that a moment leaves binds objects of the kind only. -/
theorem ends_after {q : Moment} (h : q.Ends made) : StoreObjectsIn made q.after.store := by
  obtain ⟨n, task, m⟩ := q
  cases task <;> exact EndsIn.final h

/-- What a moment gives is made of objects of the kind. -/
theorem ends_gives {q : Moment} {v : Value} (h : q.Ends made) (hv : q.Gives v) :
    ObjectsIn made v := by
  obtain ⟨n, task, m⟩ := q
  cases task with
  | tree | construct | statements | call | enter =>
    obtain ⟨m', hv⟩ := hv
    exact (EndsIn.given h hv).2
  | items | arguments =>
    obtain ⟨vs, m', hvs, hmem⟩ := hv
    exact (EndsIn.given h hvs).2 v hmem

/-- Whatever turns up at a moment that starts with objects of a kind only has such objects only. -/
theorem handles_objects {q : Moment} {v : Value} (hq : q.Starts made) (hv : q.Handles v) :
    ObjectsIn made v := by
  have hends := starts_ends hq
  obtain ⟨hstore, htask, -⟩ := hq
  cases hv with
  | found hs hb => exact hstore _ _ hs _ hb
  | left hs hb => exact ends_after hends _ _ hs _ hb
  | callee => exact htask.1
  | argument hmem => exact htask.2 v hmem
  | entered hmem => exact htask v hmem
  | result hv => exact ends_gives hends hv

end Avii.Eval
