import Avii.Eval
import Mathlib.Logic.Relation

/-!
# Where a fault comes from

A `Moment` is a piece of evaluation about to be carried out: a tree, the construct that a node is,
a list of statements, a call and so on, with the budget it has and the machine it finds. `Part`
says which moments a moment carries out in turn, and on which machines: the right operand of an
operator on the machine that the left one leaves, the body of a closure on the one in which its
parameters are bound.

A part that fails makes the whole fail, with the same fault, to which a node adds its line if there
is none yet (`part_fault`), and so does whatever fails within it (`reaches_fault`). So a fault
always comes from a moment that *raises* it: that fails while no part of it does (`fails_raises`).
-/

namespace Avii.Eval

variable {ε α β : Type}

/-! ## Outcomes -/

/-- The fault that a computation ended in, if it did. -/
def faultOf : EStateM.Result Fault Machine α → Option Fault
  | .ok _ _ => none
  | .error f _ => some f

/-- A computation has a fault exactly if it ends in it. -/
theorem faultOf_eq_some {r : EStateM.Result Fault Machine α} {f : Fault} :
    faultOf r = some f ↔ ∃ m, r = .error f m := by
  cases r <;> simp [faultOf]

/-- It has none exactly if it gives something. -/
theorem faultOf_eq_none {r : EStateM.Result Fault Machine α} :
    faultOf r = none ↔ ∃ a m, r = .ok a m := by
  cases r <;> simp [faultOf]

/-- A sequence goes on with what its first half gives. -/
theorem bind_run {x : EStateM ε Machine α} {m m' : Machine} {a : α} (h : x m = .ok a m')
    (g : α → EStateM ε Machine β) : (x >>= g) m = g a m' := by
  show EStateM.bind x g m = g a m'
  simp [EStateM.bind, h]

/-- A sequence fails where its first half does. -/
theorem bind_fails {x : EStateM ε Machine α} {m m' : Machine} {f : ε} (h : x m = .error f m')
    (g : α → EStateM ε Machine β) : (x >>= g) m = .error f m' := by
  show EStateM.bind x g m = .error f m'
  simp [EStateM.bind, h]

/-- A sequence fails if its first half does, or the second one after it. -/
theorem bind_error {x : EStateM ε Machine α} {g : α → EStateM ε Machine β} {m m' : Machine}
    {f : ε} :
    (x >>= g) m = .error f m' ↔
      x m = .error f m' ∨ ∃ a m₁, x m = .ok a m₁ ∧ g a m₁ = .error f m' := by
  cases hx : x m with
  | ok a m₁ =>
    rw [bind_run hx]
    constructor
    · intro h
      exact .inr ⟨a, m₁, rfl, h⟩
    · rintro (h | ⟨a', m₂, h, hg⟩)
      · cases h
      · cases h
        exact hg
  | error f' m₁ =>
    rw [bind_fails hx]
    simp

/-- A sequence gives something exactly if both halves do. -/
theorem bind_eq_ok {x : EStateM ε Machine α} {g : α → EStateM ε Machine β} {m m' : Machine}
    {b : β} :
    (x >>= g) m = .ok b m' ↔ ∃ a m₁, x m = .ok a m₁ ∧ g a m₁ = .ok b m' := by
  cases hx : x m with
  | ok a m₁ =>
    rw [bind_run hx]
    constructor
    · intro h
      exact ⟨a, m₁, rfl, h⟩
    · rintro ⟨a', m₂, h, hg⟩
      cases h
      exact hg
  | error f' m₁ =>
    rw [bind_fails hx]
    simp

@[simp] theorem pure_run (a : α) (m : Machine) : (pure a : Eval α) m = .ok a m := rfl

@[simp] theorem fail_run (f : Fault) (m : Machine) : (fail f : Eval α) m = .error f m := rfl

@[simp] theorem ofExcept_ok (a : α) (m : Machine) :
    (ofExcept (.ok a) : Eval α) m = .ok a m := rfl

@[simp] theorem ofExcept_error (f : Fault) (m : Machine) :
    (ofExcept (.error f) : Eval α) m = .error f m := rfl

/-- An operation on values that succeeds leaves the machine as it is. -/
theorem ofExcept_eq_ok {x : Except Fault α} {a : α} {m m' : Machine} :
    ofExcept x m = .ok a m' ↔ x = .ok a ∧ m = m' := by
  cases x <;> simp

theorem ofExcept_eq_error {x : Except Fault α} {f : Fault} {m m' : Machine} :
    ofExcept x m = .error f m' ↔ x = .error f ∧ m = m' := by
  cases x <;> simp

/-! ## Loops

A loop over two lists is the one over the first and then the one over the second. A loop fails at
the first round that does. -/

variable {eval : Tree → Eval Value} {scope : ScopeId} {m m' : Machine} {f : Fault}

/-- Two lists of trees are evaluated one after the other. -/
theorem all_append (ss ts : List Tree) : all eval (ss ++ ts) = do
    let vs ← all eval ss
    let ws ← all eval ts
    return vs ++ ws := by
  induction ss with
  | nil => simp [all]
  | cons s ss ih => simp [all, ih]

/-- So are two sequences of statements, the second from the last value of the first. -/
theorem sequence_append (last : Value) (ss ts : List Tree) :
    sequence eval last (ss ++ ts) = sequence eval last ss >>= fun v => sequence eval v ts := by
  induction ss generalizing last with
  | nil => rfl
  | cons s ss ih => simp only [List.cons_append, sequence, bind_assoc, ih]

/-- So are two lists of properties, the second with the slots of the first. -/
theorem properties_append (slots : List (String × Value)) (ss ts : List Tree) :
    properties eval scope slots (ss ++ ts) =
      properties eval scope slots ss >>= fun slots => properties eval scope slots ts := by
  induction ss generalizing slots with
  | nil => rfl
  | cons s ss ih => simp only [List.cons_append, properties, bind_assoc, ih]

/-- A list of trees fails exactly where one of them does after those before it have succeeded. -/
theorem all_error_iff {ts : List Tree} {m : Machine} : all eval ts m = .error f m' ↔
    ∃ before t after vs m₁, ts = before ++ t :: after ∧ all eval before m = .ok vs m₁ ∧
      eval t m₁ = .error f m' := by
  constructor
  · intro h
    induction ts generalizing m with
    | nil => cases h
    | cons c cs ih =>
      rw [all, bind_error] at h
      rcases h with h | ⟨v, m₁, hv, h⟩
      · exact ⟨[], c, cs, [], m, rfl, rfl, h⟩
      -- the first tree gave a value, so one of the others failed
      rw [bind_error] at h
      rcases h with h | ⟨vs, m₂, -, h⟩
      · obtain ⟨before, t, after, vs, m₂, rfl, hvs, ht⟩ := ih h
        refine ⟨c :: before, t, after, v :: vs, m₂, rfl, ?_, ht⟩
        rw [all, bind_run hv, bind_run hvs]
        rfl
      · cases h
  · rintro ⟨before, t, after, vs, m₁, rfl, hvs, ht⟩
    rw [all_append, bind_run hvs, all]
    exact bind_fails (bind_fails ht _) _

theorem sequence_error_iff {ts : List Tree} {last : Value} {m : Machine} :
    sequence eval last ts m = .error f m' ↔
    ∃ before t after v m₁, ts = before ++ t :: after ∧ sequence eval last before m = .ok v m₁ ∧
      eval t m₁ = .error f m' := by
  constructor
  · intro h
    induction ts generalizing last m with
    | nil => cases h
    | cons c cs ih =>
      rw [sequence, bind_error] at h
      rcases h with h | ⟨v, m₁, hv, h⟩
      · exact ⟨[], c, cs, last, m, rfl, rfl, h⟩
      · obtain ⟨before, t, after, w, m₂, rfl, hw, ht⟩ := ih h
        refine ⟨c :: before, t, after, w, m₂, rfl, ?_, ht⟩
        rw [sequence, bind_run hv, hw]
  · rintro ⟨before, t, after, w, m₁, rfl, hw, ht⟩
    rw [sequence_append, bind_run hw, sequence]
    exact bind_fails ht _

theorem properties_error_iff {ts : List Tree} {slots : List (String × Value)} {m : Machine} :
    properties eval scope slots ts m = .error f m' ↔
    ∃ before t after slots' m₁, ts = before ++ t :: after ∧
      properties eval scope slots before m = .ok slots' m₁ ∧
      property eval scope t m₁ = .error f m' := by
  constructor
  · intro h
    induction ts generalizing slots m with
    | nil => cases h
    | cons c cs ih =>
      rw [properties, bind_error] at h
      rcases h with h | ⟨p, m₁, hp, h⟩
      · exact ⟨[], c, cs, slots, m, rfl, rfl, h⟩
      · obtain ⟨before, t, after, w, m₂, rfl, hw, ht⟩ := ih h
        refine ⟨c :: before, t, after, w, m₂, rfl, ?_, ht⟩
        rw [properties, bind_run hp]
        exact hw
  · rintro ⟨before, t, after, w, m₁, rfl, hw, ht⟩
    rw [properties_append, bind_run hw, properties]
    exact bind_fails ht _

/-! ## Moments -/

/-- A piece of evaluation. -/
inductive Task where
  | tree (scope : ScopeId) (t : Tree)
  | construct (scope : ScopeId) (label : Label) (children : List Tree)
  | items (scope : ScopeId) (ts : List Tree)
  | arguments (scope : ScopeId) (t : Tree)
  | statements (scope : ScopeId) (ts : List Tree)
  | call (callee : Value) (args : List Value)
  | enter (c : Closure) (args : List Value)

/-- A piece of evaluation with the budget that it has and the machine that it finds. -/
structure Moment where
  budget : Nat
  task : Task
  machine : Machine

/-- The fault in which a moment ends, if it does. -/
def Moment.fault? : Moment → Option Fault
  | ⟨n, .tree scope t, m⟩ => faultOf (evalTree n scope t m)
  | ⟨n, .construct scope label cs, m⟩ => faultOf (evalConstruct n scope label cs m)
  | ⟨n, .items scope ts, m⟩ => faultOf (evalItems n scope ts m)
  | ⟨n, .arguments scope t, m⟩ => faultOf (evalArguments n scope t m)
  | ⟨n, .statements scope ts, m⟩ => faultOf (evalStatements n scope ts m)
  | ⟨n, .call callee args, m⟩ => faultOf (callValue n callee args m)
  | ⟨n, .enter c args, m⟩ => faultOf (enterClosure n c args m)

/-- The line that a moment gives to a mistake that has none: only a tree has one to give. -/
def Moment.line : Moment → Option Int
  | ⟨_, .tree _ t, _⟩ => t.sourceLine
  | _ => none

/-- The moments that a moment carries out in turn. -/
inductive Part : Moment → Moment → Prop where
  | node {n : Nat} {scope : ScopeId} {label : Label} {line : Option Int} {cs : List Tree}
      {m : Machine} :
      Part ⟨n + 1, .tree scope (.node label line cs), m⟩ ⟨n, .construct scope label cs, m⟩
  | body {n : Nat} {scope : ScopeId} {label : Label} {cs : List Tree} {m : Machine}
      (h : label = .program ∨ label = .body) :
      Part ⟨n + 1, .construct scope label cs, m⟩ ⟨n, .statements scope cs, m⟩
  | initial {n : Nat} {scope : ScopeId} {keyword nameTree init : Tree} {name : String}
      {m : Machine} (hn : identifier "Variable name" nameTree = .ok name)
      (hi : init ≠ .absent) :
      Part ⟨n + 1, .construct scope .vardecl [keyword, nameTree, init], m⟩
        ⟨n, .tree scope init, m⟩
  | test {n : Nat} {scope : ScopeId} {test consequent alternate : Tree} {m : Machine} :
      Part ⟨n + 1, .construct scope .ifstmt [test, consequent, alternate], m⟩
        ⟨n, .tree scope test, m⟩
  | branch {n : Nat} {scope : ScopeId} {test consequent alternate : Tree} {b : Bool}
      {body : List Tree} {m m₁ : Machine} (ht : evalTree n scope test m = .ok (.bool b) m₁)
      (hb : childrenOf .body (if b then consequent else alternate) = .ok body) :
      Part ⟨n + 1, .construct scope .ifstmt [test, consequent, alternate], m⟩
        ⟨n, .statements scope body, m₁⟩
  | left {n : Nat} {scope : ScopeId} {label : Label} {l op r : Tree} {m : Machine}
      (h : label = .binary ∨ label = .condition) :
      Part ⟨n + 1, .construct scope label [l, op, r], m⟩ ⟨n, .tree scope l, m⟩
  | right {n : Nat} {scope : ScopeId} {label : Label} {l op r : Tree} {v : Value}
      {m m₁ : Machine} (h : label = .binary ∨ label = .condition)
      (hl : evalTree n scope l m = .ok v m₁) :
      Part ⟨n + 1, .construct scope label [l, op, r], m⟩ ⟨n, .tree scope r, m₁⟩
  | assigned {n : Nat} {scope : ScopeId} {target value : Tree} {name : String} {m : Machine}
      (ht : identifier "Assignment target" target = .ok name) :
      Part ⟨n + 1, .construct scope .assign [target, value], m⟩ ⟨n, .tree scope value, m⟩
  | property {n : Nat} {scope : ScopeId} {before after : List Tree} {t key value : Tree}
      {name : String} {slots : List (String × Value)} {m m₁ : Machine}
      (hb : properties (evalTree n scope) scope [] before m = .ok slots m₁)
      (ht : childrenOf .prop t = .ok [key, value])
      (hk : identifier "Object key" key = .ok name) (hv : value ≠ .absent) :
      Part ⟨n + 1, .construct scope .object (before ++ t :: after), m⟩
        ⟨n, .tree scope value, m₁⟩
  | array {n : Nat} {scope : ScopeId} {cs : List Tree} {m : Machine} :
      Part ⟨n + 1, .construct scope .array cs, m⟩ ⟨n, .items scope cs, m⟩
  | target {n : Nat} {scope : ScopeId} {label : Label} {target key : Tree} {m : Machine}
      (h : label = .field ∨ label = .index) :
      Part ⟨n + 1, .construct scope label [target, key], m⟩ ⟨n, .tree scope target, m⟩
  | key {n : Nat} {scope : ScopeId} {target key : Tree} {v : Value} {m m₁ : Machine}
      (ht : evalTree n scope target m = .ok v m₁) :
      Part ⟨n + 1, .construct scope .index [target, key], m⟩ ⟨n, .tree scope key, m₁⟩
  | callee {n : Nat} {scope : ScopeId} {callee args : Tree} {m : Machine} :
      Part ⟨n + 1, .construct scope .call [callee, args], m⟩ ⟨n, .tree scope callee, m⟩
  | arguments {n : Nat} {scope : ScopeId} {callee args : Tree} {v : Value} {m m₁ : Machine}
      (hc : evalTree n scope callee m = .ok v m₁) :
      Part ⟨n + 1, .construct scope .call [callee, args], m⟩ ⟨n, .arguments scope args, m₁⟩
  | call {n : Nat} {scope : ScopeId} {callee args : Tree} {v : Value} {vs : List Value}
      {m m₁ m₂ : Machine} (hc : evalTree n scope callee m = .ok v m₁)
      (ha : evalArguments n scope args m₁ = .ok vs m₂) :
      Part ⟨n + 1, .construct scope .call [callee, args], m⟩ ⟨n, .call v vs, m₂⟩
  | item {n : Nat} {scope : ScopeId} {before after : List Tree} {t : Tree} {vs : List Value}
      {m m₁ : Machine} (hb : all (evalTree n scope) before m = .ok vs m₁) :
      Part ⟨n + 1, .items scope (before ++ t :: after), m⟩ ⟨n, .tree scope t, m₁⟩
  | argumentItems {n : Nat} {scope : ScopeId} {t : Tree} {ts : List Tree} {m : Machine}
      (ht : childrenOf .args t = .ok ts) :
      Part ⟨n + 1, .arguments scope t, m⟩ ⟨n, .items scope ts, m⟩
  | statement {n : Nat} {scope : ScopeId} {before after : List Tree} {t : Tree} {v : Value}
      {m m₁ : Machine} (hb : sequence (evalTree n scope) .null before m = .ok v m₁) :
      Part ⟨n + 1, .statements scope (before ++ t :: after), m⟩ ⟨n, .tree scope t, m₁⟩
  | closure {n : Nat} {c : Closure} {args : List Value} {m : Machine} :
      Part ⟨n + 1, .call (.closure c) args, m⟩ ⟨n, .enter c args, m⟩
  | enter {n : Nat} {c : Closure} {args : List Value} {scope : ScopeId} {m m₁ : Machine}
      (ho : openScope c args m = .ok scope m₁) :
      Part ⟨n + 1, .enter c args, m⟩ ⟨n, .statements scope c.body, m₁⟩

/-- The moments that a moment carries out, itself included. -/
def Reaches : Moment → Moment → Prop :=
  Relation.ReflTransGen Part

/-- A moment raises a fault: it ends in it, and no part of it ends in any. -/
def Raises (p : Moment) (f : Fault) : Prop :=
  p.fault? = some f ∧ ∀ q, Part p q → q.fault? = none

/-! ## Faults come from parts -/

/-- Without a line a fault stays as it is. -/
theorem located_none (f : Fault) : f.located none = f := by
  unfold Fault.located
  split <;> rfl

/-- The fault of a tree gets the line of the tree, if it has none. -/
theorem located_run {x : Eval α} (h : x m = .error f m') (t : Tree) :
    located t x m = .error (f.located t.sourceLine) m' := by
  simp [located, h]

/-- A computation that fails where a part of it does ends in the fault of the part, with no line
added. -/
theorem ends_with_part {r : EStateM.Result Fault Machine α}
    {part : EStateM.Result Fault Machine β} (h : faultOf part = some f)
    (hr : ∀ m, part = .error f m → r = .error f m) : faultOf r = some (f.located none) := by
  obtain ⟨m, hm⟩ := faultOf_eq_some.mp h
  rw [located_none, hr m hm]
  rfl

/-- A part that is there is evaluated. -/
theorem optional_present {otherwise : Eval Value} {t : Tree} (h : t ≠ .absent) :
    optional otherwise eval t = eval t := by
  cases t with
  | absent => exact absurd rfl h
  | leaf | node => rfl

/-- A tree whose children are taken under a label has it. -/
theorem childrenOf_ok {label : Label} {t : Tree} {cs : List Tree}
    (h : childrenOf label t = .ok cs) : ∃ line, t = .node label line cs := by
  unfold childrenOf at h
  split at h
  next l line cs' =>
    split at h
    next hl =>
      cases h
      exact ⟨line, by rw [hl]⟩
    next => cases h
  next => cases h

/-- The outcome of a property whose value fails. -/
theorem property_fails {t key value : Tree} {name : String}
    (ht : childrenOf .prop t = .ok [key, value]) (hk : identifier "Object key" key = .ok name)
    (hv : value ≠ .absent) (h : eval value m = .error f m') :
    property eval scope t m = .error f m' := by
  rw [property, ht, bind_run (ofExcept_ok _ m)]
  simp only
  rw [hk, bind_run (ofExcept_ok _ m), optional_present hv, bind_fails h]

/-- Where a part fails, the whole does, with the same fault but for the line that it adds. -/
theorem part_fault {p q : Moment} (h : Part p q) {f : Fault} (hq : q.fault? = some f) :
    p.fault? = some (f.located p.line) := by
  cases h with
  | @node n scope label line cs m =>
    obtain ⟨m', hm⟩ := faultOf_eq_some.mp hq
    -- the only place that adds a line
    exact faultOf_eq_some.mpr ⟨m', located_run hm _⟩
  | body h =>
    rcases h with rfl | rfl
    · exact ends_with_part hq fun _ hm => hm
    · exact ends_with_part hq fun _ hm => hm
  | initial hn hi =>
    refine ends_with_part hq fun m' hm => ?_
    rw [evalConstruct, construct, variableDeclaration, hn, bind_run (ofExcept_ok _ _),
      optional_present hi, bind_fails hm]
  | test =>
    refine ends_with_part hq fun m' hm => ?_
    rw [evalConstruct, construct, conditional, bind_fails hm]
  | branch ht hb =>
    refine ends_with_part hq fun m' hm => ?_
    rw [evalConstruct, construct, conditional, bind_run ht]
    simp only
    obtain ⟨line, hbranch⟩ := childrenOf_ok hb
    -- a branch with children is there
    rw [optional_present (by simp [hbranch]), block, hb, bind_run (ofExcept_ok _ _), hm]
  | left h =>
    refine ends_with_part hq fun m' hm => ?_
    rcases h with rfl | rfl
    · rw [evalConstruct, construct, operation, bind_fails hm]
    · rw [evalConstruct, construct, operation, bind_fails hm]
  | right h hl =>
    refine ends_with_part hq fun m' hm => ?_
    rcases h with rfl | rfl
    · rw [evalConstruct, construct, operation, bind_run hl, bind_fails hm]
    · rw [evalConstruct, construct, operation, bind_run hl, bind_fails hm]
  | assigned ht =>
    refine ends_with_part hq fun m' hm => ?_
    rw [evalConstruct, construct, assignment, ht, bind_run (ofExcept_ok _ _), bind_fails hm]
  | property hb ht hk hv =>
    refine ends_with_part hq fun m' hm => ?_
    rw [evalConstruct, construct, bind_error, properties_error_iff]
    exact .inl ⟨_, _, _, _, _, rfl, hb, property_fails ht hk hv hm⟩
  | array =>
    refine ends_with_part hq fun m' hm => ?_
    rw [evalConstruct, construct, bind_fails hm]
  | target h =>
    refine ends_with_part hq fun m' hm => ?_
    rcases h with rfl | rfl
    · rw [evalConstruct, construct, field, bind_fails hm]
    · rw [evalConstruct, construct, index, bind_fails hm]
  | key ht =>
    refine ends_with_part hq fun m' hm => ?_
    rw [evalConstruct, construct, index, bind_run ht, bind_fails hm]
  | callee =>
    refine ends_with_part hq fun m' hm => ?_
    rw [evalConstruct, construct, call, bind_fails hm]
  | arguments hc =>
    refine ends_with_part hq fun m' hm => ?_
    rw [evalConstruct, construct, call, bind_run hc, bind_fails hm]
  | call hc ha =>
    refine ends_with_part hq fun m' hm => ?_
    rw [evalConstruct, construct, call, bind_run hc, bind_run ha]
    exact hm
  | item hb =>
    refine ends_with_part hq fun m' hm => ?_
    rw [evalItems, all_error_iff]
    exact ⟨_, _, _, _, _, rfl, hb, hm⟩
  | argumentItems ht =>
    refine ends_with_part hq fun m' hm => ?_
    rw [evalArguments, arguments, ht, bind_run (ofExcept_ok _ _), hm]
  | statement hb =>
    refine ends_with_part hq fun m' hm => ?_
    rw [evalStatements, sequence_error_iff]
    exact ⟨_, _, _, _, _, rfl, hb, hm⟩
  | closure => exact ends_with_part hq fun _ hm => hm
  | enter ho =>
    refine ends_with_part hq fun m' hm => ?_
    rw [enterClosure, callClosure, bind_run ho, hm]

/-- Only the first line counts that a fault gets. -/
theorem located_located (f : Fault) (line line' : Option Int) :
    ∃ l, (f.located line).located line' = f.located l := by
  cases f with
  | runtime cause own =>
    cases own with
    | none =>
      cases line with
      | none => exact ⟨line', rfl⟩
      | some n => exact ⟨some n, rfl⟩
    | some n => exact ⟨none, rfl⟩
  | internal | domain | depth => exact ⟨none, rfl⟩

/-- What fails within a moment makes it fail, with the same fault but perhaps for its line. -/
theorem reaches_fault {p q : Moment} {f : Fault} (h : Reaches p q) (hq : q.fault? = some f) :
    ∃ l, p.fault? = some (f.located l) := by
  induction h using Relation.ReflTransGen.head_induction_on with
  | refl => exact ⟨none, by rw [located_none, hq]⟩
  | head hpart _ ih =>
    obtain ⟨l, hl⟩ := ih
    obtain ⟨l', hl'⟩ := located_located f l _
    exact ⟨l', by rw [part_fault hpart hl, hl']⟩

/-- The parts of a moment have less budget. -/
theorem part_budget {p q : Moment} (h : Part p q) : q.budget < p.budget := by
  cases h <;> exact Nat.lt_succ_self _

/-- Every fault is raised by a moment that is carried out, and only gets a line afterwards. -/
theorem fails_raises {p : Moment} {f : Fault} (h : p.fault? = some f) :
    ∃ q g line, Reaches p q ∧ Raises q g ∧ f = g.located line := by
  by_cases hpart : ∃ q g, Part p q ∧ q.fault? = some g
  -- a part that fails has a smaller budget, which is what the recursion is on
  · obtain ⟨q, g, hq, hg⟩ := hpart
    have hf : f = g.located p.line := Option.some.inj (h.symm.trans (part_fault hq hg))
    have := part_budget hq
    obtain ⟨r, g', line', hr, hraises, rfl⟩ := fails_raises hg
    obtain ⟨l, hl⟩ := located_located g' line' p.line
    exact ⟨r, g', l, .head hq hr, hraises, hf.trans hl⟩
  · refine ⟨p, f, none, .refl, ⟨h, ?_⟩, (located_none f).symm⟩
    intro q hq
    cases hg : q.fault? with
    | none => rfl
    | some g => exact absurd ⟨q, g, hq, hg⟩ hpart
termination_by p.budget

end Avii.Eval
