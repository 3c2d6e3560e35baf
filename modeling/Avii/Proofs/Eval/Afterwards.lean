import Avii.Proofs.Eval.Isolation
import Avii.Proofs.Eval.Locality

/-!
# What a moment leaves behind

The rest of an evaluation, after one of its moments, goes on from the machine that the moment has
left (`Moment.after`). It takes the store further, and defines names in the scopes of the moments
that are still under way only, and in scopes that it creates itself (`part_after`). These are older
than what the moment has created, so a scope that was created by a moment keeps its outline once the
moment has ended (`reaches_after`). Nor does a binding go away that a moment has made
(`writes_binds`).
-/

namespace Avii.Eval

open Store (Leads)

variable {α β : Type}

/-- The machine that a moment leaves, whatever its outcome. -/
def Moment.after : Moment → Machine
  | ⟨n, .tree scope t, m⟩ => final (evalTree n scope t m)
  | ⟨n, .construct scope label cs, m⟩ => final (evalConstruct n scope label cs m)
  | ⟨n, .items scope ts, m⟩ => final (evalItems n scope ts m)
  | ⟨n, .arguments scope t, m⟩ => final (evalArguments n scope t m)
  | ⟨n, .statements scope ts, m⟩ => final (evalStatements n scope ts m)
  | ⟨n, .call callee args, m⟩ => final (callValue n callee args m)
  | ⟨n, .enter c args, m⟩ => final (enterClosure n c args m)

/-- The scope that a task is carried out in; a call has none, as it opens one. -/
def Task.scope? : Task → Option ScopeId
  | .tree scope _ | .construct scope _ _ | .items scope _ | .arguments scope _
  | .statements scope _ => some scope
  | .call _ _ | .enter _ _ => none

/-- A machine that comes from another by evaluations in a scope, or by calls. -/
structure Follows (scope? : Option ScopeId) (m m' : Machine) : Prop where
  leads : Leads m.store m'.store
  outline : Local (fun id => scope? = some id) m.store m'.store

variable {scope? : Option ScopeId} {m m' m'' : Machine}

/-- A machine follows from itself. -/
theorem follows_refl (scope? : Option ScopeId) (m : Machine) : Follows scope? m m :=
  ⟨.refl _, local_refl _ _⟩

/-- What is the same machine follows from it. -/
theorem follows_of_eq (h : m' = m) : Follows scope? m m' := by
  rw [h]
  exact follows_refl scope? m

/-- What follows in one scope step by step follows as a whole. -/
theorem Follows.trans (h : Follows scope? m m') (h' : Follows scope? m' m'') :
    Follows scope? m m'' := by
  refine ⟨h.leads.trans h'.leads, Nat.le_trans h.outline.next h'.outline.next, ?_⟩
  intro id hid hne
  rw [h'.outline.outline (Nat.lt_of_lt_of_le hid h.outline.next) hne, h.outline.outline hid hne]

/-- Adding to the given scope only, and to new ones. -/
abbrev staying (scope? : Option ScopeId) (before : Store) : Discipline :=
  locality (fun id => scope? = some id) before

/-- To add to one scope and to new ones only is a lawful discipline. -/
theorem staying_lawful (scope? : Option ScopeId) (before : Store) :
    (staying scope? before).Lawful :=
  locality_lawful _ before

/-- A computation that adds to the given scope only, and to new ones. -/
abbrev Stays (scope? : Option ScopeId) (x : Eval α) : Prop :=
  ∀ before s : Store, Keeps (staying scope? before) s any x

/-- To give a fault a line leaves the machine as it is. -/
theorem final_located (t : Tree) (x : Eval α) (m : Machine) :
    final (located t x m) = final (x m) := by
  unfold located
  cases x m <;> rfl

/-! ## Where computations add names -/

section Stays

variable {scope : ScopeId} (n : Nat)

theorem stays_pure (a : α) : Stays scope? (pure a : Eval α) := fun _ _ =>
  keeps_pure fun _ => trivial

theorem stays_ofExcept (x : Except Fault α) : Stays scope? (ofExcept x) := fun _ _ =>
  keeps_ofExcept fun _ _ => trivial

theorem stays_fail (f : Fault) : Stays scope? (fail f : Eval α) := fun _ _ => keeps_fail f

/-- Computations that stay in a scope do so one after the other. -/
theorem Stays.bind {x : Eval α} {k : α → Eval β} (hx : Stays scope? x)
    (hk : ∀ a, Stays scope? (k a)) : Stays scope? (x >>= k) := fun before s =>
  (hx before s).bind fun {t a} _ _ => hk a before t

/-- A definition adds to its own scope. -/
theorem stays_define (name : String) (v : Value) (constant : Bool) :
    Stays (some scope) (define scope name v constant) := fun before _ =>
  keeps_define (staying_lawful (some scope) before) (.inl rfl) trivial name constant

/-- An assignment adds no name. -/
theorem stays_assign (name : String) (v : Value) : Stays (some scope) (assign scope name v) :=
  fun before _ => keeps_assign (staying_lawful (some scope) before) (.inl rfl) trivial name

/-- An evaluation adds to the scope that it is carried out in. -/
theorem stays_tree (t : Tree) : Stays (some scope) (evalTree n scope t) := fun before _ =>
  (evaluates (staying_lawful (some scope) before) n).tree (.inl rfl) trivial

theorem stays_statements (ts : List Tree) : Stays (some scope) (evalStatements n scope ts) :=
  fun before _ =>
    (evaluates (staying_lawful (some scope) before) n).statements (.inl rfl) fun _ _ => trivial

/-- A call adds to scopes that it creates, and to none that there are. -/
theorem stays_call (v : Value) (vs : List Value) : Stays scope? (callValue n v vs) :=
  fun before _ => (evaluates (staying_lawful scope? before) n).call trivial fun _ _ => trivial

/-- Arguments add to the scope that they are evaluated in. -/
theorem stays_arguments (t : Tree) : Stays (some scope) (evalArguments n scope t) :=
  fun before _ =>
    ((evaluates (staying_lawful (some scope) before) n).arguments (.inl rfl) trivial).any

theorem stays_all (ts : List Tree) : Stays (some scope) (all (evalTree n scope) ts) := by
  induction ts with
  | nil => exact stays_pure []
  | cons t ts ih => exact (stays_tree n t).bind fun _ => ih.bind fun _ => stays_pure _

theorem stays_sequence (last : Value) (ts : List Tree) :
    Stays (some scope) (sequence (evalTree n scope) last ts) := by
  induction ts generalizing last with
  | nil => exact stays_pure last
  | cons t ts ih => exact (stays_tree n t).bind ih

theorem stays_properties (slots : List (String × Value)) (ts : List Tree) :
    Stays (some scope) (properties (evalTree n scope) scope slots ts) := fun before s =>
  (keeps_properties (staying_lawful (some scope) before) (.inl rfl)
    (fun t _ => stays_tree n t before s) (fun _ _ => trivial) trivial).any

omit n in
/-- A part that may be absent adds where it would if it were there. -/
theorem stays_optional {eval : Tree → Eval Value} (h : ∀ t, Stays scope? (eval t)) (t : Tree) :
    Stays scope? (optional (pure .null) eval t) := by
  unfold optional
  split
  next => exact stays_pure _
  next => exact h _

theorem stays_block (t : Tree) : Stays (some scope) (block (evalStatements n scope) t) :=
  (stays_ofExcept _).bind fun body => stays_statements n body

theorem stays_note (e : Event) : Stays scope? (note e) := fun _ _ => keeps_note e

/-- Parameters are bound in the scope that was opened for them. -/
theorem stays_bindParams (ps : List String) (vs : List Value) :
    Stays (some scope) (bindParams scope ps vs) := fun before _ =>
  keeps_bindParams (staying_lawful (some scope) before) (.inl rfl) fun _ _ => trivial

omit n in
/-- What stays in a scope leaves a machine that follows. -/
theorem Stays.follows {x : Eval α} (hx : Stays scope? x) (m : Machine) :
    Follows scope? m (final (x m)) :=
  have h := (hx m.store m.store).final (local_refl _ m.store)
  ⟨h.1, h.2⟩

omit n in
/-- Its store is further on. -/
theorem Stays.leads {x : Eval α} (hx : Stays scope? x) {a : α} (h : x m = .ok a m') :
    Leads m.store m'.store := by
  have hleads := (hx.follows m).leads
  rw [h] at hleads
  exact hleads

end Stays

/-! ## The rest of a moment -/

/-- The second of two computations goes on from where the first has ended. -/
theorem follows_bind {x : Eval α} {k : α → Eval β} (hk : ∀ a, Stays scope? (k a)) (m : Machine) :
    Follows scope? (final (x m)) (final ((x >>= k) m)) := by
  cases hx : x m with
  | ok a m₁ =>
    rw [bind_run hx]
    exact (hk a).follows m₁
  | error f m₁ =>
    rw [bind_fails hx]
    exact follows_refl _ _

/-- After a part, a moment goes on in its own scope. -/
theorem part_after {p q : Moment} (h : Part p q) : Follows p.task.scope? q.after p.after := by
  cases h
  all_goals simp only [Moment.after, Task.scope?]
  case node => exact follows_of_eq (final_located _ _ _)
  case body h => rcases h with rfl | rfl <;> exact follows_refl _ _
  case initial hn hi =>
    rw [evalConstruct, construct, variableDeclaration, hn, bind_run (ofExcept_ok _ _),
      optional_present hi]
    exact follows_bind (fun v => (stays_define _ v _).bind fun _ => stays_pure v) _
  case test =>
    rw [evalConstruct, construct, conditional]
    refine follows_bind (fun v => ?_) _
    cases v with
    | bool b => exact stays_optional (stays_block _) _
    | _ => exact stays_fail _
  case branch ht hb =>
    obtain ⟨line, hbranch⟩ := childrenOf_ok hb
    refine follows_of_eq ?_
    rw [evalConstruct, construct, conditional, bind_run ht]
    simp only
    rw [optional_present (by simp [hbranch]), block, hb, bind_run (ofExcept_ok _ _)]
  case left h =>
    rcases h with rfl | rfl
    all_goals
      rw [evalConstruct, construct, operation]
      exact follows_bind (fun l => (stays_tree _ _).bind fun r => stays_ofExcept _) _
  case right h hl =>
    rcases h with rfl | rfl
    all_goals
      rw [evalConstruct, construct, operation, bind_run hl]
      exact follows_bind (fun r => stays_ofExcept _) _
  case assigned ht =>
    rw [evalConstruct, construct, assignment, ht, bind_run (ofExcept_ok _ _)]
    exact follows_bind (fun v => (stays_assign _ v).bind fun _ => stays_pure v) _
  case property hb ht hk hv =>
    -- the value of the property is followed by the properties after it
    rw [evalConstruct, construct, properties_append, bind_assoc, bind_run hb, properties, property,
      ht, bind_assoc, bind_assoc, bind_run (ofExcept_ok _ _)]
    simp only [hk, bind_assoc]
    rw [bind_run (ofExcept_ok _ _), optional_present hv]
    refine follows_bind (fun v => ?_) _
    exact (stays_pure _).bind fun p => (stays_properties _ _ _).bind fun slots => stays_pure _
  case array =>
    rw [evalConstruct, construct]
    exact follows_bind (fun vs => stays_pure _) _
  case target h =>
    rcases h with rfl | rfl
    · rw [evalConstruct, construct, field]
      exact follows_bind (fun v => stays_ofExcept _) _
    · rw [evalConstruct, construct, index]
      exact follows_bind (fun v => (stays_tree _ _).bind fun k => stays_ofExcept _) _
  case key ht =>
    rw [evalConstruct, construct, index, bind_run ht]
    exact follows_bind (fun k => stays_ofExcept _) _
  case callee =>
    rw [evalConstruct, construct, call]
    exact follows_bind (fun v => (stays_arguments _ _).bind fun vs => stays_call _ v vs) _
  case arguments hc =>
    rw [evalConstruct, construct, call, bind_run hc]
    exact follows_bind (fun vs => stays_call _ _ vs) _
  case call hc ha =>
    refine follows_of_eq ?_
    rw [evalConstruct, construct, call, bind_run hc, bind_run ha]
  case item hb =>
    rw [evalItems, all_append, bind_run hb, all, bind_assoc]
    refine follows_bind (fun v => ?_) _
    exact ((stays_all _ _).bind fun vs => stays_pure _).bind fun ws => stays_pure _
  case argumentItems ht =>
    refine follows_of_eq ?_
    rw [evalArguments, arguments, ht, bind_run (ofExcept_ok _ _)]
  case statement hb =>
    rw [evalStatements, sequence_append, bind_run hb, sequence]
    exact follows_bind (fun v => stays_sequence _ v _) _
  case closure => exact follows_refl _ _
  case enter ho =>
    refine follows_of_eq ?_
    rw [enterClosure, callClosure, bind_run ho]

/-! ## The rest of an evaluation -/

/-- Evaluation in scopes that there are, on stores with at least a number of scopes. -/
def existing (bound : Nat) : Discipline :=
  .ofScopes (fun s id => id < s.next) fun s => bound ≤ s.next

/-- To be carried out in scopes that there are is a lawful discipline. -/
theorem existing_lawful (bound : Nat) : (existing bound).Lawful := by
  refine Discipline.ofScopes_lawful (fun h hid => Nat.lt_of_lt_of_le hid (Store.leads_next h)) ?_
    ?_ ?_
  · intro s parent h
    exact ⟨Nat.le_trans h (by simp), by simp⟩
  · intro s id b h _
    exact Nat.le_trans h (by simp)
  · intro s id name v h _
    exact Nat.le_trans h (by simp)

/-- The scope that a moment is carried out in is there. -/
def Moment.Placed (p : Moment) : Prop :=
  ∀ id, p.task.scope? = some id → id < p.machine.store.next

/-- A task is allowed if the scope that it has, if any, is there. -/
theorem existing_allows {bound : Nat} {s : Store} {task : Task} :
    (existing bound).Allows s task ↔ ∀ id, task.scope? = some id → id < s.next := by
  cases task <;>
    simp [Discipline.Allows, existing, Discipline.ofScopes, Task.scope?]

/-- What a moment with a scope carries out has a scope too, and finds no fewer scopes. -/
theorem reaches_placed {p q : Moment} (h : Reaches p q) (hp : p.Placed) :
    q.Placed ∧ p.machine.store.next ≤ q.machine.store.next := by
  have hstart : (existing p.machine.store.next).Holds p :=
    ⟨Nat.le_refl _, existing_allows.mpr hp⟩
  have hq := reaches_holds (existing_lawful _) h hstart
  exact ⟨existing_allows.mp hq.task, hq.store⟩

/-- After a moment, the rest of an evaluation leaves the outlines of the scopes that were created by
the moment. -/
theorem reaches_after {p q : Moment} (h : Reaches p q) (hp : p.Placed) :
    Leads q.after.store p.after.store ∧ ∀ id, q.machine.store.next ≤ id → id < q.after.store.next →
      p.after.store.scopes[id]?.map (·.outline) = q.after.store.scopes[id]?.map (·.outline) := by
  induction h using Relation.ReflTransGen.head_induction_on with
  | refl => exact ⟨.refl _, fun _ _ _ => rfl⟩
  | @head p p' hpart hrest ih =>
    obtain ⟨hp', hnext⟩ := reaches_placed (.single hpart) hp
    obtain ⟨hleads, houtline⟩ := ih hp'
    have hfollows := part_after hpart
    refine ⟨hleads.trans hfollows.leads, fun id hnew hid => ?_⟩
    -- the scope of the moment is older than the one in question
    have hother : ¬ p.task.scope? = some id := by
      intro hscope
      have hold : id < q.machine.store.next :=
        Nat.lt_of_lt_of_le (hp id hscope) (Nat.le_trans hnext (reaches_placed hrest hp').2)
      exact Nat.not_le_of_lt hold hnew
    have hid' := Nat.lt_of_lt_of_le hid (Store.leads_next hleads)
    rw [hfollows.outline.outline hid' hother, houtline id hnew hid]

/-! ## What is written stays -/

/-- A scope of a machine binds a name. -/
def Binds (m : Machine) (id : ScopeId) (name : String) : Prop :=
  ∃ scope, m.store.scopes[id]? = some scope ∧ scope.binds name = true

/-- What was defined is bound. -/
theorem define_binds {scope : ScopeId} {name : String} {v : Value} {constant : Bool}
    {m m' : Machine} (h : define scope name v constant m = .ok () m')
    (hscope : scope < m.store.next) : Binds m' scope name := by
  unfold define update at h
  split at h
  next => cases h
  next =>
    cases h
    obtain ⟨x, hx⟩ : ∃ x, m.store.scopes[scope]? = some x :=
      ⟨_, Array.getElem?_eq_getElem hscope⟩
    refine ⟨x.bind ⟨name, v, constant⟩, ?_, ?_⟩
    · show (m.store.modify _ _).scopes[scope]? = _
      rw [Store.scopes_modify, if_pos rfl, hx]
      rfl
    · cases hf : x.find? name with
      | none => simp_all [Scope.binds, Scope.bind, Scope.find?]
      | some b => simp [Scope.binds, Scope.find?_bind_of_some hf]

/-- What is bound stays so in every store further on. -/
theorem Binds.leads {id : ScopeId} {name : String} (h : Binds m id name)
    (hleads : Leads m.store m'.store) : Binds m' id name := by
  obtain ⟨scope, hscope, hbinds⟩ := h
  obtain ⟨scope', hscope', hkept⟩ := Store.leads_kept hleads id scope hscope
  exact ⟨scope', hscope', hkept.binds name hbinds⟩

/-- What was assigned is bound where it was found. -/
theorem assign_binds {scope owner : ScopeId} {name : String} {v : Value}
    (h : assign scope name v m = .ok () m') (howner : m.store.resolve scope name = some owner) :
    Binds m' owner name := by
  unfold assign update at h
  split at h
  next => cases h
  next hf =>
    cases h
    obtain ⟨owner', x, b, howner', hx, hb, -⟩ := Store.owner_of_assignment hf
    obtain rfl : owner = owner' := Option.some.inj (howner.symm.trans howner')
    refine Binds.leads ⟨x, hx, by simp [Scope.binds, hb]⟩ ?_
    exact (Store.Step.rebind m.store scope name v hf).leads

/-- Parameters are bound one after the other, so a first part of them comes first. -/
theorem bindParams_append (scope : ScopeId) : ∀ {ps : List String} {vs : List Value}
    (ps' : List String) (vs' : List Value), ps.length = vs.length →
      bindParams scope (ps ++ ps') (vs ++ vs') = bindParams scope ps vs >>= fun _ =>
        bindParams scope ps' vs'
  | [], [], _, _, _ => rfl
  | p :: ps, v :: vs, ps', vs', h => by
    have ih := bindParams_append scope ps' vs' (Nat.succ.inj h)
    simp only [List.cons_append, bindParams, bind_assoc, ih]

/-- What a moment writes is bound from then on, to its end. -/
theorem writes_binds {q : Moment} {id : ScopeId} {name : String} {v : Value} {m' : Machine}
    (hq : q.Placed) (h : Writes q id name v m') : Binds q.after id name := by
  cases h with
  | @variableDeclaration n _ _ _ _ _ _ _ _ _ hn hv hd =>
    have hleads := (stays_optional (stays_tree n) _).leads hv
    have hbinds := define_binds hd (Nat.lt_of_lt_of_le (hq id rfl) (Store.leads_next hleads))
    simp only [Moment.after]
    rw [evalConstruct, construct, variableDeclaration, hn, bind_run (ofExcept_ok _ _), bind_run hv,
      bind_run hd]
    exact hbinds
  | functionDeclaration hn hp hb hc hd =>
    have hbinds := define_binds hd (by
      -- the scope for the closure comes after the one of the declaration
      cases hc
      exact Nat.lt_of_lt_of_le (hq id rfl) (by simp))
    simp only [Moment.after]
    rw [evalConstruct, construct, functionDeclaration, hn, hp, hb, bind_run (ofExcept_ok _ _),
      bind_run (ofExcept_ok _ _), bind_run (ofExcept_ok _ _), bind_run hc, bind_run hd]
    exact hbinds
  | assignment hn hv ho ha =>
    have hbinds := assign_binds ha ho
    simp only [Moment.after]
    rw [evalConstruct, construct, assignment, hn, bind_run (ofExcept_ok _ _), bind_run hv,
      bind_run ha]
    exact hbinds
  | @parameter n c _ ps ps' _ vs vs' _ m m₁ m₂ _ hps hlen hlen' hc hb hd =>
    have hnext : id < m₁.store.next := by
      cases hc
      simp
    have hleads := (stays_bindParams ps vs).leads hb
    have hbinds := define_binds hd (Nat.lt_of_lt_of_le hnext (Store.leads_next hleads))
    have harity : ∀ nm, checkArity nm (some c.params.length) (vs ++ v :: vs') = pure () := by
      intro nm
      simp [checkArity, hps, hlen, hlen']
    simp only [Moment.after]
    rw [enterClosure, callClosure, openScope, harity, bind_assoc, pure_bind, bind_assoc,
      bind_run hc, hps, bindParams_append _ _ _ hlen, bindParams]
    simp only [bind_assoc]
    rw [bind_run hb, bind_run hd]
    have hrest : Stays (some id) (bindParams id ps' vs' >>= fun _ =>
        note (.called (nameOr "<anonymous>" c) (ps ++ name :: ps')) >>= fun _ =>
        pure id >>= fun scope => evalStatements n scope c.body) := by
      refine (stays_bindParams ps' vs').bind fun _ => (stays_note _).bind fun _ => ?_
      rw [pure_bind]
      exact stays_statements n c.body
    exact hbinds.leads (hrest.follows m').leads

end Avii.Eval
