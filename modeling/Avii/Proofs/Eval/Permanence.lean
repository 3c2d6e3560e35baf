import Avii.Program
import Avii.Prompt.Session
import Avii.Proofs.Eval.Discipline

/-!
# Bindings stay

Evaluation, with any tree and any outcome, only ever takes a store further along the steps that a
store can make (`evaluate_moves`): it keeps every discipline, so also the one that allows
everything. Whatever is kept by all steps is therefore kept by evaluation, by running program
texts and by sessions at the prompt, where only a reset gives the session another scope.

`bindings_permanent` collects what follows for whole runs. That a session's built-in names never
change comes from `Session.Founded`: its scope is one that was created outermost and kept since.
-/

namespace Avii

open Store (Leads Reachable)

variable {ε α β : Type}

/-- The state in which a computation ends, with or without a result. -/
def final : EStateM.Result ε Machine α → Machine
  | .ok _ m => m
  | .error _ m => m

/-- A computation takes the store of any machine further. -/
def Moves (x : EStateM ε Machine α) : Prop :=
  ∀ m, Leads m.store (final (x m)).store

theorem moves_pure (a : α) : Moves (pure a : EStateM ε Machine α) :=
  fun m => .refl m.store

/-- What takes a store further step by step takes it further. -/
theorem Moves.bind {x : EStateM ε Machine α} {f : α → EStateM ε Machine β} (hx : Moves x)
    (hf : ∀ a, Moves (f a)) : Moves (x >>= f) := by
  intro m
  have hfirst := hx m
  show Leads m.store (final (EStateM.bind x f m)).store
  unfold EStateM.bind
  cases hxm : x m with
  | error e m₁ =>
    rw [hxm] at hfirst
    exact hfirst
  | ok a m₁ =>
    rw [hxm] at hfirst
    exact hfirst.trans (hf a m₁)

/-! ## Evaluation -/

namespace Eval

/-- A computation that keeps a discipline keeps it in the state in which it ends. -/
theorem Keeps.final {D : Discipline} {good : Store → α → Prop} {x : Eval α} {m : Machine}
    (hx : Keeps D m.store good x) (hm : D.store m.store) :
    Leads m.store (final (x m)).store ∧ D.store (final (x m)).store := by
  have h := hx m (.refl _) hm
  cases hxm : x m with
  | ok a m' =>
    rw [hxm] at h
    exact ⟨h.1, h.2.1⟩
  | error f m' =>
    rw [hxm] at h
    exact h

/-- The discipline that allows everything. -/
def anything : Discipline :=
  ⟨fun _ => True, fun _ _ => True, fun _ _ => True, fun _ _ => True, fun _ => True⟩

/-- To allow everything is a lawful discipline. -/
theorem anything_lawful : anything.Lawful := by
  constructor <;> intros <;>
    first | trivial | exact ⟨trivial, trivial⟩ | exact ⟨trivial, fun _ _ => trivial⟩

end Eval

/-- An evaluation takes the store further. -/
theorem evalTree_moves (budget : Nat) (scope : ScopeId) (t : Tree) :
    Moves (evalTree budget scope t) := by
  intro m
  have hkeeps : Eval.Keeps Eval.anything m.store Eval.anything.value (evalTree budget scope t) :=
    (Eval.evaluates Eval.anything_lawful budget).tree trivial trivial
  exact (hkeeps.final trivial).1

/-- Evaluation takes a store further, whatever the tree, the scope, the budget and the outcome. -/
theorem evaluate_moves (budget : Nat) (scope : ScopeId) (t : Tree) :
    Moves (evaluate budget scope t) :=
  Moves.bind (fun m => .refl m.store) fun _ => evalTree_moves budget scope t

/-! ## Program texts -/

theorem final_ofEval (x : Eval α) (m : Machine) : final (Run.ofEval x m) = final (x m) := by
  unfold Run.ofEval
  cases x m with
  | ok a m' => rfl
  | error f m' => rfl

/-- Running a program text takes a store further, whatever its limits and its outcome. -/
theorem program_moves (limit : Nat) (budget : Except LimitError Nat) (scope : ScopeId)
    (source : String) : Moves (Program.run limit budget scope source) := by
  have note_moves : ∀ e, Moves (Run.note e) := fun e m => .refl m.store
  have fail_moves : ∀ {γ : Type} (f : Failure), Moves (Run.fail f : Run γ) := fun f m => .refl _
  have tokens_moves : Moves (Program.tokens source) := by
    unfold Program.tokens
    split
    next => exact fail_moves _
    next => exact (note_moves _).bind fun _ => moves_pure _
  have tree_moves : ∀ ts, Moves (Program.tree limit ts) := by
    intro ts
    unfold Program.tree
    split
    next => exact fail_moves _
    next => exact (note_moves _).bind fun _ => moves_pure _
  have granted_moves : Moves (Program.granted budget) := by
    cases budget with
    | error e => exact fail_moves _
    | ok n => exact moves_pure n
  refine (tokens_moves.bind tree_moves).bind fun t => granted_moves.bind fun n m => ?_
  rw [final_ofEval]
  exact evaluate_moves n scope t m

/-! ## Sessions -/

namespace Prompt

/-- The command that a submission is, if it is one. -/
def commandOf? (text : String) : Option Command :=
  let stripped := Text.strip (normalize text)
  if stripped.toList.head? = some '/' then Command.ofName? (Text.splitFirst stripped).1 else none

/-- The session after a list of submissions. -/
def submitAll (s : Session) (texts : List String) : Session :=
  texts.foldl (fun s text => (submit s text).session) s

/-- The first submission comes first. -/
theorem submitAll_cons (s : Session) (text : String) (texts : List String) :
    submitAll s (text :: texts) = submitAll (submit s text).session texts :=
  List.foldl_cons ..

/-- A value other than null is displayed, on a line. -/
theorem shownValue_of_ne {v : Value} (h : v ≠ .null) (limit : Nat) :
    shownValue limit v = Program.displayed limit v >>= fun text => pure (text ++ "\n") := by
  cases v with
  | null => exact absurd rfl h
  | _ => rfl

/-- To write a value leaves the machine as it is. -/
theorem shownValue_machine (limit : Nat) (v : Value) (m : Machine) :
    final (shownValue limit v m) = m := by
  by_cases hnull : v = .null
  · subst hnull
    rfl
  · rw [shownValue_of_ne hnull]
    show final (EStateM.bind (Program.displayed limit v) _ m) = m
    unfold EStateM.bind Program.displayed
    cases v.display? limit <;> rfl

/-- To evaluate a tree and write its value changes nothing of a session but its machine, which is
the one that the evaluation leaves. -/
theorem runTree_session (s : Session) (t : Tree) :
    (runTree s t).session =
      { s with machine := final (evaluate s.limit s.scope t s.machine) } := by
  have hjob : final ((Run.ofEval (evaluate s.limit s.scope t) >>= shownValue s.limit)
      s.machine) = final (evaluate s.limit s.scope t s.machine) := by
    rw [← final_ofEval]
    show final (EStateM.bind _ _ _) = _
    unfold EStateM.bind
    cases Run.ofEval (evaluate s.limit s.scope t) s.machine with
    | ok v m => exact shownValue_machine _ v m
    | error f m => rfl
  rw [← hjob]
  unfold runTree
  simp only
  split
  next h => rw [h]; rfl
  next h => rw [h, Session.fails_session]; rfl

/-- A program text changes nothing of a session but its machine and the limit in force. The machine
is the one that the run of the text leaves, and the limit is not lowered. -/
theorem runProgram_session (s : Session) (source : String) : ∃ limit, s.limit ≤ limit ∧
    (runProgram s source).session = { s with
      machine := final (Program.run s.limit (s.settings.raise s.limit) s.scope source
        { s.machine with output := "" })
      limit := limit } := by
  unfold runProgram
  cases hread : Program.read s.limit source { s.machine with output := "" } with
  | error f m =>
    refine ⟨s.limit, Nat.le_refl _, ?_⟩
    simp only [Session.fails_session, Program.run_refused hread, final]
  | ok t m =>
    cases hraise : s.settings.raise s.limit with
    | error e =>
      refine ⟨s.limit, Nat.le_refl _, ?_⟩
      simp only [Session.fails_session, Program.run_ungranted hread, final]
    | ok n =>
      refine ⟨n, Settings.le_of_raise hraise, ?_⟩
      simp only [runTree_session, Program.run_granted hread, final_ofEval]

/-- The machine of the session is the one that the run leaves. -/
theorem runProgram_machine (s : Session) (source : String) :
    (runProgram s source).session.machine =
      final (Program.run s.limit (s.settings.raise s.limit) s.scope source
        { s.machine with output := "" }) := by
  obtain ⟨limit, -, h⟩ := runProgram_session s source
  rw [h]

theorem runProgram_scope (s : Session) (source : String) :
    (runProgram s source).session.scope = s.scope := by
  obtain ⟨limit, -, h⟩ := runProgram_session s source
  rw [h]

/-- A step of a session goes from one store to another that it leads to, and stays in its scope;
only a reset creates an outermost scope and moves there. -/
theorem submit_cases (s : Session) (text : String) :
    (Leads s.machine.store (submit s text).session.machine.store ∧
      (submit s text).session.scope = s.scope) ∨
    (commandOf? text = some .reset ∧
      (submit s text).session.machine.store = s.machine.store.createGlobal ∧
      (submit s text).session.scope = s.machine.store.next) := by
  unfold submit
  by_cases hblank : Text.strip (normalize text) = ""
  · rw [if_pos hblank]
    exact .inl ⟨.refl _, rfl⟩
  rw [if_neg hblank]
  -- a submission with a slash in front is a command, known or not; any other is a program
  unfold command?
  by_cases hslash : (Text.strip (normalize text)).toList.head? = some '/'
  · simp only [hslash, if_true]
    cases hc : Command.ofName? (Text.splitFirst (Text.strip (normalize text))).1 with
    | none => exact .inl ⟨.refl _, rfl⟩
    | some c =>
      cases c with
      | ast =>
        left
        simp only [perform, showOutline]
        repeat' split
        all_goals exact ⟨.refl _, rfl⟩
      | clear => exact .inl ⟨.refl _, rfl⟩
      | traceback =>
        left
        simp only [perform, switchTraceback]
        split
        next => exact ⟨.refl _, rfl⟩
        next => exact ⟨.refl _, rfl⟩
      | reset =>
        right
        refine ⟨?_, rfl, rfl⟩
        simp only [commandOf?, hslash, if_true, hc]
  · simp only [hslash, if_false]
    left
    have h := program_moves s.limit (s.settings.raise s.limit) s.scope (normalize text)
      { s.machine with output := "" }
    rw [← runProgram_machine] at h
    exact ⟨h, runProgram_scope s (normalize text)⟩

/-- A step of a session takes its store further. -/
theorem submit_leads (s : Session) (text : String) :
    Leads s.machine.store (submit s text).session.machine.store := by
  rcases submit_cases s text with ⟨h, -⟩ | ⟨-, h, -⟩
  · exact h
  · rw [h]
    exact (Store.Step.createGlobal _).leads

/-- So does a whole session, by induction on the submissions. -/
theorem submitAll_leads (s : Session) : ∀ texts : List String,
    Leads s.machine.store (submitAll s texts).machine.store := by
  intro texts
  induction texts generalizing s with
  | nil => exact .refl _
  | cons text texts ih =>
    rw [submitAll_cons]
    exact (submit_leads s text).trans (ih (submit s text).session)

/-- Without a reset, a session stays in its scope. -/
theorem submitAll_scope (s : Session) {texts : List String}
    (h : ∀ text ∈ texts, commandOf? text ≠ some .reset) :
    (submitAll s texts).scope = s.scope := by
  induction texts generalizing s with
  | nil => rfl
  | cons text texts ih =>
    have hscope : (submit s text).session.scope = s.scope := by
      rcases submit_cases s text with ⟨-, hs⟩ | ⟨hr, -⟩
      · exact hs
      · exact absurd hr (h text (List.mem_cons_self ..))
    -- the scope is the same after the first, so the others stay in it too
    rw [submitAll_cons, ← hscope]
    exact ih (submit s text).session fun t ht => h t (List.mem_cons_of_mem text ht)

/-- A command changes neither the limit in force nor the one that is wanted for evaluations. -/
theorem command?_limits {s : Session} {line : String} {step : Step}
    (h : command? s line = some step) : step.session.limit = s.limit ∧
      step.session.settings.recursionLimit = s.settings.recursionLimit := by
  have hperform : ∀ c arg, (perform s c arg).session.limit = s.limit ∧
      (perform s c arg).session.settings.recursionLimit = s.settings.recursionLimit := by
    intro c arg
    cases c with
    | ast =>
      simp only [perform, showOutline]
      repeat' split
      all_goals exact ⟨rfl, rfl⟩
    | clear | reset => exact ⟨rfl, rfl⟩
    | traceback =>
      simp only [perform, switchTraceback]
      split <;> exact ⟨rfl, rfl⟩
  unfold command? at h
  simp only at h
  repeat' split at h
  all_goals cases h
  · exact hperform _ _
  · exact ⟨rfl, rfl⟩

/-- A submission never lowers the limit in force, and neither does a reset. -/
theorem submit_limit (s : Session) (text : String) : s.limit ≤ (submit s text).session.limit := by
  unfold submit
  simp only
  split
  next => exact Nat.le_refl _
  next =>
    cases hcommand : command? s (normalize text) with
    | some step => exact Nat.le_of_eq (command?_limits hcommand).1.symm
    | none =>
      obtain ⟨limit, hlimit, hsession⟩ := runProgram_session s (normalize text)
      simpa [hsession] using hlimit

/-- Over a session, the limit of nested calls only grows. -/
theorem submitAll_limit (s : Session) (texts : List String) :
    s.limit ≤ (submitAll s texts).limit := by
  induction texts generalizing s with
  | nil => exact Nat.le_refl _
  | cons text texts ih =>
    rw [submitAll_cons]
    exact Nat.le_trans (submit_limit s text) (ih (submit s text).session)

/-- The scope of a session was created outermost, and has been kept since. -/
def Session.Founded (s : Session) : Prop :=
  Reachable s.machine.store ∧
    ∃ scope, s.machine.store.scopes[s.scope]? = some scope ∧ Store.globalScope.Kept scope

/-- A new session is founded. -/
theorem founded_start (settings : Settings) (limit : Nat) :
    (Session.start settings limit).Founded :=
  ⟨.refl _, Store.globalScope, rfl, .refl _⟩

/-- A step keeps it founded: its scope is kept, or replaced by a new outermost one. -/
theorem founded_submit {s : Session} (h : s.Founded) (text : String) :
    (submit s text).session.Founded := by
  obtain ⟨hreach, scope, hscope, hkept⟩ := h
  refine ⟨hreach.trans (submit_leads s text), ?_⟩
  rcases submit_cases s text with ⟨hleads, hs⟩ | ⟨-, hstore, hs⟩
  · obtain ⟨scope', hscope', hkept'⟩ := Store.leads_kept hleads s.scope scope hscope
    exact ⟨scope', by rw [hs, hscope'], hkept.trans hkept'⟩
  · refine ⟨Store.globalScope, ?_, .refl _⟩
    -- after a reset the scope is as it was created
    rw [hstore, hs]
    unfold Store.createGlobal
    rw [Store.scopes_create, if_pos rfl]

theorem founded_submitAll {s : Session} (h : s.Founded) (texts : List String) :
    (submitAll s texts).Founded := by
  induction texts generalizing s with
  | nil => exact h
  | cons text texts ih =>
    rw [submitAll_cons]
    exact ih (founded_submit h text)

/-- A founded session sees every built-in name with its own value. -/
theorem Session.Founded.builtin {s : Session} (h : s.Founded) {b : Binding}
    (hb : b ∈ Store.builtins) :
    s.machine.store.lookup s.scope b.name = .ok b.value ∧
      s.machine.store.isConstant s.scope b.name = true := by
  obtain ⟨-, scope, hscope, hkept⟩ := h
  have hfound : Store.globalScope.find? b.name = some b :=
    Scope.find?_of_mem (by unfold Scope.Distinct; decide) hb
  have hconstant : b.constant = true := by
    revert b
    unfold Store.builtins
    simp [Native.all]
  have hmark : Store.globalScope.marks b.name = true := by
    simp [Scope.marks, hfound, hconstant]
  have hbinds : scope.binds b.name = true := hkept.binds _ (by simp [Scope.binds, hfound])
  -- the session's own scope binds the name, so the search for it ends there
  have hresolve : s.machine.store.resolve s.scope b.name = some s.scope := by
    unfold Store.resolve
    rw [hscope]
    simp [hbinds]
  have hvalue : (scope.find? b.name).map (·.value) = some b.value := by
    have := hkept.value _ hmark
    simpa [Scope.value?, hfound] using this
  have hmark' := hkept.marks _ hmark
  constructor
  · unfold Store.lookup Store.get? Store.binding?
    simp [hresolve, hscope, hvalue]
  · unfold Store.isConstant Store.binding?
    simp only [hresolve, hscope, Option.bind_some]
    exact hmark'

end Prompt

/-- Bindings are permanent and constants immutable over whole runs.

From any store grown from an outermost scope, an evaluation in any scope, of any tree, with any
budget and any outcome, keeps every scope there was: its parent, what it binds, its constants and
their values; and the store after it is again such a store. In every such store no scope binds a
name twice, so its constants are among the names it binds, each found with its mark. In a session
at the prompt, whatever is submitted and whatever fails, the built-in names are constants with
their own values, and up to the next reset no name disappears and no constant changes. -/
theorem bindings_permanent :
    (∀ (m : Machine) (budget : Nat) (scope : ScopeId) (t : Tree), Reachable m.store →
      m.store.Kept (final (evaluate budget scope t m)).store ∧
        Reachable (final (evaluate budget scope t m)).store) ∧
    (∀ (s : Store) (id : ScopeId) (scope : Scope), Reachable s → s.scopes[id]? = some scope →
      ∀ b ∈ scope.bindings, b.constant = true →
        scope.binds b.name = true ∧ scope.find? b.name = some b) ∧
    ∀ (settings : Settings) (limit : Nat) (texts : List String),
      let s := Prompt.submitAll (.start settings limit) texts
      (∀ b ∈ Store.builtins, s.machine.store.lookup s.scope b.name = .ok b.value ∧
        s.machine.store.isConstant s.scope b.name = true) ∧
      ∀ more : List String, (∀ text ∈ more, Prompt.commandOf? text ≠ some .reset) →
        (Prompt.submitAll s more).scope = s.scope ∧
          s.machine.store.Kept (Prompt.submitAll s more).machine.store := by
  refine ⟨?_, ?_, ?_⟩
  · intro m budget scope t hreach
    have hleads := evaluate_moves budget scope t m
    exact ⟨Store.leads_kept hleads, hreach.trans hleads⟩
  · intro s id scope hreach hscope b hb _
    have hfound := Scope.find?_of_mem (Store.reachable_distinct hreach id scope hscope) hb
    exact ⟨by simp [Scope.binds, hfound], hfound⟩
  · intro settings limit texts s
    have hfounded : s.Founded :=
      Prompt.founded_submitAll (Prompt.founded_start settings limit) texts
    refine ⟨fun b hb => hfounded.builtin hb, ?_⟩
    intro more hmore
    exact ⟨Prompt.submitAll_scope s hmore, Store.leads_kept (Prompt.submitAll_leads s more)⟩

end Avii
