import Avii.Proofs.Eval.Taxonomy
import Avii.Proofs.Transplant.Evaluation
import Mathlib.Data.List.Basic

/-!
# A reset erases the past

After a reset, a session answers as a new one does that is started within the limit of nested calls
now in force (`reset_erases_past`): the limit is the host's, and a reset does not lower it.

The scopes from before the reset are still in the store, below the scope that the reset created, and
everything after it is numbered from there. So the session after the reset is a new session on top
of other scopes (`Above`), and a step of either stays such a pair and gives the same answer
(`follows_enter`): evaluation on top of other scopes does the same, and what is shown of a value or
of a fault does not tell scopes apart.
-/

namespace Avii

/-- What an evaluation raises the limit to depends on the wanted limit only. -/
theorem Settings.raise_congr {s s' : Settings} (h : s'.recursionLimit = s.recursionLimit)
    (current : Nat) : s'.raise current = s.raise current := by
  unfold raise limit
  rw [h]

/-- Switching tracebacks settles whether they are shown. -/
theorem Settings.showsTraceback_withTraceback (s : Settings) (shown : Bool) :
    (s.withTraceback shown).showsTraceback = shown := by
  have hon : Text.lower (Text.strip "1") = "1" := by cbv
  have hoff : Text.lower (Text.strip "") = "" := by cbv
  cases shown with
  | true => simp [withTraceback, showsTraceback, hon, affirmative]
  | false => simp [withTraceback, showsTraceback, hoff, affirmative]

/-! ## Runs on top of other scopes -/

namespace Transplant

variable {T : Transplant} {m m' : Machine}

theorem Moved.note (h : T.Moved m m') (e : Event) :
    T.Moved { m with events := e :: m.events } { m' with events := e :: m'.events } := by
  obtain ⟨new, hnew, hnew'⟩ := h.events
  exact ⟨h.store, h.output, e :: new, congrArg _ hnew, congrArg _ hnew'⟩

/-- How two runs end that do the same but for the scopes below. -/
def RunsAlike {α β : Type} (T : Transplant) (f : α → β) :
    EStateM.Result Failure Machine α → EStateM.Result Failure Machine β → Prop
  | .ok a m, .ok b m' => b = f a ∧ T.Moved m m'
  | .error e m, .error e' m' => e' = e ∧ T.Moved m m'
  | _, _ => False

/-- Runs do the same step by step. -/
theorem RunsAlike.bind {α β γ δ : Type} {f : α → β} {g : γ → δ} {x : Run α} {x' : Run β}
    {k : α → Run γ} {k' : β → Run δ} (hx : T.RunsAlike f (x m) (x' m'))
    (hk : ∀ a m m', T.Moved m m' → T.RunsAlike g (k a m) (k' (f a) m')) :
    T.RunsAlike g ((x >>= k) m) ((x' >>= k') m') := by
  show T.RunsAlike g (EStateM.bind x k m) (EStateM.bind x' k' m')
  unfold EStateM.bind
  cases hxm : x m with
  | ok a m₁ =>
    cases hxm' : x' m' with
    | ok b m₁' =>
      rw [hxm, hxm'] at hx
      obtain ⟨rfl, hm₁⟩ := hx
      exact hk a m₁ m₁' hm₁
    | error =>
      rw [hxm, hxm'] at hx
      exact hx.elim
  | error e m₁ =>
    cases hxm' : x' m' with
    | ok =>
      rw [hxm, hxm'] at hx
      exact hx.elim
    | error =>
      rw [hxm, hxm'] at hx
      exact hx

theorem Corresponds.runsAlike (hkeep : T.places = .keep) {x x' : Eval Value}
    (h : T.Corresponds T.value (x m) (x' m')) :
    T.RunsAlike T.value (Run.ofEval x m) (Run.ofEval x' m') := by
  unfold Run.ofEval
  cases hx : x m with
  | ok v m₁ =>
    rw [hx] at h
    obtain ⟨m₁', hx', hm₁⟩ := h.of_ok
    rw [hx']
    exact ⟨rfl, hm₁⟩
  | error f m₁ =>
    rw [hx] at h
    obtain ⟨m₁', hx', hm₁⟩ := h.of_error
    rw [hx', fault, hkeep, Fault.transplant_keep]
    exact ⟨rfl, hm₁⟩

/-- A program text is read in the same way, whatever the scopes are. -/
theorem read_alike (limit : Nat) (source : String) (hm : T.Moved m m') :
    T.RunsAlike id (Program.read limit source m) (Program.read limit source m') := by
  have htokens : T.RunsAlike id (Program.tokens source m) (Program.tokens source m') := by
    unfold Program.tokens
    cases tokenize source with
    | error e => exact ⟨rfl, hm⟩
    | ok ts => exact ⟨rfl, hm.note _⟩
  refine htokens.bind fun ts m m' hm => ?_
  unfold Program.tree
  simp only [id_eq]
  cases parseTokens limit ts with
  | error e => exact ⟨rfl, hm⟩
  | ok t => exact ⟨rfl, hm.note _⟩

/-- A tree is evaluated on top of other scopes as it is without them. -/
theorem evaluation_alike (hkeep : T.places = .keep) (budget : Nat) (scope : ScopeId) (t : Tree)
    (hm : T.Moved m m') : T.RunsAlike T.value (Run.ofEval (evaluate budget scope t) m)
      (Run.ofEval (evaluate budget (T.scope scope) t) m') := by
  have h := preserves_evaluate budget scope t _ _ hm
  rw [tree, hkeep, Tree.transplant_keep] at h
  exact Corresponds.runsAlike hkeep h

/-- How a value is displayed does not depend on the scopes of the closures in it. -/
theorem displayed_value (limit : Nat) (v : Value) :
    Program.displayed limit (T.value v) = Program.displayed limit v := by
  unfold Program.displayed Value.display?
  rw [Value.transplant_displaySteps, Value.transplant_display]

/-- What is written for a value is the same. -/
theorem shownValue_value (limit : Nat) (v : Value) :
    Prompt.shownValue limit (T.value v) = Prompt.shownValue limit v := by
  by_cases hv : v = .null
  · subst hv
    rfl
  · have hv' : T.value v ≠ .null := by
      cases v with
      | null => exact absurd rfl hv
      | _ => simp
    rw [Prompt.shownValue_of_ne hv, Prompt.shownValue_of_ne hv', displayed_value]

/-- To write a value leaves the machine as it is. -/
theorem shownValue_alike (limit : Nat) (v : Value) (hm : T.Moved m m') :
    T.RunsAlike id (Prompt.shownValue limit v m) (Prompt.shownValue limit v m') := by
  have hdisplayed :
      T.RunsAlike id (Program.displayed limit v m) (Program.displayed limit v m') := by
    unfold Program.displayed
    cases v.display? limit with
    | none => exact ⟨rfl, hm⟩
    | some text => exact ⟨rfl, hm⟩
  cases v with
  | null => exact ⟨rfl, hm⟩
  | _ => exact hdisplayed.bind fun _ _ _ hm => ⟨rfl, hm⟩

end Transplant

/-! ## Sessions -/

namespace Prompt

/-- What is entered at the prompt: a submission, or a line that is only tried as a command. -/
inductive Entry where
  | submission (text : String)
  | command (line : String)

/-- The step that an entry makes. A line that is no command does nothing. -/
def Session.enter (s : Session) : Entry → Step
  | .submission text => submit s text
  | .command line => (command? s line).getD (s.writes .empty)

/-- The session after some entries. -/
def Session.enterAll (s : Session) (entries : List Entry) : Session :=
  entries.foldl (fun s e => (s.enter e).session) s

/-- The line that is tried as a command when something is entered. -/
def Entry.line : Entry → String
  | submission text => normalize text
  | command line => line

/-- Is this entry the command that resets the session? -/
def Entry.isReset (e : Entry) : Bool :=
  let stripped := Text.strip e.line
  stripped.toList.head? = some '/' && Command.ofName? (Text.splitFirst stripped).1 = some .reset

/-- What a session shows of a step: what it wrote, what it noted, the failure that ended it, and the
names that its scope binds beyond the built-in ones. -/
structure Answer where
  console : Console
  notes : List Event
  escaped : Option Failure
  names : List String
deriving DecidableEq

/-- The answer that a step from a session is. -/
def Session.answer (s : Session) (step : Step) : Answer where
  console := step.console
  notes := step.session.machine.events.take
    (step.session.machine.events.length - s.machine.events.length)
  escaped := step.escaped
  names := step.session.names

/-- The answers to some entries. -/
def Session.answers (s : Session) : List Entry → List Answer
  | [] => []
  | e :: es => s.answer (s.enter e) :: (s.enter e).session.answers es

variable {below : Array Scope} {s s' : Session}

/-- The second session is the first one on top of other scopes. -/
structure Above (below : Array Scope) (s s' : Session) : Prop where
  store : s'.machine.store = s.machine.store.transplant .keep below
  scope : s'.scope = s.scope + below.size
  limit : s'.limit = s.limit
  wanted : s'.settings.recursionLimit = s.settings.recursionLimit
  traceback : s'.settings.showsTraceback = s.settings.showsTraceback

/-- A step of the second session does what a step of the first one does. -/
structure Follows (below : Array Scope) (s s' : Session) (step step' : Step) : Prop where
  session : Above below step.session step'.session
  console : step'.console = step.console
  escaped : step'.escaped = step.escaped
  notes : ∃ new, step.session.machine.events = new ++ s.machine.events ∧
    step'.session.machine.events = new ++ s'.machine.events

/-- Both sessions bind the same names beyond the built-in ones. -/
theorem Above.names (h : Above below s s') : s'.names = s.names := by
  unfold Session.names
  rw [h.store, h.scope, Store.transplant_ownListing]

/-- Steps that do the same are the same answer. -/
theorem Follows.answer {step step' : Step} (h : Follows below s s' step step') :
    s'.answer step' = s.answer step := by
  obtain ⟨new, hnew, hnew'⟩ := h.notes
  unfold Session.answer
  rw [h.console, h.escaped, h.session.names, hnew, hnew']
  simp

theorem follows_writes (h : Above below s s') (c : Console) :
    Follows below s s' (s.writes c) (s'.writes c) :=
  ⟨h, rfl, rfl, [], rfl, rfl⟩

theorem report_above (h : Above below s s') (f : Failure) :
    Console.report s'.settings f = Console.report s.settings f := by
  unfold Console.report
  rw [h.traceback]

/-! ### Commands -/

/-- Switching tracebacks has the same effect where they are shown alike. -/
theorem follows_switchTraceback (h : Above below s s') (arg : String) :
    Follows below s s' (switchTraceback s arg) (switchTraceback s' arg) := by
  unfold switchTraceback
  rw [h.traceback]
  cases wantsTraceback? s.settings.showsTraceback arg with
  | none => exact follows_writes h _
  | some shown =>
    simp only [Settings.showsTraceback_withTraceback]
    refine ⟨⟨h.store, h.scope, h.limit, h.wanted, ?_⟩, rfl, rfl, [], rfl, rfl⟩
    show (s'.settings.withTraceback shown).showsTraceback =
      (s.settings.withTraceback shown).showsTraceback
    rw [Settings.showsTraceback_withTraceback, Settings.showsTraceback_withTraceback]

/-- The outline of a text depends on the limit in force, not on the machine. -/
theorem follows_showOutline (h : Above below s s') (code : String) :
    Follows below s s' (showOutline s code) (showOutline s' code) := by
  have hescapes : Follows below s s' ⟨s, .empty, some .nesting⟩ ⟨s', .empty, some .nesting⟩ :=
    ⟨h, rfl, rfl, [], rfl, rfl⟩
  unfold showOutline
  simp only [report_above h, h.limit]
  repeat' split
  all_goals first
    | exact follows_writes h _
    | exact hescapes

/-- A reset creates a scope on top of those there are, and leaves the limit as it is. -/
theorem follows_reset (h : Above below s s') : Follows below s s' (reset s) (reset s') := by
  unfold reset Store.createGlobal
  refine ⟨⟨?_, ?_, h.limit, h.wanted, h.traceback⟩, rfl, rfl, [], rfl, rfl⟩
  · show s'.machine.store.create _ = (s.machine.store.create _).transplant .keep below
    rw [Store.transplant_create, h.store, Scope.transplant_globalScope]
  · show s'.machine.store.next = s.machine.store.next + below.size
    rw [h.store, Store.transplant_next]

theorem follows_perform (h : Above below s s') (c : Command) (arg : String) :
    Follows below s s' (perform s c arg) (perform s' c arg) := by
  cases c with
  | ast => exact follows_showOutline h arg
  | clear => exact follows_writes h .empty
  | traceback => exact follows_switchTraceback h arg
  | reset => exact follows_reset h

/-- A line is a command of both sessions or of neither, and does the same in both. -/
theorem follows_command? (h : Above below s s') (line : String) :
    Option.Rel (Follows below s s') (command? s line) (command? s' line) := by
  unfold command?
  by_cases hslash : (Text.strip line).toList.head? = some '/'
  · simp only [hslash, if_true]
    cases Command.ofName? (Text.splitFirst (Text.strip line)).1 with
    | some c => exact .some (follows_perform h c _)
    | none => exact .some (follows_writes h _)
  · simp only [hslash, if_false]
    exact .none

/-! ### Submissions -/

/-- The machines of two sessions are alike but for the scopes below, and have noted the same since
two other sessions. -/
def Since (below : Array Scope) (s s' : Session) : Machine → Machine → Prop :=
  (Transplant.mk .keep below s.machine.events s'.machine.events).Moved

variable {s₁ s₁' : Session} {m m' : Machine}

/-- A failure is reported by both sessions in the same way, or ends both. -/
theorem follows_fails (h : Above below s₁ s₁') (hm : Since below s s' m m') (f : Failure) :
    Follows below s s' (s₁.fails f m) (s₁'.fails f m') := by
  have habove : Above below { s₁ with machine := m } { s₁' with machine := m' } :=
    ⟨hm.store, h.scope, h.limit, h.wanted, h.traceback⟩
  unfold Session.fails
  simp only [report_above h, hm.output]
  split
  next => exact ⟨habove, rfl, rfl, hm.events⟩
  next => exact ⟨habove, rfl, rfl, hm.events⟩

/-- A tree is evaluated and its value shown by both sessions alike, in stores and scopes that are
one on top of the other. -/
theorem follows_runTree (h : Above below s₁ s₁') (hm : Since below s s' s₁.machine s₁'.machine)
    (t : Tree) : Follows below s s' (runTree s₁ t) (runTree s₁' t) := by
  let T : Transplant := ⟨.keep, below, s.machine.events, s'.machine.events⟩
  have hjob : T.RunsAlike id
      ((Run.ofEval (evaluate s₁.limit s₁.scope t) >>= shownValue s₁.limit) s₁.machine)
      ((Run.ofEval (evaluate s₁.limit (T.scope s₁.scope) t) >>= shownValue s₁.limit)
        s₁'.machine) := by
    refine (Transplant.evaluation_alike rfl _ _ t hm).bind fun v m m' hm => ?_
    rw [Transplant.shownValue_value]
    exact Transplant.shownValue_alike _ v hm
  unfold runTree
  rw [h.limit, h.scope]
  simp only
  generalize (Run.ofEval (evaluate s₁.limit s₁.scope t) >>= shownValue s₁.limit) s₁.machine = r
    at hjob ⊢
  generalize (Run.ofEval (evaluate s₁.limit (T.scope s₁.scope) t) >>= shownValue s₁.limit)
    s₁'.machine = r' at hjob ⊢
  cases r with
  | ok text m =>
    cases r' with
    | ok text' m' =>
      obtain ⟨rfl, hm⟩ := hjob
      have habove : Above below { s₁ with machine := m }
          ⟨m', s₁.scope + below.size, s₁'.settings, s₁.limit⟩ :=
        ⟨hm.store, rfl, rfl, h.wanted, h.traceback⟩
      exact ⟨habove, by simp [hm.output], rfl, hm.events⟩
    | error => exact hjob.elim
  | error f m =>
    cases r' with
    | ok => exact hjob.elim
    | error f' m' =>
      obtain ⟨rfl, hm⟩ := hjob
      exact follows_fails h hm f'

/-- A program text is read, its limit raised and its tree evaluated by both sessions alike. -/
theorem follows_runProgram (h : Above below s s') (source : String) :
    Follows below s s' (runProgram s source) (runProgram s' source) := by
  have hstart : Since below s s' { s.machine with output := "" }
      { s'.machine with output := "" } := ⟨h.store, rfl, [], rfl, rfl⟩
  have hread := Transplant.read_alike s.limit source hstart
  unfold runProgram
  rw [h.limit, Settings.raise_congr h.wanted]
  cases hs : Program.read s.limit source { s.machine with output := "" } with
  | error f m =>
    cases hs' : Program.read s.limit source { s'.machine with output := "" } with
    | ok => rw [hs, hs'] at hread; exact hread.elim
    | error f' m' =>
      rw [hs, hs'] at hread
      obtain ⟨rfl, hm⟩ := hread
      exact follows_fails h hm f'
  | ok t m =>
    cases hs' : Program.read s.limit source { s'.machine with output := "" } with
    | error => rw [hs, hs'] at hread; exact hread.elim
    | ok t' m' =>
      rw [hs, hs'] at hread
      obtain ⟨rfl, hm⟩ := hread
      cases s.settings.raise s.limit with
      | error e => exact follows_fails h hm (.budget e)
      | ok n =>
        have habove : Above below { s with machine := m, limit := n }
            { s' with machine := m', limit := n } :=
          ⟨hm.store, h.scope, rfl, h.wanted, h.traceback⟩
        exact follows_runTree habove hm _

/-- A submission is nothing, a command or a program text to both sessions. -/
theorem follows_submit (h : Above below s s') (text : String) :
    Follows below s s' (submit s text) (submit s' text) := by
  unfold submit
  simp only
  split
  next => exact follows_writes h .empty
  next =>
    have hcommand := follows_command? h (normalize text)
    generalize command? s (normalize text) = c at hcommand ⊢
    generalize command? s' (normalize text) = c' at hcommand ⊢
    cases hcommand with
    | none => exact follows_runProgram h _
    | some hstep => exact hstep

/-- Whatever is entered, both sessions do the same. -/
theorem follows_enter (h : Above below s s') (e : Entry) :
    Follows below s s' (s.enter e) (s'.enter e) := by
  cases e with
  | submission text => exact follows_submit h text
  | command line =>
    have hcommand := follows_command? h line
    simp only [Session.enter]
    generalize command? s line = c at hcommand ⊢
    generalize command? s' line = c' at hcommand ⊢
    cases hcommand with
    | none => exact follows_writes h .empty
    | some hstep => exact hstep

/-- A session on top of other scopes answers as the session without them, whatever is entered. -/
theorem answers_above (h : Above below s s') (entries : List Entry) :
    s'.answers entries = s.answers entries := by
  induction entries generalizing s s' with
  | nil => rfl
  | cons e es ih =>
    have hstep := follows_enter h e
    rw [Session.answers, Session.answers, hstep.answer, ih hstep.session]

/-! ## Resets -/

theorem runProgram_settings (s : Session) (source : String) :
    (runProgram s source).session.settings = s.settings := by
  obtain ⟨limit, -, h⟩ := runProgram_session s source
  rw [h]

/-- No step changes the limit that is wanted for evaluations. -/
theorem enter_wanted (s : Session) (e : Entry) :
    (s.enter e).session.settings.recursionLimit = s.settings.recursionLimit := by
  cases e with
  | submission text =>
    unfold Session.enter submit
    simp only
    split
    next => rfl
    next =>
      split
      next step h => exact (command?_limits h).2
      next => rw [runProgram_settings]
  | command line =>
    unfold Session.enter
    simp only
    cases h : command? s line with
    | none => rfl
    | some step => exact (command?_limits h).2

/-- So the limit that is wanted stays as it was in the beginning, by induction on the entries. -/
theorem enterAll_wanted (s : Session) (entries : List Entry) :
    (s.enterAll entries).settings.recursionLimit = s.settings.recursionLimit := by
  induction entries generalizing s with
  | nil => rfl
  | cons e es ih => exact (ih (s.enter e).session).trans (enter_wanted s e)

/-- An entry that is the command for a reset resets the session. -/
theorem enter_reset (s : Session) {e : Entry} (he : e.isReset = true) :
    s.enter e = reset s := by
  unfold Entry.isReset at he
  simp only [Bool.and_eq_true, decide_eq_true_eq] at he
  obtain ⟨hslash, hname⟩ := he
  have hcommand : command? s e.line = some (reset s) := by
    unfold command?
    simp only [hslash, hname, if_true]
    rfl
  cases e with
  | submission text =>
    have hne : Text.strip (normalize text) ≠ "" := by
      intro h
      have hslash' : (Text.strip (normalize text)).toList.head? = some '/' := hslash
      rw [h] at hslash'
      cases hslash'
    have hcommand' : command? s (normalize text) = some (reset s) := hcommand
    unfold Session.enter submit
    simp only [if_neg hne, hcommand']
  | command line =>
    have hcommand' : command? s line = some (reset s) := hcommand
    simp [Session.enter, hcommand']

/-- After a reset, a session is a new one on top of the scopes that it had. -/
theorem above_reset {settings : Settings}
    (hwanted : settings.recursionLimit = s.settings.recursionLimit)
    (htraceback : settings.showsTraceback = s.settings.showsTraceback) :
    Above s.machine.store.scopes (.start settings s.limit) (reset s).session := by
  refine ⟨?_, ?_, rfl, hwanted.symm, htraceback.symm⟩
  · show s.machine.store.createGlobal = Store.empty.createGlobal.transplant .keep _
    simp [Store.createGlobal, Store.create, Store.transplant, Store.empty]
  · show s.machine.store.next = 0 + s.machine.store.scopes.size
    simp [Store.next]

/-- A reset erases the past. Whatever was entered before it, the answers to all that is entered
after it are those of a new session that is started within the limit of nested calls in force before
the reset, with the same limit wanted for evaluations and with tracebacks switched as they were. -/
theorem reset_erases_past {settings fresh : Settings} {limit : Nat} {before : List Entry}
    {e : Entry} (he : e.isReset = true) (hwanted : fresh.recursionLimit = settings.recursionLimit)
    (htraceback : fresh.showsTraceback =
      (Session.enterAll (.start settings limit) before).settings.showsTraceback)
    (after : List Entry) :
    (Session.enterAll (.start settings limit) (before ++ [e])).answers after =
      (Session.start fresh (Session.enterAll (.start settings limit) before).limit).answers
        after := by
  let s := Session.enterAll (.start settings limit) before
  have hs : Session.enterAll (.start settings limit) (before ++ [e]) = (reset s).session := by
    unfold Session.enterAll
    rw [List.foldl_append, List.foldl_cons, List.foldl_nil, enter_reset _ he]
    rfl
  rw [hs]
  have hwanted' : fresh.recursionLimit = s.settings.recursionLimit :=
    hwanted.trans (enterAll_wanted (.start settings limit) before).symm
  exact answers_above (above_reset hwanted' htraceback) after

/-- For instance after a constant was defined and tracebacks were switched on. The new session
starts within the limit that the definition has raised. -/
theorem reset_erases_constant :
    (Session.enterAll (.start ⟨none, none, none⟩ 1000) ([.submission "const x = 1;",
        .submission "/py-traceback on"] ++ [.command " /reset "])).answers
        [.submission "let x = 2;", .submission "y"] =
      (Session.start ⟨none, some "1", none⟩ 5000).answers
        [.submission "let x = 2;", .submission "y"] := by
  have hreset : Entry.isReset (.command " /reset ") = true := by cbv
  have hswitch : ∀ s : Session, submit s "/py-traceback on" = switchTraceback s "on" := by
    intro s
    have hnormal : normalize "/py-traceback on" = "/py-traceback on" := by cbv
    have hstrip : Text.strip "/py-traceback on" = "/py-traceback on" := by cbv
    have hsplit : Text.splitFirst "/py-traceback on" = ("/py-traceback", "on") := by cbv
    have hname : Command.ofName? "/py-traceback" = some .traceback := by cbv
    simp [submit, command?, hnormal, hstrip, hsplit, hname, perform]
  -- the switch has the same effect wherever it stood before
  have hon : ∀ s : Session,
      (submit s "/py-traceback on").session.settings.showsTraceback = true := by
    intro s
    have hwish : ∀ shown, wantsTraceback? shown "on" = some true := by
      intro shown
      have hlower : Text.lower "on" = "on" := by cbv
      simp [wantsTraceback?, hlower]
    rw [hswitch, switchTraceback, hwish]
    exact s.settings.showsTraceback_withTraceback true
  have htraceback : Settings.showsTraceback ⟨none, some "1", none⟩ =
      (Session.enterAll (.start ⟨none, none, none⟩ 1000) [.submission "const x = 1;",
        .submission "/py-traceback on"]).settings.showsTraceback := by
    simp only [Session.enterAll, List.foldl_cons, List.foldl_nil, Session.enter, hon]
    exact (Settings.mk none none none).showsTraceback_withTraceback true
  have hwanted : Settings.recursionLimit ⟨none, some "1", none⟩ =
      Settings.recursionLimit ⟨none, none, none⟩ := rfl
  have hraised : (Session.enterAll (.start ⟨none, none, none⟩ 1000)
      [.submission "const x = 1;", .submission "/py-traceback on"]).limit = 5000 := by
    decide +kernel
  rw [← hraised]
  exact reset_erases_past hreset hwanted htraceback _

end Prompt

end Avii
