import Avii.Proofs.Eval.Taxonomy
import Avii.Proofs.Token.Writing

/-!
# What a session survives

Mistakes in a submission are reported and the session goes on; `Fatal` lists what it does not
survive. A remainder of an infinite number and an index by too long a string have no answer and are
not reported; a value may nest too deeply to be shown after it was computed; the outline of a text
that nests too deeply is given up without a report, and so is a program text where the limit that is
wanted for its evaluation cannot be read or set. `survives_unless_fatal` says that there is nothing
else, of any submission to any session that earlier submissions led to, whatever limit the session
was started within, and that only a reset lets the session lose a name.

The evaluation of a program text can only end in what good moments can raise (`good_endsWell`), so
the two operations without an answer are all that is left there (`domain_iff`).
-/

namespace Avii

/-! ## Operations without an answer -/

namespace Eval

variable {p : Moment}

theorem InfiniteRemainder.fault (h : InfiniteRemainder p) :
    p.fault? = some (.domain .infiniteDividend) := by
  obtain ⟨n, scope, l, op, r, m, x, y, m₁, m₂, rfl, hop, hl, hr, hx, hy, hy'⟩ := h.raised
  have happly : Value.binary op.word (.number x) (.number y) =
      .error (.domain .infiniteDividend) := by
    have hsign : Arithmetic.ofSign? "%" = some .rem := by decide
    simp [Value.binary, hop, hsign, Arithmetic.apply, hx, hy, hy', Except.map]
  refine faultOf_eq_some.mpr ⟨m₂, ?_⟩
  rw [evalConstruct, construct, operation, bind_run hl, bind_run hr, happly]
  rfl

theorem LongIndex.fault (h : LongIndex p) : p.fault? = some (.domain .indexTooLong) := by
  obtain ⟨n, scope, target, key, m, v, s, m₁, m₂, rfl, htarget, hv, hkey, hs, hlong⟩ := h.raised
  have hindex : (Value.string s).sequenceIndex = .error (.domain .indexTooLong) := by
    have hne : s.toList.isEmpty = false := by
      cases hs' : s.toList with
      | nil => simp [hs'] at hlong
      | cons => rfl
    simp only [Value.sequenceIndex, hne, hs, hlong, Bool.not_false, Bool.and_self, if_true]
  have hmember : v.member (.string s) = .error (.domain .indexTooLong) := by
    cases v with
    | array | string => simp [Value.member, hindex, Except.map]
    | _ => simp [Value.type] at hv
  refine faultOf_eq_some.mpr ⟨m₂, ?_⟩
  rw [evalConstruct, construct, index, bind_run htarget, bind_run hkey, hmember]
  rfl

/-- What is not the program's doing and not a lack of budget is one of two operations. -/
theorem domain_iff (hp : GoodMoment p) (cause : DomainCause) :
    p.fault? = some (.domain cause) ↔
      cause = .infiniteDividend ∧ (∃ q, Reaches p q ∧ InfiniteRemainder q) ∨
      cause = .indexTooLong ∧ ∃ q, Reaches p q ∧ LongIndex q := by
  constructor
  · intro h
    have hends := good_endsWell hp h
    rcases hends.kind with h' | ⟨_, _, h'⟩ | h' | h'
    · cases h'
    · cases h'
    · cases h'
      obtain ⟨q, -, -, hq, -, -, hr⟩ := hends.remainder rfl
      exact .inl ⟨rfl, q, hq, hr⟩
    · cases h'
      obtain ⟨q, -, -, hq, -, -, hi⟩ := hends.index rfl
      exact .inr ⟨rfl, q, hq, hi⟩
  · rintro (⟨rfl, q, hq, hr⟩ | ⟨rfl, q, hq, hi⟩)
    · obtain ⟨l, hl⟩ := reaches_fault hq hr.fault
      exact hl
    · obtain ⟨l, hl⟩ := reaches_fault hq hi.fault
      exact hl

/-- A good moment never finds its tree wrong. -/
theorem good_not_internal (hp : GoodMoment p) (cause : InternalCause) :
    p.fault? ≠ some (.internal cause) := by
  intro h
  rcases (good_endsWell hp h).kind with h' | ⟨_, _, h'⟩ | h' | h' <;> cases h'

end Eval

namespace Prompt

open Eval (Moment Reaches InfiniteRemainder LongIndex SoundStore noted bind_run)
open Store (Leads)

variable {s : Session} {text : String} {f : Failure}

/-! ## What submissions are -/

/-- What follows the first word of a submission. -/
def argumentOf (text : String) : String :=
  (Text.splitFirst (Text.strip (normalize text))).2

/-- A submission is a program text: it is not blank, and has no slash in front. -/
def IsProgram (text : String) : Prop :=
  Text.strip (normalize text) ≠ "" ∧ (Text.strip (normalize text)).toList.head? ≠ some '/'

theorem submit_program (s : Session) (h : IsProgram text) :
    submit s text = runProgram s (normalize text) := by
  simp only [submit, if_neg h.1, command?, if_neg h.2]

theorem submit_command (s : Session) {c : Command} (h : commandOf? text = some c) :
    submit s text = perform s c (argumentOf text) := by
  unfold commandOf? at h
  by_cases hslash : (Text.strip (normalize text)).toList.head? = some '/'
  · have hne : Text.strip (normalize text) ≠ "" := by
      intro heq
      rw [heq] at hslash
      cases hslash
    simp only [hslash, if_true] at h
    simp only [submit, if_neg hne, command?, hslash, if_true, h]
    rfl
  · simp only [hslash, if_false] at h
    cases h

/-- What is neither a command nor a program text is only written about. -/
theorem submit_other (s : Session) (hcommand : commandOf? text = none) (h : ¬ IsProgram text) :
    ∃ c, submit s text = s.writes c := by
  by_cases hblank : Text.strip (normalize text) = ""
  · exact ⟨.empty, by simp only [submit, if_pos hblank]⟩
  · have hslash : (Text.strip (normalize text)).toList.head? = some '/' := by
      refine Decidable.byContradiction ?_
      intro hslash
      exact h ⟨hblank, hslash⟩
    simp only [commandOf?, hslash, if_true] at hcommand
    simp only [submit, if_neg hblank, command?, hslash, if_true, hcommand]
    exact ⟨_, rfl⟩

theorem isProgram_not_command (h : IsProgram text) : commandOf? text = none := by
  simp only [commandOf?, if_neg h.2]

/-! ## What is not survived -/

/-- A text that has no outline because it nests too deeply for a limit. -/
def NestsTooDeeply (limit : Nat) (code : String) : Prop :=
  ∃ ts, tokenize code = .ok ts ∧ (parseTokens limit ts = .error .tooDeep ∨
    ∃ t, parseTokens limit ts = .ok t ∧ t.outline? limit = none)

/-- A submission is a program text that has a tree within the limit in force. -/
structure Parses (s : Session) (text : String) (ts : List Token) (t : Tree) : Prop where
  program : IsProgram text
  tokens : tokenize (normalize text) = .ok ts
  tree : parseTokens s.limit ts = .ok t

/-- The evaluation that a submission begins, once its text has a tree and there is a budget. -/
def beginning (s : Session) (text : String) (ts : List Token) (t : Tree) (budget : Nat) : Moment :=
  ⟨budget, .tree s.scope t, noted (normalize text) ts t { s.machine with output := "" }⟩

theorem beginning_good {ts : List Token} {t : Tree} {n : Nat} (hs : SoundStore s.machine.store)
    (ht : Parses s text ts t) : Eval.GoodMoment (beginning s text ts t n) :=
  ⟨hs, Eval.tree_wellFormed ht.tokens ht.tree⟩

/-- What ends the session that a text is submitted to. -/
inductive Fatal (s : Session) (text : String) : Failure → Prop where
  /-- The outline of a text is asked for that nests too deeply for the limit in force. -/
  | outline (hcommand : commandOf? text = some .ast) (hne : argumentOf text ≠ "")
      (h : NestsTooDeeply s.limit (argumentOf text)) : Fatal s text .nesting
  /-- The limit that is wanted for the evaluation of a program text cannot be read or set. -/
  | budget {ts : List Token} {t : Tree} {e : LimitError} (ht : Parses s text ts t)
      (h : s.settings.raise s.limit = .error e) : Fatal s text (.budget e)
  /-- The remainder of an infinite number is asked for. -/
  | remainder {ts : List Token} {t : Tree} {n : Nat} {q : Moment} (ht : Parses s text ts t)
      (hn : s.settings.raise s.limit = .ok n) (hq : Reaches (beginning s text ts t n) q)
      (h : InfiniteRemainder q) : Fatal s text (.fault (.domain .infiniteDividend))
  /-- A string of more digits than are read is used as an index. -/
  | index {ts : List Token} {t : Tree} {n : Nat} {q : Moment} (ht : Parses s text ts t)
      (hn : s.settings.raise s.limit = .ok n) (hq : Reaches (beginning s text ts t n) q)
      (h : LongIndex q) : Fatal s text (.fault (.domain .indexTooLong))
  /-- The value nests too deeply to be shown. -/
  | unshowable {ts : List Token} {t : Tree} {n : Nat} {v : Value} {m : Machine}
      (ht : Parses s text ts t) (hn : s.settings.raise s.limit = .ok n)
      (hv : evalTree n s.scope t (beginning s text ts t n).machine = .ok v m) (hnull : v ≠ .null)
      (h : n < v.displaySteps) : Fatal s text .unshowable

/-! ### Outlines -/

/-- An outline ends the session only where the text nests too deeply. -/
theorem outline_escapes (s : Session) (code : String) :
    (showOutline s code).escaped = some f ↔
      f = .nesting ∧ code ≠ "" ∧ NestsTooDeeply s.limit code := by
  unfold showOutline NestsTooDeeply
  by_cases hempty : code = ""
  · simp [hempty, Session.writes]
  · rw [if_neg hempty]
    cases hts : tokenize code with
    | error e => simp [Session.writes]
    | ok ts =>
      cases ht : parseTokens s.limit ts with
      | error r =>
        cases r with
        | invalid e => simp [Session.writes, ht]
        | tooDeep => simp [ht, hempty, eq_comm]
      | ok t =>
        cases ho : t.outline? s.limit with
        | some o => simp [Session.writes, ht, ho]
        | none => simp [ht, ho, hempty, eq_comm]

/-- No other command ends the session. -/
theorem command_escapes (s : Session) (c : Command) (arg : String) :
    (perform s c arg).escaped = some f ↔
      c = .ast ∧ f = .nesting ∧ arg ≠ "" ∧ NestsTooDeeply s.limit arg := by
  cases c with
  | ast => simpa [perform] using outline_escapes s arg
  | clear | reset => simp [perform, reset, Session.writes]
  | traceback =>
    simp only [perform, switchTraceback]
    split <;> simp [Session.writes]

/-! ### Program texts -/

section Programs

variable {source : String} {ts : List Token} {t : Tree} {n : Nat}

/-- A failed run ends the session unless the failure is reported. -/
theorem fails_escapes (s : Session) (g : Failure) (m : Machine) :
    (s.fails g m).escaped = some f ↔ g.isReported = false ∧ f = g := by
  unfold Session.fails
  cases g.isReported <;> simp [eq_comm]

/-- A program text without a tree within the limit in force is reported. -/
theorem runProgram_refused (s : Session)
    (h : ∀ ts t, tokenize source = .ok ts → parseTokens s.limit ts ≠ .ok t) :
    (runProgram s source).escaped = none := by
  obtain ⟨f, m, hread, hreported, -⟩ := Eval.read_refused s.limit { s.machine with output := "" } h
  simp [runProgram, hread, Session.fails, hreported]

/-- A program text with a tree ends the session where the wanted limit cannot be had. -/
theorem runProgram_ungranted {e : LimitError} (hts : tokenize source = .ok ts)
    (ht : parseTokens s.limit ts = .ok t) (he : s.settings.raise s.limit = .error e) :
    (runProgram s source).escaped = some (.budget e) := by
  simp only [runProgram, Eval.read_parsed { s.machine with output := "" } hts ht, he]
  exact (fails_escapes s _ _).mpr ⟨rfl, rfl⟩

/-- Otherwise the tree is evaluated within the raised limit. -/
theorem runProgram_granted (hts : tokenize source = .ok ts) (ht : parseTokens s.limit ts = .ok t)
    (hn : s.settings.raise s.limit = .ok n) :
    runProgram s source =
      runTree { s with
        machine := Eval.readNotes source ts t { s.machine with output := "" }, limit := n } t := by
  simp only [runProgram, Eval.read_parsed { s.machine with output := "" } hts ht, hn]

/-- A fault of the evaluation fails the step. -/
theorem runTree_fault {g : Fault} {m : Machine}
    (h : evaluate s.limit s.scope t s.machine = .error g m) :
    runTree s t = s.fails (.fault g) m := by
  have hjob : Run.ofEval (evaluate s.limit s.scope t) s.machine = .error (.fault g) m := by
    simp only [Run.ofEval, h]
  simp only [runTree, Eval.bind_fails hjob]

/-- Nothing more is written for null. -/
theorem runTree_null {m : Machine} (h : evaluate s.limit s.scope t s.machine = .ok .null m) :
    runTree s t = ⟨{ s with machine := m }, ⟨m.output, ""⟩, none⟩ := by
  have hjob : Run.ofEval (evaluate s.limit s.scope t) s.machine = .ok .null m := by
    simp only [Run.ofEval, h]
  have hshown : shownValue s.limit .null m = .ok "" m := rfl
  simp only [runTree, bind_run hjob, hshown, String.append_empty]

/-- Any other value is written on a line, or the step fails because it nests too deeply. -/
theorem runTree_value {v : Value} {m : Machine} (hnull : v ≠ .null)
    (h : evaluate s.limit s.scope t s.machine = .ok v m) :
    runTree s t =
      if s.limit < v.displaySteps then s.fails .unshowable m
      else ⟨{ s with machine := m }, ⟨m.output ++ (v.display ++ "\n"), ""⟩, none⟩ := by
  have hjob : Run.ofEval (evaluate s.limit s.scope t) s.machine = .ok v m := by
    simp only [Run.ofEval, h]
  simp only [runTree, bind_run hjob, shownValue_of_ne hnull]
  by_cases hdeep : s.limit < v.displaySteps
  · have hfails : Program.displayed s.limit v m = .error .unshowable m := by
      simp only [Program.displayed, Value.display?, hdeep, if_true]
      rfl
    rw [if_pos hdeep, Eval.bind_fails hfails]
  · have hshows : Program.displayed s.limit v m = .ok v.display m := by
      simp only [Program.displayed, Value.display?, hdeep, if_false]
      rfl
    rw [if_neg hdeep, bind_run hshows]
    rfl

/-- The evaluation of a tree ends the session with a fault that is not reported, or once its value
is to be shown. -/
theorem runTree_escapes (s : Session) (t : Tree) :
    (runTree s t).escaped = some f ↔
      (∃ g m, evaluate s.limit s.scope t s.machine = .error g m ∧ f = .fault g ∧
        f.isReported = false) ∨
      ∃ v m, evaluate s.limit s.scope t s.machine = .ok v m ∧ f = .unshowable ∧ v ≠ .null ∧
        s.limit < v.displaySteps := by
  cases h : evaluate s.limit s.scope t s.machine with
  | error g m =>
    rw [runTree_fault h, fails_escapes]
    constructor
    · rintro ⟨hg, rfl⟩
      exact .inl ⟨g, m, rfl, rfl, hg⟩
    · rintro (⟨_, _, ⟨⟩, rfl, hg⟩ | ⟨_, _, ⟨⟩, -⟩)
      exact ⟨hg, rfl⟩
  | ok v m =>
    by_cases hnull : v = .null
    · subst hnull
      rw [runTree_null h]
      simp
    · rw [runTree_value hnull h]
      by_cases hdeep : s.limit < v.displaySteps
      · rw [if_pos hdeep, fails_escapes]
        simp [Failure.isReported, hnull, hdeep]
      · simp [hdeep]

end Programs

/-- A program text that is evaluated ends the session with a fault of its evaluation that is not
reported, or once its value is to be shown. -/
theorem evaluated_escapes {ts : List Token} {t : Tree} {n : Nat} (ht : Parses s text ts t)
    (hn : s.settings.raise s.limit = .ok n) :
    (runProgram s (normalize text)).escaped = some f ↔
      (∃ g, (beginning s text ts t n).fault? = some g ∧ f = .fault g ∧ f.isReported = false) ∨
      ∃ v m, evalTree n s.scope t (beginning s text ts t n).machine = .ok v m ∧ f = .unshowable ∧
        v ≠ .null ∧ n < v.displaySteps := by
  rw [runProgram_granted ht.tokens ht.tree hn, runTree_escapes]
  refine or_congr ⟨?_, ?_⟩ Iff.rfl
  · rintro ⟨g, m, hg, hf, hunreported⟩
    exact ⟨g, Eval.faultOf_eq_some.mpr ⟨m, hg⟩, hf, hunreported⟩
  · rintro ⟨g, hg, hf, hunreported⟩
    obtain ⟨m, hm⟩ := Eval.faultOf_eq_some.mp hg
    exact ⟨g, m, hm, hf, hunreported⟩

/-- What is fatal to a session when a program text is submitted ends it. -/
theorem fatal_escapes (hs : SoundStore s.machine.store) (htext : IsProgram text)
    (h : Fatal s text f) : (runProgram s (normalize text)).escaped = some f := by
  cases h with
  | outline hcommand =>
    rw [isProgram_not_command htext] at hcommand
    cases hcommand
  | budget ht he => exact runProgram_ungranted ht.tokens ht.tree he
  | remainder ht hn hq hr =>
    have hfault := (Eval.domain_iff (beginning_good hs ht) _).mpr (.inl ⟨rfl, _, hq, hr⟩)
    exact (evaluated_escapes ht hn).mpr (.inl ⟨_, hfault, rfl, rfl⟩)
  | index ht hn hq hi =>
    have hfault := (Eval.domain_iff (beginning_good hs ht) _).mpr (.inr ⟨rfl, _, hq, hi⟩)
    exact (evaluated_escapes ht hn).mpr (.inl ⟨_, hfault, rfl, rfl⟩)
  | unshowable ht hn hv hnull hdeep =>
    exact (evaluated_escapes ht hn).mpr (.inr ⟨_, _, hv, rfl, hnull, hdeep⟩)

/-- What a program text ends the session with is fatal. -/
theorem escapes_fatal (hs : SoundStore s.machine.store) (htext : IsProgram text)
    (h : (runProgram s (normalize text)).escaped = some f) : Fatal s text f := by
  by_cases hparses : ∃ ts t, tokenize (normalize text) = .ok ts ∧ parseTokens s.limit ts = .ok t
  · obtain ⟨ts, t, hts, ht⟩ := hparses
    have htree : Parses s text ts t := ⟨htext, hts, ht⟩
    cases hbudget : s.settings.raise s.limit with
    | error e =>
      rw [runProgram_ungranted hts ht hbudget] at h
      cases h
      exact .budget htree hbudget
    | ok n =>
      have hgood : Eval.GoodMoment (beginning s text ts t n) := beginning_good hs htree
      rcases (evaluated_escapes htree hbudget).mp h with
        ⟨g, hfault, rfl, hunreported⟩ | ⟨v, m, hv, rfl, hnull, hdeep⟩
      · cases g with
        | runtime | depth => cases hunreported
        | internal cause => exact absurd hfault (Eval.good_not_internal hgood cause)
        | domain cause =>
          rcases (Eval.domain_iff hgood cause).mp hfault with ⟨rfl, q, hq, hr⟩ | ⟨rfl, q, hq, hi⟩
          · exact .remainder htree hbudget hq hr
          · exact .index htree hbudget hq hi
      · exact .unshowable htree hbudget hv hnull hdeep
  · rw [runProgram_refused s fun ts t hts ht => hparses ⟨ts, t, hts, ht⟩] at h
    cases h

/-- A session ends with a submission exactly if that is fatal. -/
theorem submit_escapes_iff (hs : SoundStore s.machine.store) :
    (submit s text).escaped = some f ↔ Fatal s text f := by
  by_cases htext : IsProgram text
  · rw [submit_program s htext]
    exact ⟨escapes_fatal hs htext, fatal_escapes hs htext⟩
  · -- what is no program text can only be fatal as a command
    have houtline : Fatal s text f ↔ commandOf? text = some .ast ∧ f = .nesting ∧
        argumentOf text ≠ "" ∧ NestsTooDeeply s.limit (argumentOf text) := by
      constructor
      · intro h
        cases h with
        | outline hcommand hne hdeep => exact ⟨hcommand, rfl, hne, hdeep⟩
        | budget ht | remainder ht | index ht | unshowable ht => exact absurd ht.program htext
      · rintro ⟨hcommand, rfl, hne, hdeep⟩
        exact .outline hcommand hne hdeep
    rw [houtline]
    cases hcommand : commandOf? text with
    | some c =>
      rw [submit_command s hcommand, command_escapes]
      simp
    | none =>
      obtain ⟨c, hc⟩ := submit_other s hcommand htext
      simp [hc, Session.writes]

/-! ## Sessions -/

theorem perform_store (s : Session) (c : Command) (arg : String) :
    (perform s c arg).session.machine.store = s.machine.store ∨
      (perform s c arg).session.machine.store = s.machine.store.createGlobal := by
  cases c with
  | ast =>
    left
    simp only [perform, showOutline]
    repeat' split
    all_goals rfl
  | clear => exact .inl rfl
  | traceback =>
    left
    simp only [perform, switchTraceback]
    split <;> rfl
  | reset => exact .inr rfl

/-- A step of a session keeps its store sound. -/
theorem submit_sound (hs : SoundStore s.machine.store) (text : String) :
    SoundStore (submit s text).session.machine.store := by
  by_cases htext : IsProgram text
  · rw [submit_program s htext, runProgram_machine]
    exact Eval.run_sound hs
  · cases hcommand : commandOf? text with
    | some c =>
      rw [submit_command s hcommand]
      rcases perform_store s c (argumentOf text) with h | h
      · rw [h]
        exact hs
      · rw [h]
        exact Eval.createGlobal_sound hs
    | none =>
      obtain ⟨c, hc⟩ := submit_other s hcommand htext
      rw [hc]
      exact hs

theorem submitAll_sound (hs : SoundStore s.machine.store) (texts : List String) :
    SoundStore (submitAll s texts).machine.store := by
  induction texts generalizing s with
  | nil => exact hs
  | cons text texts ih =>
    rw [submitAll_cons]
    exact ih (submit_sound hs text)

/-- Names stay bound in the scope of a session, unless a submission resets it. -/
theorem submit_binds (s : Session) (h : commandOf? text ≠ some .reset) :
    (submit s text).session.scope = s.scope ∧ ∀ name, s.machine.store.bindsAt s.scope name = true →
      (submit s text).session.machine.store.bindsAt s.scope name = true := by
  rcases submit_cases s text with ⟨hleads, hscope⟩ | ⟨hreset, -⟩
  · refine ⟨hscope, ?_⟩
    intro name hname
    unfold Store.bindsAt at hname ⊢
    cases hs : s.machine.store.scopes[s.scope]? with
    | none => simp [hs] at hname
    | some scope =>
      obtain ⟨scope', hs', hkept⟩ := Store.leads_kept hleads s.scope scope hs
      simp only [hs, Option.any_some] at hname
      simpa [hs'] using hkept.binds name hname
  · exact absurd hreset h

/-- What a program text writes where the session survives it: besides what it prints, its value on a
line, or nothing for null, or a report of its mistake. -/
inductive Written (s : Session) (source : String) : Console → Prop where
  | value {v : Value} {m : Machine} (hv : v ≠ .null)
      (h : Program.run s.limit (s.settings.raise s.limit) s.scope source
        { s.machine with output := "" } = .ok v m) :
      Written s source ⟨m.output ++ (v.display ++ "\n"), ""⟩
  | nothing {m : Machine}
      (h : Program.run s.limit (s.settings.raise s.limit) s.scope source
        { s.machine with output := "" } = .ok .null m) : Written s source ⟨m.output, ""⟩
  | report {f : Failure} {m : Machine} (hf : f.isReported = true)
      (h : Program.run s.limit (s.settings.raise s.limit) s.scope source
        { s.machine with output := "" } = .error f m) :
      Written s source (⟨m.output, ""⟩ ++ .report s.settings f)

/-- A failed run that the session survives was reported. -/
theorem fails_writes {g : Failure} {m : Machine} (h : (s.fails g m).escaped = none) :
    g.isReported = true ∧ (s.fails g m).console = ⟨m.output, ""⟩ ++ .report s.settings g := by
  unfold Session.fails at h ⊢
  cases hg : g.isReported with
  | true => simp
  | false => simp [hg] at h

/-- What a program text writes that the session survives. -/
theorem runProgram_writes {source : String} (h : (runProgram s source).escaped = none) :
    Written s source (runProgram s source).console := by
  unfold runProgram at h ⊢
  cases hread : Program.read s.limit source { s.machine with output := "" } with
  | error f m =>
    simp only [hread] at h ⊢
    obtain ⟨hf, hconsole⟩ := fails_writes h
    rw [hconsole]
    exact .report hf (Program.run_refused hread _ _)
  | ok t m =>
    simp only [hread] at h ⊢
    cases hn : s.settings.raise s.limit with
    | error e =>
      simp only [hn] at h
      cases (fails_writes h).1
    | ok n =>
      simp only [hn] at h ⊢
      have hrun := Program.run_granted hread n s.scope
      rw [← hn] at hrun
      cases hm : evaluate n s.scope t m with
      | error g m' =>
        rw [runTree_fault hm] at h ⊢
        obtain ⟨hf, hconsole⟩ := fails_writes h
        rw [hconsole]
        exact .report hf (by simp only [hrun, Run.ofEval, hm])
      | ok v m' =>
        have hvalue : Program.run s.limit (s.settings.raise s.limit) s.scope source
            { s.machine with output := "" } = .ok v m' := by
          simp only [hrun, Run.ofEval, hm]
        by_cases hnull : v = .null
        · subst hnull
          rw [runTree_null hm]
          exact .nothing hvalue
        · rw [runTree_value hnull hm] at h ⊢
          split at h
          next => cases (fails_writes h).1
          next hshown =>
            rw [if_neg hshown]
            exact .value hnull hvalue

theorem submit_writes (htext : IsProgram text) (h : (submit s text).escaped = none) :
    Written s (normalize text) (submit s text).console := by
  rw [submit_program s htext] at h ⊢
  exact runProgram_writes h

/-- A session survives every submission that is not fatal, and loses a name only by a reset.

In a session that any submissions led to, a submission ends the session exactly if it is fatal, with
the failure that `Fatal` says. A program text that the session survives writes its value, nothing or
a report. Unless the submission is a reset, the session stays in its scope, and every name that is
bound there before is bound there afterwards. -/
theorem survives_unless_fatal (settings : Settings) (limit : Nat) (texts : List String)
    (text : String) :
    let s := submitAll (.start settings limit) texts
    let step := submit s text
    (∀ f, step.escaped = some f ↔ Fatal s text f) ∧
    (IsProgram text → step.escaped = none → Written s (normalize text) step.console) ∧
    (commandOf? text ≠ some .reset → step.session.scope = s.scope ∧
      ∀ name, s.machine.store.bindsAt s.scope name = true →
        step.session.machine.store.bindsAt s.scope name = true) := by
  have hs : SoundStore (submitAll (.start settings limit) texts).machine.store :=
    submitAll_sound Eval.fresh_sound texts
  generalize submitAll (.start settings limit) texts = s at hs
  exact ⟨fun f => submit_escapes_iff hs, submit_writes, submit_binds s⟩

/-- For instance a name stays bound when a later submission fails. -/
theorem survives_division :
    let s := submitAll (.start ⟨none, none, none⟩ 1000) ["let y = 1;"]
    commandOf? "y / 0" ≠ some .reset ∧ s.machine.store.bindsAt s.scope "y" = true ∧
      (submit s "y / 0").session.machine.store.bindsAt s.scope "y" = true := by
  intro s
  have hcommand : commandOf? "y / 0" ≠ some .reset := by decide +kernel
  have hbinds : s.machine.store.bindsAt s.scope "y" = true := by decide +kernel
  obtain ⟨-, -, hkept⟩ := survives_unless_fatal ⟨none, none, none⟩ 1000 ["let y = 1;"] "y / 0"
  exact ⟨hcommand, hbinds, (hkept hcommand).2 "y" hbinds⟩

/-- The remainder of a number that is read as infinite ends a new session. -/
theorem infinite_remainder_escapes :
    (submit (.start ⟨none, none, none⟩ 1000)
      (String.ofList (List.replicate 309 '9' ++ [' ', '%', ' ', '2']))).escaped =
        some (.fault (.domain .infiniteDividend)) := by
  let digits := List.replicate 309 '9'
  let text := String.ofList (digits ++ [' ', '%', ' ', '2'])
  have hnormal : normalize text = text := by
    have hvisible : (digits ++ [' ', '%', ' ', '2']).filter (!isInvisible ·) =
        digits ++ [' ', '%', ' ', '2'] := by decide +kernel
    rw [normalize, String.toList_ofList, hvisible]
  have hstrip : Text.strip text = text := by
    have hedges : Text.stripChars (digits ++ [' ', '%', ' ', '2']) =
        digits ++ [' ', '%', ' ', '2'] := by decide +kernel
    rw [Text.strip, String.toList_ofList, hedges]
  have hprogram : IsProgram text := by
    unfold IsProgram
    rw [hnormal, hstrip, String.toList_ofList]
    refine ⟨?_, by decide⟩
    intro h
    have hlist := congrArg String.toList h
    rw [String.toList_ofList] at hlist
    cases hlist
  have hplain : Numeral.IsPlain digits :=
    ⟨digits, by decide, fun c hc => by rw [List.eq_of_mem_replicate hc]; decide, .inl rfl⟩
  have hplain' : Numeral.IsPlain ['2'] :=
    ⟨['2'], by decide, fun c hc => by rw [List.mem_singleton.mp hc]; decide, .inl rfl⟩
  obtain ⟨p₁, p₂, p₃, p₄, htokens⟩ : ∃ p₁ p₂ p₃ p₄ : Position, tokenize text = .ok
      [⟨.number, String.ofList digits, p₁.line, p₁.column⟩, ⟨.binop, "%", p₂.line, p₂.column⟩,
        ⟨.number, "2", p₃.line, p₃.column⟩, ⟨.eof, "", p₄.line, p₄.column⟩] := by
    simp only [tokenize_iff]
    rw [String.toList_ofList]
    exact ⟨⟨_, _⟩, ⟨_, _⟩, ⟨_, _⟩, ⟨_, _⟩, .token (.number hplain) (.of_break (.inl rfl))
      (.gap rfl (.token (.mark rfl) (.of_break (.inl rfl))
        (.gap rfl (.token (.number hplain') (Scan.stops_end _ _) (.finish _)))))⟩
  let number (word : String) (p : Position) : Tree := .leaf ⟨.number, word, p.line, p.column⟩
  let operation : Tree := .node .binary (some p₂.line)
    [number (String.ofList digits) p₁, .leaf ⟨.binop, "%", p₂.line, p₂.column⟩, number "2" p₃]
  have htree : Parses (.start ⟨none, none, none⟩ 1000) text _ (.node .program none [operation]) :=
    ⟨hprogram, by rw [hnormal]; exact htokens, rfl⟩
  have hbudget : Settings.raise ⟨none, none, none⟩ 1000 = .ok 5000 := by decide +kernel
  have hdigits : Numeral.read? (String.ofList digits) = some .positiveInfinity := by
    rw [Numeral.read?, String.toList_ofList]
    decide +kernel
  have htwo : Numeral.read? "2" = some ⟨0x4000000000000000⟩ := by decide +kernel
  -- the operation is the only statement of the text
  refine (submit_escapes_iff Eval.fresh_sound).mpr (.remainder htree hbudget
    (.head .node (.head (.body (.inl rfl)) (.head (@Eval.Part.statement _ _ [] _ _ _ _ _ rfl)
      (.single .node)))) ⟨4995, _, _, _, _, _, .positiveInfinity, ⟨0x4000000000000000⟩, _, _, rfl,
        rfl, Eval.evalTree_number hdigits, Eval.evalTree_number htwo, ?_, ?_, ?_⟩)
  all_goals decide +kernel

end Prompt

end Avii
