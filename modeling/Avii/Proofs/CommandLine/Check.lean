import Avii.CommandLine.Check
import Avii.Proofs.Grammar.Stops

/-!
# How the command that parses by the grammar ends

Given a program text for its operand, the command is meant to end with the code zero and an outline,
or with the code one and the words of a refusal. It does so but for three things (`check_ends`): an
operand that is too long to be looked up as a path, a text that nests too deeply for the limit in
force, and a bad escape in a string literal that the step to trees comes to. The last is a text that
should be refused, and there is one for every bad escape (`badEscape_escapes`).
-/

namespace Avii.CommandLine

open Grammar (Parse Form Lexeme Stops BadEscape Enclosed parse build nodesWithin parseTree)

variable {limit : Nat} {w : Surroundings} {words : List String} {source : String}

/-- A command line without switches whose operand is a program text: it is not the dash, and as a
path it leads to no file and no directory. -/
structure TextOperand (w : Surroundings) (words : List String) (source : String) : Prop where
  reading : ∃ r, read checkSwitches words = .ok r ∧ r.operand = some source ∧ r.given = []
  notInput : source ≠ "-"
  noFile : ∀ text, w.destination source ≠ .file text
  noDirectory : w.destination source ≠ .directory

/-- How the command ends without a code where a limit of nested calls is in force, and why. -/
inductive Escapes (limit : Nat) (w : Surroundings) (source : String) : CheckEnd → Prop where
  | tooLong (h : w.destination source = .tooLong) : Escapes limit w source (.noText .pathTooLong)
  | badLiteral {p : Parse} {e : LexError} (hshort : w.destination source ≠ .tooLong)
      (hp : parse source = .ok p) (h : Stops (nodesWithin limit) p (.badLiteral e)) :
      Escapes limit w source (.badLiteral e)
  | deepParse {p : Parse} (hshort : w.destination source ≠ .tooLong) (hp : parse source = .ok p)
      (h : Stops (nodesWithin limit) p .tooDeep) : Escapes limit w source .nesting
  | highTree {t : Tree} (hshort : w.destination source ≠ .tooLong)
      (ht : parseTree limit source = .ok t) (h : t.outline? limit = none) :
      Escapes limit w source .nesting

/-! ## The text -/

theorem TextOperand.tooLong (h : TextOperand w words source)
    (hlong : w.destination source = .tooLong) :
    check limit w words = ⟨.empty, .noText .pathTooLong⟩ := by
  obtain ⟨r, hread, hoperand, -⟩ := h.reading
  rw [check, hread]
  simp only [hoperand, Option.getD_some, checkText, if_neg h.notInput, Surroundings.textAt, hlong]

theorem TextOperand.checked (h : TextOperand w words source)
    (hshort : w.destination source ≠ .tooLong) :
    check limit w words = checkSource limit source := by
  obtain ⟨r, hread, hoperand, hgiven⟩ := h.reading
  have htext : checkText w source = .ok source := by
    rw [checkText, if_neg h.notInput, Surroundings.textAt]
    cases hdestination : w.destination source with
    | file text => exact absurd hdestination (h.noFile text)
    | directory => exact absurd hdestination h.noDirectory
    | tooLong => exact absurd hdestination hshort
    | nothing | pastFile | noPath => rfl
  rw [check, hread]
  simp only [hoperand, Option.getD_some, htext, hgiven, List.filter_nil, List.getLast?_nil,
    Option.map_none, grammarProblem]

/-! ## The tree -/

/-- The step to trees fails with what it stops at in the parse. -/
theorem parseTree_build_iff {e : Grammar.BuildError} :
    parseTree limit source = .error (.build e) ↔
      ∃ p, parse source = .ok p ∧ Stops (nodesWithin limit) p e := by
  unfold parseTree
  cases hp : parse source with
  | error => simp
  | ok p =>
    have hstops :=
      Grammar.build_error_iff (n := nodesWithin limit) (e := e) (Grammar.parse_proper hp)
    simp only [Except.ok.injEq, exists_eq_left', ← hstops]
    cases build (nodesWithin limit) p with
    | error => simp
    | ok => simp

theorem TextOperand.escapes (h : TextOperand w words source) {ending : CheckEnd}
    (hescapes : Escapes limit w source ending) : (check limit w words).ending = ending := by
  cases hescapes with
  | tooLong hlong => rw [h.tooLong hlong]
  | badLiteral hshort hp hstops =>
    rw [h.checked hshort, checkSource, parseTree_build_iff.mpr ⟨_, hp, hstops⟩]
  | deepParse hshort hp hstops =>
    rw [h.checked hshort, checkSource, parseTree_build_iff.mpr ⟨_, hp, hstops⟩]
  | highTree hshort ht houtline =>
    rw [h.checked hshort, checkSource, ht]
    simp only [houtline]

theorem TextOperand.ends (h : TextOperand w words source) :
    (check limit w words).ending = .code 0 ∨ (check limit w words).ending = .code 1 ∨
      Escapes limit w source (check limit w words).ending := by
  by_cases hlong : w.destination source = .tooLong
  · rw [h.tooLong hlong]
    exact .inr (.inr (.tooLong hlong))
  rw [h.checked hlong, checkSource]
  cases ht : parseTree limit source with
  | ok t =>
    cases houtline : t.outline? limit with
    | some text =>
      simp only [houtline]
      exact .inl trivial
    | none =>
      simp only [houtline]
      exact .inr (.inr (.highTree hlong ht houtline))
  | error e =>
    cases e with
    | scan e => exact .inr (.inl rfl)
    | build e =>
      obtain ⟨p, hp, hstops⟩ := parseTree_build_iff.mp ht
      cases e with
      | invalid e => exact .inr (.inl rfl)
      | badLiteral e => exact .inr (.inr (.badLiteral hlong hp hstops))
      | tooDeep => exact .inr (.inr (.deepParse hlong hp hstops))

/-- A word that starts with no dash and leads nowhere is a program text. -/
theorem TextOperand.of_word (hhead : source.toList.head? ≠ some '-')
    (hfile : ∀ text, w.destination source ≠ .file text)
    (hdirectory : w.destination source ≠ .directory) : TextOperand w [source] source := by
  have hseparator : source ≠ "--" := by
    rintro rfl
    exact hhead rfl
  have hword : classify checkSwitches source = .ok (.operand source) := by
    rw [classify]
    exact if_pos (.inl hhead)
  refine ⟨⟨⟨[], some source, false, false⟩, ?_, rfl, rfl⟩, ?_, hfile, hdirectory⟩
  · rw [read, classifyAll, if_neg hseparator, hword]
    rfl
  · rintro rfl
    exact hhead rfl

/-- Nothing but an empty standard input. -/
def nowhere : Surroundings := ⟨"", false, fun _ => none⟩

/-- A single short name leads nowhere there. -/
theorem nowhere_name {path : String} (hnull : path.toList.contains (Char.ofNat 0) = false)
    (hslashes : leadingSlashes path = "") (hnames : pathNames path = [path]) (hdots : path ≠ "..")
    (hsize : path.utf8ByteSize ≤ longestName) : nowhere.destination path = .nothing := by
  have hshort : ¬ longestPath < (shortened path).utf8ByteSize := by
    have hpath : shortened path = path := by
      rw [shortened, hslashes, hnames]
      simp
    rw [hpath]
    unfold longestPath
    unfold longestName at hsize
    omega
  rw [Surroundings.destination, hnull, if_neg Bool.false_ne_true, if_neg hshort, hnames, follow,
    if_neg hdots, if_neg (Nat.not_lt.mpr hsize)]
  rfl

theorem TextOperand.of_nothing (hhead : source.toList.head? ≠ some '-')
    (h : w.destination source = .nothing) : TextOperand w [source] source := by
  refine .of_word hhead (fun text hfile => ?_) fun hdirectory => ?_
  · cases h.symm.trans hfile
  · cases h.symm.trans hdirectory

/-- How the command ends on a program text, whatever the limit in force: as it should, or by one of
the escapes, and by that whenever there is cause for it. Each node that the step to trees comes to
has the parts that its form is made of, so it is made into a node of its own kind or refused as a
repeated parameter or the target of an assignment; what else the step can stop at is a bad escape
and the end of its budget. -/
theorem check_ends (h : TextOperand w words source) :
    (∀ p, parse source = .ok p →
      p.All (fun form parts => form.Has parts ∧ form.Handles parts) Lexeme.Closed) ∧
    ∀ limit, (∀ e, parseTree limit source = .error (.build e) ↔
        ∃ p, parse source = .ok p ∧ Stops (nodesWithin limit) p e) ∧
      (∀ ending, Escapes limit w source ending → (check limit w words).ending = ending) ∧
      ((check limit w words).ending = .code 0 ∨ (check limit w words).ending = .code 1 ∨
        Escapes limit w source (check limit w words).ending) := by
  refine ⟨fun p hp => ?_, fun limit => ⟨fun e => parseTree_build_iff, fun _ => h.escapes, h.ends⟩⟩
  exact (Grammar.parse_proper hp).imp (fun _ _ hhas => ⟨hhas, Form.handles hhas⟩) fun _ => id

/-- For instance on a literal. -/
theorem check_ends_literal :
    TextOperand nowhere ["\"a\""] "\"a\"" ∧
    (∀ p, parse "\"a\"" = .ok p →
      p.All (fun form parts => form.Has parts ∧ form.Handles parts) Lexeme.Closed) ∧
    ((check 1000 nowhere ["\"a\""]).ending = .code 0 ∨
      (check 1000 nowhere ["\"a\""]).ending = .code 1 ∨
      Escapes 1000 nowhere "\"a\"" (check 1000 nowhere ["\"a\""]).ending) := by
  have hnames : pathNames "\"a\"" = ["\"a\""] := by decide +kernel
  have hoperand : TextOperand nowhere ["\"a\""] "\"a\"" :=
    .of_nothing (by decide) (nowhere_name (by decide) (by decide) hnames (by decide) (by decide))
  obtain ⟨hnodes, hlimits⟩ := check_ends hoperand
  exact ⟨hoperand, hnodes, (hlimits 1000).2.2⟩

/-! ## Bad escapes -/

/-- A literal with a bad escape, as the whole text, ends the command without a code, whatever the
limit: the step to trees comes to it as soon as it may enter a single node. -/
theorem badEscape_escapes {body : List Char} {c : Char} (hlimit : 2 ≤ limit) (hbody : Enclosed body)
    (hc : BadEscape body c) (h : TextOperand w words (String.ofList (Grammar.literalText body)))
    (hshort : w.destination (String.ofList (Grammar.literalText body)) ≠ .tooLong) :
    (check limit w words).ending = .badLiteral (.badEscape (String.ofList [c]) 1) := by
  refine h.escapes (.badLiteral hshort (Grammar.literal_parsed hbody) ?_)
  obtain ⟨n, hn⟩ : ∃ n, nodesWithin limit = n + 1 :=
    ⟨nodesWithin limit - 1, by unfold nodesWithin; omega⟩
  rw [hn]
  exact @Stops.part _ _ [] _ _ _ _ rfl (.literal rfl (String.toList_ofList ..) hc)

/-- A backslash and a letter that make no escape, between quotes. -/
theorem unknown_escape_escapes :
    TextOperand nowhere ["\"\\q\""] "\"\\q\"" ∧
      (check 1000 nowhere ["\"\\q\""]).ending = .badLiteral (.badEscape "q" 1) := by
  have hnames : pathNames "\"\\q\"" = ["\"\\q\""] := by decide +kernel
  have hnothing : nowhere.destination "\"\\q\"" = .nothing :=
    nowhere_name (by decide) (by decide) hnames (by decide) (by decide)
  have hoperand : TextOperand nowhere ["\"\\q\""] "\"\\q\"" := .of_nothing (by decide) hnothing
  have hbody : Grammar.Enclosed ['\\', 'q'] := .escape (by decide) .nil
  have hbad : Grammar.BadEscape ['\\', 'q'] 'q' := ⟨[], [], [], .nil, rfl, rfl⟩
  refine ⟨hoperand, badEscape_escapes (by decide) hbody hbad hoperand fun hlong => ?_⟩
  cases hnothing.symm.trans hlong

end Avii.CommandLine
