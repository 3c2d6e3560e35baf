import Avii.Proofs.Eval.Taxonomy
import Avii.Proofs.Places.Evaluation
import Avii.Proofs.Syntax.Concatenation

/-!
# Programs in several submissions

Running two program texts with a semicolon between them is running the first and then, if that
succeeds, the second (`run_joined`). What the first text does, it does in the same way in both
cases, down to the lines in messages. What the second text does is the same but for places: its
tokens stand elsewhere in the joined text, and so do the bodies of its closures.

The statements of a program are evaluated one after the other, so there is nothing more to joined
programs than that the places of the second text and the notes taken in between do not matter, and
both are known not to (`carries_sequence`).
-/

namespace Avii

namespace Tree

theorem firstLine_append (ss ts : List Tree) :
    firstLine (ss ++ ts) = (firstLine ss).or (firstLine ts) := by
  induction ss with
  | nil => rfl
  | cons s ss ih =>
    rw [List.cons_append, firstLine, firstLine, ih]
    cases s.sourceLine <;> rfl

/-- Where every tree has a line, there is a first one. -/
theorem firstLine_isSome {ss : List Tree} (h : ∀ s ∈ ss, s.sourceLine.isSome = true)
    (hne : ss ≠ []) : (firstLine ss).isSome = true := by
  cases ss with
  | nil => exact absurd rfl hne
  | cons s ss =>
    obtain ⟨n, hn⟩ := Option.isSome_iff_exists.mp (h s (List.mem_cons_self ..))
    simp [firstLine, hn]

end Tree

namespace Eval

variable {eval : Tree → Eval Value} {n : Nat} {scope : ScopeId} {m m' m₁ m₂ : Machine} {f : Fault}
  {v : Value} {ss ts us : List Tree}

/-! ## Statements one after the other -/

theorem sequence_last (h : ts ≠ []) (last last' : Value) :
    sequence eval last ts = sequence eval last' ts := by
  cases ts with
  | nil => exact absurd rfl h
  | cons => rfl

/-- A program is evaluated statement by statement, three steps of the budget further down. -/
theorem evalTree_program (n : Nat) (scope : ScopeId) (ss : List Tree) :
    evalTree (n + 3) scope (.node .program none ss) =
      located (.node .program none ss) (sequence (evalTree n scope) .null ss) := rfl

/-- With less than three steps no statement is reached. -/
theorem evalTree_shallow (h : n < 3) (ss : List Tree) (m : Machine) :
    evalTree n scope (.node .program none ss) m = .error .depth m := by
  rcases n with _ | _ | _ | n
  · rfl
  · rfl
  · rfl
  · omega

/-- Only the line of a tree gives a line to a mistake. -/
theorem located_congr {α : Type} {t u : Tree} (h : t.sourceLine = u.sourceLine) (x : Eval α) :
    located t x = located u x := by
  unfold located
  rw [h]

theorem located_ok {α : Type} {t : Tree} {x : Eval α} {a : α} (h : located t x m = .ok a m₁) :
    x m = .ok a m₁ := by
  unfold located at h
  cases hx : x m with
  | ok => simpa [hx] using h
  | error => simp [hx] at h

/-- Without places, all programs whose statements have lines have the same line. -/
theorem program_line (hlines : ∀ s ∈ ss, s.sourceLine.isSome = true) (hne : ss ≠ []) :
    (Tree.node .program none ss).unplaced.sourceLine = some 1 := by
  obtain ⟨k, hk⟩ := Option.isSome_iff_exists.mp (Tree.firstLine_isSome hlines hne)
  rw [Tree.relocate_sourceLine, Tree.sourceLine, hk]
  rfl

/-! ## Joined programs -/

/-- What statements do does not depend on the notes taken before. -/
theorem sequence_moved (n : Nat) (scope : ScopeId) (ss : List Tree) (hm : Moved id m m') :
    Corresponds id id (sequence (evalTree n scope) .null ss m)
      (sequence (evalTree n scope) .null ss m') := by
  have h := carries_sequence n scope ss m m' hm
  have hid : Value.relocate id = id := funext Value.relocate_id
  rw [Tree.relocate_ids, hid] at h
  exact h

/-- What makes a program fail makes every longer one fail. -/
theorem program_fails (hlines : ∀ s ∈ ss, s.sourceLine.isSome = true) (hm : Moved id m m')
    (h : evalTree n scope (.node .program none ss) m = .error f m₁) (ts : List Tree) :
    ∃ m₁', evalTree n scope (.node .program none (ss ++ ts)) m' = .error f m₁' ∧
      Moved id m₁ m₁' := by
  by_cases hn : n < 3
  · rw [evalTree_shallow hn] at h
    cases h
    exact ⟨m', evalTree_shallow hn _ _, hm⟩
  obtain ⟨n, rfl⟩ := Nat.exists_eq_add_of_le' (Nat.not_lt.mp hn)
  have hsame := sequence_moved n scope ss hm
  rw [evalTree_program] at h ⊢
  cases hss : sequence (evalTree n scope) .null ss m with
  | ok v m₂ => simp [located, hss] at h
  | error e m₂ =>
    rw [located_run hss] at h
    cases h
    rw [hss] at hsame
    obtain ⟨m₁', hss', hm₁⟩ := hsame.of_error
    -- there is a statement that failed, and so a first line, which stays the first
    have hne : ss ≠ [] := by
      rintro rfl
      cases hss
    have hline : (Tree.node .program none (ss ++ ts)).sourceLine =
        (Tree.node .program none ss).sourceLine := by
      obtain ⟨k, hk⟩ := Option.isSome_iff_exists.mp (Tree.firstLine_isSome hlines hne)
      rw [Tree.sourceLine, Tree.sourceLine, Tree.firstLine_append, hk]
      rfl
    refine ⟨m₁', ?_, hm₁⟩
    rw [sequence_append, located_run (bind_fails hss' _), hline, Fault.relocate_id]

/-- A program that succeeds goes on with what comes after it, as that does on its own but for
places. -/
theorem program_goes_on (hts : ∀ s ∈ ss ++ ts, s.sourceLine.isSome = true)
    (hus : ∀ s ∈ us, s.sourceLine.isSome = true)
    (hplaces : ts.map Tree.unplaced = us.map Tree.unplaced) (hne : us ≠ []) (hm : Moved id m m')
    (h : evalTree n scope (.node .program none ss) m = .ok v m₁) (hm₂ : Moved id m₁ m₂) :
    ∃ r, Corresponds (fun _ => 1) Value.unplaced
        (evalTree n scope (.node .program none (ss ++ ts)) m') r ∧
      Corresponds (fun _ => 1) Value.unplaced (evalTree n scope (.node .program none us) m₂) r := by
  by_cases hn : n < 3
  · rw [evalTree_shallow hn] at h
    cases h
  obtain ⟨n, rfl⟩ := Nat.exists_eq_add_of_le' (Nat.not_lt.mp hn)
  have hne' : ts ≠ [] := by
    rintro rfl
    exact hne (List.map_eq_nil_iff.mp hplaces.symm)
  have hsame := sequence_moved n scope ss hm
  rw [evalTree_program] at h
  rw [located_ok h] at hsame
  obtain ⟨m₁', hss', hm₁⟩ := hsame.of_ok
  -- what comes after starts on the machine that the first statements have left
  let whole : Tree := .node .program none (ss ++ ts)
  have hrest : evalTree (n + 3) scope whole m' =
      located whole (sequence (evalTree n scope) .null ts) m₁' := by
    rw [evalTree_program]
    unfold located
    rw [sequence_append, bind_run hss', sequence_last hne' (id v) .null]
  -- without places, this is the second program on a machine without places
  let bare : Machine := ⟨m₁.store.unplaced, m₁.output, []⟩
  have hbare : ∀ {m : Machine}, Moved id m₁ m → Moved (fun _ => 1) m bare := by
    intro m hm
    obtain ⟨hstore, houtput⟩ := moved_id.mp hm
    exact ⟨by rw [hstore], houtput.symm⟩
  have hline : whole.unplaced.sourceLine = (Tree.node .program none us).unplaced.sourceLine := by
    rw [program_line hts (List.append_ne_nil_of_right_ne_nil ss hne'), program_line hus hne]
  have hfirst := carries_located n scope whole ts m₁' bare (hbare hm₁)
  have hsecond := carries_located n scope (.node .program none us) us m₂ bare (hbare hm₂)
  rw [hrest, evalTree_program]
  rw [hplaces, located_congr hline] at hfirst
  exact ⟨_, hfirst, hsecond⟩

end Eval

/-! ## Runs -/

/-- Two runs end alike: with the same value or the same fault, the same text and the same store,
all but for places. -/
def Run.Alike : EStateM.Result Failure Machine Value → EStateM.Result Failure Machine Value → Prop
  | .ok v m, .ok v' m' =>
    v.unplaced = v'.unplaced ∧ m.store.unplaced = m'.store.unplaced ∧ m.output = m'.output
  | .error (.fault f) m, .error (.fault f') m' =>
    f.unplaced = f'.unplaced ∧ m.store.unplaced = m'.store.unplaced ∧ m.output = m'.output
  | _, _ => False

theorem Run.ofEval_ok {α : Type} {x : Eval α} {m m' : Machine} {a : α} (h : x m = .ok a m') :
    Run.ofEval x m = .ok a m' := by
  unfold Run.ofEval
  rw [h]

theorem Run.ofEval_error {α : Type} {x : Eval α} {m m' : Machine} {f : Fault}
    (h : x m = .error f m') : Run.ofEval x m = .error (.fault f) m' := by
  unfold Run.ofEval
  rw [h]

/-- Evaluations that end in the same way without places are alike as parts of a run. -/
theorem alike_of_corresponds {x y : Eval Value} {m m' : Machine}
    {r : EStateM.Result Fault Machine Value}
    (hx : Eval.Corresponds (fun _ => 1) Value.unplaced (x m) r)
    (hy : Eval.Corresponds (fun _ => 1) Value.unplaced (y m') r) :
    Run.Alike (Run.ofEval x m) (Run.ofEval y m') := by
  cases hxm : x m with
  | ok v m₁ =>
    rw [hxm] at hx
    obtain ⟨m₂, rfl, hm₁⟩ := hx.of_ok
    cases hym : y m' with
    | ok v' m₁' =>
      rw [hym] at hy
      rw [Run.ofEval_ok hxm, Run.ofEval_ok hym]
      exact ⟨hy.1, hm₁.store.symm.trans hy.2.store, hm₁.output.symm.trans hy.2.output⟩
    | error f' m₁' =>
      rw [hym] at hy
      exact hy.elim
  | error f m₁ =>
    rw [hxm] at hx
    obtain ⟨m₂, rfl, hm₁⟩ := hx.of_error
    cases hym : y m' with
    | ok v' m₁' =>
      rw [hym] at hy
      exact hy.elim
    | error f' m₁' =>
      rw [hym] at hy
      rw [Run.ofEval_error hxm, Run.ofEval_error hym]
      exact ⟨hy.1, hm₁.store.symm.trans hy.2.store, hm₁.output.symm.trans hy.2.output⟩

/-- Splitting a program over two submissions preserves its meaning. If the first submission fails,
the whole program fails in the same way, with the same line. If it succeeds, the whole program ends
as the second submission does after it, but for places. What can be read of both texts within a
limit can be read of the whole; after the first submission the limit may be another one, within
which the second text can be read too. -/
theorem run_joined {first second : String} {limit later : Nat} {ts us : List Token} {t u : Tree}
    (hts : tokenize first = .ok ts) (ht : parseTokens limit ts = .ok t)
    (hus : tokenize second = .ok us) (hu : parseTokens limit us = .ok u)
    (hlater : parseTokens later us = .ok u) (hne : u.children ≠ [])
    (budget : Except LimitError Nat) (scope : ScopeId) (m : Machine) :
    match Program.run limit budget scope first m with
    | .error f m₁ => ∃ m',
        Program.run limit budget scope (first ++ ";" ++ second) m = .error f m' ∧
          m'.store = m₁.store ∧ m'.output = m₁.output
    | .ok _ m₁ => Run.Alike (Program.run limit budget scope (first ++ ";" ++ second) m)
        (Program.run later budget scope second m₁) := by
  obtain ⟨vs, ss, hvs, hall, hplaces⟩ := parse_joined hts ht hus hu
  cases budget with
  | error e =>
    obtain ⟨m₁, hfirst, hstore, houtput⟩ := Eval.run_unbudgeted e scope m hts ht
    obtain ⟨m', hwhole, hstore', houtput'⟩ := Eval.run_unbudgeted e scope m hvs hall
    rw [hfirst]
    exact ⟨m', hwhole, hstore'.trans hstore.symm, houtput'.trans houtput.symm⟩
  | ok n =>
    have hlines := Syntax.program_lines (Syntax.program_reads ht (tokenize_endsOnce hts))
    have hlines' := Syntax.program_lines (Syntax.program_reads hall (tokenize_endsOnce hvs))
    have hlines₂ := Syntax.program_lines (Syntax.program_reads hu (tokenize_endsOnce hus))
    obtain ⟨ss₁, -, -, rfl⟩ := Syntax.program_statements ht
    obtain ⟨ss₂, -, -, rfl⟩ := Syntax.program_statements hu
    -- the notes that a run starts with are all that tells the machines apart
    have hnoted : ∀ {source source' : String} {ts ts' : List Token} {t t' : Tree} {m : Machine},
        Eval.Moved id (Eval.noted source ts t m) (Eval.noted source' ts' t' m) :=
      Eval.moved_id.mpr ⟨rfl, rfl⟩
    let start := Eval.noted first ts (.node .program none ss₁) m
    rw [Eval.run_parsed n scope m hvs hall, Eval.run_parsed n scope m hts ht]
    cases hfirst : evalTree n scope (.node .program none ss₁) start with
    | error f m₁ =>
      obtain ⟨m', hwhole, hm'⟩ := Eval.program_fails hlines hnoted hfirst ss
      obtain ⟨hstore, houtput⟩ := Eval.moved_id.mp hm'
      rw [Run.ofEval_error hfirst]
      exact ⟨m', Run.ofEval_error hwhole, hstore, houtput⟩
    | ok v m₁ =>
      have hm₂ : Eval.Moved id m₁ (Eval.noted second us (.node .program none ss₂) m₁) :=
        Eval.moved_id.mpr ⟨rfl, rfl⟩
      obtain ⟨r, hwhole, hsecond⟩ :=
        Eval.program_goes_on hlines' hlines₂ hplaces hne hnoted hfirst hm₂
      rw [Run.ofEval_ok hfirst]
      show Run.Alike _ (Program.run later (.ok n) scope second m₁)
      rw [Eval.run_parsed n scope m₁ hus hlater]
      exact alike_of_corresponds hwhole hsecond

/-- For instance a function of the first submission that calls one of the second. -/
theorem run_joined_forward : ∃ m,
    Program.run 100 (.ok 30) Machine.globalId
      ("func f() \x7b g() \x7d" ++ ";" ++ "func g() \x7b true \x7d f()") .fresh =
        .ok (.bool true) m := by
  let ts : List Token := [⟨.funcWord, "func", 1, 1⟩, ⟨.ident, "f", 1, 6⟩, ⟨.lpar, "(", 1, 7⟩,
    ⟨.rpar, ")", 1, 8⟩, ⟨.lbrace, "\x7b", 1, 10⟩, ⟨.ident, "g", 1, 12⟩, ⟨.lpar, "(", 1, 13⟩,
    ⟨.rpar, ")", 1, 14⟩, ⟨.rbrace, "\x7d", 1, 16⟩, ⟨.eof, "", 1, 17⟩]
  let us : List Token := [⟨.funcWord, "func", 1, 1⟩, ⟨.ident, "g", 1, 6⟩, ⟨.lpar, "(", 1, 7⟩,
    ⟨.rpar, ")", 1, 8⟩, ⟨.lbrace, "\x7b", 1, 10⟩, ⟨.ident, "true", 1, 12⟩,
    ⟨.rbrace, "\x7d", 1, 17⟩, ⟨.ident, "f", 1, 19⟩, ⟨.lpar, "(", 1, 20⟩, ⟨.rpar, ")", 1, 21⟩,
    ⟨.eof, "", 1, 22⟩]
  let name (text : String) (column : Int) : Tree := .leaf ⟨.ident, text, some 1, some column⟩
  let t : Tree := .node .program none [.node .fndecl (some 1) [name "f" 6, .node .params none [],
    .node .body none [.node .call (some 1) [name "g" 12, .node .args none []]]]]
  let u : Tree := .node .program none [.node .fndecl (some 1) [name "g" 6, .node .params none [],
    .node .body none [name "true" 12]], .node .call (some 1) [name "f" 19, .node .args none []]]
  have hts : tokenize "func f() \x7b g() \x7d" = .ok ts := by cbv
  have hus : tokenize "func g() \x7b true \x7d f()" = .ok us := by cbv
  have ht : parseTokens 100 ts = .ok t := rfl
  have hu : parseTokens 100 us = .ok u := rfl
  have h := run_joined hts ht hus hu hu (List.cons_ne_nil _ _) (.ok 30) Machine.globalId .fresh
  obtain ⟨v, m₁, m₂, hfirst, hsecond⟩ : ∃ v m₁ m₂,
      Program.run 100 (.ok 30) Machine.globalId "func f() \x7b g() \x7d" .fresh = .ok v m₁ ∧
        Program.run 100 (.ok 30) Machine.globalId "func g() \x7b true \x7d f()" m₁ =
          .ok (.bool true) m₂ := by
    exact ⟨_, _, _, (Eval.run_parsed 30 _ _ hts ht).trans (by cbv),
      (Eval.run_parsed 30 _ _ hus hu).trans (by cbv)⟩
  rw [hfirst] at h
  have halike : Run.Alike _ (Program.run 100 (.ok 30) Machine.globalId _ m₁) := h
  rw [hsecond] at halike
  -- alike to a run with a truth value is only one with the same
  cases hwhole : Program.run 100 (.ok 30) Machine.globalId
      ("func f() \x7b g() \x7d" ++ ";" ++ "func g() \x7b true \x7d f()") .fresh with
  | ok w m =>
    rw [hwhole] at halike
    have hw : w.unplaced = .bool true := halike.1
    obtain rfl : w = .bool true := by cases w <;> simp_all
    exact ⟨m, rfl⟩
  | error f m =>
    rw [hwhole] at halike
    cases f <;> exact halike.elim

end Avii
