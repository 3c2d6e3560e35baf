import Avii.Proofs.Grammar.Parts

/-!
# What the step to trees stops at

The step from a parse to a tree goes through the parse from left to right, parts before wholes, and
stops at the first thing that it refuses. `Stops` says what that can be, and with which error: a
string literal with a bad escape, a node past the budget, or a node whose parts have become trees
and are refused, as repeated parameters or as the target of an assignment. It is exactly when the
step stops at something that it fails (`build_error_iff`).
-/

namespace Avii.Grammar

/-! ## Bad escapes -/

/-- The first bad escape of a literal's body: what is before it denotes something, and the character
after the backslash makes no escape. -/
def BadEscape (body : List Char) (c : Char) : Prop :=
  ∃ front ds rest, Scan.Denotes front ds ∧ body = front ++ '\\' :: c :: rest ∧
    Escape.denoted? c = none

theorem BadEscape.decodes {body : List Char} {c : Char} (h : BadEscape body c) (line : Int) :
    Escape.decodeBody line body = .error (.badEscape (String.ofList [c]) line) := by
  obtain ⟨front, ds, rest, hfront, rfl, hc⟩ := h
  induction hfront with
  | nil =>
    rw [List.nil_append, Escape.decodeBody]
    simp only [hc]
  | escape hd _ ih =>
    rw [List.cons_append, List.cons_append, Escape.decodeBody]
    simp only [hd, ih]
    rfl
  | plain _ hb _ ih =>
    rw [List.cons_append, Escape.decodeBody, ih]
    · rfl
    · exact fun h => absurd h hb
    · exact fun _ _ h => absurd h hb

/-- What does not decode has a bad escape. -/
theorem badEscape_of_decodes {body : List Char} (hbody : Enclosed body) {line : Int} {e : LexError}
    (h : Escape.decodeBody line body = .error e) :
    ∃ c, BadEscape body c ∧ e = .badEscape (String.ofList [c]) line := by
  induction hbody with
  | nil => cases h
  | @escape c body _ _ ih =>
    rw [Escape.decodeBody] at h
    split at h
    next d hd =>
      obtain ⟨bad, ⟨front, ds, rest, hfront, rfl, hbad⟩, rfl⟩ := ih (map_eq_error.mp h)
      exact ⟨bad, ⟨_, _, rest, .escape hd hfront, rfl, hbad⟩, rfl⟩
    next hnone =>
      cases h
      exact ⟨c, ⟨[], [], body, .nil, rfl, hnone⟩, rfl⟩
  | @plain c body hq hb _ ih =>
    rw [Escape.decodeBody] at h
    · obtain ⟨bad, ⟨front, ds, rest, hfront, rfl, hbad⟩, rfl⟩ := ih (map_eq_error.mp h)
      exact ⟨bad, ⟨_, _, rest, .plain hq hb hfront, rfl, hbad⟩, rfl⟩
    · exact fun h => absurd h hb
    · exact fun _ _ h => absurd h hb

/-! ## Refused nodes -/

/-- Trees that a form of node refuses to be made of, and why. -/
inductive Refused : Form → List Tree → ParseError → Prop where
  | repeated {ts : List Tree} {name : Leaf} (h : firstRepeated [] ts = some (.leaf name)) :
    Refused .params ts ⟨.duplicateParameter name.text, leafPlace (.leaf name)⟩
  | target {t value : Tree} (h : ∀ l, t = .leaf l → l.kind ≠ .ident) :
    Refused .assignment [t, value] ⟨.unassignable, leafPlace t⟩

theorem buildAssignment_error {target value : Tree} {e : BuildError} :
    buildAssignment target value = .error e ↔ (∀ l, target = .leaf l → l.kind ≠ .ident) ∧
      e = .invalid ⟨.unassignable, leafPlace target⟩ := by
  unfold buildAssignment
  cases target with
  | leaf l =>
    by_cases h : l.kind = .ident
    · simp [h]
    · have hne : ∀ l', Tree.leaf l = .leaf l' → l'.kind ≠ .ident := by
        rintro _ ⟨⟩
        exact h
      simp only [if_neg h, Except.error.injEq]
      exact ⟨fun heq => ⟨hne, heq.symm⟩, fun heq => heq.2.symm⟩
  | absent => simp [leafPlace, eq_comm]
  | node => simp [leafPlace, eq_comm]

theorem buildParams_error {ts : List Tree} {e : BuildError} :
    buildParams ts = .error e ↔ ∃ name, firstRepeated [] ts = some (.leaf name) ∧
      e = .invalid ⟨.duplicateParameter name.text, leafPlace (.leaf name)⟩ := by
  unfold buildParams
  constructor
  · intro h
    split at h
    next l heq =>
      cases h
      exact ⟨l, heq, rfl⟩
    next => cases h
  · rintro ⟨name, heq, rfl⟩
    rw [heq]

/-- Only parameters and targets of assignments are refused. -/
theorem buildNode_error {form : Form} {ts : List Tree} {e : BuildError} :
    buildNode form ts = .error e ↔ ∃ r, Refused form ts r ∧ e = .invalid r := by
  constructor
  · intro h
    unfold buildNode at h
    split at h
    case h_9 =>
      obtain ⟨name, hrepeated, rfl⟩ := buildParams_error.mp h
      exact ⟨_, .repeated hrepeated, rfl⟩
    case h_10 =>
      obtain ⟨htarget, rfl⟩ := buildAssignment_error.mp h
      exact ⟨_, .target htarget, rfl⟩
    all_goals cases h
  · rintro ⟨r, hr, rfl⟩
    cases hr with
    | repeated h => exact buildParams_error.mpr ⟨_, h, rfl⟩
    | target h => exact buildAssignment_error.mpr ⟨h, rfl⟩

/-! ## The whole parse -/

/-- What the step from a parse to a tree stops at, within a budget of nested nodes. -/
inductive Stops : Nat → Parse → BuildError → Prop where
  | literal {n : Nat} {l : Lexeme} {body : List Char} {c : Char} (hl : l.terminal = .string)
      (htext : l.text.toList = Text.doubleQuote :: (body ++ [Text.doubleQuote]))
      (hc : BadEscape body c) :
      Stops n (.lexeme l) (.badLiteral (.badEscape (String.ofList [c]) l.line))
  | deep {form : Form} {parts : List Parse} : Stops 0 (.node form parts) .tooDeep
  | part {n : Nat} {form : Form} {before after : List Parse} {p : Parse} {ts : List Tree}
      {e : BuildError} (hbefore : buildAll n before = .ok ts) (h : Stops n p e) :
      Stops (n + 1) (.node form (before ++ p :: after)) e
  | node {n : Nat} {form : Form} {parts : List Parse} {ts : List Tree} {r : ParseError}
      (hparts : buildAll n parts = .ok ts) (h : Refused form ts r) :
      Stops (n + 1) (.node form parts) (.invalid r)

theorem Stops.errs {n : Nat} {p : Parse} {e : BuildError} (h : Stops n p e) :
    build n p = .error e := by
  induction h with
  | literal hl htext hc =>
    have hbody : ∀ body : List Char,
        ((Text.doubleQuote :: (body ++ [Text.doubleQuote])).drop 1).dropLast = body := by simp
    rw [build, buildLeaf, hl]
    simp only [htext, hbody, hc.decodes]
  | deep => rw [build]
  | @part n form before after p ts e hbefore _ ih =>
    have hparts : buildAll n (before ++ p :: after) = .error e := by
      induction before generalizing ts with
      | nil =>
        rw [List.nil_append, buildAll, ih]
      | cons q before ihbefore =>
        rw [List.cons_append, buildAll]
        rw [buildAll] at hbefore
        split at hbefore
        next => cases hbefore
        next =>
          split at hbefore
          next => cases hbefore
          next hrest => simp only [ihbefore hrest]
    rw [build, hparts]
  | node hparts h =>
    rw [build, hparts]
    exact buildNode_error.mpr ⟨_, h, rfl⟩

/-- Of some parts that have no trees there is a first one that has none. -/
theorem buildAll_error {n : Nat} {ps : List Parse} {e : BuildError} (h : buildAll n ps = .error e) :
    ∃ before p after ts, ps = before ++ p :: after ∧ buildAll n before = .ok ts ∧
      build n p = .error e := by
  induction ps with
  | nil => cases h
  | cons q qs ih =>
    rw [buildAll] at h
    split at h
    next hq =>
      cases h
      exact ⟨[], q, qs, [], rfl, rfl, hq⟩
    next t hq =>
      split at h
      next hqs =>
        cases h
        obtain ⟨before, p, after, ts, rfl, hbefore, hp⟩ := ih hqs
        refine ⟨q :: before, p, after, t :: ts, rfl, ?_, hp⟩
        rw [buildAll, hq]
        simp only [hbefore]
      next => cases h

/-- Only a bad escape keeps a lexeme from becoming a leaf. -/
theorem buildLeaf_error {n : Nat} {l : Lexeme} {e : BuildError} (hl : l.Closed)
    (h : buildLeaf l = .error e) : Stops n (.lexeme l) e := by
  unfold buildLeaf at h
  split at h
  next hstring =>
    obtain ⟨body, hbody, htext⟩ := hl hstring
    split at h
    next => cases h
    next e' he =>
      cases h
      rw [htext, List.drop_one, List.tail_cons, List.dropLast_concat] at he
      obtain ⟨c, hc, rfl⟩ := badEscape_of_decodes hbody he
      exact .literal hstring htext hc
  next => cases h

/-- The step fails with an error exactly if that is what it stops at. -/
theorem build_error_iff {P : Form → List Parse → Prop} {n : Nat} {p : Parse} {e : BuildError}
    (hp : p.All P Lexeme.Closed) : build n p = .error e ↔ Stops n p e := by
  refine ⟨fun h => ?_, Stops.errs⟩
  induction hp generalizing n with
  | lexeme hl =>
    rw [build] at h
    exact buildLeaf_error hl h
  | @node form parts _ _ ih =>
    cases n with
    | zero =>
      rw [build] at h
      cases h
      exact .deep
    | succ n =>
      rw [build] at h
      split at h
      next ts hts =>
        obtain ⟨r, hr, rfl⟩ := buildNode_error.mp h
        exact .node hts hr
      next e' hparts =>
        cases h
        obtain ⟨before, p, after, ts, rfl, hbefore, hp⟩ := buildAll_error hparts
        exact .part hbefore (ih p (by simp) hp)

/-! ## A literal alone -/

/-- The text of a literal with a given body. -/
def literalText (body : List Char) : List Char :=
  Text.doubleQuote :: (body ++ [Text.doubleQuote])

theorem takes_one {t : Lalr.Table} {s u : Stack} {a e : Lexeme} (h : Takes t s [a, e] u [e]) :
    s.take? t a = some u := by
  obtain _ | ⟨ha, he⟩ := h
  cases he with
  | refl => exact ha
  | step _ hnone => cases takes_nil hnone

/-- A literal is a program. -/
theorem literal_parsed {body : List Char} (hbody : Enclosed body) :
    parse (String.ofList (literalText body)) =
      .ok (.node .program [.lexeme ⟨.string, String.ofList (literalText body), 1, 1⟩]) := by
  let l : Lexeme := ⟨.string, String.ofList (literalText body), 1, 1⟩
  let close : Lexeme := ⟨.finish, "", 0, 0⟩
  have hterminal : Yields [.t .string] [l, close] [.lexeme l] [close] :=
    .terminal (l := l) .nil
  have hprimary : Yields [.v .primary] _ _ _ := hterminal.splice (by decide)
  have hchain : Yields [.v .chain] _ _ _ := hprimary.splice (by decide)
  obtain ⟨first, follow, hc⟩ := certified
  obtain ⟨u, htakes, hfinish⟩ := program_finishes hc (chain_program hchain rfl) rfl
  have hl : Stack.take? table .initial l = some u := takes_one htakes
  have hlength : literalLength? (body ++ [Text.doubleQuote]) = some (body.length + 1) :=
    literalLength?_iff.mpr ⟨body, [], hbody, rfl, rfl⟩
  have hfound : lexemeAt? (Stack.accepts table .initial) (literalText body) =
      some (.string, (literalText body).length) := by
    rw [literalText, lexemeAt?, if_pos rfl, if_pos (accepts_of_take? hl), hlength]
    simp
  rw [parse, String.toList_ofList]
  have hstep : parseFrom table ((literalText body).length + 1) .initial .start .start
      (literalText body) = parseFrom table (literalText body).length u .start
        (Position.start.advance (literalText body)) [] :=
    parseFrom_take (l := l) (by decide) (List.append_nil _).symm hfound rfl hl
  refine hstep.trans ?_
  rw [literalText, List.length_cons, parseFrom]
  exact hfinish _

end Avii.Grammar
