import Avii.Proofs.Grammar.Nesting

/-!
# Members of numbers

The parser by table reads a name after a number and a point as a member of the number, as long as
the point cannot be part of it: `1.5.x`, and `1.x` as well (`member_tree`). To the tokens the point
after digits is part of the number, which is malformed if no digits follow (`member_of_number`).
-/

namespace Avii.Grammar

open Scan (Cut cut number tokensFrom isGap)
open Text (isAsciiDigit)

/-! ## Derivations -/

/-- A chain is a program. -/
theorem chain_program {ls rest : List Lexeme} {p : Parse} (h : Yields [.v .chain] ls [p] rest)
    (hrest : upcoming rest = .finish) : Yields [.v .start] ls [.node .program [p]] rest := by
  have hpower : Yields [.v .power] ls [p] rest :=
    .rule (show ⟨.power, [.v .chain], .splice⟩ ∈ rules by decide) (by decide) h
      (by rw [hrest]; rfl) .nil
  have hproduct : Yields [.v .multiplicative] ls [p] rest := hpower.splice (by decide)
  have hsum : Yields [.v .additive] ls [p] rest := hproduct.splice (by decide)
  have hequality : Yields [.v .equality] ls [p] rest := hsum.splice (by decide)
  have hlogical : Yields [.v .logical] ls [p] rest := hequality.splice (by decide)
  have hassign : Yields [.v .assign] ls [p] rest := hlogical.splice (by decide)
  have hexpr : Yields [.v .expr] ls [p] rest := hassign.splice (by decide)
  have hstmt : Yields [.v .stmt] ls [p] rest := hexpr.splice (by decide)
  have hitem : Yields [.v .item] ls [p] rest := hstmt.splice (by decide)
  have hitems : Yields [.v .items] ls [p] rest := hitem.splice (by decide)
  exact hitems.node (by decide)

/-- A number, a point and a name are a chain. -/
theorem member_chain {l dot name : Lexeme} {rest : List Lexeme} (hl : l.terminal = .number)
    (hdot : dot.terminal = .dot) (hname : name.terminal = .ident) :
    Yields [.v .chain] (l :: dot :: name :: rest) [.node .field [.lexeme l, .lexeme name]]
      rest := by
  have hnumber : Yields [.t .number] (l :: dot :: name :: rest) [.lexeme l]
      (dot :: name :: rest) := by
    have h := Yields.terminal (l := l) (@Yields.nil (dot :: name :: rest))
    rwa [Lexeme.parts, hl] at h
  have hprimary : Yields [.v .primary] _ _ _ := hnumber.splice (by decide)
  have hchain : Yields [.v .chain] _ _ _ := hprimary.splice (by decide)
  have haccess : Yields [.t .dot, .t .ident] (dot :: name :: rest) [.lexeme name] rest := by
    have h := Yields.terminal (l := dot) (Yields.terminal (l := name) (@Yields.nil rest))
    rwa [Lexeme.parts, Lexeme.parts, hdot, hname] at h
  have hfield : Yields [.v .chain, .t .dot, .t .ident] _ _ _ := hchain.append haccess
  exact hfield.node (by decide)

/-! ## Texts -/

/-- The text of a member of a number. -/
def memberText (number : List Char) : List Char :=
  number ++ ['.', 'x']

section Members

variable {t : Lalr.Table} {first : Variable → Lalr.Bits} {follow : Nat → Variable → Lalr.Bits}
  {d : Char} {ds : List Char}

theorem digit_not_gap (hd : isAsciiDigit d = true) : isGap d = false := by
  cases hgap : isGap d with
  | false => rfl
  | true =>
    simp only [isGap, decide_eq_true_eq] at hgap
    rcases hgap with rfl | rfl | rfl | rfl
    all_goals exact absurd hd (by decide)

/-- Three lexemes are taken one after the other. -/
theorem takes_three {s u : Stack} {a b c e : Lexeme}
    (h : Takes t s [a, b, c, e] u [e]) :
    ∃ s₁ s₂, s.take? t a = some s₁ ∧ s₁.take? t b = some s₂ ∧ s₂.take? t c = some u := by
  obtain _ | ⟨ha, _ | ⟨hb, _ | ⟨hc, he⟩⟩⟩ := h
  cases he with
  | refl => exact ⟨_, _, ha, hb, hc⟩
  | step _ hnone => cases takes_nil hnone

/-- The lexeme of a token is found where its terminal is accepted. -/
theorem found_of_cut {pos : Position} {c : Char} {rest raw : List Char} {t : Cut}
    {accepts : Terminal → Bool} (h : cut pos c rest = .ok t) (htext : c :: rest = raw ++ t.rest)
    (ha : accepts (terminalOf t.kind t.text) = true) :
    lexemeAt? accepts (c :: rest) = some (terminalOf t.kind t.text, raw.length) := by
  obtain ⟨raw', hraw⟩ := cut_lexeme h
  obtain rfl : raw' = raw := List.append_cancel_right (hraw.text.symm.trans htext)
  exact hraw.found accepts ha

/-- A member of a number is parsed if the point is not part of the number. -/
theorem member_parsed (hc : Certified t first follow) (hd : isAsciiDigit d = true)
    (hnumber : numberLength (memberText (d :: ds)) = (d :: ds).length) :
    ∃ l name, l.terminal = .number ∧ name.terminal = .ident ∧
      parseFrom t ((memberText (d :: ds)).length + 1) .initial .start .start
        (memberText (d :: ds)) = .ok (.node .program [.node .field [.lexeme l, .lexeme name]]) := by
  let dotted : Position := Position.start.advance (d :: ds)
  let named : Position := dotted.advance ['.']
  let l : Lexeme := ⟨.number, String.ofList (d :: ds), Position.start.line, Position.start.column⟩
  let dot : Lexeme := ⟨.dot, String.ofList ['.'], dotted.line, dotted.column⟩
  let name : Lexeme := ⟨.ident, String.ofList ['x'], named.line, named.column⟩
  let close : Lexeme := ⟨.finish, "", 0, 0⟩
  have hchain : Yields [.v .chain] [l, dot, name, close] _ [close] := member_chain rfl rfl rfl
  obtain ⟨u, htakes, hfinish⟩ := program_finishes hc (chain_program hchain rfl) rfl
  obtain ⟨s₁, s₂, hl, hdot, hname⟩ := takes_three htakes
  refine ⟨l, name, rfl, rfl, ?_⟩
  have hquote : d ≠ Text.doubleQuote := by
    rintro rfl
    exact absurd hd (by decide)
  have hfirst : lexemeAt? (Stack.accepts t .initial) (d :: (ds ++ ['.', 'x'])) =
      some (.number, (d :: ds).length) := by
    rw [lexemeAt?, if_neg hquote, if_pos hd, if_pos (accepts_of_take? hl)]
    exact congrArg _ (congrArg _ hnumber)
  have hsecond : lexemeAt? (Stack.accepts t s₁) ['.', 'x'] = some (.dot, 1) :=
    found_of_cut (show cut dotted '.' ['x'] = .ok ⟨.dot, ".", named, ['x']⟩ from rfl)
      (List.singleton_append ..).symm (accepts_of_take? hdot)
  have hthird : lexemeAt? (Stack.accepts t s₂) ['x'] = some (.ident, 1) :=
    found_of_cut (show cut named 'x' [] = .ok ⟨.ident, "x", named.advance ['x'], []⟩ from rfl)
      (List.singleton_append ..).symm (accepts_of_take? hname)
  have hsteps : (memberText (d :: ds)).length = ds.length + 3 := by simp [memberText]
  rw [hsteps]
  calc parseFrom t (ds.length + 3 + 1) .initial .start .start (d :: (ds ++ ['.', 'x']))
      = parseFrom t (ds.length + 2 + 1) s₁ .start dotted ['.', 'x'] :=
        parseFrom_take (digit_not_gap hd) (List.cons_append ..).symm hfirst rfl hl
    _ = parseFrom t (ds.length + 1 + 1) s₂ dotted named ['x'] :=
        parseFrom_take (by decide) (List.singleton_append ..).symm hsecond rfl hdot
    _ = parseFrom t (ds.length + 1) u named (named.advance ['x']) [] :=
        parseFrom_take (by decide) (List.singleton_append ..).symm hthird rfl hname
    _ = _ := hfinish _

/-- The parse of a member becomes a tree. -/
theorem member_built {l name : Lexeme} {number member : Tree} (hl : buildLeaf l = .ok number)
    (hname : buildLeaf name = .ok member) (n : Nat) :
    build (n + 2) (.node .program [.node .field [.lexeme l, .lexeme name]]) =
      .ok (.node .program none [.node .field (leafLine member) [number, member]]) := by
  simp only [build, buildAll, hl, hname, buildNode]

theorem buildLeaf_ok {l : Lexeme} (h : l.terminal ≠ .string) : ∃ leaf, buildLeaf l = .ok leaf := by
  unfold buildLeaf
  split
  next hstring => exact absurd hstring h
  next => exact ⟨_, rfl⟩

/-- A member of a number has a tree by the grammar if the point is not part of the number; it nests
two nodes deep. -/
theorem member_tree {limit : Nat} (hlimit : 4 ≤ limit) (hd : isAsciiDigit d = true)
    (hnumber : numberLength (memberText (d :: ds)) = (d :: ds).length) :
    ∃ t, parseTree limit (String.ofList (memberText (d :: ds))) = .ok t := by
  obtain ⟨first, follow, hc⟩ := certified
  obtain ⟨l, name, hl, hname, hparse⟩ := member_parsed hc hd hnumber
  obtain ⟨number, hnumberLeaf⟩ := buildLeaf_ok (show l.terminal ≠ .string by rw [hl]; decide)
  obtain ⟨member, hmemberLeaf⟩ := buildLeaf_ok (show name.terminal ≠ .string by rw [hname]; decide)
  have hprogram : parse (String.ofList (memberText (d :: ds))) =
      .ok (.node .program [.node .field [.lexeme l, .lexeme name]]) := by
    rw [parse, String.toList_ofList]
    exact hparse
  refine ⟨.node .program none [.node .field (leafLine member) [number, member]], ?_⟩
  obtain ⟨n, hn⟩ : ∃ n, nodesWithin limit = n + 2 :=
    ⟨nodesWithin limit - 2, by unfold nodesWithin; omega⟩
  rw [parseTree, hprogram]
  simp only [hn, member_built hnumberLeaf hmemberLeaf n]

/-- Digits that a point without digits follows are no number. -/
theorem member_malformed (h : ∀ c ∈ d :: ds, isAsciiDigit c = true) :
    ∃ e, tokenize (String.ofList (memberText (d :: ds))) = .error e := by
  have hd : isAsciiDigit d = true := h d (List.mem_cons_self ..)
  have hquote : d ≠ Text.doubleQuote := by
    rintro rfl
    exact absurd hd (by decide)
  have hdrop : (d :: (ds ++ ['.', 'x'])).dropWhile isAsciiDigit = ['.', 'x'] := by
    rw [← List.cons_append, List.dropWhile_append_of_pos h]
    decide
  obtain ⟨e, hnumber⟩ : ∃ e, number .start (d :: (ds ++ ['.', 'x'])) = .error e := by
    unfold number
    simp only [hdrop]
    exact ⟨_, rfl⟩
  have hcut : cut .start d (ds ++ ['.', 'x']) = .error e := by
    unfold cut
    rw [if_neg hquote, if_pos hd, hnumber]
  rw [tokenize, String.toList_ofList, memberText, List.cons_append, tokensFrom,
    if_neg (by simp [digit_not_gap hd])]
  split
  next => exact ⟨_, rfl⟩
  next heq =>
    rw [hcut] at heq
    cases heq

theorem numberLength_digits (h : ∀ c ∈ d :: ds, isAsciiDigit c = true) :
    numberLength (memberText (d :: ds)) = (d :: ds).length := by
  have hwhole : (memberText (d :: ds)).takeWhile isAsciiDigit = d :: ds := by
    rw [memberText, List.takeWhile_append_of_pos h]
    simp [show isAsciiDigit '.' = false by decide]
  unfold numberLength
  rw [hwhole]
  dsimp only
  rw [memberText, List.drop_left]
  rfl

/-- A name after the digits of a number and a point is a member by the grammar, and no token. -/
theorem member_of_number {limit : Nat} (hlimit : 4 ≤ limit)
    (h : ∀ c ∈ d :: ds, isAsciiDigit c = true) :
    (∃ t, parseTree limit (String.ofList (memberText (d :: ds))) = .ok t) ∧
      ∃ e, tokenize (String.ofList (memberText (d :: ds))) = .error e :=
  ⟨member_tree hlimit (h d (List.mem_cons_self ..)) (numberLength_digits h), member_malformed h⟩

end Members

end Avii.Grammar
