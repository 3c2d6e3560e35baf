import Avii.Proofs.Grammar.Meaning
import Avii.Proofs.Grammar.Members
import Avii.Proofs.Grammar.Soundness
import Avii.Proofs.Outcome
import Avii.Proofs.Token.Layout

/-!
# Lexemes that need their context

The parser by table looks only for the lexemes that it can use at a place, and finds some that are
no tokens there: a name that is a keyword (`a.let`), a keyword with more letters behind it (`a
andb`), a number before a point without digits (`1.x`). So it accepts programs that the parser by
descent refuses (`member_refused`). Which ones is known exactly: of the programs that it accepts,
the parser by descent accepts those whose lexemes are all found without their context
(`accepted_alike_iff`), and gives them the same tree, but for the lines of inner nodes.
-/

namespace Avii.Grammar

open Scan (Cut cut literal number mark tokensFrom isGap isWordStart isWordChar)
open Text (isAsciiDigit)
open Syntax (arithmeticSigns conditionSigns)

/-! ## Lexemes and the text around them -/

/-- A lexeme that the parser takes, its characters, the place where it starts and the characters
after it. -/
structure Reading where
  terminal : Terminal
  raw : List Char
  start : Position
  rest : List Char

namespace Reading

/-- The lexeme itself. -/
def lexeme (r : Reading) : Lexeme :=
  ⟨r.terminal, String.ofList r.raw, r.start.line, r.start.column⟩

/-- A lexeme is free of its context if it is also found where all terminals are accepted, and is no
number that a point follows in which there is none. -/
structure Free (r : Reading) : Prop where
  found : lexemeAt? (fun _ => true) (r.raw ++ r.rest) = some (r.terminal, r.raw.length)
  number : r.terminal = .number → r.rest.head? = some '.' → '.' ∈ r.raw

instance (r : Reading) : Decidable r.Free :=
  decidable_of_iff (lexemeAt? (fun _ => true) (r.raw ++ r.rest) = some (r.terminal, r.raw.length) ∧
      (r.terminal = .number → r.rest.head? = some '.' → '.' ∈ r.raw))
    ⟨fun ⟨hfound, hnumber⟩ => ⟨hfound, hnumber⟩, fun ⟨hfound, hnumber⟩ => ⟨hfound, hnumber⟩⟩

end Reading

/-- The lexemes that the parser takes from the rest of a text, in at most a number of steps. -/
def readingsFrom (table : Lalr.Table) : Nat → Stack → Position → List Char → List Reading
  | 0, _, _, _ => []
  | _ + 1, _, _, [] => []
  | steps + 1, s, pos, c :: rest =>
    if isGap c then readingsFrom table steps s (pos.step c) rest
    else
      match lexemeAt? (s.accepts table) (c :: rest) with
      | none => []
      | some (t, n) =>
        let r : Reading := ⟨t, (c :: rest).take n, pos, (c :: rest).drop n⟩
        match s.take? table r.lexeme with
        | none => [r]
        | some s => r :: readingsFrom table steps s (pos.advance r.raw) r.rest

/-- The lexemes that the parser takes from a text. -/
def readings (source : String) : List Reading :=
  readingsFrom table (source.toList.length + 1) .initial .start source.toList

/-! ## Cutting free lexemes -/

theorem ofWord_signed (w : String) :
    Kind.ofWord w ≠ .binop ∧ (Kind.ofWord w = .condop → w = "and" ∨ w = "or") := by
  unfold Kind.ofWord
  repeat' split
  all_goals first
    | exact ⟨by simp, fun _ => by assumption⟩
    | exact ⟨by simp, by simp⟩

theorem ofMark?_signed {c : Char} : ∀ kind, Kind.ofMark? c = some kind →
    (kind = .binop → String.ofList [c] ∈ arithmeticSigns) ∧ kind ≠ .condop := by
  unfold Kind.ofMark?
  refine Scan.of_ite ?_ ?_
  · rintro (rfl | rfl | rfl | rfl | rfl | rfl)
    all_goals decide
  repeat refine Scan.of_ite (fun _ => by simp) ?_
  intro kind hnone
  cases hnone

/-- What spells an operator is one. -/
theorem spells_signed {raw : List Char} {kind : Kind} {text : String}
    (h : Scan.Spells raw kind text) (line column : Int) : Signed ⟨kind, text, line, column⟩ := by
  cases h with
  | literal => exact ⟨by simp, by simp⟩
  | number => exact ⟨by simp, by simp⟩
  | @word c cs =>
    obtain ⟨hbinop, hcondop⟩ := ofWord_signed (String.ofList (c :: cs))
    refine ⟨fun h => absurd h hbinop, fun h => ?_⟩
    rcases hcondop h with hw | hw
    · simp [hw, conditionSigns]
    · simp [hw, conditionSigns]
  | comparison hc =>
    refine ⟨by simp, fun _ => ?_⟩
    rcases hc with rfl | rfl
    · exact (by decide : String.ofList ['=', '='] ∈ conditionSigns)
    · exact (by decide : String.ofList ['!', '='] ∈ conditionSigns)
  | mark hmark =>
    obtain ⟨hbinop, hcondop⟩ := ofMark?_signed _ hmark
    exact ⟨hbinop, fun h => absurd h hcondop⟩

/-- What the body of a literal is decoded to it denotes. -/
theorem denotes_of_decodes {line : Int} {body ds : List Char} (hbody : Enclosed body)
    (h : Escape.decodeBody line body = .ok ds) : Scan.Denotes body ds := by
  induction hbody generalizing ds with
  | nil =>
    cases h
    exact .nil
  | @escape e body _ _ ih =>
    rw [Escape.decodeBody] at h
    split at h
    next d hd =>
      obtain ⟨es, hrest, rfl⟩ := map_eq_ok.mp h
      exact .escape hd (ih hrest)
    next => cases h
  | @plain c body hq hb _ ih =>
    rw [Escape.decodeBody] at h
    · obtain ⟨es, hrest, rfl⟩ := map_eq_ok.mp h
      exact .plain hq hb (ih hrest)
    · exact fun h => absurd h hb
    · exact fun _ _ h => absurd h hb

section Cutting

variable {pos : Position} {c : Char} {rest : List Char} {r : Reading}

/-- A literal that ends is cut where its body denotes something. -/
theorem literal_of_free (htext : Text.doubleQuote :: rest = r.raw ++ r.rest) (hfree : r.Free)
    (hleaf : r.terminal = .string → ∃ leaf, buildLeaf r.lexeme = .ok leaf) :
    ∃ t, cut pos Text.doubleQuote rest = .ok t := by
  have hfound := hfree.found
  rw [← htext, lexemeAt?, if_pos rfl, if_pos rfl] at hfound
  obtain ⟨n, hn, hpair⟩ := Option.map_eq_some_iff.mp hfound
  obtain ⟨hterminal, hlength⟩ := Prod.mk.inj hpair
  obtain ⟨body, after, hbody, rfl, rfl⟩ := literalLength?_iff.mp hn
  have hraw : r.raw = Text.doubleQuote :: (body ++ [Text.doubleQuote]) := by
    have htext' : r.raw ++ r.rest = Text.doubleQuote :: (body ++ [Text.doubleQuote]) ++ after := by
      rw [← htext]
      simp
    exact (List.append_inj htext' (by simp [← hlength])).1
  obtain ⟨leaf, hleaf⟩ := hleaf hterminal.symm
  unfold buildLeaf Reading.lexeme at hleaf
  simp only [← hterminal, hraw, String.toList_ofList, List.drop_succ_cons, List.drop_zero,
    List.dropLast_concat] at hleaf
  split at hleaf
  next ds hdecode =>
    have hdenotes := denotes_of_decodes hbody hdecode
    unfold cut
    rw [if_pos rfl, Scan.literal_iff.mpr ⟨body, hdenotes, rfl, rfl⟩]
    exact ⟨_, rfl⟩
  next => cases hleaf

/-- A number is cut where no point follows it, unless it has one. -/
theorem number_of_free (hc : isAsciiDigit c = true) (hquote : c ≠ Text.doubleQuote)
    (htext : c :: rest = r.raw ++ r.rest) (hfree : r.Free) :
    ∃ t, number pos (c :: rest) = .ok t := by
  unfold number
  split
  next after hdrop =>
    split
    next hdigits =>
      -- only the digits before the point would be the number, and the point would follow them
      have hlength : numberLength (c :: rest) = ((c :: rest).takeWhile isAsciiDigit).length := by
        unfold numberLength
        simp only [drop_takeWhile, hdrop, hdigits]
        rfl
      have hfound := hfree.found
      rw [← htext, lexemeAt?, if_neg hquote, if_pos hc, if_pos rfl, Option.some.injEq,
        Prod.mk.injEq, hlength] at hfound
      have hsplit : r.raw ++ r.rest = (c :: rest).takeWhile isAsciiDigit ++ '.' :: after := by
        rw [← htext, ← hdrop, List.takeWhile_append_dropWhile]
      obtain ⟨hraw, hrest⟩ := List.append_inj hsplit hfound.2.symm
      have hpoint := hfree.number hfound.1.symm (by rw [hrest]; rfl)
      rw [hraw] at hpoint
      exact absurd (Scan.takeWhile_forall _ hpoint) (by decide)
    next => exact ⟨_, rfl⟩
  next => exact ⟨_, rfl⟩

/-- A lexeme of a fixed terminal starts like a word or with a mark, or is `!=`. -/
theorem fixed_starts : ∀ q ∈ fixed, q.2.head?.any isWordStart = true ∨
    q.2.head?.any (fun d => (Kind.ofMark? d).isSome) = true ∨ q.2 = ['!', '='] := by
  decide

/-- What starts with a lexeme of a fixed terminal, and not like a word, is cut as a mark. -/
theorem mark_of_free (hc : isAsciiDigit c = false) (hquote : c ≠ Text.doubleQuote)
    (hword : isWordStart c = false) (htext : c :: rest = r.raw ++ r.rest) (hfree : r.Free) :
    ∃ t, mark pos c rest = .ok t := by
  have hfound := hfree.found
  rw [← htext, lexemeAt?, if_neg hquote, hc, if_neg Bool.false_ne_true, hword, Bool.false_and,
    if_neg Bool.false_ne_true] at hfound
  obtain ⟨q, hq, -⟩ := Option.map_eq_some_iff.mp hfound
  have hprefix : q.2 <+: c :: rest := by
    simpa using List.find?_some hq
  unfold mark
  split
  next => exact ⟨_, rfl⟩
  next => exact ⟨_, rfl⟩
  next hdouble hnot =>
    cases hmark : Kind.ofMark? c with
    | some kind => exact ⟨_, rfl⟩
    | none =>
      have hstarts := fixed_starts q (List.mem_of_find?_eq_some hq)
      obtain ⟨more, hmore⟩ := hprefix
      cases hlexeme : q.2 with
      | nil => simp [hlexeme] at hstarts
      | cons d ds =>
        rw [hlexeme, List.cons_append] at hmore
        obtain ⟨rfl, htail⟩ := List.cons.inj hmore
        simp only [hlexeme, List.head?_cons, Option.any_some, hword, hmark, Option.isSome_none,
          Bool.false_eq_true, false_or, List.cons.injEq] at hstarts
        obtain ⟨rfl, rfl⟩ := hstarts
        exact absurd htail.symm (hnot more rfl)

/-- A lexeme that is free of its context is cut as a token. -/
theorem cut_of_free (htext : c :: rest = r.raw ++ r.rest) (hfree : r.Free)
    (hleaf : r.terminal = .string → ∃ leaf, buildLeaf r.lexeme = .ok leaf) :
    ∃ t, cut pos c rest = .ok t := by
  by_cases hquote : c = Text.doubleQuote
  · subst hquote
    exact literal_of_free htext hfree hleaf
  · unfold cut
    rw [if_neg hquote]
    cases hdigit : isAsciiDigit c with
    | true =>
      rw [if_pos rfl]
      exact number_of_free hdigit hquote htext hfree
    | false =>
      rw [if_neg Bool.false_ne_true]
      cases hword : isWordStart c with
      | true => exact ⟨_, rfl⟩
      | false => exact mark_of_free hdigit hquote hword htext hfree

/-- A lexeme that is free of its context stands for the token that is cut there. -/
theorem token_of_free (htext : c :: rest = r.raw ++ r.rest) (hfree : r.Free)
    (hleaf : r.terminal = .string → ∃ leaf, buildLeaf r.lexeme = .ok leaf) :
    ∃ t, cut r.start c rest = .ok t ∧ t.rest = r.rest ∧ t.stop = r.start.advance r.raw ∧
      Stands ⟨t.kind, t.text, r.start.line, r.start.column⟩ r.lexeme := by
  obtain ⟨t, ht⟩ : ∃ t, cut r.start c rest = .ok t := cut_of_free htext hfree hleaf
  obtain ⟨raw, hraw⟩ := cut_lexeme ht
  have hfound := hraw.found (fun _ => true) rfl
  rw [htext, hfree.found, Option.some.injEq, Prod.mk.injEq] at hfound
  obtain ⟨hterminal, hlength⟩ := hfound
  obtain ⟨hsame, hrest⟩ := List.append_inj (htext.symm.trans hraw.text) hlength
  obtain ⟨raw', htext', -, hspells, -⟩ := Scan.cut_spells ht
  refine ⟨t, ht, hrest.symm, by rw [hraw.stop, hsame], ?_, spells_signed hspells _ _⟩
  rw [Reading.lexeme, hterminal, hsame]
  exact hraw.leaf

/-- What is cut as a token is a lexeme that is free of its context. -/
theorem free_of_cut {t : Cut} {raw : List Char} (h : cut pos c rest = .ok t)
    (hraw : CutsAs pos (c :: rest) t raw) :
    (⟨terminalOf t.kind t.text, raw, pos, t.rest⟩ : Reading).Free := by
  refine ⟨?_, fun hnumber hpoint => ?_⟩
  · rw [← hraw.text]
    exact hraw.found _ rfl
  · have hkind : t.kind = .number := by
      rw [← terminalOf_kind t.kind t.text]
      exact congrArg Terminal.kind hnumber
    obtain ⟨raw', htext, -, -, hstops⟩ := Scan.cut_spells h
    obtain rfl : raw' = raw := List.append_cancel_right (htext.symm.trans hraw.text)
    exact (hstops.number hkind '.' hpoint).2 rfl

end Cutting

/-! ## Whole texts -/

section Texts

variable {t : Lalr.Table}

/-- What the parser has found and taken where it goes on. -/
theorem parseFrom_cases {s : Stack} {last pos : Position} {c : Char} {rest : List Char} {p : Parse}
    {steps : Nat} (hgap : isGap c = false)
    (h : parseFrom t (steps + 1) s last pos (c :: rest) = .ok p) :
    ∃ (r : Reading) (s' : Stack), r.start = pos ∧ c :: rest = r.raw ++ r.rest ∧
      s.take? t r.lexeme = some s' ∧
      parseFrom t steps s' pos (pos.advance r.raw) r.rest = .ok p ∧
      readingsFrom t (steps + 1) s pos (c :: rest) =
        r :: readingsFrom t steps s' (pos.advance r.raw) r.rest := by
  rw [parseFrom, hgap, if_neg Bool.false_ne_true] at h
  rw [readingsFrom, hgap, if_neg Bool.false_ne_true]
  cases hfound : lexemeAt? (s.accepts t) (c :: rest) with
  | none =>
    rw [hfound] at h
    cases h
  | some found =>
    obtain ⟨a, n⟩ := found
    simp only [hfound] at h ⊢
    split at h
    next => cases h
    next s' htake =>
      have hlexeme : s.take? t (Reading.lexeme ⟨a, (c :: rest).take n, pos,
          (c :: rest).drop n⟩) = some s' := htake
      refine ⟨_, s', rfl, (List.take_append_drop n _).symm, hlexeme, h, ?_⟩
      rw [hlexeme]

/-- The parser takes the lexemes of a text that it parses, and then finishes. -/
theorem takes_readings {steps : Nat} {s : Stack} {last pos : Position} {cs : List Char} {p : Parse}
    (h : parseFrom t steps s last pos cs = .ok p) : ∃ u last', u.finish t last' = .ok p ∧
      ∀ e, Takes t s ((readingsFrom t steps s pos cs).map Reading.lexeme ++ [e]) u [e] := by
  induction steps generalizing s last pos cs with
  | zero => exact ⟨s, last, h, fun e => .refl _ _⟩
  | succ steps ih =>
    cases cs with
    | nil => exact ⟨s, last, h, fun e => .refl _ _⟩
    | cons c rest =>
      cases hgap : isGap c with
      | true =>
        rw [parseFrom, if_pos hgap] at h
        rw [readingsFrom, if_pos hgap]
        exact ih h
      | false =>
        obtain ⟨r, s', rfl, -, htake, hrest, hreadings⟩ := parseFrom_cases hgap h
        obtain ⟨u, last', hfinish, htakes⟩ := ih hrest
        rw [hreadings]
        exact ⟨u, last', hfinish, fun e => .step htake (htakes e)⟩

/-- What the parser does with a lexeme that it finds and takes. -/
theorem readingsFrom_take {s s' : Stack} {l : Lexeme} {raw after : List Char} {c : Char}
    {rest : List Char} {pos : Position} {steps : Nat} (hgap : isGap c = false)
    (htext : c :: rest = raw ++ after)
    (hfound : lexemeAt? (s.accepts t) (c :: rest) = some (l.terminal, raw.length))
    (hl : l = ⟨l.terminal, String.ofList raw, pos.line, pos.column⟩)
    (htake : s.take? t l = some s') :
    readingsFrom t (steps + 1) s pos (c :: rest) =
      ⟨l.terminal, raw, pos, after⟩ :: readingsFrom t steps s' (pos.advance raw) after := by
  have hlexeme : s.take? t (Reading.lexeme ⟨l.terminal, raw, pos, after⟩) = some s' := by
    rw [Reading.lexeme, ← hl, htake]
  rw [readingsFrom, hgap, if_neg Bool.false_ne_true]
  simp only [hfound]
  rw [htext, List.take_left, List.drop_left, hlexeme]

/-- Where the lexemes of all tokens are taken, they are free of their context. -/
theorem free_of_tokens {pos : Position} {cs : List Char} {ts : List Token}
    (h : tokensFrom pos cs = .ok ts) : ∃ ls, List.Forall₂ Lexes ts ls ∧
      ∀ (s u : Stack) (e : Lexeme) (steps : Nat), Takes t s ls u [e] → cs.length < steps →
        ∀ r ∈ readingsFrom t steps s pos cs, r.Free := by
  fun_induction tokensFrom pos cs generalizing ts with
  | case1 pos =>
    cases h
    refine ⟨[⟨.finish, "", pos.line, pos.column⟩], .cons ⟨rfl, by simp [Terminal.isPart]⟩ .nil, ?_⟩
    intro s u e steps htakes hsteps
    obtain ⟨n, rfl⟩ : ∃ n, steps = n + 1 := ⟨steps - 1, by omega⟩
    simp [readingsFrom]
  | case2 pos c rest hgap ih =>
    obtain ⟨ls, hls, hfree⟩ := ih h
    refine ⟨ls, hls, ?_⟩
    intro s u e steps htakes hsteps
    obtain ⟨n, rfl⟩ : ∃ n, steps = n + 1 := ⟨steps - 1, by omega⟩
    rw [readingsFrom, if_pos hgap]
    exact hfree s u e n htakes (Nat.lt_of_succ_lt_succ hsteps)
  | case3 => cases h
  | case4 => cases h
  | case5 pos c rest hgap t' hc ts' hts ih =>
    cases h
    obtain ⟨ls, hls, hfree⟩ := ih hts
    obtain ⟨raw, hraw⟩ := cut_lexeme hc
    refine ⟨_ :: ls, .cons hraw.leaf hls, ?_⟩
    intro s u e steps htakes hsteps
    obtain ⟨n, rfl⟩ : ∃ n, steps = n + 1 := ⟨steps - 1, by omega⟩
    cases htakes with
    | refl =>
      -- a text has at least the token that closes it
      cases hls
      obtain ⟨body, close, hbody, -⟩ := Scan.tokensFrom_endsOnce hts
      exact absurd hbody (by simp)
    | @step _ _ s' _ _ _ htake hrest =>
      have hlength := Scan.cut_length hc
      rw [readingsFrom_take (by simpa using hgap) hraw.text
        (hraw.found _ (accepts_of_take? htake)) rfl htake, ← hraw.stop]
      refine List.forall_mem_cons.mpr ⟨free_of_cut hc hraw, ?_⟩
      exact hfree s' u e n hrest (by omega)

/-- Lexemes that are free of their context are those of tokens. -/
theorem tokens_of_free {steps : Nat} {s : Stack} {last pos : Position} {cs : List Char} {p : Parse}
    (h : parseFrom t steps s last pos cs = .ok p) (hsteps : cs.length < steps)
    (hfree : ∀ r ∈ readingsFrom t steps s pos cs, r.Free)
    (hleaf : ∀ r ∈ readingsFrom t steps s pos cs, r.terminal = .string →
      ∃ leaf, buildLeaf r.lexeme = .ok leaf) :
    ∃ (ts : List Token) (le : Lexeme), tokensFrom pos cs = .ok ts ∧ le.terminal = .finish ∧
      List.Forall₂ Stands ts ((readingsFrom t steps s pos cs).map Reading.lexeme ++ [le]) := by
  induction steps generalizing s last pos cs with
  | zero => exact absurd hsteps (Nat.not_lt_zero _)
  | succ steps ih =>
    cases cs with
    | nil =>
      refine ⟨[Token.endAt pos], ⟨.finish, "", pos.line, pos.column⟩, ?_, rfl, ?_⟩
      · rw [tokensFrom]
      · exact .cons ⟨⟨rfl, by simp [Terminal.isPart]⟩, by simp [Token.endAt],
          by simp [Token.endAt]⟩ .nil
    | cons c rest =>
      cases hgap : isGap c with
      | true =>
        rw [parseFrom, if_pos hgap] at h
        rw [readingsFrom, if_pos hgap] at hfree hleaf ⊢
        rw [tokensFrom, if_pos hgap]
        exact ih h (Nat.lt_of_succ_lt_succ hsteps) hfree hleaf
      | false =>
        obtain ⟨r, s', rfl, htext, -, hrest, hreadings⟩ := parseFrom_cases hgap h
        rw [hreadings] at hfree hleaf ⊢
        obtain ⟨hr, hothers⟩ := List.forall_mem_cons.mp hfree
        obtain ⟨hrleaf, hleaves⟩ := List.forall_mem_cons.mp hleaf
        obtain ⟨k, hcut, hkrest, hkstop, hstands⟩ := token_of_free htext hr hrleaf
        have hlength := Scan.cut_length hcut
        rw [hkrest] at hlength
        obtain ⟨ts, le, hts, hle, hall⟩ := ih hrest (by omega) hothers hleaves
        rw [← hkstop, ← hkrest] at hts
        exact ⟨_ :: ts, le, tokensFrom_cut hgap hcut hts, hle, .cons hstands hall⟩

end Texts

/-! ## Programs -/

section Programs

variable {source : String} {ts : List Token} {t t' : Tree} {p : Parse}

/-- The lexemes of a text that is parsed are derived as a program. -/
theorem readings_derived (h : parse source = .ok p) {le : Lexeme} (hle : le.terminal = .finish) :
    Yields [.v .start] ((readings source).map Reading.lexeme ++ [le]) [p] [le] ∨
      p = .node .program [] ∧ (readings source).map Reading.lexeme ++ [le] = [le] := by
  obtain ⟨u, last, hfinish, htakes⟩ := takes_readings h
  exact finish_derives table_sound (htakes le) hle hfinish

/-- The lexemes of a text that has a tree have leaves. -/
theorem readings_leaves (h : parse source = .ok p) {n : Nat} (ht : build n p = .ok t) :
    ∀ r ∈ readings source, r.terminal.isPart = true → ∃ leaf, buildLeaf r.lexeme = .ok leaf := by
  intro r hr
  rcases @readings_derived _ _ h ⟨.finish, "", 0, 0⟩ rfl with hyields | ⟨-, hnone⟩
  · have hall : buildAll n [p] = .ok [t] := by
      rw [buildAll, ht]
      rfl
    obtain ⟨read, hread, hleaves⟩ := yields_leaves hyields hall
    rw [← List.append_cancel_right hread] at hleaves
    exact hleaves r.lexeme (List.mem_map_of_mem hr)
  · have hempty : readings source = [] := by simpa using hnone
    rw [hempty] at hr
    exact absurd hr List.not_mem_nil

/-- A text whose lexemes are free of their context has the tokens of a program, and these have the
tree that the text has by the grammar, but for the lines of inner nodes. -/
theorem program_of_free {limit : Nat} (h : parseTree limit source = .ok t)
    (hfree : ∀ r ∈ readings source, r.Free) :
    ∃ ts t', tokenize source = .ok ts ∧ Syntax.IsProgram ts t' ∧ t'.bare = t.bare := by
  unfold parseTree at h
  split at h
  next => cases h
  next p hp =>
    split at h
    next => cases h
    next u ht =>
      cases h
      have hleaf : ∀ r ∈ readings source, r.terminal = .string →
          ∃ leaf, buildLeaf r.lexeme = .ok leaf := by
        intro r hr hstring
        exact readings_leaves hp ht r hr (by rw [hstring]; rfl)
      obtain ⟨ts, le, hts, hle, hstands⟩ := tokens_of_free hp (Nat.lt_succ_self _) hfree hleaf
      obtain ⟨t', ht', hbare⟩ := program_means hstands hle (readings_derived hp hle) ht
      exact ⟨ts, t', hts, ht', hbare⟩

/-- The lexemes of a text that has the tokens of a program are free of their context. -/
theorem free_of_program (hts : tokenize source = .ok ts) (ht : Syntax.IsProgram ts t) :
    ∀ r ∈ readings source, r.Free := by
  obtain ⟨first, follow, hc⟩ := certified
  obtain ⟨ls, hls, hfree⟩ := @free_of_tokens table _ _ _ hts
  obtain ⟨p, u, le, htakes, -, -⟩ := program_taken hc hls ht
  exact hfree .initial u le _ htakes (Nat.lt_succ_self _)

/-- A program has one tree. -/
theorem program_unique (hts : Syntax.EndsOnce ts) (ht : Syntax.IsProgram ts t)
    (ht' : Syntax.IsProgram ts t') : t = t' := by
  obtain ⟨N, hN⟩ := Syntax.program_runs ht hts
  obtain ⟨M, hM⟩ := Syntax.program_runs ht' hts
  have hboth := (hN (max N M) (Nat.le_max_left ..)).symm.trans (hM (max N M) (Nat.le_max_right ..))
  exact Except.ok.inj hboth

end Programs

/-! ## Agreement -/

open Avii.Parser (program)

/-- Of the texts that have a tree by the grammar, within whatever limit, exactly those have one by
descent whose lexemes are free of their context. It is the same tree, but for the lines of inner
nodes, and every budget from some one on gives it. -/
theorem accepted_alike_iff {limit : Nat} {source : String} {t : Tree}
    (h : parseTree limit source = .ok t) :
    ((∃ ts, tokenize source = .ok ts ∧ ∃ n t', (program n).run ts = .ok t') ↔
        ∀ r ∈ readings source, r.Free) ∧
      ∀ ts n t', tokenize source = .ok ts → (program n).run ts = .ok t' →
        t'.bare = t.bare ∧ ∃ N, ∀ m, N ≤ m → (program m).run ts = .ok t' := by
  refine ⟨⟨?_, ?_⟩, ?_⟩
  · rintro ⟨ts, hts, n, t', hrun⟩
    exact free_of_program hts (Syntax.program_reads hrun (tokenize_endsOnce hts))
  · intro hfree
    obtain ⟨ts, t', hts, ht', -⟩ := program_of_free h hfree
    obtain ⟨N, hN⟩ := Syntax.program_runs ht' (tokenize_endsOnce hts)
    exact ⟨ts, hts, N, t', hN N (Nat.le_refl N)⟩
  · intro ts n t' hts hrun
    have hends := tokenize_endsOnce hts
    have ht' := Syntax.program_reads hrun hends
    obtain ⟨us, u, hus, hu, hbare⟩ := program_of_free h (free_of_program hts ht')
    obtain rfl : ts = us := Except.ok.inj (hts.symm.trans hus)
    refine ⟨?_, Syntax.program_runs ht' hends⟩
    rw [program_unique hends ht' hu, hbare]

/-- For instance the member of a number with a fraction has one tree. -/
theorem accepted_alike_fraction : ∃ t, parseTree 1000 "1.5.x" = .ok t ∧
    (∀ r ∈ readings "1.5.x", r.Free) ∧
    ∃ ts n t', tokenize "1.5.x" = .ok ts ∧ (program n).run ts = .ok t' ∧ t'.bare = t.bare := by
  obtain ⟨t, ht⟩ := @member_tree '1' ['.', '5'] 1000 (by decide) (by decide) (by decide)
  have hts : tokenize "1.5.x" = .ok [⟨.number, "1.5", 1, 1⟩, ⟨.dot, ".", 1, 4⟩,
      ⟨.ident, "x", 1, 5⟩, ⟨.eof, "", 1, 6⟩] := by with_unfolding_all rfl
  obtain ⟨hiff, hsame⟩ := accepted_alike_iff ht
  exact ⟨t, ht, hiff.mp ⟨_, hts, 20, _, rfl⟩, _, 20, _, hts, rfl, (hsame _ 20 _ hts rfl).1⟩

/-- The member of a number without a point has a tree by the grammar only. -/
theorem member_refused : (∃ t, parseTree 1000 "1.x" = .ok t) ∧
    ¬ ∃ ts, tokenize "1.x" = .ok ts ∧ ∃ n t', (program n).run ts = .ok t' := by
  obtain ⟨ht, e, he⟩ := @member_of_number '1' [] 1000 (by decide) (List.all_eq_true.mp rfl)
  have hnone : tokenize "1.x" = .error e := he
  refine ⟨ht, ?_⟩
  rintro ⟨ts, hts, -⟩
  rw [hnone] at hts
  cases hts

end Avii.Grammar
