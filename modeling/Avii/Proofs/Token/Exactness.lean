import Avii.Proofs.Token.Layout

/-!
# Nothing is lost in tokens

A text that can be read is gaps and pieces in turn, one piece for each token but the closing `eof`
(`tokenize_exact`). Each piece is the text of its token, or a literal that denotes it; the token
names the place where its piece starts, and no piece could have been longer.
-/

namespace Avii

open Text (isAsciiDigit)
open Scan (Layout Spells Stops isGap isWordStart isWordChar quotesEscaped)

/-- A token, the piece of text that spells it and the gap after that piece. -/
structure Part where
  token : Token
  raw : List Char
  gap : List Char

namespace Part

/-- The text of a part. -/
def chars (p : Part) : List Char := p.raw ++ p.gap

/-- What a token says about its piece is right, where the piece stands between the texts `before`
and `after`. -/
structure Exact (p : Part) (before after : List Char) : Prop where
  line : p.token.line = Position.lineAfter before
  column : p.token.column = Position.columnAfter before
  gap : ∀ c ∈ p.gap, isGap c = true
  inner : p.token.kind ≠ .eof
  spelled : Spells p.raw p.token.kind p.token.text
  plain : p.token.kind ≠ .string → p.raw = p.token.text.toList
  literal : p.token.kind = .string →
    ∃ body, p.raw = Text.doubleQuote :: (body ++ [Text.doubleQuote]) ∧ quotesEscaped body = true ∧
      ∀ line, Escape.decodeBody line body = .ok p.token.text.toList
  number : p.token.kind = .number → ∀ c, after.head? = some c → isAsciiDigit c = false
  word : ∀ c, p.raw.head? = some c → isWordStart c = true →
    ∀ d, after.head? = some d → isWordChar d = false
  equals : p.token.kind = .equals → after.head? ≠ some '='

end Part

namespace Scan

theorem Spells.plain {raw : List Char} {kind : Kind} {text : String} (h : Spells raw kind text)
    (hkind : kind ≠ .string) : raw = text.toList := by
  cases h with
  | literal => exact absurd rfl hkind
  | _ => exact String.toList_ofList.symm

theorem Spells.inner {raw : List Char} {kind : Kind} {text : String} (h : Spells raw kind text) :
    kind ≠ .eof := by
  cases h with
  | literal | number | comparison => simp
  | word => exact (Kind.ofWord_cases _).2
  | mark h => exact (Kind.ofMark?_cases _ h).2.2

theorem Spells.body {raw : List Char} {kind : Kind} {text : String} (h : Spells raw kind text)
    (hkind : kind = .string) : ∃ body, raw = Text.doubleQuote :: (body ++ [Text.doubleQuote]) ∧
      Denotes body text.toList := by
  cases h with
  | @literal body ds h => exact ⟨body, rfl, by rwa [String.toList_ofList]⟩
  | number | comparison => cases hkind
  | word => exact absurd hkind (Kind.ofWord_ne _).1
  | mark h => exact absurd hkind (ofMark?_char _ h).2.2.1

theorem Spells.quoted {raw : List Char} {kind : Kind} {text : String} (h : Spells raw kind text)
    (hkind : kind = .string) :
    ∃ body, raw = Text.doubleQuote :: (body ++ [Text.doubleQuote]) ∧ quotesEscaped body = true ∧
      ∀ line, Escape.decodeBody line body = .ok text.toList := by
  obtain ⟨body, hraw, hbody⟩ := h.body hkind
  exact ⟨body, hraw, hbody.quotesEscaped, hbody.decodes⟩

/-- The part of a token that is laid out between two texts. -/
theorem Spells.exact {before raw gap after : List Char} {kind : Kind} {text : String}
    (hs : Spells raw kind text) (hstop : Stops raw kind after) (hgap : ∀ c ∈ gap, isGap c = true) :
    Part.Exact ⟨⟨kind, text, Position.lineAfter before, Position.columnAfter before⟩, raw, gap⟩
      before after where
  line := rfl
  column := rfl
  gap := hgap
  inner := hs.inner
  spelled := hs
  plain := hs.plain
  literal := hs.quoted
  number := fun hkind c hc => (hstop.number hkind c hc).1
  word := hstop.word
  equals := hstop.equals

/-- A layout is a gap and a list of exact parts. -/
theorem Layout.parts {before cs : List Char} {ts : List Token} (h : Layout before cs ts) :
    ∃ (lead : List Char) (parts : List Part), (∀ c ∈ lead, isGap c = true) ∧
      cs = lead ++ parts.flatMap Part.chars ∧
      ts = parts.map Part.token ++ [Token.endAt (Position.start.advance (before ++ cs))] ∧
      ∀ front p back, parts = front ++ p :: back →
        p.Exact (before ++ lead ++ front.flatMap Part.chars)
          (p.gap ++ back.flatMap Part.chars) := by
  induction h with
  | finish before => exact ⟨[], [], by simp, rfl, by simp, by simp⟩
  | @gap before c cs ts hc _ ih =>
    obtain ⟨lead, parts, hlead, rfl, rfl, hparts⟩ := ih
    refine ⟨c :: lead, parts, ?_, rfl, by simp, fun front p back hsplit => ?_⟩
    · intro d hd
      rcases List.mem_cons.mp hd with rfl | hd
      · exact hc
      · exact hlead d hd
    · simpa using hparts front p back hsplit
  | @token before raw after kind text ts hs hstop _ ih =>
    obtain ⟨lead, parts, hlead, rfl, rfl, hparts⟩ := ih
    refine ⟨[], ⟨⟨kind, text, Position.lineAfter before, Position.columnAfter before⟩, raw, lead⟩ ::
      parts, by simp, by simp [Part.chars], by simp, fun front p back hsplit => ?_⟩
    cases front with
    | nil =>
      cases hsplit
      simpa using hs.exact hstop hlead
    | cons q front =>
      cases hsplit
      simpa [Part.chars] using hparts front p back rfl

end Scan

/-- Tokens lose nothing of a text, and say exactly where they are in it. -/
theorem tokenize_exact {source : String} {ts : List Token} (h : tokenize source = .ok ts) :
    ∃ (lead : List Char) (parts : List Part), (∀ c ∈ lead, isGap c = true) ∧
      source.toList = lead ++ parts.flatMap Part.chars ∧
      ts = parts.map Part.token ++
        [⟨.eof, "", Position.lineAfter source.toList, Position.columnAfter source.toList⟩] ∧
      ∀ front p back, parts = front ++ p :: back →
        p.Exact (lead ++ front.flatMap Part.chars) (p.gap ++ back.flatMap Part.chars) := by
  obtain ⟨lead, parts, hlead, htext, hts, hparts⟩ := (tokenize_iff.mp h).parts
  rw [List.nil_append, Position.start_advance] at hts
  exact ⟨lead, parts, hlead, htext, hts, hparts⟩

/-- A literal that goes over two lines, with an escape in it, before a comparison. -/
theorem tokenize_exact_lines :
    ∃ (lead : List Char) (parts : List Part), (∀ c ∈ lead, isGap c = true) ∧
      "\"a\n\\t\" ==x1".toList = lead ++ parts.flatMap Part.chars ∧
      [⟨.string, "a\n\t", 1, 1⟩, ⟨.condop, "==", 2, 5⟩, ⟨.ident, "x1", 2, 7⟩, ⟨.eof, "", 2, 9⟩] =
        parts.map Part.token ++ [⟨.eof, "", Position.lineAfter "\"a\n\\t\" ==x1".toList,
          Position.columnAfter "\"a\n\\t\" ==x1".toList⟩] ∧
      ∀ front p back, parts = front ++ p :: back →
        p.Exact (lead ++ front.flatMap Part.chars) (p.gap ++ back.flatMap Part.chars) :=
  tokenize_exact (by cbv)

end Avii
