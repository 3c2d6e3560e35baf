import Avii.Proofs.Token.Exactness

/-!
# Where a text stops being tokens

A text that is not a list of tokens is one up to some place, and what stands there starts no token
(`tokensFrom_error`). In each of the four ways in which that can happen a character is to blame
(`LexError.Blames`): the opening quote of a literal that does not close, the backslash of a bad
escape, the point of a number that has no digits after it, and a character that starts nothing. An
error tells where that character stands, and the text before it, or before its literal, is a list of
tokens (`tokenize_locates`).
-/

namespace Avii

open Text (isAsciiDigit)
open Scan (Denotes Layout Spells Stops cut isGap isWordStart literal mark number tokensFrom)

namespace Position

theorem advance_line (before : List Char) : (start.advance before).line = lineAfter before :=
  congrArg Position.line (start_advance before)

theorem advance_column (before : List Char) :
    (start.advance before).column = columnAfter before :=
  congrArg Position.column (start_advance before)

end Position

namespace Scan

/-! ## Beginnings of texts -/

/-- The text `cs`, which comes after `before`, is a list of tokens. -/
def Reads (before cs : List Char) : Prop := ∃ ts, Layout before cs ts

/-- A token stops where it did if less of the text follows. -/
theorem Stops.of_append {raw cs ds : List Char} {kind : Kind} (h : Stops raw kind (cs ++ ds)) :
    Stops raw kind cs := by
  cases cs with
  | nil => exact ⟨by simp, by simp, by simp⟩
  | cons c cs => exact ⟨h.number, h.word, h.equals⟩

/-- Where a text is no list of tokens, something in it starts no token, and up to there it is one,
also with a piece of what follows that is a list of tokens there. -/
theorem tokensFrom_error {before cs : List Char} {e : LexError}
    (h : tokensFrom (Position.start.advance before) cs = .error e) :
    ∃ lead c rest, cs = lead ++ c :: rest ∧ isGap c = false ∧
      cut (Position.start.advance (before ++ lead)) c rest = .error e ∧
      ∀ tail tail', tail ++ tail' = c :: rest → Reads (before ++ lead) tail →
        Reads before (lead ++ tail) := by
  generalize hpos : Position.start.advance before = pos at h
  fun_induction tokensFrom pos cs generalizing before with
  | case1 => cases h
  | case2 pos c rest hgap ih =>
    have hnext : Position.start.advance (before ++ [c]) = pos.step c := by
      rw [Grammar.advance_append, hpos]
      rfl
    obtain ⟨lead, d, rest, rfl, hd, hcut, hreads⟩ := ih hnext h
    refine ⟨c :: lead, d, rest, rfl, hd, by simpa using hcut, fun tail tail' htail htokens => ?_⟩
    obtain ⟨ts, hts⟩ := hreads tail tail' htail (by simpa using htokens)
    exact ⟨ts, .gap hgap hts⟩
  | case3 pos c rest hgap e' hcut =>
    cases h
    exact ⟨[], c, rest, rfl, by simpa using hgap, by simpa [hpos] using hcut,
      fun tail _ _ htokens => by simpa using htokens⟩
  | case4 pos c rest hgap t hcut e' herr ih =>
    cases h
    obtain ⟨raw, htext, hstop, hspells, hstops⟩ := cut_spells hcut
    have hnext : Position.start.advance (before ++ raw) = t.stop := by
      rw [Grammar.advance_append, hpos, hstop]
    obtain ⟨lead, d, rest', hrest, hd, hcut', hreads⟩ := ih hnext herr
    refine ⟨raw ++ lead, d, rest', by simp [htext, hrest], hd, by simpa using hcut',
      fun tail tail' htail htokens => ?_⟩
    obtain ⟨ts, hts⟩ := hreads tail tail' htail (by simpa using htokens)
    rw [hrest, ← htail, ← List.append_assoc] at hstops
    rw [List.append_assoc]
    exact ⟨_, .token hspells hstops.of_append hts⟩
  | case5 => cases h

/-! ## What starts no token -/

/-- The text goes on in a literal up to its end. -/
def Unclosed (cs : List Char) : Prop :=
  ∃ body ds, Denotes body ds ∧ (cs = body ∨ cs = body ++ ['\\'])

/-- A literal that is not read has no end, or has a bad escape after a body that is read. -/
theorem literal_error {opened pos : Position} {cs : List Char} {e : LexError}
    (h : literal opened pos cs = .error e) :
    (e = .unterminatedString opened.line opened.column ∧ Unclosed cs) ∨
      ∃ body ds d after, Denotes body ds ∧ cs = body ++ '\\' :: d :: after ∧
        Escape.denoted? d = none ∧
        e = .badEscape (String.ofList [d]) (pos.advance body).line := by
  fun_induction literal opened pos cs with
  | case1 =>
    cases h
    exact .inl ⟨rfl, [], [], .nil, .inl rfl⟩
  | case2 => cases h
  | case3 =>
    cases h
    exact .inl ⟨rfl, [], [], .nil, .inr rfl⟩
  | case4 pos d rest hd =>
    cases h
    exact .inr ⟨[], [], d, rest, .nil, rfl, hd, rfl⟩
  | case5 => cases h
  | case6 pos d rest d' hd _ err herr ih =>
    cases h
    rcases ih herr with ⟨he, body, ds, hbody, hend⟩ | ⟨body, ds, d', after, hbody, rfl, hd', rfl⟩
    · refine .inl ⟨he, '\\' :: d :: body, _, .escape hd hbody, ?_⟩
      exact hend.imp (by rintro rfl; rfl) (by rintro rfl; rfl)
    · exact .inr ⟨'\\' :: d :: body, _, d', after, .escape hd hbody, rfl, hd', rfl⟩
  | case7 => cases h
  | case8 pos c rest hq hb err herr ih =>
    cases h
    rcases ih herr with ⟨he, body, ds, hbody, hend⟩ | ⟨body, ds, d, after, hbody, rfl, hd, rfl⟩
    · refine .inl ⟨he, c :: body, _, .plain hq hb hbody, ?_⟩
      exact hend.imp (by rintro rfl; rfl) (by rintro rfl; rfl)
    · exact .inr ⟨c :: body, _, d, after, .plain hq hb hbody, rfl, hd, rfl⟩

/-- A number that is not read has a point after its digits and no digit after the point. -/
theorem number_error {pos : Position} {c : Char} {rest : List Char} {e : LexError}
    (hc : isAsciiDigit c = true) (h : number pos (c :: rest) = .error e) :
    ∃ digits after, digits ≠ [] ∧ (∀ d ∈ digits, isAsciiDigit d = true) ∧
      c :: rest = digits ++ '.' :: after ∧
      (∀ d, after.head? = some d → isAsciiDigit d = false) ∧
      e = .malformedNumber (String.ofList digits) (pos.advance digits).line
        (pos.advance digits).column := by
  unfold number at h
  split at h
  next after hdrop =>
    split at h
    next hfraction =>
      cases h
      refine ⟨(c :: rest).takeWhile isAsciiDigit, after, by simp [hc], takeWhile_forall, ?_,
        fun d hd => ?_, rfl⟩
      · rw [← hdrop, List.takeWhile_append_dropWhile]
      · obtain ⟨rest', rfl⟩ := List.head?_eq_some_iff.mp hd
        exact Bool.eq_false_iff.mpr fun hdigit => by simp [hdigit] at hfraction
    next => cases h
  next => cases h

/-- What is read neither as an operator nor as a punctuation mark is neither. -/
theorem mark_error {pos : Position} {c : Char} {rest : List Char} {e : LexError}
    (h : mark pos c rest = .error e) :
    Kind.ofMark? c = none ∧ ¬ (c = '!' ∧ rest.head? = some '=') ∧
      e = .unexpectedCharacter c pos.line pos.column := by
  unfold mark at h
  split at h
  next => cases h
  next => cases h
  next hbang =>
    split at h
    next => cases h
    next hnone =>
      cases h
      refine ⟨hnone, ?_, rfl⟩
      rintro ⟨rfl, hrest⟩
      obtain ⟨rest', rfl⟩ := List.head?_eq_some_iff.mp hrest
      exact hbang rest' rfl rfl

end Scan

/-! ## The character to blame -/

namespace LexError

open Scan (Unclosed)

/-- Is it an escape that is wrong? -/
def isEscape : LexError → Bool
  | badEscape .. | unterminatedEscape _ => true
  | _ => false

/-- A character of a text, which stands between `before` and `after`, is to blame for an error. -/
def Blames (before : List Char) (c : Char) (after : List Char) : LexError → Prop
  | unterminatedString .. => c = Text.doubleQuote ∧ Unclosed after
  | badEscape .. => c = '\\' ∧ ∃ d rest, after = d :: rest ∧ Escape.denoted? d = none
  | unterminatedEscape _ => False
  | malformedNumber digits .. =>
    c = '.' ∧ (∃ front, before = front ++ digits.toList) ∧ Numeral.IsPlain digits.toList ∧
      ∀ d, after.head? = some d → isAsciiDigit d = false
  | unexpectedCharacter .. =>
    isGap c = false ∧ c ≠ Text.doubleQuote ∧ isAsciiDigit c = false ∧ isWordStart c = false ∧
      Kind.ofMark? c = none ∧ ¬ (c = '!' ∧ after.head? = some '=')

/-- What an error says about the character that is to blame for it is right. -/
structure Locates (before : List Char) (c : Char) (after : List Char) (e : LexError) : Prop where
  blames : e.Blames before c after
  line : e.line = Position.lineAfter before
  placed : e.isEscape = false → e.column = Position.columnAfter before ∧ e.culprit = c.toString ∧
    ∃ ts, tokenize (String.ofList before) = .ok ts
  escaped : e.isEscape = true → e.column = 0 ∧
    (∃ d rest, after = d :: rest ∧ e.culprit = d.toString) ∧
    ∃ front body ds, before = front ++ Text.doubleQuote :: body ∧ Denotes body ds ∧
      ∃ ts, tokenize (String.ofList front) = .ok ts

end LexError

namespace Scan

open LexError (Locates)

theorem Reads.tokenize {cs : List Char} (h : Reads [] cs) :
    ∃ ts, tokenize (String.ofList cs) = .ok ts := by
  obtain ⟨ts, hts⟩ := h
  exact ⟨ts, tokenize_iff.mpr (by rwa [String.toList_ofList])⟩

section Places

variable {lead : List Char} {c : Char} {rest : List Char} {e : LexError}

theorem literal_locates (hlead : ∃ ts, Avii.tokenize (String.ofList lead) = .ok ts)
    (h : literal (Position.start.advance lead)
      ((Position.start.advance lead).step Text.doubleQuote) rest = .error e) :
    ∃ before c after, lead ++ Text.doubleQuote :: rest = before ++ c :: after ∧
      e.Locates before c after := by
  rcases literal_error h with ⟨rfl, hopen⟩ | ⟨body, ds, d, after, hbody, rfl, hd, rfl⟩
  · exact ⟨lead, _, rest, rfl, ⟨rfl, hopen⟩, Position.advance_line lead,
      fun _ => ⟨Position.advance_column lead, rfl, hlead⟩, nofun⟩
  · have hline := Position.advance_line (lead ++ Text.doubleQuote :: body)
    rw [Grammar.advance_append] at hline
    exact ⟨lead ++ Text.doubleQuote :: body, '\\', d :: after, by simp, ⟨rfl, d, after, rfl, hd⟩,
      hline, nofun, fun _ => ⟨rfl, ⟨d, after, rfl, rfl⟩, lead, body, ds, rfl, hbody, hlead⟩⟩

theorem number_locates (hc : isAsciiDigit c = true)
    (h : number (Position.start.advance lead) (c :: rest) = .error e)
    (hreads : ∀ tail tail', tail ++ tail' = c :: rest → Reads lead tail → Reads [] (lead ++ tail)) :
    ∃ before c' after, lead ++ c :: rest = before ++ c' :: after ∧ e.Locates before c' after := by
  obtain ⟨digits, after, hne, hdigits, htext, hafter, rfl⟩ := number_error hc h
  have hplain : Numeral.IsPlain digits := ⟨digits, hne, hdigits, .inl rfl⟩
  -- the digits alone are a token
  have hnumber : Reads lead (digits ++ []) :=
    ⟨_, .token (.number hplain) ⟨by simp, by simp, by simp⟩ (.finish _)⟩
  rw [List.append_nil] at hnumber
  have hread := hreads digits ('.' :: after) htext.symm hnumber
  rw [← Grammar.advance_append]
  refine ⟨lead ++ digits, '.', after, by simp [htext], ⟨rfl, ⟨lead, ?_⟩, ?_, hafter⟩,
    Position.advance_line _, fun _ => ⟨Position.advance_column _, rfl, hread.tokenize⟩, nofun⟩
  · rw [String.toList_ofList]
  · rwa [String.toList_ofList]

/-- Where a text has no token, one of its characters is to blame. -/
theorem cut_locates (hgap : isGap c = false)
    (h : cut (Position.start.advance lead) c rest = .error e)
    (hreads : ∀ tail tail', tail ++ tail' = c :: rest → Reads lead tail → Reads [] (lead ++ tail)) :
    ∃ before c' after, lead ++ c :: rest = before ++ c' :: after ∧ e.Locates before c' after := by
  have hlead : Reads [] (lead ++ []) := hreads [] (c :: rest) rfl ⟨_, .finish lead⟩
  rw [List.append_nil] at hlead
  unfold cut at h
  split at h
  next hquote =>
    subst hquote
    split at h
    next => cases h
    next err herr =>
      cases h
      exact literal_locates hlead.tokenize herr
  next hquote =>
    split at h
    next hdigit => exact number_locates hdigit h hreads
    next hdigit =>
      split at h
      next => cases h
      next hword =>
        obtain ⟨hmark, hbang, rfl⟩ := mark_error h
        exact ⟨lead, c, rest, rfl,
          ⟨hgap, hquote, Bool.eq_false_iff.mpr hdigit, Bool.eq_false_iff.mpr hword, hmark, hbang⟩,
          Position.advance_line lead,
          fun _ => ⟨Position.advance_column lead, rfl, hlead.tokenize⟩, nofun⟩

end Places

end Scan

/-- An error of a text tells the line of the character that is to blame, and its column unless it is
a backslash before a bad escape; the text up to there, or to the literal of the escape, is a list of
tokens. -/
theorem tokenize_locates {source : String} {e : LexError} (h : tokenize source = .error e) :
    ∃ before c after, source.toList = before ++ c :: after ∧ e.Locates before c after := by
  obtain ⟨lead, c, rest, htext, hgap, hcut, hreads⟩ := @Scan.tokensFrom_error [] _ e h
  rw [htext]
  exact Scan.cut_locates hgap hcut hreads

/-- A bad escape on the second line of a literal. -/
theorem tokenize_locates_escape :
    tokenize "x \"a\n \\q\" y" = .error (.badEscape "q" 2) ∧
      ∃ before c after, "x \"a\n \\q\" y".toList = before ++ c :: after ∧
        (LexError.badEscape "q" 2).Locates before c after :=
  have h : tokenize "x \"a\n \\q\" y" = .error (.badEscape "q" 2) := by cbv
  ⟨h, tokenize_locates h⟩

end Avii
