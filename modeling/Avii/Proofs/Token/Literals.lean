import Avii.Prompt.Highlight
import Avii.Proofs.Token.Layout

/-!
# Where a literal ends

Four functions look for the end of a string literal or say what its body denotes: the scan
(`Scan.cut`), the grammar's expression `"(\\.|[^"\\])*"` (`Grammar.lexemeAt?`), the decoder of
bodies (`Escape.decodeBody`) and the measure of the highlighter (`Prompt.literalSpan`). They tell
the same story at every quote of every text (`literal_readers_agree`): where the scan succeeds, all
of them see the same closing quote and the same text, and where it fails, so does the grammar's way
of matching first and decoding afterwards.

The highlighter has no failure of its own: at a literal that does not close it takes the rest of the
text, about which nothing is said here.
-/

namespace Avii

open Scan (cut literal Denotes)
open Grammar (Enclosed literalLength? literalLength?_iff lexemeAt? Terminal)

/-! ## The closing quote -/

/-- What the scan reads is matched by the expression: no escape is a line feed. -/
theorem Scan.Denotes.enclosed {body ds : List Char} (h : Denotes body ds) : Enclosed body := by
  induction h with
  | nil => exact .nil
  | escape hd _ ih =>
    refine .escape ?_ ih
    rintro rfl
    cases hd
  | plain hq hb _ ih => exact .plain hq hb ih

/-- Wherever the expression matches, the highlighter finds the same end. -/
theorem Prompt.literalSpan_enclosed {body : List Char} (h : Enclosed body) (after : List Char) :
    literalSpan (body ++ Text.doubleQuote :: after) = body.length + 1 := by
  induction h with
  | nil =>
    rw [List.nil_append, literalSpan.eq_def]
    simp only [if_neg (by decide : Text.doubleQuote ≠ '\\'), if_true, List.length_nil]
  | escape _ _ ih =>
    rw [List.cons_append, List.cons_append, literalSpan.eq_def]
    simp only [if_true, ih, List.length_cons]
  | plain hq hb _ ih =>
    rw [List.cons_append, literalSpan.eq_def]
    simp only [if_neg hb, if_neg hq, ih, List.length_cons]

/-! ## Failures -/

/-- Where the scan fails although the expression matches, there is a bad escape, and it is also the
first one of the body that is matched. -/
theorem Scan.literal_refused {opened pos : Position} {body after : List Char} {e : LexError}
    (hbody : Enclosed body)
    (h : literal opened pos (body ++ Text.doubleQuote :: after) = .error e) :
    ∃ escape found, e = .badEscape escape found ∧
      ∀ line, Escape.decodeBody line body = .error (.badEscape escape line) := by
  induction hbody generalizing pos with
  | nil =>
    rw [List.nil_append, literal.eq_def] at h
    simp only [if_true, reduceCtorEq] at h
  | @escape c body _ _ ih =>
    rw [List.cons_append, List.cons_append, literal.eq_def] at h
    simp only [if_neg (by decide : '\\' ≠ Text.doubleQuote), if_true] at h
    split at h
    next hnone =>
      cases h
      refine ⟨_, _, rfl, fun line => ?_⟩
      rw [Escape.decodeBody]
      simp only [hnone]
    next d hd =>
      split at h
      next => cases h
      next err herr =>
        cases h
        obtain ⟨escape, l, rfl, hdecode⟩ := ih herr
        refine ⟨escape, l, rfl, fun line => ?_⟩
        rw [Escape.decodeBody]
        simp only [hd, hdecode line]
        rfl
  | @plain c body hq hb _ ih =>
    rw [List.cons_append, literal.eq_def] at h
    simp only [if_neg hq, if_neg hb] at h
    split at h
    next => cases h
    next err herr =>
      cases h
      obtain ⟨escape, l, rfl, hdecode⟩ := ih herr
      refine ⟨escape, l, rfl, fun line => ?_⟩
      rw [Escape.decodeBody, hdecode line]
      · rfl
      · exact fun h => absurd h hb
      · exact fun _ _ h => absurd h hb

/-! ## Agreement -/

section Places

variable {text : List Char} {i : Nat}

/-- A text from the place of one of its quotes on. -/
theorem drop_quote (hquote : text[i]? = some Text.doubleQuote) :
    text.drop i = Text.doubleQuote :: text.drop (i + 1) := by
  obtain ⟨hi, hget⟩ := List.getElem?_eq_some_iff.mp hquote
  rw [List.drop_eq_getElem_cons hi, hget]

/-- Where only literals are looked for, or literals too, a quote starts what the expression
matches. -/
theorem lexemeAt?_quote (hquote : text[i]? = some Text.doubleQuote) {accepts : Terminal → Bool}
    (haccepts : accepts .string = true) :
    lexemeAt? accepts (text.drop i) =
      (literalLength? (text.drop (i + 1))).map fun n => (.string, n + 1) := by
  rw [drop_quote hquote, lexemeAt?, if_pos rfl, if_pos haccepts]

/-- The place of a literal's closing quote, the text past it and the body before it. -/
theorem drop_body {body after : List Char}
    (h : text.drop (i + 1) = body ++ Text.doubleQuote :: after) :
    text[i + 1 + body.length]? = some Text.doubleQuote ∧
      text.drop (i + 1 + body.length + 1) = after ∧
      text.extract (i + 1) (i + 1 + body.length) = body := by
  refine ⟨?_, ?_, ?_⟩
  · rw [← List.getElem?_drop, h]
    simp
  · rw [Nat.add_assoc (i + 1), ← List.drop_drop, h]
    simp
  · rw [List.extract_eq_take_drop, h]
    simp

/-- At every quote of a text, and wherever the scan thinks it is: if the scan reads a literal that
ends with the quote at `j`, the grammar's expression matches up to that quote, the highlighter takes
the literal to end just past it, and what is between the quotes decodes to the text of the token. If
the scan fails, the expression does not match, or it matches up to a quote and what is between
does not decode; then both failures are bad escapes, of the same character. -/
theorem literal_readers_agree (hquote : text[i]? = some Text.doubleQuote) (pos : Position)
    {accepts : Terminal → Bool} (haccepts : accepts .string = true) :
    match cut pos Text.doubleQuote (text.drop (i + 1)) with
    | .ok t =>
      ∃ j, i < j ∧ text[j]? = some Text.doubleQuote ∧ t.rest = text.drop (j + 1) ∧
        lexemeAt? accepts (text.drop i) = some (.string, j + 1 - i) ∧
        i + 1 + Prompt.literalSpan (text.drop (i + 1)) = j + 1 ∧
        ∀ line, Escape.decodeBody line (text.extract (i + 1) j) = .ok t.text.toList
    | .error e =>
      lexemeAt? accepts (text.drop i) = none ∨
        ∃ j, lexemeAt? accepts (text.drop i) = some (.string, j + 1 - i) ∧
          i < j ∧ text[j]? = some Text.doubleQuote ∧
          ∃ escape found, e = .badEscape escape found ∧
            ∀ line, Escape.decodeBody line (text.extract (i + 1) j)
              = .error (.badEscape escape line) := by
  have hlexeme := lexemeAt?_quote hquote haccepts
  unfold cut
  rw [if_pos rfl]
  cases hread : literal pos (pos.step Text.doubleQuote) (text.drop (i + 1)) with
  | ok result =>
    obtain ⟨ds, stop, after⟩ := result
    obtain ⟨body, hbody, htext, -⟩ := Scan.literal_iff.mp hread
    obtain ⟨hclose, hafter, hextract⟩ := drop_body htext
    have hlength : literalLength? (text.drop (i + 1)) = some (body.length + 1) :=
      literalLength?_iff.mpr ⟨body, after, hbody.enclosed, htext, rfl⟩
    refine ⟨i + 1 + body.length, by omega, hclose, hafter.symm, ?_, ?_, fun line => ?_⟩
    · rw [hlexeme, hlength, Option.map_some]
      congr 2
      omega
    · rw [htext, Prompt.literalSpan_enclosed hbody.enclosed]
      omega
    · rw [hextract, String.toList_ofList]
      exact hbody.decodes line
  | error e =>
    cases hlength : literalLength? (text.drop (i + 1)) with
    | none => exact .inl (by rw [hlexeme, hlength]; rfl)
    | some n =>
      obtain ⟨body, after, hbody, htext, rfl⟩ := literalLength?_iff.mp hlength
      obtain ⟨hclose, -, hextract⟩ := drop_body htext
      rw [htext] at hread
      obtain ⟨escape, l, rfl, hdecode⟩ := Scan.literal_refused hbody hread
      refine .inr ⟨i + 1 + body.length, ?_, by omega, hclose, escape, l, rfl, fun line => ?_⟩
      · rw [hlexeme, hlength, Option.map_some]
        congr 2
        omega
      · rw [hextract]
        exact hdecode line

/-- A quote that an escape holds ends the literal for none of them. -/
theorem literal_readers_agree_escaped :
    let text := ['=', '"', '\\', '"', 'b', '"', ';']
    text[1]? = some Text.doubleQuote ∧
      ∃ j, 1 < j ∧ text[j]? = some Text.doubleQuote ∧ [';'] = text.drop (j + 1) ∧
        lexemeAt? (· = .string) (text.drop 1) = some (.string, j + 1 - 1) ∧
        1 + 1 + Prompt.literalSpan (text.drop 2) = j + 1 ∧
        ∀ line, Escape.decodeBody line (text.extract 2 j) = .ok ("\"b").toList :=
  ⟨rfl, @literal_readers_agree ['=', '"', '\\', '"', 'b', '"', ';'] 1 rfl .start
    (· = .string) rfl⟩

end Places

end Avii
