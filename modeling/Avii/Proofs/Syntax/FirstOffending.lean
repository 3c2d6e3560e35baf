import Avii.Proofs.Syntax.Acceptance
import Avii.Proofs.Syntax.Refusals

/-!
# The first token that is wrong

A refusal names the first token that is wrong (`refusal_first_offending`): no list of tokens that
goes on after it in another way fares better, and the tokens before it are the start of a program.
That program may nest more deeply than the refused text, so it is one for every limit of nested
calls from some one on.
-/

open Avii.Parser (Inner Ended Lexical next program program_sure)
open Avii.Scan (Layout)

namespace Avii

variable {T : List Token}

/-! ## Words as a text -/

namespace Scan

/-- Words with a space before each, and one at the end. -/
def spaced : List (Kind × String) → List Char
  | [] => [' ']
  | word :: words => ' ' :: (word.2.toList ++ spaced words)

theorem spaced_cons (words : List (Kind × String)) : ∃ cs, spaced words = ' ' :: cs := by
  cases words with
  | nil => exact ⟨_, rfl⟩
  | cons word words => exact ⟨_, rfl⟩

/-- Words with spaces between them are read as these words. -/
theorem spaced_layout {words : List (Kind × String)} (h : Lexical words) (before : List Char) :
    ∃ (cont : List Token) (e : Token), Layout before (spaced words) (cont ++ [e]) ∧
      cont.map Token.spelling = words ∧ e.kind = .eof := by
  induction words generalizing before with
  | nil => exact ⟨[], _, .gap (by decide) (.finish _), rfl, rfl⟩
  | cons word words ih =>
    obtain ⟨cont, e, hlayout, hcont, he⟩ :=
      ih (fun w hw => h w (List.mem_cons_of_mem _ hw)) (before ++ [' '] ++ word.2.toList)
    obtain ⟨cs, hcs⟩ := spaced_cons words
    have hstop : Stops word.2.toList word.1 (spaced words) := by
      rw [hcs]
      exact .of_break (.inl (by decide))
    refine ⟨_ :: cont, e, .gap (by decide)
      (.token (h word (List.mem_cons_self ..)) hstop hlayout), ?_, he⟩
    rw [List.map_cons, hcont]
    rfl

end Scan

/-! ## Whole programs -/

/-- Tokens are known by their places. -/
theorem place_index (h : T.Pairwise fun t u => t.place.Precedes u.place) {i j : Nat}
    {t u : Token} (ht : T[i]? = some t) (hu : T[j]? = some u) (hplace : t.place = u.place) :
    i = j := by
  have hirrefl : ∀ p : Position, ¬ p.Precedes p := by
    intro p hp
    unfold Position.Precedes at hp
    omega
  obtain ⟨hi, rfl⟩ := List.getElem?_eq_some_iff.mp ht
  obtain ⟨hj, rfl⟩ := List.getElem?_eq_some_iff.mp hu
  rcases Nat.lt_trichotomy i j with hlt | heq | hgt
  · have := List.pairwise_iff_getElem.mp h i j hi hj hlt
    rw [hplace] at this
    exact absurd this (hirrefl _)
  · exact heq
  · have := List.pairwise_iff_getElem.mp h j i hj hi hgt
    rw [hplace] at this
    exact absurd this (hirrefl _)

/-- The tokens of a text before any of them go on with any words. -/
theorem tokenize_words {source : String} (hT : tokenize source = .ok T) {w us : List Token}
    {t : Token} (hsplit : T = w ++ t :: us) {words : List (Kind × String)} (h : Lexical words) :
    ∃ (source' : String) (cont : List Token) (e : Token),
      tokenize source' = .ok (w ++ (cont ++ [e])) ∧
      cont.map Token.spelling = words ∧ e.kind = .eof := by
  obtain ⟨lead, after, -, -, hsplice⟩ :=
    (tokenize_iff.mp hT).splice (i := w.length) (by simp [hsplit])
  obtain ⟨cont, e, hlayout, hcont, he⟩ := Scan.spaced_layout h ([] ++ lead)
  obtain ⟨cs, hcs⟩ := Scan.spaced_cons words
  rw [hcs] at hlayout
  have hall := hsplice (.inl (by decide)) hlayout
  rw [hsplit, List.take_left] at hall
  refine ⟨String.ofList (lead ++ ' ' :: cs), cont, e, ?_, hcont, he⟩
  rw [tokenize_iff, String.toList_ofList]
  exact hall

/-- What is read up to its end is read as a whole. -/
theorem run_ok {n : Nat} {ts : List Token} {e : Token} {t : Tree} (he : e.kind = .eof)
    (h : program n (ts ++ [e]) = .ok (t, [e])) : (program n).run (ts ++ [e]) = .ok t := by
  rw [Parser.run_of_last (by simp) he, h]
  rfl

/-- A refusal of the tokens of a text, within whatever limit, names the first token that is wrong.
Every list that agrees with the tokens up to it is refused in the same way, and those before it go
on to a program, which the parser reads within every limit that is large enough. -/
theorem refusal_first_offending {source : String} {limit : Nat} {e : ParseError}
    (hT : tokenize source = .ok T) (he : parseTokens limit T = .error (.invalid e)) :
    ∃ i t, T[i]? = some t ∧ e.place = some t.place ∧
      (∀ j u, T[j]? = some u → e.place = some u.place → j = i) ∧
      (∀ T', T'.take (i + 1) = T.take (i + 1) →
        (∃ last, T'.getLast? = some last ∧ last.kind = .eof) →
        parseTokens limit T' = .error (.invalid e)) ∧
      ∃ source' us t', tokenize source' = .ok (T.take i ++ us) ∧
        ∃ N, ∀ limit', N ≤ limit' → parseTokens limit' (T.take i ++ us) = .ok t' := by
  obtain ⟨last, hlast, hkind, hended⟩ := (tokenize_endsOnce hT).last
  rw [parseTokens, Parser.run_of_last hlast hkind] at he
  obtain ⟨w, t, us, hsplit, hw, hplace, hsame, words, hwords, hviable⟩ :=
    (program_sure (Nat.le_refl (limit + 9)) T).error hended (Parser.map_error he)
  have ht : T[w.length]? = some t := by
    rw [hsplit]
    simp
  have htake : T.take w.length = w := by
    rw [hsplit]
    simp
  refine ⟨w.length, t, ht, hplace, ?_, ?_, ?_⟩
  · intro j u hu hplace'
    rw [hplace] at hplace'
    exact (place_index (tokenize_iff.mp hT).ordered ht hu (Option.some.inj hplace')).symm
  · rintro T' htake' ⟨last', hlast', hkind'⟩
    have hT' : T' = w ++ t :: T'.drop (w.length + 1) := by
      conv_lhs => rw [← List.take_append_drop (w.length + 1) T', htake', hsplit]
      rw [List.take_length_add_append, List.append_assoc]
      rfl
    rw [parseTokens, Parser.run_of_last hlast' hkind', hT', hsame]
    rfl
  · rw [htake]
    obtain ⟨source', cont, e', hsource', hcont, he'⟩ := tokenize_words hT hsplit hwords
    obtain ⟨-, a, ha⟩ := hviable cont [e'] hcont he'
    rw [← List.append_assoc] at ha
    have hrun : (program (limit + 9)).run (w ++ (cont ++ [e'])) = .ok a := by
      rw [← List.append_assoc]
      exact run_ok he' ha
    -- what is a program is read within every limit that is large enough
    have hends := tokenize_endsOnce hsource'
    exact ⟨source', cont ++ [e'], a, hsource',
      Syntax.program_runs (Syntax.program_reads hrun hends) hends⟩

/-- For instance a declaration without a name, which some other second token would go on with. -/
theorem refusal_first_offending_nameless :
    ∃ T e source' us t', tokenize "let 1" = .ok T ∧ parseTokens 100 T = .error (.invalid e) ∧
      tokenize source' = .ok (T.take 1 ++ us) ∧
      ∃ limit, parseTokens limit (T.take 1 ++ us) = .ok t' := by
  let T : List Token := [⟨.letWord, "let", 1, 1⟩, ⟨.number, "1", 1, 5⟩, ⟨.eof, "", 1, 6⟩]
  let e : ParseError := ⟨.declarationName "let", some ⟨1, 5⟩⟩
  have hT : tokenize "let 1" = .ok T := by cbv
  have he : parseTokens 100 T = .error (.invalid e) := rfl
  obtain ⟨i, t, -, -, hindex, -, source', us, t', hsource', N, hparse⟩ :=
    refusal_first_offending hT he
  obtain rfl : 1 = i := hindex 1 ⟨.number, "1", 1, 5⟩ rfl rfl
  exact ⟨T, e, source', us, t', hT, he, hsource', N, hparse N (Nat.le_refl N)⟩

end Avii
