import Avii.Proofs.Places.Parsing
import Avii.Proofs.Syntax.Acceptance
import Avii.Proofs.Syntax.Refusals

/-!
# One program after the other

Two program texts with a semicolon between them are one program text: its tokens are those of the
first but for the `eof`, the semicolon, and those of the second at other places (`tokenize_joined`),
and its statements are those of the first and then those of the second at other places
(`parse_joined`).

The parser does not notice what follows the first text, since a statement is decided by the tokens
that it takes and the one after them, and a semicolon ends whatever the `eof` ends.
-/

open Avii.Parser (Inner program statement statements)
open Avii.Scan (Layout)

namespace Avii

/-! ## Tokens -/

/-- Tokens with the same kinds and texts are the same without their places. -/
theorem unplaced_of_spelled {ts us : List Token}
    (h : List.Forall₂ (fun t u : Token => t.kind = u.kind ∧ t.text = u.text) ts us) :
    us.map (Token.relocate fun _ => 1) = ts.map (Token.relocate fun _ => 1) := by
  induction h with
  | nil => rfl
  | cons htu _ ih =>
    rw [List.map_cons, List.map_cons, ih]
    simp [Token.relocate, htu]

theorem tokenize_joined {first second : String} {ts us : List Token}
    (hts : tokenize first = .ok ts) (hus : tokenize second = .ok us) :
    ∃ (w : List Token) (e semi : Token) (us' : List Token),
      ts = w ++ [e] ∧ e.kind = .eof ∧ Inner w ∧ semi.kind = .semi ∧
      tokenize (first ++ ";" ++ second) = .ok (w ++ semi :: us') ∧
      us'.map (Token.relocate fun _ => 1) = us.map (Token.relocate fun _ => 1) := by
  obtain ⟨w, e, rfl, he, hw⟩ := tokenize_endsOnce hts
  obtain ⟨lead, after, hlead, hlast, hsplice⟩ :=
    (tokenize_iff.mp hts).splice (i := w.length) (by simp)
  obtain rfl := hlast (by simp)
  have hmark : Kind.ofMark? ';' = some .semi := rfl
  obtain ⟨us', hus', hspelled⟩ := (tokenize_iff.mp hus).moved (lead ++ [';'])
  have hsemi : Layout lead (';' :: second.toList) (_ :: us') :=
    .token (.mark hmark) (.of_mark hmark (by decide)) hus'
  have hall := hsplice (.inr rfl) hsemi
  rw [List.take_left] at hall
  refine ⟨w, e, ⟨.semi, String.ofList [';'], Position.lineAfter lead, Position.columnAfter lead⟩,
    us', rfl, he, hw, rfl, ?_, unplaced_of_spelled hspelled⟩
  rw [tokenize_iff, String.toList_append, String.toList_append, hlead, List.append_nil,
    List.append_assoc]
  exact hall

/-! ## Statements -/

namespace Parser

variable {n : Nat} {e semi : Token} {us rest' : List Token} {ss' : List Tree}

/-- The statements of a program that are read before its `eof` are read before a semicolon too, and
then others are. -/
theorem statements_append (he : e.kind = .eof) (hsemi : semi.kind = .semi)
    (hus : statements (fun k => k = .eof) (statement n) us = .ok (ss', rest'))
    {w rest : List Token} {ss : List Tree} (hw : Inner w)
    (h : statements (fun k => k = .eof) (statement n) (w ++ [e]) = .ok (ss, rest)) :
    statements (fun k => k = .eof) (statement n) (w ++ semi :: us) = .ok (ss ++ ss', rest') := by
  cases w with
  | nil =>
    rw [List.nil_append, statements_stop (by simp [he])] at h
    cases h
    rw [List.nil_append, statements_semi rfl (statement_lessens n) hsemi rfl]
    exact hus
  | cons t w =>
    have hinner : Inner w := fun u hu => hw u (List.mem_cons_of_mem t hu)
    by_cases ht : t.kind = .semi
    · rw [List.cons_append, statements_semi rfl (statement_lessens n) ht rfl] at h ⊢
      exact statements_append he hsemi hus hinner h
    · have hstarts : ¬ (decide (t.kind = .eof) = true ∨ t.kind = .semi) := by
        simp [ht, hw t (List.mem_cons_self ..)]
      rw [statements_item rfl (statement_lessens n) (by exact hstarts), bind_ok] at h
      obtain ⟨s, mid, hs, h⟩ := h
      obtain ⟨ss₁, rest₁, hss₁, hcons⟩ := bind_ok.mp h
      obtain ⟨rfl, rfl⟩ := pure_ok.mp hcons
      obtain ⟨v, hsplit, hv, htransfers, -⟩ :=
        ((decided (Nat.le_refl (n + 9))).statement (t :: w ++ [e])).ok hs
      -- the `eof` is not among what the statement takes
      obtain ⟨w', hw', rfl⟩ : ∃ w', t :: w = v ++ w' ∧ mid = w' ++ [e] := by
        rcases List.append_eq_append_iff.mp hsplit with ⟨a, ha, hmid⟩ | ⟨w', hw', hmid⟩
        · cases a with
          | nil => exact ⟨[], by simpa using ha.symm, by simpa using hmid.symm⟩
          | cons x xs =>
            obtain ⟨rfl, -⟩ := List.cons.inj hmid
            exact absurd he (hv e (by rw [ha]; simp))
        · exact ⟨w', hw', hmid⟩
      have hless : w'.length < (t :: w).length := by
        have := statement_lessens n hs
        simpa using this
      have hs' : statement n (v ++ (w' ++ semi :: us)) = .ok (s, w' ++ semi :: us) := by
        refine htransfers _ ?_
        cases w' with
        | nil => exact .inr (by simp [Ends, Syntax.endsExpression, hsemi])
        | cons => exact .inl rfl
      have hrest := statements_append he hsemi hus
        (fun u hu => hw u (by rw [hw']; exact List.mem_append_right v hu)) hss₁
      rw [statements_item rfl (statement_lessens n) (by exact hstarts), hw', List.append_assoc,
        bind_run hs', bind_run hrest]
      rfl
termination_by w.length

end Parser

/-- The tree of two texts with a semicolon between them has the statements of both. -/
theorem parse_joined {first second : String} {limit : Nat} {ts us : List Token} {t u : Tree}
    (hts : tokenize first = .ok ts) (ht : parseTokens limit ts = .ok t)
    (hus : tokenize second = .ok us) (hu : parseTokens limit us = .ok u) :
    ∃ vs ss, tokenize (first ++ ";" ++ second) = .ok vs ∧
      parseTokens limit vs = .ok (.node .program none (t.children ++ ss)) ∧
      ss.map Tree.unplaced = u.children.map Tree.unplaced := by
  obtain ⟨w, e, semi, us', rfl, he, hw, hsemi, hvs, hplaces⟩ := tokenize_joined hts hus
  obtain ⟨ss, rest, hss, rfl⟩ := Syntax.program_statements ht
  obtain ⟨ss₂, rest₂, hss₂, rfl⟩ := Syntax.program_statements hu
  -- the parser does the same with the tokens of the second text wherever they stand
  have hcarries := Parser.carries_statements (φ := fun _ => 1) rfl
    (Parser.carried rfl limit).statement (fun k => k = .eof)
  have hthere := hcarries us'
  rw [hplaces, hcarries us, hss₂] at hthere
  cases hss' : statements (fun k => k = .eof) (statement limit) us' with
  | error => simp [hss', Parser.relocateOutcome] at hthere
  | ok r =>
    obtain ⟨ss', rest'⟩ := r
    rw [hss'] at hthere
    obtain ⟨hplaced, -⟩ := Prod.mk.inj (Except.ok.inj hthere)
    have hall := Parser.statements_append he hsemi hss' hw hss
    refine ⟨w ++ semi :: us', ss', hvs, ?_, hplaced.symm⟩
    obtain ⟨last, hlast, hkind, -⟩ := (tokenize_endsOnce hvs).last
    have hprogram : program limit (w ++ semi :: us') =
        .ok (.node .program none (ss ++ ss'), rest') := by
      rw [program, Parser.bind_run hall]
      rfl
    rw [parseTokens, Parser.run_of_last hlast hkind, hprogram]
    rfl

end Avii
