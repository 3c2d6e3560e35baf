import Avii.Proofs.Syntax.Budget
import Avii.Proofs.Syntax.Cursor

/-!
# The parser and the first `eof`

A list of tokens that ends in `eof` may have others before its end, and the parser reads it up to
the first one: its cursor goes no further, its loops end and its answer is the same for every list
that starts like this (`cursor_safe`).
-/

namespace Avii.Parser

open Syntax (Level operandOf)

variable {α : Type} {T T' : List Token} {e : Token} {i k n : Nat}

/-! ## Progress -/

/-- A parser that takes something moves the cursor on, and not past the first `eof`. -/
theorem Traced.advances {p : Parser α} (h : Traced p) (hless : Lessens p) (hi : i ≤ firstEnd T)
    {a : α} {rest : List Token} (hp : p (T.drop i) = .ok (a, rest)) :
    ∃ j, i < j ∧ j ≤ firstEnd T ∧ rest = T.drop j := by
  obtain ⟨moves, r, htrace⟩ := h T i
  have hrun := htrace.run
  rw [hp] at hrun
  cases r with
  | error e => cases hrun
  | ok r =>
    cases hrun
    obtain ⟨-, hj⟩ := htrace.within hi
    have hlt := hless hp
    simp only [List.length_drop] at hlt
    exact ⟨r.2, by omega, (hj _ _ rfl).2, rfl⟩

/-! ## Loops -/

/-- All loops of the parser, with their parts within a budget, end by themselves: no round goes on
but with fewer tokens. So the rounds that they are given are enough (`Repeats.enough`). -/
structure LoopsEnd (n : Nat) : Prop where
  levels : ∀ ℓ : Level, Repeats (joinLeft ℓ.isOperator ℓ.label (operandOf ℓ n))
    (joinRound ℓ (operandOf ℓ n))
  links : Repeats (links (expression n) (arguments n)) (linkRound (expression n) (arguments n))
  items : Repeats (fun k (_ : Unit) => afterCommas (expression n) k)
    fun again _ => commaRound (expression n) (again ())
  properties : Repeats (fun k (_ : Unit) => properties (expression n) k)
    fun again _ => propertyRound (expression n) (again ())
  parameters : Repeats (fun k seen => parametersAfter seen k) parameterRound
  statements : ∀ {isEnd : Kind → Bool}, isEnd .eof = true →
    Repeats (fun k (_ : Unit) => statementsUpTo isEnd (statement n) k)
      fun again _ => statementRound isEnd (statement n) (again ())

theorem loopsEnd (n : Nat) : LoopsEnd n where
  levels := fun ℓ => joinLeft_repeats (operandOf_lessens ℓ n)
  links := links_repeats (expression_lessens n) (arguments_shrinks n)
  items := afterCommas_repeats (expression_lessens n)
  properties := properties_repeats (property_lessens (expression_lessens n))
  parameters := parametersAfter_repeats
  statements := fun hend => statementsUpTo_repeats hend (statement_lessens n)

/-! ## Lists that start alike -/

/-- Tokens without an `eof` end before there is one. -/
theorem Inner.length_le {w us : List Token} (hw : Inner w) (hk : (w ++ us)[k]? = some e)
    (he : e.kind = .eof) : w.length ≤ k := by
  by_contra hlt
  rw [List.getElem?_append_left (Nat.not_le.mp hlt)] at hk
  exact hw e (List.mem_of_getElem? hk) he

section Alike

variable (h : T'.take (k + 1) = T.take (k + 1))

include h

theorem getElem?_alike (hi : i ≤ k) : T'[i]? = T[i]? := by
  rw [← List.getElem?_take_of_lt (Nat.lt_succ_of_le hi), h,
    List.getElem?_take_of_lt (Nat.lt_succ_of_le hi)]

/-- What comes before the last token that two lists share comes before the same token in both. -/
theorem split_alike {w us : List Token} (hT : T = w ++ us) (hw : w.length ≤ k) :
    ∃ us', T' = w ++ us' ∧ us'.head? = us.head? := by
  have htake : T'.take w.length = w := by
    have hw' : T'.take w.length = T.take w.length := by
      have hlen : min w.length (k + 1) = w.length := by omega
      rw [← hlen, ← List.take_take, h, List.take_take]
    rw [hw', hT, List.take_left]
  have hus : us = T.drop w.length := by rw [hT, List.drop_left]
  refine ⟨T'.drop w.length, ?_, ?_⟩
  · rw [← List.take_append_drop w.length T', htake, List.drop_left]
  · rw [hus, List.head?_drop, List.head?_drop, getElem?_alike h hw]

/-- Unless the parser gives up on one of two lists that are alike up to an `eof`, it does the same
with both. -/
theorem program_alike (hk : T[k]? = some e) (he : e.kind = .eof)
    (hdeep : program n T ≠ .error .tooDeep) :
    (program n T').map (·.1) = (program n T).map (·.1) := by
  have hended : Ended T := ⟨e, List.mem_of_getElem? hk, he⟩
  have hsure := program_sure (Nat.le_refl (n + 9)) T
  cases hp : program n T with
  | ok r =>
    obtain ⟨w, hsplit, hw, htransfers, -⟩ := hsure.ok hp
    have hlen : w.length ≤ k := hw.length_le (hsplit ▸ hk) he
    obtain ⟨us, rfl, hus⟩ := split_alike h hsplit hlen
    have hnext : next us = next r.2 := by
      rw [next, next, List.headD_eq_head?_getD, List.headD_eq_head?_getD, hus]
    rw [htransfers us (.inl hnext)]
    rfl
  | error r =>
    cases r with
    | tooDeep => exact absurd hp hdeep
    | invalid f =>
      obtain ⟨w, t, us, hsplit, hw, -, hsame, -⟩ := hsure.error hended hp
      have hlen : w.length ≤ k := hw.length_le (hsplit ▸ hk) he
      obtain ⟨us', rfl, hus⟩ := split_alike h hsplit hlen
      obtain ⟨vs, rfl⟩ := List.head?_eq_some_iff.mp hus
      rw [hsame vs]

end Alike

/-- What a program is depends on its tokens up to the first `eof`. -/
theorem program_depends (h : Ended T) (htake : T'.take (firstEnd T + 1) = T.take (firstEnd T + 1))
    (n : Nat) : (program n T').map (·.1) = (program n T).map (·.1) := by
  have hlt := firstEnd_lt h
  have hk : T[firstEnd T]? = some T[firstEnd T] := List.getElem?_eq_getElem hlt
  have hk' := (getElem?_alike htake (Nat.le_refl _)).trans hk
  have he := firstEnd_kind hlt
  by_cases hdeep : program n T = .error .tooDeep
  · by_cases hdeep' : program n T' = .error .tooDeep
    · rw [hdeep, hdeep']
    · exact (program_alike htake.symm hk' he hdeep').symm
  · exact program_alike htake hk he hdeep

/-! ## Whole programs -/

theorem outcomeAt_map (T : List Token) (r : Except Refusal (Tree × Nat)) :
    (outcomeAt T r).map (·.1) = r.map (·.1) := by
  cases r with
  | ok => rfl
  | error => rfl

/-- On tokens that end in `eof`, whatever is before it, the cursor of the parser is safe and its
loops end. However the parser is taken apart, no token is looked at beyond the first `eof`, and the
cursor does not get past it. A statement or an expression that is read moves the cursor on. No loop
goes on but with fewer tokens. With enough budget the parser ends, with a tree or the refusal of a
token, and no more budget changes this. And only the tokens up to the first `eof` matter. -/
theorem cursor_safe (hlast : T.getLast? = some e) (he : e.kind = .eof) :
    firstEnd T < T.length ∧
    (∀ n, (∃ moves r, Trace T (program n) 0 moves r) ∧
      ∀ moves r, Trace T (program n) 0 moves r →
        (program n).run T = r.map (·.1) ∧ (∀ m ∈ moves, m.index ≤ firstEnd T) ∧
        ∀ t j, r = .ok (t, j) → j ≤ firstEnd T) ∧
    (∀ n i a rest, i ≤ firstEnd T →
      statement n (T.drop i) = .ok (a, rest) ∨ expression n (T.drop i) = .ok (a, rest) →
      ∃ j, i < j ∧ j ≤ firstEnd T ∧ rest = T.drop j) ∧
    (∀ n, LoopsEnd n) ∧
    (∃ N r, r ≠ .error .tooDeep ∧ ∀ n, N ≤ n → (program n).run T = r) ∧
    ∀ T', T'.take (firstEnd T + 1) = T.take (firstEnd T + 1) →
      (∃ e', T'.getLast? = some e' ∧ e'.kind = .eof) →
      ∀ n, (program n).run T' = (program n).run T := by
  have hended : Ended T := ⟨e, List.mem_of_getLast? hlast, he⟩
  have hrun : ∀ n, (program n).run T = (program n T).map (·.1) := fun n => run_of_last hlast he
  refine ⟨firstEnd_lt hended, fun n => ⟨traced_program n T 0, ?_⟩, ?_, loopsEnd, ?_, ?_⟩
  · intro moves r h
    obtain ⟨hmoves, hend⟩ := h.within (Nat.zero_le _)
    refine ⟨?_, hmoves, fun t j hr => (hend t j hr).2⟩
    have hT := h.run
    rw [List.drop_zero] at hT
    rw [hrun, hT, outcomeAt_map]
  · rintro n i a rest hi (h | h)
    · exact (allTraced n).statement.advances (statement_lessens n) hi h
    · exact (allTraced n).expression.advances (expression_lessens n) hi h
  · obtain ⟨r, hr, N, hN⟩ := program_finishes T
    refine ⟨N, r.map (·.1), ?_, fun n hn => ?_⟩
    · exact fun h => hr (map_error h)
    · rw [hrun, hN n hn]
  · rintro T' htake ⟨e', hlast', he'⟩ n
    rw [hrun, run_of_last hlast' he', program_depends hended htake]

/-- For instance where an `eof` stands before a token that no text has: a name and the end is all
that the parser sees. -/
theorem cursor_safe_early_end :
    ∃ T : List Token, T.length = 4 ∧ firstEnd T = 1 ∧
      (∃ N r, r ≠ .error .tooDeep ∧ ∀ n, N ≤ n → (program n).run T = r) ∧
      ∀ n, (program n).run T =
        (program n).run [⟨.ident, "x", 1, 1⟩, ⟨.eof, "", 1, 2⟩] := by
  let T : List Token :=
    [⟨.ident, "x", 1, 1⟩, ⟨.eof, "", 1, 2⟩, ⟨.binop, "?!", 1, 3⟩, ⟨.eof, "", 1, 5⟩]
  have hend : firstEnd T = 1 := by decide
  obtain ⟨-, -, -, -, hbudget, hsame⟩ := @cursor_safe T ⟨.eof, "", 1, 5⟩ rfl rfl
  exact ⟨T, rfl, hend, hbudget, fun n => (hsame _ (by rw [hend]; rfl) ⟨_, rfl, rfl⟩ n).symm⟩

end Avii.Parser
