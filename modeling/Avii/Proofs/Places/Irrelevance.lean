import Avii.Proofs.Syntax.Concatenation
import Avii.Proofs.Transplant.Evaluation

/-!
# Places never change a meaning

Where the tokens of a program stand makes no difference but to the places that the result mentions
(`places_irrelevant`). Two things agree but for places if they are the same once all places are
forgotten (`placeless`), whether they were known or not.

The parser is carried along by a function that moves all places to the same one, so tokens with the
same kinds and texts lead to the same tree or to the same refusal once they are there. Evaluation is
preserved when places are forgotten, so what two evaluations make of trees and stores that agree but
for places is what a third one makes of them without places.
-/

namespace Avii

/-! ## Without places -/

/-- A tree without places. -/
def Tree.placeless (t : Tree) : Tree := t.transplant .forget

/-- A value without the places in the bodies of its closures. -/
def Value.placeless (v : Value) : Value := v.transplant .forget 0

/-- A fault without its line. -/
def Fault.placeless (f : Fault) : Fault := f.transplant .forget

/-- A store without the places in the bodies of closures. -/
def Store.placeless (s : Store) : Store := s.transplant .forget #[]

/-- A refusal without its place. -/
def Refusal.placeless : Refusal → Refusal
  | .invalid e => .invalid { e with place := none }
  | .tooDeep => .tooDeep

/-- The words for a fault are those without its line, and the line if there is one. -/
theorem Fault.message_placeless (f : Fault) :
    f.message = f.placeless.message ++ match f.line? with
      | none => ""
      | some n => " (line " ++ toString n ++ ")" := by
  cases f with
  | runtime cause line =>
    cases line with
    | none => simp [placeless, transplant, message, line?]
    | some n =>
      show _ = cause.message ++ _
      simp [message, line?, String.append_assoc]
  | internal | domain | depth => simp [placeless, transplant, message, line?]

/-- The words for a refusal are those without its place, and the place if there is one. -/
theorem ParseError.message_placeless (e : ParseError) :
    e.message = ({ e with place := none } : ParseError).message ++ match e.place with
      | none => ""
      | some p => " at line " ++ toString p.line ++ ", col " ++ toString p.column := by
  obtain ⟨fault, place⟩ := e
  cases place with
  | none => simp [message]
  | some p => simp [message, String.append_assoc]

namespace Tree

variable {φ : Int → Int}

mutual

/-- Without its places, a tree does not tell whether they were replaced before. -/
theorem placeless_relocate : ∀ t : Tree, (t.relocate φ).placeless = t.placeless
  | absent => rfl
  | leaf _ => rfl
  | node label line cs => by
    unfold placeless
    rw [relocate_node, transplant_node, transplant_node, placeless_relocates cs]
    rfl

theorem placeless_relocates : ∀ ts : List Tree,
    (ts.map (relocate φ)).map (transplant .forget) = ts.map (transplant .forget)
  | [] => rfl
  | t :: ts => by
    rw [List.map_cons, List.map_cons, List.map_cons, placeless_relocates ts]
    exact congrArg (· :: _) (placeless_relocate t)

end

end Tree

theorem Refusal.placeless_relocate (φ : Int → Int) (r : Refusal) :
    (Parser.relocateRefusal φ r).placeless = r.placeless := by
  cases r <;> rfl

/-! ## Parsing -/

namespace Parser

/-- An outcome of parsing without places. -/
def placelessOutcome : Except Refusal Tree → Except Refusal Tree
  | .ok t => .ok t.placeless
  | .error r => .error r.placeless

theorem carries_program {φ : Int → Int} (hφ : φ 1 = 1) (budget : Nat) :
    Carries φ (Tree.relocate φ) (program budget) (program budget) := by
  refine (carries_statements hφ (carried hφ budget).statement _).bind fun body => ?_
  exact carries_node _ _ _

theorem run_relocate {φ : Int → Int} {p : Parser Tree} (hp : Carries φ (Tree.relocate φ) p p)
    (ts : List Token) :
    placelessOutcome (p.run (ts.map (Token.relocate φ))) = placelessOutcome (p.run ts) := by
  unfold run
  rw [List.getLast?_map, hp ts]
  cases ts.getLast? with
  | none => rfl
  | some last =>
    simp only [Option.map_some]
    by_cases heof : last.kind = .eof
    · have heof' : (last.relocate φ).kind = .eof := heof
      rw [if_pos heof', if_pos heof]
      cases p ts with
      | ok r => exact congrArg Except.ok r.1.placeless_relocate
      | error r => exact congrArg Except.error (r.placeless_relocate φ)
    · have heof' : (last.relocate φ).kind ≠ .eof := heof
      rw [if_neg heof', if_neg heof]

end Parser

/-- Tokens with the same kinds and texts are parsed alike. -/
theorem parseTokens_placeless {ts us : List Token}
    (h : List.Forall₂ (fun t u : Token => t.kind = u.kind ∧ t.text = u.text) ts us) (limit : Nat) :
    Parser.placelessOutcome (parseTokens limit ts) =
      Parser.placelessOutcome (parseTokens limit us) := by
  have hprogram := Parser.carries_program (φ := fun _ => 1) rfl limit
  unfold parseTokens
  rw [← Parser.run_relocate hprogram ts, ← Parser.run_relocate hprogram us, unplaced_of_spelled h]

/-! ## Evaluation -/

/-- Two machines agree but for the places in their stores, and for what they have noted. -/
structure Machine.Alike (m m' : Machine) : Prop where
  store : m.store.placeless = m'.store.placeless
  output : m.output = m'.output

namespace Eval

/-- Two evaluations end alike: with the same value or the same fault, having printed the same, and
with the same store, all but for places. -/
def Alike : EStateM.Result Fault Machine Value → EStateM.Result Fault Machine Value → Prop
  | .ok v m, .ok v' m' => v.placeless = v'.placeless ∧ m.Alike m'
  | .error f m, .error f' m' => f.placeless = f'.placeless ∧ m.Alike m'
  | _, _ => False

/-- What a machine comes to when its places and its notes are forgotten. -/
def forgetful (m : Machine) : Transplant := ⟨.forget, #[], m.events, []⟩

theorem forgetful_moved {m m' : Machine} (h : m.Alike m') :
    (forgetful m).Moved m ⟨m'.store.placeless, m'.output, []⟩ :=
  ⟨h.store.symm, h.output.symm, [], rfl, rfl⟩

/-- Two evaluations that come to the same without places end alike. -/
theorem alike_of_forgetful {m m' : Machine} {x x' r : EStateM.Result Fault Machine Value}
    (h : (forgetful m).Corresponds Value.placeless x r)
    (h' : (forgetful m').Corresponds Value.placeless x' r) : Alike x x' := by
  cases x with
  | ok v m₁ =>
    obtain ⟨m₂, rfl, hm₁⟩ := h.of_ok
    cases x' with
    | ok v' m₁' => exact ⟨h'.1, hm₁.store.symm.trans h'.2.store, hm₁.output.symm.trans h'.2.output⟩
    | error => exact h'.elim
  | error f m₁ =>
    obtain ⟨m₂, rfl, hm₁⟩ := h.of_error
    cases x' with
    | ok => exact h'.elim
    | error f' m₁' =>
      exact ⟨h'.1, hm₁.store.symm.trans h'.2.store, hm₁.output.symm.trans h'.2.output⟩

/-- Trees that agree but for places are evaluated alike on machines that agree but for places. -/
theorem evaluate_alike {t u : Tree} (htu : t.placeless = u.placeless) {m m' : Machine}
    (hm : m.Alike m') (n : Nat) (scope : ScopeId) :
    Alike (evaluate n scope t m) (evaluate n scope u m') := by
  have hfirst := Transplant.preserves_evaluate n scope t _ _ (forgetful_moved hm)
  have hsecond := Transplant.preserves_evaluate n scope u _ _ (forgetful_moved (m := m') ⟨rfl, rfl⟩)
  have htu' : (forgetful m).tree t = (forgetful m').tree u := htu
  rw [htu'] at hfirst
  exact alike_of_forgetful hfirst hsecond

end Eval

/-- Layout and positions never change a meaning. Of two lists of tokens with the same kinds and
texts, the parser refuses both, with the same words but for the place, or makes a tree of both,
whatever the limit that it parses within.
These trees agree but for places; and evaluated in one scope, within any budget, on machines that
agree but for places, they print the same, leave stores that agree but for places, and give values
that do, or stop with the same fault but for its line. -/
theorem places_irrelevant {ts us : List Token}
    (hspelled : List.Forall₂ (fun t u : Token => t.kind = u.kind ∧ t.text = u.text) ts us)
    {m m' : Machine} (hm : m.Alike m') (limit n : Nat) (scope : ScopeId) :
    match parseTokens limit ts, parseTokens limit us with
    | .ok t, .ok u => t.placeless = u.placeless ∧
        Eval.Alike (evaluate n scope t m) (evaluate n scope u m')
    | .error r, .error r' => r.placeless = r'.placeless
    | _, _ => False := by
  have hparsed := parseTokens_placeless hspelled limit
  cases ht : parseTokens limit ts with
  | ok t =>
    cases hu : parseTokens limit us with
    | ok u =>
      rw [ht, hu] at hparsed
      have htu := Except.ok.inj hparsed
      exact ⟨htu, Eval.evaluate_alike htu hm n scope⟩
    | error r' =>
      rw [ht, hu] at hparsed
      cases hparsed
  | error r =>
    cases hu : parseTokens limit us with
    | ok u =>
      rw [ht, hu] at hparsed
      cases hparsed
    | error r' =>
      rw [ht, hu] at hparsed
      exact Except.error.inj hparsed

/-- For instance a call of a function whose body fails: the call stands elsewhere, and so does the
body, and the fault has another line. -/
theorem places_irrelevant_call :
    let call (line : Int) : List Token := [⟨.ident, "f", line, 1⟩, ⟨.lpar, "(", line, 3⟩,
      ⟨.rpar, ")", line + 1, 1⟩, ⟨.eof, "", line + 1, 2⟩]
    let machine (line : Int) : Machine := ⟨⟨#[⟨none, [⟨"f", .closure ⟨some "f", [],
      [.leaf ⟨.ident, "x", some line, some 1⟩], 0⟩, false⟩]⟩]⟩, "", []⟩
    ∃ t u m m', parseTokens 100 (call 1) = .ok t ∧ parseTokens 100 (call 6) = .ok u ∧
      evaluate 20 0 t (machine 3) = .error (.runtime (.undefined "x") (some 3)) m ∧
      evaluate 20 0 u (machine 8) = .error (.runtime (.undefined "x") (some 8)) m' ∧
      t.placeless = u.placeless ∧ m.Alike m' := by
  intro call machine
  have hspelled : List.Forall₂ (fun t u : Token => t.kind = u.kind ∧ t.text = u.text)
      (call 1) (call 6) := by simp [call]
  have hstore : (machine 3).store.placeless = (machine 8).store.placeless := by
    simp [machine, Store.placeless, Store.transplant, Scope.transplant, Binding.transplant,
      Closure.transplant, Leaf.transplant, Replacement.forget]
  have hmachine : (machine 3).Alike (machine 8) := ⟨hstore, rfl⟩
  have h := places_irrelevant hspelled hmachine 100 20 0
  let tree (line : Int) : Tree := .node .program none [.node .call (some line)
    [.leaf ⟨.ident, "f", some line, some 1⟩, .node .args none []]]
  have ht : parseTokens 100 (call 1) = .ok (tree 1) := rfl
  have hu : parseTokens 100 (call 6) = .ok (tree 6) := rfl
  obtain ⟨m, hm⟩ : ∃ m, evaluate 20 0 (tree 1) (machine 3) =
      .error (.runtime (.undefined "x") (some 3)) m := ⟨_, by simp only [tree, machine]; cbv⟩
  obtain ⟨m', hm'⟩ : ∃ m, evaluate 20 0 (tree 6) (machine 8) =
      .error (.runtime (.undefined "x") (some 8)) m := ⟨_, by simp only [tree, machine]; cbv⟩
  rw [ht, hu] at h
  obtain ⟨hplaceless, halike⟩ := h
  rw [hm, hm'] at halike
  exact ⟨_, _, m, m', ht, hu, hm, hm', hplaceless, halike.2⟩

end Avii
