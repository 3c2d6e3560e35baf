import Avii.Proofs.Eval.Inheritance
import Avii.Proofs.Eval.Taxonomy
import Avii.Proofs.Syntax.Lines

/-!
# The line of a mistake

A mistake of the program is made without a line, and the innermost node under evaluation gives it
one. In the run of a program text that node always has a line (`mistake_line`), so the nodes
around it have nothing to add, and the mistake leaves the run with the line of a token.

`Innermost` is said of a node that fails while no node evaluated within it does, neither a part of
it nor in a body that it calls. The induction is on the budget (`line_arises`): where a part fails,
it is known by induction whether the fault has its line yet, and a moment all of whose parts succeed
raises a fault that has the line of the node, if the moment is about a node (`raises_verdict`).
-/

namespace Avii.Eval

open Syntax (Placed isList)

variable {p q r : Moment} {f g : Fault} {cause : RuntimeCause} {line : Option Int}

/-- A moment is the evaluation of a tree. -/
def Moment.isTree (p : Moment) : Prop :=
  ∃ scope t, p.task = .tree scope t

/-- The evaluation of a tree fails, and no evaluation of a tree within it does. -/
structure Innermost (p : Moment) : Prop where
  isTree : p.isTree
  fails : p.fault? ≠ none
  within : ∀ q, Relation.TransGen Part p q → q.isTree → q.fault? = none

/-! ## Faults on their way out -/

/-- A mistake that has got a line was one before, of the same cause. -/
theorem runtime_of_located {l : Option Int} (h : g.located l = .runtime cause line) :
    ∃ own, g = .runtime cause own ∧ (own = none ∧ line = l ∨ own ≠ none ∧ line = own) := by
  cases g with
  | runtime c own =>
    cases own with
    | none =>
      cases h
      exact ⟨none, rfl, .inl ⟨rfl, rfl⟩⟩
    | some n =>
      cases h
      exact ⟨some n, rfl, .inr ⟨Option.some_ne_none n, rfl⟩⟩
  | internal | domain | depth => cases h

/-- A mistake that has its line passes unchanged. -/
theorem reaches_lined {n : Int} (h : Reaches p q)
    (hq : q.fault? = some (.runtime cause (some n))) :
    p.fault? = some (.runtime cause (some n)) := by
  obtain ⟨l, hl⟩ := reaches_fault h hq
  exact hl

/-! ## Where the line comes from -/

/-- A list without items makes no mistake. -/
theorem emptyList_fault {n : Nat} {scope : ScopeId} {label : Label} {m : Machine}
    (hlabel : isList label) :
    Moment.fault? ⟨n, .tree scope (.node label none []), m⟩ ≠ some (.runtime cause line) := by
  match n with
  | 0 => simp [Moment.fault?, evalTree, faultOf]
  | 1 => simp [Moment.fault?, evalTree, evalConstruct, located, faultOf, Fault.located]
  | 2 | n + 3 =>
    rcases hlabel with rfl | rfl | rfl | rfl <;>
      simp [Moment.fault?, evalTree, evalConstruct, construct, evalStatements, sequence, located,
        faultOf, Fault.located]

theorem absent_fault {n : Nat} {scope : ScopeId} {m : Machine} :
    Moment.fault? ⟨n, .tree scope .absent, m⟩ ≠ some (.runtime cause line) := by
  cases n <;> simp [Moment.fault?, evalTree, located, faultOf, Fault.located]

/-- Where the evaluation of a placed tree ends in a mistake, the tree has a line. -/
theorem tree_line {lines : Int → Prop} {n : Nat} {scope : ScopeId} {t : Tree} {m : Machine}
    (ht : Placed lines t) (h : Moment.fault? ⟨n, .tree scope t, m⟩ = some (.runtime cause line)) :
    ∃ k, t.sourceLine = some k ∧ lines k := by
  rcases ht.cases with hline | rfl | ⟨label, hlabel, rfl⟩
  · exact hline
  · exact absurd h absent_fault
  · exact absurd h (emptyList_fault hlabel)

/-- A raised mistake has the line of the moment that raises it, if that has one. -/
theorem raises_line (hp : GoodMoment p) (h : Raises p (.runtime cause line)) : line = p.line := by
  have hverdict := raises_verdict hp h
  cases hverdict with
  | plain => rfl
  | misapplied => rfl

/-- A moment that fails by a mistake either carries out no node that fails, and the mistake has no
line yet; or an innermost node fails within it, whose line the mistake has. -/
theorem line_arises {lines : Int → Prop} {p : Moment} {cause : RuntimeCause} {line : Option Int}
    (hgood : GoodMoment p) (hplaced : (inheritance (Placed lines)).Holds p)
    (h : p.fault? = some (.runtime cause line)) :
    (line = none ∧ ∀ q, Reaches p q → q.isTree → q.fault? = none) ∨
    ∃ q n, Reaches p q ∧ Innermost q ∧ q.line = some n ∧ line = some n ∧ lines n := by
  have hpart : ∀ q g, Part p q → q.fault? = some g →
      ∃ own, g = .runtime cause own ∧ (own = none ∧ line = p.line ∨ own ≠ none ∧ line = own) := by
    intro q g hq hg
    exact runtime_of_located (Option.some.inj ((part_fault hq hg).symm.trans h))
  -- what is known of the parts, by induction
  have hrec : ∀ q own, Part p q → q.fault? = some (.runtime cause own) →
      (own = none ∧ ∀ r, Reaches q r → r.isTree → r.fault? = none) ∨
      ∃ r n, Reaches q r ∧ Innermost r ∧ r.line = some n ∧ own = some n ∧ lines n := by
    intro q own hq hown
    have := part_budget hq
    exact line_arises (part_good hq hgood)
      (part_holds (inheritance_lawful fun h hc => h.child hc) hq hplaced) hown
  by_cases hinner : ∃ q r, Part p q ∧ Reaches q r ∧ r.isTree ∧ r.fault? ≠ none
  · right
    obtain ⟨q, r, hq, hr, htree, hfails⟩ := hinner
    obtain ⟨f, hf⟩ := Option.ne_none_iff_exists'.mp hfails
    obtain ⟨l, hl⟩ := reaches_fault hr hf
    obtain ⟨own, hown, hline⟩ := hpart q _ hq hl
    rw [hown] at hl
    -- a node that fails within a part has given the fault of the part its line
    rcases hrec q own hq hl with ⟨-, hnone⟩ | ⟨i, n, hi, hinnermost, hin, rfl, hn⟩
    · exact absurd (hnone r hr htree) hfails
    · rcases hline with ⟨hnone, -⟩ | ⟨-, hline⟩
      · cases hnone
      · exact ⟨i, n, .head hq hi, hinnermost, hin, hline, hn⟩
  · have hwithin : ∀ q, Relation.TransGen Part p q → q.isTree → q.fault? = none := by
      intro q hq htree
      obtain ⟨r, hr, hrq⟩ := Relation.TransGen.head'_iff.mp hq
      cases hf : q.fault? with
      | none => rfl
      | some g => exact absurd ⟨r, q, hr, hrq, htree, by simp [hf]⟩ hinner
    -- no part has given it a line, and if none fails it is raised here
    have hline : line = p.line := by
      by_cases hfails : ∃ q g, Part p q ∧ q.fault? = some g
      · obtain ⟨q, g, hq, hg⟩ := hfails
        obtain ⟨own, rfl, ⟨-, hline⟩ | ⟨hown, -⟩⟩ := hpart q g hq hg
        · exact hline
        · rcases hrec q own hq hg with ⟨hnone, -⟩ | ⟨r, n, hr, hr', -⟩
          · exact absurd hnone hown
          · exact absurd (hwithin r (.head' hq hr) hr'.isTree) hr'.fails
      · refine raises_line hgood ⟨h, ?_⟩
        intro q hq
        cases hg : q.fault? with
        | none => rfl
        | some g => exact absurd ⟨q, g, hq, hg⟩ hfails
    by_cases htree : p.isTree
    · right
      obtain ⟨n, task, m⟩ := p
      obtain ⟨scope, t, rfl⟩ := htree
      obtain ⟨k, hk, hlines⟩ := tree_line hplaced.task.2 h
      exact ⟨_, k, .refl, ⟨⟨scope, t, rfl⟩, by rw [h]; simp, hwithin⟩, hk, hline.trans hk, hlines⟩
    · left
      refine ⟨?_, ?_⟩
      · rw [hline]
        obtain ⟨n, task, m⟩ := p
        cases task with
        | tree scope t => exact absurd ⟨scope, t, rfl⟩ htree
        | _ => rfl
      · intro q hq hq'
        rcases Relation.reflTransGen_iff_eq_or_transGen.mp hq with rfl | hq
        · exact absurd hq' htree
        · exact hwithin q hq hq'
termination_by p.budget

/-- A mistake has the line of the innermost node that fails. If the run of a program text in a new
outermost scope ends in a mistake, then there is an innermost node that fails, the mistake has its
line and passes unchanged through all that the node is evaluated within, and this is the line of a
token of the text. Every node that fails in the run does so with that very mistake, and every
innermost one has that line. -/
theorem mistake_line (source : String) (ts : List Token) (t : Tree) (limit budget : Nat)
    (cause : RuntimeCause) (line : Option Int) (m' : Machine) (hts : tokenize source = .ok ts)
    (ht : parseTokens limit ts = .ok t)
    (h : Program.run limit (.ok budget) Machine.globalId source .fresh =
      .error (.fault (.runtime cause line)) m') :
    let start : Moment := ⟨budget, .tree Machine.globalId t, noted source ts t .fresh⟩
    ∃ n, line = some n ∧ (∃ tok ∈ ts, tok.kind ≠ .eof ∧ tok.line = n) ∧
      (∃ p, Reaches start p ∧ Innermost p ∧ p.line = some n ∧
        ∀ q, Reaches start q → Reaches q p → q.fault? = some (.runtime cause line)) ∧
      ∀ p, Reaches start p → p.isTree → p.fault? ≠ none →
        p.fault? = some (.runtime cause line) ∧ (Innermost p → p.line = line) := by
  intro start
  have hfault : start.fault? = some (.runtime cause line) := by
    rw [run_parsed budget Machine.globalId _ hts ht, Run.ofEval] at h
    cases hm : evalTree budget Machine.globalId t (noted source ts t .fresh) with
    | ok v m₁ =>
      rw [hm] at h
      cases h
    | error f m₁ =>
      rw [hm] at h
      cases h
      exact faultOf_eq_some.mpr ⟨m', hm⟩
  have hgood : GoodMoment start := ⟨fresh_sound, tree_wellFormed hts ht⟩
  let lines : Int → Prop := fun n => ∃ tok ∈ ts, tok.kind ≠ .eof ∧ tok.line = n
  have hreads := Syntax.program_reads ht (tokenize_endsOnce hts)
  have hplaced : (inheritance (Placed lines)).Holds start :=
    ⟨fresh_bodies _, trivial, Syntax.program_placed hreads⟩
  have harises : ∀ p, Reaches start p → p.isTree → p.fault? ≠ none →
      ∃ q n, Reaches p q ∧ Innermost q ∧ q.line = some n ∧ line = some n ∧ lines n ∧
        p.fault? = some (.runtime cause line) := by
    intro p hp htree hfails
    obtain ⟨f, hf⟩ := Option.ne_none_iff_exists'.mp hfails
    obtain ⟨l, hl⟩ := reaches_fault hp hf
    obtain ⟨own, rfl, hown⟩ := runtime_of_located (Option.some.inj (hl.symm.trans hfault))
    have hp' := reaches_holds (inheritance_lawful fun h hc => h.child hc) hp hplaced
    rcases line_arises (reaches_good hp hgood) hp' hf with ⟨-, hnone⟩ | ⟨q, n, hq, hi, hn, rfl, hl'⟩
    · exact absurd (hnone p .refl htree) hfails
    · rcases hown with ⟨hnone, -⟩ | ⟨-, rfl⟩
      · cases hnone
      · exact ⟨q, n, hq, hi, hn, rfl, hl', hf⟩
  obtain ⟨p, n, hp, hi, hn, rfl, hline, -⟩ :=
    harises start .refl ⟨_, _, rfl⟩ (by rw [hfault]; simp)
  refine ⟨n, rfl, hline, ⟨p, hp, hi, hn, ?_⟩, ?_⟩
  · intro q hq hqp
    obtain ⟨-, -, -, -, -, -, -, hpf⟩ := harises p hp hi.isTree hi.fails
    exact reaches_lined hqp hpf
  · intro q hq htree hfails
    obtain ⟨r, k, hr, hri, hk, hkn, -, hqf⟩ := harises q hq htree hfails
    refine ⟨hqf, ?_⟩
    intro hqi
    -- an innermost node has no other within it
    rcases Relation.reflTransGen_iff_eq_or_transGen.mp hr with rfl | hr
    · rw [hk, hkn]
    · exact absurd (hqi.within r hr hri.isTree) hri.fails

/-- For instance a name that is not defined, in the body of a function: its line is the one of the
name, and not of the call. -/
theorem mistake_line_called :
    ∃ ts t cause m' p, tokenize "func f() \x7b\n  x\n\x7d\nf()" = .ok ts ∧
      parseTokens 100 ts = .ok t ∧
      Program.run 100 (.ok 20) Machine.globalId "func f() \x7b\n  x\n\x7d\nf()" .fresh =
        .error (.fault (.runtime cause (some 2))) m' ∧
      Reaches ⟨20, .tree Machine.globalId t, noted "func f() \x7b\n  x\n\x7d\nf()" ts t .fresh⟩ p ∧
      Innermost p ∧ p.line = some 2 := by
  have hts : tokenize "func f() \x7b\n  x\n\x7d\nf()" = .ok
      [⟨.funcWord, "func", 1, 1⟩, ⟨.ident, "f", 1, 6⟩, ⟨.lpar, "(", 1, 7⟩, ⟨.rpar, ")", 1, 8⟩,
      ⟨.lbrace, "\x7b", 1, 10⟩, ⟨.ident, "x", 2, 3⟩, ⟨.rbrace, "\x7d", 3, 1⟩, ⟨.ident, "f", 4, 1⟩,
      ⟨.lpar, "(", 4, 2⟩, ⟨.rpar, ")", 4, 3⟩, ⟨.eof, "", 4, 4⟩] := by with_unfolding_all rfl
  obtain ⟨m', hrun⟩ : ∃ m',
      Program.run 100 (.ok 20) Machine.globalId "func f() \x7b\n  x\n\x7d\nf()" .fresh =
        .error (.fault (.runtime (.undefined "x") (some 2))) m' :=
    ⟨_, (run_parsed 20 _ _ hts rfl).trans (by with_unfolding_all rfl)⟩
  obtain ⟨n, hn, -, ⟨p, hp, hi, hline, -⟩, -⟩ := mistake_line _ _ _ 100 20 _ _ _ hts rfl hrun
  cases hn
  exact ⟨_, _, _, _, p, hts, rfl, hrun, hp, hi, hline⟩

end Avii.Eval
