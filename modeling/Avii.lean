import Avii.CommandLine.Check
import Avii.CommandLine.Run
import Avii.CommandLine.Source
import Avii.CommandLine.Switch
import Avii.Eval
import Avii.Event
import Avii.Grammar.Build
import Avii.Grammar.Parse
import Avii.Grammar.Rules
import Avii.Grammar.Scan
import Avii.Lalr.Basic
import Avii.Lalr.Table
import Avii.Main
import Avii.Number.Arithmetic
import Avii.Number.Binary64
import Avii.Number.Decimal
import Avii.Number.Numeral
import Avii.Program
import Avii.Prompt.Completion
import Avii.Prompt.Highlight
import Avii.Prompt.Keys
import Avii.Prompt.Session
import Avii.Scope
import Avii.Settings
import Avii.Text.Blank
import Avii.Text.Case
import Avii.Text.Case.Table
import Avii.Text.Digit
import Avii.Text.Index
import Avii.Text.Printable
import Avii.Text.Quoted
import Avii.Text.Range
import Avii.Text.Split
import Avii.Token.Basic
import Avii.Token.Escape
import Avii.Token.Scan
import Avii.Tree.Basic
import Avii.Tree.Parse
import Avii.Tree.ParseError
import Avii.Tree.Show
import Avii.Value.Basic
import Avii.Value.Fault
import Avii.Value.Member
import Avii.Value.Operator
import Avii.Value.Show
import Avii.Proofs.Syntax.Derivation
import Avii.Proofs.Syntax.Soundness
import Avii.Proofs.Syntax.Completeness
import Avii.Proofs.Syntax.Acceptance
import Avii.Proofs.Store.Steps
import Avii.Proofs.Eval.Discipline
import Avii.Proofs.Eval.Permanence
import Avii.Proofs.Eval.Provenance
import Avii.Proofs.Eval.Moments
import Avii.Proofs.Eval.Isolation
import Avii.Proofs.Syntax.Loops
import Avii.Proofs.Syntax.Lookahead
import Avii.Proofs.Syntax.Shape
import Avii.Proofs.Token.Exactness
import Avii.Proofs.Token.Layout
import Avii.Proofs.Token.Texts
import Avii.Proofs.Eval.WellFormed
import Avii.Proofs.Eval.Taxonomy
import Avii.Proofs.Grammar.Validation
import Avii.Proofs.Grammar.Completeness
import Avii.Proofs.Grammar.Lexemes
import Avii.Proofs.Grammar.Lowering
import Avii.Proofs.Grammar.Agreement
import Avii.Proofs.Grammar.Nesting
import Avii.Proofs.Syntax.Decisions
import Avii.Proofs.Syntax.Refusals
import Avii.Proofs.Syntax.FirstOffending
import Avii.Proofs.Places.Evaluation
import Avii.Proofs.Places.Parsing
import Avii.Proofs.Syntax.Concatenation
import Avii.Proofs.Eval.Submissions
import Avii.Proofs.Transplant.Basic
import Avii.Proofs.Transplant.Evaluation
import Avii.Proofs.Prompt.Reset
import Avii.Proofs.Places.Irrelevance
import Avii.Proofs.Token.Writing
import Avii.Proofs.Syntax.Rendering
import Avii.Proofs.Syntax.RoundTrip
import Avii.Proofs.Grammar.Soundness
import Avii.Proofs.Grammar.Meaning
import Avii.Proofs.Grammar.Members
import Avii.Proofs.Grammar.Context
import Avii.Proofs.Eval.Locality
import Avii.Proofs.Eval.Inheritance
import Avii.Proofs.Syntax.Lines
import Avii.Proofs.Eval.Mistakes
import Avii.Proofs.Prompt.Survival
import Avii.Proofs.Places.Replacement
import Avii.Proofs.Simulation.Values
import Avii.Proofs.Simulation.Evaluator
import Avii.Proofs.Simulation.Evaluation
import Avii.Proofs.Eval.Declarations
import Avii.Proofs.Token.Literals
import Avii.Proofs.Prompt.Continuation
import Avii.Proofs.Eval.Budgets
import Avii.Proofs.Value.Linked
import Avii.Proofs.Store.Linked
import Avii.Proofs.Shorthand.Expansion
import Avii.Proofs.Shorthand.Evaluation
import Avii.Proofs.Token.Failures
import Avii.Proofs.Prompt.Fragments
import Avii.Proofs.Number.Rounding
import Avii.Proofs.Number.Positional
import Avii.Proofs.Number.Display
import Avii.Proofs.Number.Remainder
import Avii.Proofs.Text.Splitting
import Avii.Proofs.Store.Chains
import Avii.Proofs.Store.Scoping
import Avii.Proofs.Value.Objects
import Avii.Proofs.Eval.Literals
import Avii.Proofs.Eval.Objects
import Avii.Proofs.Eval.Grounding
import Avii.Proofs.Value.Keys
import Avii.Proofs.Grammar.Parts
import Avii.Proofs.Grammar.Stops
import Avii.Proofs.CommandLine.Check
import Avii.Proofs.Syntax.Cursor
import Avii.Proofs.Syntax.Budget
import Avii.Proofs.Syntax.FirstEnd
