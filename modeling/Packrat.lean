import Packrat.Actions.Basic
import Packrat.Actions.Term
import Packrat.Bindings
import Packrat.Compile
import Packrat.Engine.Eval
import Packrat.Engine.LabelStack
import Packrat.Engine.Memo
import Packrat.Engine.Run
import Packrat.Engine.State
import Packrat.Event
import Packrat.Expected
import Packrat.Failure
import Packrat.Fault
import Packrat.Grammar.Basic
import Packrat.Grammar.CharClass
import Packrat.Grammar.Check
import Packrat.Grammar.Diagnostic
import Packrat.Grammar.Expansion
import Packrat.Grammar.LeftRecursion
import Packrat.Grammar.References
import Packrat.GrammarText.Lexeme
import Packrat.GrammarText.Read
import Packrat.GrammarText.Reader
import Packrat.Graph.Components
import Packrat.Number.Binary64
import Packrat.Number.Shortest
import Packrat.Shape.Basic
import Packrat.Shape.Infer
import Packrat.Text.Alphabetic
import Packrat.Text.Blank
import Packrat.Text.GraphemeExtend
import Packrat.Text.Input
import Packrat.Text.LineCol
import Packrat.Text.Numeric
import Packrat.Text.Offset
import Packrat.Text.Printable
import Packrat.Text.Quoted
import Packrat.Text.Ranges
import Packrat.Value
import Packrat.Proofs.Engine.Agreement
import Packrat.Proofs.Engine.Blind
import Packrat.Proofs.Engine.Consuming
import Packrat.Proofs.Engine.Framing
import Packrat.Proofs.Engine.Fuel
import Packrat.Proofs.Engine.Furthest
import Packrat.Proofs.Engine.Ledger
import Packrat.Proofs.Engine.Locality
import Packrat.Proofs.Engine.Moves
import Packrat.Proofs.Engine.Occurrences
import Packrat.Proofs.Engine.Operations
import Packrat.Proofs.Engine.Passes
import Packrat.Proofs.Engine.Runs
import Packrat.Proofs.Engine.Safety
import Packrat.Proofs.Engine.Scopes
import Packrat.Proofs.Engine.Simulation
import Packrat.Proofs.Engine.Spelling
import Packrat.Proofs.Engine.Tables
import Packrat.Proofs.Engine.Transcript
import Packrat.Proofs.Engine.Triples
import Packrat.Proofs.Engine.Values
import Packrat.Proofs.Grammar.Acyclic
import Packrat.Proofs.Grammar.Checked
import Packrat.Proofs.Grammar.Closed
import Packrat.Proofs.Grammar.Definitions
import Packrat.Proofs.Grammar.Equality
import Packrat.Proofs.Grammar.Errors
import Packrat.Proofs.Grammar.Instances
import Packrat.Proofs.Grammar.LabelScope
import Packrat.Proofs.Grammar.LabelUse
import Packrat.Proofs.Grammar.LeastNullable
import Packrat.Proofs.Grammar.LeftCycles
import Packrat.Proofs.Grammar.LeftEdges
import Packrat.Proofs.Grammar.LeftWalk
import Packrat.Proofs.Grammar.Nodes
import Packrat.Proofs.Grammar.Nullable
import Packrat.Proofs.Grammar.Parts
import Packrat.Proofs.Grammar.Refs
import Packrat.Proofs.Grammar.RuleIndex
import Packrat.Proofs.Grammar.Unplaced
import Packrat.Proofs.Grammar.WellFormed
import Packrat.Proofs.GrammarText.Alike
import Packrat.Proofs.GrammarText.Balanced
import Packrat.Proofs.GrammarText.Blanks
import Packrat.Proofs.GrammarText.Continued
import Packrat.Proofs.GrammarText.Extent
import Packrat.Proofs.GrammarText.Follow
import Packrat.Proofs.GrammarText.Heads
import Packrat.Proofs.GrammarText.Joining
import Packrat.Proofs.GrammarText.Landing
import Packrat.Proofs.GrammarText.Levels
import Packrat.Proofs.GrammarText.Longer
import Packrat.Proofs.GrammarText.Places
import Packrat.Proofs.GrammarText.ReadBack
import Packrat.Proofs.GrammarText.Reading
import Packrat.Proofs.GrammarText.Shown
import Packrat.Proofs.GrammarText.Spans
import Packrat.Proofs.GrammarText.Tokens
import Packrat.Proofs.GrammarText.Written
import Packrat.Proofs.GrammarText.Yields
import Packrat.Proofs.Graph.Components
import Packrat.Proofs.Graph.Exploration
import Packrat.Proofs.Graph.Strong
import Packrat.Proofs.Template.Collecting
import Packrat.Proofs.Template.Expansion
import Packrat.Proofs.Template.Evaluator
import Packrat.Proofs.Template.Instantiations
import Packrat.Proofs.Template.Meaning
import Packrat.Proofs.Template.Naming
import Packrat.Proofs.Template.Order
import Packrat.Proofs.Template.Resolve
import Packrat.Proofs.Template.Slots
import Packrat.Proofs.Template.Target
import Packrat.Proofs.Template.Unfolding
import Packrat.Proofs.Plain.Cases
import Packrat.Proofs.Plain.Evaluator
import Packrat.Proofs.Plain.Labels
import Packrat.Proofs.Plain.Offsets
import Packrat.Proofs.Plain.Progress
import Packrat.Proofs.Plain.Total
import Packrat.Proofs.Plain.Visits
import Packrat.Proofs.Plain.Whole
import Packrat.Proofs.Shape.Components
import Packrat.Proofs.Shape.Equations
import Packrat.Proofs.Shape.Inference
import Packrat.Proofs.Shape.Precision
import Packrat.Proofs.Shape.Solution
import Packrat.Proofs.Shape.Soundness
import Packrat.Proofs.Shape.Values
import Packrat.Proofs.Text.Boundary
import Packrat.Proofs.Text.Delimited
import Packrat.Proofs.Text.LineOrder
import Packrat.Proofs.Value.Display
