import Packrat.Main
import Packrat.Session.Step
import Packrat.Proofs.Engine.Place
import Packrat.Proofs.Engine.Plain
import Packrat.Proofs.Engine.Meaning
import Packrat.Proofs.Engine.Verdicts
import Packrat.Proofs.Engine.Frame
import Packrat.Proofs.Engine.Legend
import Packrat.Proofs.Engine.Building
import Packrat.Proofs.Engine.Simulation
import Packrat.Proofs.Engine.Use
import Packrat.Proofs.Engine.Guarded
import Packrat.Proofs.Engine.LeftRecursion
import Packrat.Proofs.Engine.Termination
import Packrat.Proofs.Engine.Boundaries
import Packrat.Proofs.Engine.Transparency
import Packrat.Proofs.Engine.Shifting
import Packrat.Proofs.Engine.MaximalMunch
import Packrat.Proofs.Tracing.Trace
import Packrat.Proofs.Tracing.FailurePropagation
import Packrat.Proofs.Tracing.Ledger
import Packrat.Proofs.Tracing.ProperGrammars
import Packrat.Proofs.Tracing.CallCounts
import Packrat.Proofs.Tracing.Caching
import Packrat.Proofs.Tracing.History
import Packrat.Proofs.Level.LeftAssociative
import Packrat.Proofs.Level.RightAssociative
import Packrat.Proofs.Level.Comparison
import Packrat.Proofs.Level.InsideRules
import Packrat.Proofs.Session.RuleChanges
import Packrat.Proofs.Session.Markers
import Packrat.Proofs.Session.Lifetimes
import Packrat.Proofs.Language.Grammar
import Packrat.Proofs.Language.Phrase
import Packrat.Proofs.Language.Joining
import Packrat.Proofs.Language.Writing
import Packrat.Proofs.Language.Reporting
import Packrat.Proofs.Language.WholeTexts
import Packrat.Proofs.Language.RoundTrip
import Packrat.Proofs.Language.Soundness
import Packrat.Proofs.Language.Flat
import Packrat.Proofs.Language.Seams
import Packrat.Proofs.Language.Completion
import Packrat.Proofs.Language.Viability
import Packrat.Proofs.Language.ModuleEnds
import Packrat.Proofs.Language.LastOperand
import Packrat.Proofs.Language.Surroundings
import Packrat.Proofs.Language.Continuing
import Packrat.Proofs.Language.Composition
import Packrat.Proofs.Language.Outline
import Packrat.Proofs.Number.Rounding
import Packrat.Proofs.Number.Numerals
import Packrat.Proofs.Tree.Overflow
import Packrat.Proofs.Tree.Groups
import Packrat.Proofs.Tree.Documents
import Packrat.Proofs.Cli.ByteOrder
import Packrat.Proofs.Cli.Listing
import Packrat.Proofs.Cli.Checking
