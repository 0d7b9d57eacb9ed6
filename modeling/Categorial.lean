import Categorial.Action
import Categorial.Archive
import Categorial.Beam.Search
import Categorial.Beam.State
import Categorial.Beam.Violation
import Categorial.Bits
import Categorial.Category
import Categorial.Chart.Basic
import Categorial.Chart.Forest
import Categorial.Choice
import Categorial.CommandLine.Arguments
import Categorial.CommandLine.Directory
import Categorial.CommandLine.Run
import Categorial.Count
import Categorial.Data.Basic
import Categorial.Data.Json
import Categorial.Data.Toml
import Categorial.Decimal.Layout
import Categorial.Decimal.Shortest
import Categorial.Derivation
import Categorial.Features
import Categorial.Grammar
import Categorial.Lexicon
import Categorial.LinearModel
import Categorial.Main
import Categorial.NameMap
import Categorial.Oracle.Basic
import Categorial.Oracle.Build
import Categorial.Proofs.Agreement
import Categorial.Proofs.Beam.Completed
import Categorial.Proofs.Beam.Derivations
import Categorial.Proofs.Beam.Gold
import Categorial.Proofs.Beam.Legal
import Categorial.Proofs.Beam.Moves
import Categorial.Proofs.Beam.Paths
import Categorial.Proofs.Beam.Readings
import Categorial.Proofs.Beam.Scored
import Categorial.Proofs.Beam.Stacks
import Categorial.Proofs.Beam.Unpruned
import Categorial.Proofs.Beam.Widths
import Categorial.Proofs.Bracketing
import Categorial.Proofs.Capture
import Categorial.Proofs.Chart.Actions
import Categorial.Proofs.Chart.Cells
import Categorial.Proofs.Chart.Derivable
import Categorial.Proofs.Chart.Exhaustive
import Categorial.Proofs.Chart.Forest
import Categorial.Proofs.Chart.Groups
import Categorial.Proofs.Chart.Harvest
import Categorial.Proofs.Chart.Optimal
import Categorial.Proofs.Chart.Picks
import Categorial.Proofs.Chart.Pruning
import Categorial.Proofs.Chart.Skipping
import Categorial.Proofs.Chart.Steps
import Categorial.Proofs.Chart.Trees
import Categorial.Proofs.Chart.Unpacked
import Categorial.Proofs.Compatibility
import Categorial.Proofs.Confluence
import Categorial.Proofs.Constants
import Categorial.Proofs.Composition
import Categorial.Proofs.Conversion
import Categorial.Proofs.Entries
import Categorial.Proofs.Features
import Categorial.Proofs.Hierarchy
import Categorial.Proofs.Licensed
import Categorial.Proofs.NormalForm
import Categorial.Proofs.Oracle.Constrained
import Categorial.Proofs.Oracle.Found
import Categorial.Proofs.Oracle.Greedy
import Categorial.Proofs.Oracle.Windows
import Categorial.Proofs.Order
import Categorial.Proofs.Raising
import Categorial.Proofs.Reader.Names
import Categorial.Proofs.Reader.Phrases
import Categorial.Proofs.Reader.Scoping
import Categorial.Proofs.Reader.Terms
import Categorial.Proofs.Redexes
import Categorial.Proofs.Relevance
import Categorial.Proofs.Standing
import Categorial.Proofs.Substitution
import Categorial.Proofs.Termination
import Categorial.Proofs.Training.Epochs
import Categorial.Proofs.Training.Golds
import Categorial.Proofs.Training.Updates
import Categorial.Proofs.WellTyped
import Categorial.Reader.Basic
import Categorial.Reader.Category
import Categorial.Reader.Syn
import Categorial.Reader.Term
import Categorial.Reader.Ty
import Categorial.Report
import Categorial.Rule.Basic
import Categorial.Rule.Combine
import Categorial.Score
import Categorial.Settings
import Categorial.Signature
import Categorial.Span
import Categorial.Syn
import Categorial.Term.Basic
import Categorial.Term.Normal
import Categorial.Term.Printer
import Categorial.Term.Typing
import Categorial.Text.Blank
import Categorial.Text.Quoted
import Categorial.Text.Word
import Categorial.Training.Dataset
import Categorial.Training.Trainer
import Categorial.Ty
import Categorial.Weights
import Categorial.Proofs.Training.Kept
import Categorial.Proofs.Training.Resume
import Categorial.Proofs.Archive
import Categorial.Proofs.Beam.EntryOrder
import Categorial.Proofs.Chart.EntryOrder
import Categorial.Proofs.EntryOrder
import Categorial.Proofs.Beam.Ending
import Categorial.Proofs.Beam.Histories
import Categorial.Proofs.Beam.Violations
import Categorial.Proofs.Chart.Roster
import Categorial.Proofs.Chart.Listing
import Categorial.Proofs.Oracle.Early
import Categorial.Proofs.Beam.Ranges
import Categorial.Proofs.Training.Sizes
import Categorial.Proofs.Training.Disciplines
