import BoxCalculus.Book.Basic
import BoxCalculus.Book.Checking
import BoxCalculus.Book.Expansion
import BoxCalculus.Book.Loading
import BoxCalculus.CommandLine.Command
import BoxCalculus.CommandLine.Flag
import BoxCalculus.CommandLine.Report
import BoxCalculus.CommandLine.Run
import BoxCalculus.CommandLine.Session
import BoxCalculus.Context
import BoxCalculus.Files.Host
import BoxCalculus.Files.Path
import BoxCalculus.Files.Pattern
import BoxCalculus.Index
import BoxCalculus.Kernel
import BoxCalculus.Main
import BoxCalculus.Name
import BoxCalculus.Proofs.Acceptance
import BoxCalculus.Proofs.AcceptedDefinitions
import BoxCalculus.Proofs.BookExtension
import BoxCalculus.Proofs.BookRuns
import BoxCalculus.Proofs.Cancellation
import BoxCalculus.Proofs.CanonicalForms
import BoxCalculus.Proofs.CheckedConditions
import BoxCalculus.Proofs.CheckedReferences
import BoxCalculus.Proofs.Checking
import BoxCalculus.Proofs.Coherence
import BoxCalculus.Proofs.Conditions
import BoxCalculus.Proofs.Confluence
import BoxCalculus.Proofs.Conversion
import BoxCalculus.Proofs.Cores
import BoxCalculus.Proofs.CosmeticIrrelevance
import BoxCalculus.Proofs.Cosmetics
import BoxCalculus.Proofs.EagerContexts
import BoxCalculus.Proofs.Encoding
import BoxCalculus.Proofs.Erasure
import BoxCalculus.Proofs.ExpandedReferences
import BoxCalculus.Proofs.Expansion
import BoxCalculus.Proofs.Floating
import BoxCalculus.Proofs.FreeVariables
import BoxCalculus.Proofs.FuelThreshold
import BoxCalculus.Proofs.Gaps
import BoxCalculus.Proofs.Grammar.Completeness
import BoxCalculus.Proofs.Grammar.Conformance
import BoxCalculus.Proofs.Grammar.Cursor
import BoxCalculus.Proofs.Grammar.Derivations
import BoxCalculus.Proofs.Grammar.Foreseeing
import BoxCalculus.Proofs.Grammar.InPlace
import BoxCalculus.Proofs.Grammar.Indices
import BoxCalculus.Proofs.Grammar.Mirroring
import BoxCalculus.Proofs.Grammar.Parsing
import BoxCalculus.Proofs.Grammar.Predictive
import BoxCalculus.Proofs.Grammar.SelfDelimiting
import BoxCalculus.Proofs.Grammar.Soundness
import BoxCalculus.Proofs.Grammar.Unambiguity
import BoxCalculus.Proofs.Grammar.WellFormed
import BoxCalculus.Proofs.Inhabitation
import BoxCalculus.Proofs.Instantiation
import BoxCalculus.Proofs.Interleaving
import BoxCalculus.Proofs.Invariance
import BoxCalculus.Proofs.Leaves
import BoxCalculus.Proofs.Lexing
import BoxCalculus.Proofs.Limits
import BoxCalculus.Proofs.NormalForms
import BoxCalculus.Proofs.Parts
import BoxCalculus.Proofs.Printer.InPlace
import BoxCalculus.Proofs.Printer.Scope
import BoxCalculus.Proofs.Progress
import BoxCalculus.Proofs.Redexes
import BoxCalculus.Proofs.ReferenceCycles
import BoxCalculus.Proofs.ReferenceNames
import BoxCalculus.Proofs.ReportNames
import BoxCalculus.Proofs.Resolution
import BoxCalculus.Proofs.Resumption
import BoxCalculus.Proofs.Rewriting
import BoxCalculus.Proofs.RoundTrip.Formatting
import BoxCalculus.Proofs.RoundTrip.FreshNames
import BoxCalculus.Proofs.RoundTrip.Reading
import BoxCalculus.Proofs.RoundTrip.Tokens
import BoxCalculus.Proofs.RoundTrip.Writing
import BoxCalculus.Proofs.Rules
import BoxCalculus.Proofs.Runs
import BoxCalculus.Proofs.ScopeSafety
import BoxCalculus.Proofs.Sequencing
import BoxCalculus.Proofs.Settled
import BoxCalculus.Proofs.Shape
import BoxCalculus.Proofs.Snippets
import BoxCalculus.Proofs.Soundness
import BoxCalculus.Proofs.Stability
import BoxCalculus.Proofs.StepCounts
import BoxCalculus.Proofs.Stuck
import BoxCalculus.Proofs.StuckReports
import BoxCalculus.Proofs.SubjectReduction
import BoxCalculus.Proofs.SubstitutionAlgebra
import BoxCalculus.Proofs.SubstitutionLemma
import BoxCalculus.Proofs.SyntaxErrors
import BoxCalculus.Proofs.Telescopes
import BoxCalculus.Proofs.TranslatedChecking
import BoxCalculus.Proofs.Translations
import BoxCalculus.Proofs.TypePreservation
import BoxCalculus.Proofs.Typing
import BoxCalculus.Proofs.Unfolding
import BoxCalculus.Proofs.UniqueNormalForms
import BoxCalculus.Proofs.VariableQueries
import BoxCalculus.Proofs.Weakening
import BoxCalculus.Reduction.Meter
import BoxCalculus.Reduction.Normalization
import BoxCalculus.Reduction.Rules
import BoxCalculus.Rpc.Message
import BoxCalculus.Rpc.Server
import BoxCalculus.Rpc.Service
import BoxCalculus.Rpc.Value
import BoxCalculus.Settings
import BoxCalculus.Source.Formatting
import BoxCalculus.Source.Parser
import BoxCalculus.Source.Position
import BoxCalculus.Source.Token
import BoxCalculus.Term.Basic
import BoxCalculus.Term.Equality
import BoxCalculus.Term.Erasure
import BoxCalculus.Term.Printing
import BoxCalculus.Term.References
import BoxCalculus.Term.Variables
import BoxCalculus.Text.Blank
import BoxCalculus.Text.Digit
import BoxCalculus.Text.Fold
import BoxCalculus.Text.Graphic
import BoxCalculus.Text.Letter
import BoxCalculus.Text.Lower
import BoxCalculus.Text.Numeral
import BoxCalculus.Text.Pieces
import BoxCalculus.Text.Quoted
import BoxCalculus.Text.Ranges
import BoxCalculus.Text.Utf8
import BoxCalculus.Toml.Document
import BoxCalculus.Toml.Key
import BoxCalculus.Toml.Quoted
import BoxCalculus.Toml.Scalar
import BoxCalculus.Toml.Statement
import BoxCalculus.Typing.Error
import BoxCalculus.Typing.Judgement
