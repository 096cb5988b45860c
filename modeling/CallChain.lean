import CallChain.Action.Table
import CallChain.Automaton.Dump
import CallChain.Automaton.Export
import CallChain.Decimal.Shortest
import CallChain.Definition.Json
import CallChain.Diagnostic.Drawing
import CallChain.Discovery
import CallChain.Fault
import CallChain.Json
import CallChain.Grammar.Parse
import CallChain.Diagnostic
import CallChain.Regex.Printer
import CallChain.Regex.Lowering
import CallChain.Finite.Checked
import CallChain.Finite.Determinize
import CallChain.Finite.Minimize
import CallChain.Finite.Product
import CallChain.Alphabet
import CallChain.Analysis
import CallChain.CommandLine.Run
import CallChain.Compile
import CallChain.Log
import CallChain.Main
import CallChain.Resolution
import CallChain.Proofs.ActionTable
import CallChain.Proofs.Alphabet
import CallChain.Proofs.Discovery
import CallChain.Proofs.Meaning
import CallChain.Proofs.Finite.Language
import CallChain.Proofs.Finite.Steps
import CallChain.Proofs.Finite.Live
import CallChain.Proofs.Finite.Blocks
import CallChain.Proofs.Finite.Minimize
import CallChain.Proofs.Finite.Checked
import CallChain.Proofs.Finite.Product
import CallChain.Proofs.Finite.Combinators
import CallChain.Proofs.Finite.Determinize
import CallChain.Proofs.Grammar.Derivation
import CallChain.Proofs.Grammar.Runs
import CallChain.Proofs.Grammar.Productions
import CallChain.Proofs.Grammar.Sound
import CallChain.Proofs.Grammar.Complete
import CallChain.Proofs.Grammar.Lossless
import CallChain.Proofs.Grammar.Finishes
import CallChain.Proofs.Grammar.Scanning
import CallChain.Proofs.Grammar.Writing
import CallChain.Proofs.Grammar.RoundTrip
import CallChain.Proofs.Automaton.Chains
import CallChain.Proofs.Automaton.Numbering
import CallChain.Proofs.Automaton.Relabelling
import CallChain.Proofs.Automaton.Shapes
import CallChain.Proofs.Compile.Scope
import CallChain.Proofs.Compile.Fragment
import CallChain.Proofs.Compile.Outcome
import CallChain.Proofs.Compile.Scan
import CallChain.Proofs.Compile.Body
import CallChain.Proofs.Compile.Saturation
import CallChain.Proofs.Compile.Assembly
import CallChain.Proofs.Compile.Result
import CallChain.Proofs.Compile.Minimal
import CallChain.Proofs.Compile.Letters
import CallChain.Proofs.Compile.Invariants
import CallChain.Proofs.Renaming.Tables
import CallChain.Proofs.Renaming.Languages
import CallChain.Proofs.Renaming.Registries
import CallChain.Proofs.Compile.Order
import CallChain.Proofs.Resolution
import CallChain.Proofs.Grammar.Nesting
import CallChain.Proofs.Texts
import CallChain.Proofs.Analysis
import CallChain.Proofs.Compile.Grounded
import CallChain.Proofs.Compile.References
import CallChain.Proofs.Compile.Closing
import CallChain.Proofs.Grammar.Reports
import CallChain.Proofs.Grammar.Mentions
import CallChain.Proofs.Visits
import CallChain.Proofs.Diagnostics
import CallChain.Proofs.CommandLine.Arguments
import CallChain.Proofs.CommandLine.Batch
import CallChain.Proofs.Finite.Canonical
import CallChain.Proofs.Finite.Prefixes
import CallChain.Proofs.Finite.Construction
import CallChain.Proofs.Compile.Positions
import CallChain.Proofs.Breadth
import CallChain.Proofs.Finite.Shortlex
import CallChain.Proofs.Compile.NonEmpty
import CallChain.Proofs.Resolution.Search
import CallChain.Proofs.Resolution.Cycles
import CallChain.Proofs.Resolution.Reports
import CallChain.Proofs.Automaton.Building
import CallChain.Proofs.Automaton.Canonical
import CallChain.Proofs.Automaton.Exports
import CallChain.Proofs.Compile.Repetition
import CallChain.Proofs.Compile.Unmentioned
import CallChain.Proofs.Renaming.Extension
import CallChain.Proofs.Grammar.Parentheses
import CallChain.Proofs.Grammar.Blanks
import CallChain.Proofs.Grammar.Levels
import CallChain.Proofs.Grammar.Gaps
import CallChain.Proofs.Grammar.Building
import CallChain.Proofs.Grammar.Driver
import CallChain.Proofs.Grammar.Tracking
import CallChain.Proofs.Grammar.Simulation
import CallChain.Proofs.Suppression
import CallChain.Proofs.CanonicalOrder
import CallChain.Proofs.Automaton.Calls
import CallChain.Proofs.Json.Reading
import CallChain.Proofs.Json.Layouts
import CallChain.Proofs.Definition
import CallChain.Proofs.Alphabet.Layout
import CallChain.Proofs.Grammar.Tokenization
