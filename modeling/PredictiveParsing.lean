import PredictiveParsing.Grammar.Builder
import PredictiveParsing.Grammar.Derivation
import PredictiveParsing.Parser.TreeAction
import PredictiveParsing.Query.Analysis
import PredictiveParsing.Proofs.Failure
import PredictiveParsing.Proofs.Grammar.Invariant
import PredictiveParsing.Proofs.Table.Registration
import PredictiveParsing.Proofs.Parser.History
import PredictiveParsing.Proofs.Parser.Window
import PredictiveParsing.Proofs.Grammar.Leftmost
import PredictiveParsing.Proofs.Parser.Invariant
import PredictiveParsing.Proofs.Parser.Soundness
import PredictiveParsing.Proofs.First.Reading
import PredictiveParsing.Proofs.Nullable
import PredictiveParsing.Proofs.First.Sets
import PredictiveParsing.Proofs.Follow
import PredictiveParsing.Proofs.Table.Claims
import PredictiveParsing.Proofs.Parser.Termination
import PredictiveParsing.Proofs.Parser.Acceptance
import PredictiveParsing.Proofs.Table.Ownership
import PredictiveParsing.Proofs.Table.Lookup
import PredictiveParsing.Proofs.Table.Truncation
import PredictiveParsing.Proofs.QGrammar.Decision
import PredictiveParsing.Proofs.Parser.Tree
import PredictiveParsing.Proofs.Nullable.Derivation
import PredictiveParsing.Proofs.First.Derivation
import PredictiveParsing.Proofs.Table.Justification
import PredictiveParsing.Proofs.Table.Separation
import PredictiveParsing.Proofs.Rearrangement
import PredictiveParsing.Proofs.Table.Rearrangement
import PredictiveParsing.Proofs.Grammar.Reachability
import PredictiveParsing.Proofs.Follow.Lifting
import PredictiveParsing.Proofs.Grammar.LeftRecursion
import PredictiveParsing.Proofs.Table.LeftRecursion
import PredictiveParsing.Proofs.Parser.Recurrence
import PredictiveParsing.Proofs.Parser.Source
import PredictiveParsing.Proofs.Parser.Requests
import PredictiveParsing.Proofs.Parser.Phases
import PredictiveParsing.Proofs.Parser.Prediction
import PredictiveParsing.Proofs.Query.Analysis
import PredictiveParsing.Proofs.Renaming.Table
import PredictiveParsing.Proofs.Table.Matching
import PredictiveParsing.Proofs.Table.Rivals
import PredictiveParsing.Proofs.First.Frames
import PredictiveParsing.Proofs.First.Substitution
import PredictiveParsing.Proofs.Follow.Derivation
import PredictiveParsing.Proofs.Follow.Least
import PredictiveParsing.Proofs.Agreement
import PredictiveParsing.Proofs.Grammar.Pruning
import PredictiveParsing.Proofs.Follow.Unreachable
import PredictiveParsing.Proofs.Table.Keys
import PredictiveParsing.Proofs.Grammar.Builder
import PredictiveParsing.Proofs.Grammar.Check
import PredictiveParsing.Proofs.Grammar.Session
import PredictiveParsing.Proofs.ParseTree.Placement
import PredictiveParsing.Proofs.Lookahead.Algebra
import PredictiveParsing.Proofs.Grammar.Layout
