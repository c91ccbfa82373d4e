import Refutation.Text.Blank
import Refutation.Error
import Refutation.Verdict
import Refutation.Token.Basic
import Refutation.Token.Lexer
import Refutation.OrderedMap
import Refutation.Term.Basic
import Refutation.Substitution
import Refutation.Naming
import Refutation.Unifier
import Refutation.Trail
import Refutation.Matching
import Refutation.Literal
import Refutation.Clause.Role
import Refutation.Clause.Basic
import Refutation.Parsed
import Refutation.Problem.Grammar
import Refutation.Problem.Reader
import Refutation.Clause.Abstraction
import Refutation.Clause.Key
import Refutation.Signature
import Refutation.Equality
import Refutation.Archive
import Refutation.Inference.Rule
import Refutation.Subsumption
import Refutation.Clause.Selection
import Refutation.Store.Basic
import Refutation.Store.Plain
import Refutation.Store.Index
import Refutation.Store.Indexed
import Refutation.Rotation
import Refutation.Schedule
import Refutation.Store.Ranked
import Refutation.Inference.Generate
import Refutation.Store.Redundancy
import Refutation.Duration
import Refutation.Search.Params
import Refutation.Search.Status
import Refutation.Search.Procedure
import Refutation.Proof
import Refutation.Search.Start
import Refutation.Decimal.Numeral
import Refutation.Decimal.Binary
import Refutation.Decimal.Shortest
import Refutation.Json.Basic
import Refutation.Json.Lexer
import Refutation.Json.Reader
import Refutation.Json.Record
import Refutation.Json.Decode
import Refutation.Codec.Logic
import Refutation.Codec.Params
import Refutation.Decimal.Double
import Refutation.Cli.Folder
import Refutation.Cli.Options
import Refutation.Cli.Session
import Refutation.Main
import Refutation.Proofs.Interpretation
import Refutation.Proofs.Substitution
import Refutation.Proofs.Unification
import Refutation.Proofs.Matching
import Refutation.Proofs.Backtracking
import Refutation.Proofs.Subsumption
import Refutation.Proofs.Subsumption.Placement
import Refutation.Proofs.Variant
import Refutation.Proofs.Equivariance
import Refutation.Proofs.Renaming
import Refutation.Proofs.Signature
import Refutation.Proofs.Equality
import Refutation.Proofs.Inference
import Refutation.Proofs.Ancestry
import Refutation.Proofs.Ancestry.Walk
import Refutation.Proofs.Schedule
import Refutation.Proofs.Schedule.RoundRobin
import Refutation.Proofs.Store.Lawful
import Refutation.Proofs.Store.Variants
import Refutation.Proofs.Search.VariableNames
import Refutation.Proofs.Store.Indexed
import Refutation.Proofs.Store.Ranked
import Refutation.Proofs.Store.WaitingList
import Refutation.Proofs.Store.Retrieval
import Refutation.Proofs.Store.Redundancy
import Refutation.Proofs.Search.History
import Refutation.Proofs.Search.Moves
import Refutation.Proofs.Search.Refinement
import Refutation.Proofs.Search.Coverage
import Refutation.Proofs.Search.Soundness
import Refutation.Proofs.Search.Replay
import Refutation.Proofs.Search.Naming
import Refutation.Proofs.Search.Copies
import Refutation.Proofs.CanonicalModel
import Refutation.Proofs.Search.Freshness
import Refutation.Proofs.Search.Completeness
import Refutation.Proofs.Problem.Spelling
import Refutation.Proofs.Problem.Rules
import Refutation.Proofs.Problem.Reading
import Refutation.Proofs.Problem.Language
import Refutation.Proofs.Problem.OrderedChoice
import Refutation.Proofs.Problem.ChoiceReader
import Refutation.Proofs.Problem.Agreement
import Refutation.Proofs.Problem.RoundTrip
import Refutation.Proofs.Problem.Writable
import Refutation.Proofs.Ground
import Refutation.Proofs.Search.Step
import Refutation.Proofs.Search.Termination
import Refutation.Proofs.Search.Circle
import Refutation.Proofs.Search.Tautology
import Refutation.Proofs.Search.StepNames
import Refutation.Proofs.Search.Printing
import Refutation.Proofs.Unification.MostGeneral
import Refutation.Proofs.Unification.Symmetry
import Refutation.Proofs.Unification.Termination
import Refutation.Proofs.Inference.Conclusions
import Refutation.Proofs.Inference.Exchange
import Refutation.Proofs.Search.Bounds
import Refutation.Proofs.Search.Accounting
import Refutation.Proofs.Store.Fairness
import Refutation.Proofs.Search.PositiveResolution
import Refutation.Proofs.Signature.Collection
import Refutation.Proofs.Signature.Completion
import Refutation.Proofs.Problem.UniqueReading
import Refutation.Proofs.Clause.Key
import Refutation.Proofs.Problem.Concatenation
