import Refutation.Verdict

/-!
# Status and statistics of a search
-/

namespace Refutation

namespace Search

/-- Where a search stands. -/
inductive Status where
  /-- The search goes on. -/
  | running
  /-- The empty clause was derived. -/
  | proofFound
  /-- Nothing is left to process, and there is no proof. -/
  | saturated
  /-- A bound was reached. -/
  | gaveUp
deriving DecidableEq, Repr, Inhabited

namespace Status

/-- The search is over. -/
def isTerminal (s : Status) : Bool := s ≠ running

/-- The name of a status. -/
def name : Status → String
  | running => "Running"
  | proofFound => "ProofFound"
  | saturated => "Saturated"
  | gaveUp => "GaveUp"

/-- What the status says about the problem. -/
def verdict : Status → Verdict
  | running => .unknown
  | proofFound => .unsatisfiable
  | saturated => .satisfiable
  | gaveUp => .gaveUp

end Status

/-- The counters of a search. -/
structure Statistics where
  /-- Clauses at the start. -/
  initial : Nat := 0
  /-- Given clauses that became processed. -/
  processed : Nat := 0
  /-- Factors computed. -/
  factors : Nat := 0
  /-- Resolvents computed. -/
  resolvents : Nat := 0
  /-- Tautologies deleted. -/
  tautologiesDeleted : Nat := 0
  /-- Given clauses dropped because a processed clause subsumed them. -/
  forwardSubsumed : Nat := 0
  /-- Processed clauses dropped because a given clause subsumed them. -/
  backwardSubsumed : Nat := 0
  /-- Given clauses. -/
  iterations : Nat := 0
deriving DecidableEq, Repr, Inhabited

namespace Statistics

/-- The number of clauses produced by inferences. -/
def generated (s : Statistics) : Nat := s.factors + s.resolvents

/-- The report of the counters, line by line. -/
def lines (s : Statistics) : List String :=
  ["# Initial clauses    : " ++ toString s.initial,
    "# Processed clauses  : " ++ toString s.processed,
    "# Factors computed   : " ++ toString s.factors,
    "# Resolvents computed: " ++ toString s.resolvents,
    "# Tautologies deleted: " ++ toString s.tautologiesDeleted,
    "# Forward subsumed   : " ++ toString s.forwardSubsumed,
    "# Backward subsumed  : " ++ toString s.backwardSubsumed,
    "# Iterations         : " ++ toString s.iterations]

end Statistics

end Search

end Refutation
