import Refutation.Clause.Selection
import Refutation.Duration
import Refutation.Schedule

/-!
# Parameters of a search

What a user can choose about a search (`Search.Params`), and the part of it that the given-clause
procedure itself looks at (`Search.Policy`).
-/

namespace Refutation

namespace Search

/-- The options of a search. -/
structure Params where
  /-- How the next clause is chosen. -/
  heuristic : Heuristic := .pickGiven5
  /-- Drop clauses that are always true. -/
  deleteTautologies : Bool := false
  /-- Drop a given clause that a processed one subsumes. -/
  forwardSubsumption : Bool := false
  /-- Drop processed clauses that the given one subsumes. -/
  backwardSubsumption : Bool := false
  /-- Restrict inferences to one negative literal. -/
  selection : Option LiteralSelection := none
  /-- The number of given clauses after which the search gives up. -/
  maxIterations : Option Nat := none
  /-- The time after which the search gives up. -/
  timeout : Option Duration := none
deriving DecidableEq, Repr

namespace Params

instance : Inhabited Params := ⟨{}⟩

/-- The parameters with all redundancy elimination switched on. -/
def withRedundancyElimination (p : Params) : Params :=
  { p with deleteTautologies := true, forwardSubsumption := true, backwardSubsumption := true }

end Params

/-- What the given-clause procedure is told to do. -/
structure Policy where
  /-- Drop clauses that are always true. -/
  deleteTautologies : Bool
  /-- Drop a given clause that a processed one subsumes. -/
  forwardSubsumption : Bool
  /-- Drop processed clauses that the given one subsumes. -/
  backwardSubsumption : Bool
  /-- Drop repeated literals from new clauses. -/
  dropRepeated : Bool
  /-- Restrict inferences to one negative literal. -/
  selection : Option LiteralSelection
  /-- The number of given clauses after which the search gives up. -/
  maxIterations : Option Nat
  /-- The time after which the search gives up. -/
  timeout : Option Duration
deriving DecidableEq, Repr, Inhabited

/-- The policy of a full search. -/
def Params.policy (p : Params) : Policy where
  deleteTautologies := p.deleteTautologies
  forwardSubsumption := p.forwardSubsumption
  backwardSubsumption := p.backwardSubsumption
  dropRepeated := true
  selection := p.selection
  maxIterations := p.maxIterations
  timeout := p.timeout

/-- The policy of a plain search: only the literal selection and the bounds count. -/
def Params.plainPolicy (p : Params) : Policy where
  deleteTautologies := false
  forwardSubsumption := false
  backwardSubsumption := false
  dropRepeated := false
  selection := p.selection
  maxIterations := p.maxIterations
  timeout := p.timeout

/-- A bound is reached, after the given number of given clauses and the given time. -/
def Policy.isExhausted (policy : Policy) (iterations : Nat) (elapsed : Duration) : Bool :=
  policy.maxIterations.any (fun n => n ≤ iterations) || policy.timeout.any fun t => t ≤ elapsed

end Search

end Refutation
