import Refutation.Inference.Generate
import Refutation.Search.Params
import Refutation.Search.Status
import Refutation.Store.Redundancy

/-!
# The given-clause procedure

The procedure keeps processed clauses, between which all inferences have been made, and unprocessed
ones.  In each step it takes one clause out of the unprocessed ones, the given clause, makes all
inferences between it and the processed clauses, moves it to the processed clauses, and adds the
conclusions to the unprocessed ones.  The search ends when the empty clause turns up, when no
unprocessed clause is left, or when a bound is reached.

The procedure does not depend on how the clauses are stored: `processed` is any `ClauseStore` and
`unprocessed` any `ClauseQueue`.

A search starts from clauses that are objects of their own: `State.start` gives each member of its
list a number, also where two members are equal.  A collection that holds one and the same object
twice is not covered, nor is what a queue makes of the second one.
-/

namespace Refutation

namespace Search

/-- The state of a search. -/
structure State (P U : Type) where
  /-- The processed clauses. -/
  processed : P
  /-- The clauses that wait to be given. -/
  unprocessed : U
  /-- All clauses that ever entered the search. -/
  archive : Archive
  /-- The names drawn so far. -/
  names : Names
  /-- The counters. -/
  statistics : Statistics
  /-- Where the search stands. -/
  status : Status
  /-- The empty clause, once it is found. -/
  result : Option Entry

namespace State

variable {P U : Type} [ClauseStore P] [ClauseQueue U]

/-- The start of a search: all clauses are unprocessed, each with a number of its own. -/
def start (processed : P) (unprocessed : U) (clauses : List Clause) : State P U :=
  let (entries, archive) := Archive.empty.recordAll clauses
  { processed := processed
    unprocessed := entries.foldl ClauseStore.insert unprocessed
    archive := archive
    names := .initial
    statistics := { initial := clauses.length }
    status := .running
    result := none }

variable (policy : Policy) (s : State P U)

/-- Give up. -/
def giveUp : State P U := { s with status := .gaveUp }

/-- End with the empty clause. -/
def succeed (empty : Entry) : State P U := { s with status := .proofFound, result := some empty }

/-- Enter a clause and add it to the unprocessed ones. -/
def enqueue (c : Clause) : State P U :=
  let (e, archive) := s.archive.record c
  { s with archive := archive, unprocessed := ClauseStore.insert s.unprocessed e }

/-- A clause is dropped as a tautology. -/
def dropTautology : State P U :=
  { s with statistics.tautologiesDeleted := s.statistics.tautologiesDeleted + 1 }

/-- Take in new clauses one after the other; the first empty one ends the search. -/
def absorb (policy : Policy) : List Clause → State P U → State P U
  | [], s => s
  | c :: cs, s =>
    if c.isEmpty then
      let (e, archive) := s.archive.record c
      { s with archive := archive }.succeed e
    else
      let c := if policy.dropRepeated then c.dedup else c
      if policy.deleteTautologies && c.isTautology then absorb policy cs s.dropTautology
      else absorb policy cs (s.enqueue c)

/-- The given clause with its literals selected: a new entry if there is a selection. -/
def select (given : Entry) : Entry × State P U :=
  match policy.selection with
  | some selection =>
    let (e, archive) := s.archive.record (given.clause.select selection)
    (e, { s with archive := archive })
  | none => (given, s)

/-- Make all inferences with the given clause and move it to the processed ones. -/
def infer (given : Entry) : State P U :=
  let (resolvents, names) := resolvents given s.processed s.names
  let (factors, names) := factors given names
  absorb policy (resolvents ++ factors)
    { s with
      names := names
      processed := ClauseStore.insert s.processed given
      statistics.resolvents := s.statistics.resolvents + resolvents.length
      statistics.factors := s.statistics.factors + factors.length
      statistics.processed := s.statistics.processed + 1 }

/-- Drop the processed clauses that the given one subsumes. -/
def subsumeBackward (given : Entry) : State P U :=
  if policy.backwardSubsumption then
    let (removed, processed) := removeSubsumed given s.processed
    { s with
      processed := processed
      statistics.backwardSubsumed := s.statistics.backwardSubsumed + removed.length }
  else s

/-- Process the given clause: drop it if it is redundant, and otherwise make all inferences with
it. -/
def process (given : Entry) : State P U :=
  if policy.deleteTautologies && given.clause.isTautology then s.dropTautology
  else
    let s := s.subsumeBackward policy given
    if policy.forwardSubsumption && isSubsumedBy given.clause s.processed then
      { s with statistics.forwardSubsumed := s.statistics.forwardSubsumed + 1 }
    else
      let (given, s) := s.select policy given
      s.infer policy given

/-- One step of the search, at the given time after its start.  A search that is over stays as it
is. -/
def step (elapsed : Duration) : State P U :=
  if s.status.isTerminal then s
  else if policy.isExhausted s.statistics.iterations elapsed then s.giveUp
  else
    match ClauseQueue.next? s.unprocessed with
    | none => { s with status := .saturated }
    | some (given, unprocessed) =>
      let s := { s with
        unprocessed := unprocessed
        statistics.iterations := s.statistics.iterations + 1 }
      if given.clause.isEmpty then s.succeed given else s.process policy given

/-- The state after `n` steps that take no time. -/
def steps (policy : Policy) : Nat → State P U → State P U
  | 0, s => s
  | n + 1, s => steps policy n (s.step policy .zero)

/-- Search until the end, giving up after `n` steps. -/
def saturate (policy : Policy) : Nat → State P U → State P U
  | 0, s => if s.status.isTerminal then s else s.giveUp
  | n + 1, s => if s.status.isTerminal then s else saturate policy n (s.step policy .zero)

/-- The empty clause and what it was derived from, parents before children. -/
def derivation : List Nat :=
  match s.result with
  | some e => s.archive.ancestry e.number
  | none => []

end State

end Search

end Refutation
