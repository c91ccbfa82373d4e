import Refutation.Archive

/-!
# Stores of clauses

What the inference procedures need from a collection of numbered clauses.  Queries for candidates
may answer too many clauses, never too few; whoever asks checks each candidate.
-/

namespace Refutation

/-- A collection of numbered clauses. -/
class ClauseStore (σ : Type) where
  /-- Add a clause. -/
  insert : σ → Entry → σ
  /-- Take out the clause with the given number. -/
  extract? : σ → Nat → Option (Entry × σ)
  /-- The members, oldest first. -/
  toList : σ → List Entry
  /-- The positions of literals with the same predicate as the given one and the other sign. -/
  partners : σ → Literal → List (Entry × Nat)
  /-- The members that may subsume the clause. -/
  subsuming : σ → Clause → List Entry
  /-- The members that the clause may subsume. -/
  subsumed : σ → Clause → List Entry

/-- A store that chooses which member to take out next. -/
class ClauseQueue (σ : Type) extends ClauseStore σ where
  /-- Take out the clause to be used next; `none` if there is none. -/
  next? : σ → Option (Entry × σ)

/-- The literals of a list of clauses that can be resolved with the given one, by position. -/
def partnersIn (members : List Entry) (l : Literal) : List (Entry × Nat) :=
  members.flatMap fun e =>
    (e.clause.literals.zipIdx.filter fun p => p.1.isPartner l).map fun p => (e, p.2)

end Refutation
