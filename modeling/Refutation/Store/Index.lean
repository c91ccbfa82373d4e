import Refutation.Clause.Abstraction
import Refutation.OrderedMap
import Refutation.Store.Basic

/-!
# Indexes of clauses

Two tables that answer queries about a set of clauses without looking at all of them.  The
resolution index files every literal of every clause under its sign and predicate.  The subsumption
index files every clause under its abstraction.  What is filed under one key is kept in the order in
which it was filed, and filing the same thing again changes nothing.
-/

namespace Refutation

/-! ### Literals by sign and predicate -/

/-- The literals of a set of clauses, by sign and predicate. -/
structure ResolutionIndex where
  /-- For each sign and predicate the clauses and the positions of the literals. -/
  slots : OrderedMap SignedPredicate (List (Entry × Nat))
deriving DecidableEq

namespace ResolutionIndex

/-- The index of no clauses. -/
def empty : ResolutionIndex := ⟨.empty⟩

instance : Inhabited ResolutionIndex := ⟨empty⟩

/-- The literal at position `i` of the clause with number `n`. -/
def isAt (n i : Nat) (p : Entry × Nat) : Bool := p.1.number = n && p.2 = i

variable (x : ResolutionIndex)

/-- What is filed under a sign and a predicate. -/
def slot (k : SignedPredicate) : List (Entry × Nat) := (x.slots.get? k).getD []

/-- File one literal. -/
def file (e : Entry) (l : Literal) (i : Nat) : ResolutionIndex :=
  ⟨x.slots.alter l.signedPredicate fun s =>
    let filed := s.getD []
    some (if filed.any (isAt e.number i) then filed else filed ++ [(e, i)])⟩

/-- Take out one literal; a slot that becomes empty is given up. -/
def unfile (e : Entry) (l : Literal) (i : Nat) : ResolutionIndex :=
  ⟨x.slots.alter l.signedPredicate fun s =>
    match (s.getD []).filter fun p => !isAt e.number i p with
    | [] => none
    | filed => some filed⟩

/-- The literal is filed. -/
def isFiled (e : Entry) (l : Literal) (i : Nat) : Bool :=
  (x.slot l.signedPredicate).any (isAt e.number i)

/-- File all literals of a clause. -/
def insert (e : Entry) : ResolutionIndex :=
  e.clause.literals.zipIdx.foldl (fun x p => x.file e p.1 p.2) x

/-- Take out all literals of a clause. -/
def erase (e : Entry) : ResolutionIndex :=
  e.clause.literals.zipIdx.foldl (fun x p => x.unfile e p.1 p.2) x

/-- Some literal of the clause is filed. -/
def holdsAny (e : Entry) : Bool := e.clause.literals.zipIdx.any fun p => x.isFiled e p.1 p.2

/-- The clause is in the index, judged by its first literal; a clause without literals never is. -/
def contains (e : Entry) : Bool := e.clause.literals.head?.any fun l => x.isFiled e l 0

/-- The literals with the predicate of `l` and the other sign. -/
def partners (l : Literal) : List (Entry × Nat) := x.slot ⟨l.negative, l.predicate⟩

/-- The number of literals in the index. -/
def size : Nat := x.slots.values.flatten.length

def isEmpty : Bool := x.size = 0

end ResolutionIndex

/-! ### Clauses by abstraction -/

/-- A set of clauses, by abstraction. -/
structure SubsumptionIndex where
  /-- For each abstraction the clauses that have it. -/
  slots : OrderedMap Abstraction (List Entry)
deriving DecidableEq

namespace SubsumptionIndex

/-- The index of no clauses. -/
def empty : SubsumptionIndex := ⟨.empty⟩

instance : Inhabited SubsumptionIndex := ⟨empty⟩

variable (x : SubsumptionIndex)

/-- The clauses with a given abstraction. -/
def slot (k : Abstraction) : List Entry := (x.slots.get? k).getD []

/-- File a clause. -/
def insert (e : Entry) : SubsumptionIndex :=
  ⟨x.slots.alter e.clause.abstraction fun s =>
    let filed := s.getD []
    some (if filed.any (·.number = e.number) then filed else filed ++ [e])⟩

/-- Take out a clause; a slot that becomes empty is given up. -/
def erase (e : Entry) : SubsumptionIndex :=
  ⟨x.slots.alter e.clause.abstraction fun s =>
    match (s.getD []).filter fun d => d.number ≠ e.number with
    | [] => none
    | filed => some filed⟩

/-- The clause is in the index. -/
def contains (e : Entry) : Bool := (x.slot e.clause.abstraction).any (·.number = e.number)

/-- The clauses whose abstraction satisfies a condition, in increasing order of abstractions. -/
def collect (accept : Abstraction → Bool) : List Entry :=
  (x.slots.entries.filter fun p => accept p.1).flatMap (·.2)

/-- The clauses that may subsume `c`. -/
def subsuming (c : Clause) : List Entry := x.collect fun k => isSubsequence k c.abstraction

/-- The clauses that `c` may subsume. -/
def subsumed (c : Clause) : List Entry := x.collect fun k => isSubsequence c.abstraction k

/-- The number of clauses in the index. -/
def size : Nat := x.slots.values.flatten.length

def isEmpty : Bool := x.slots.isEmpty

end SubsumptionIndex

end Refutation
