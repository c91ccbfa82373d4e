import Refutation.Store.Index
import Refutation.Store.Plain

/-!
# Indexed stores

An indexed store keeps its members in a plain store and in both indexes, and answers queries from
the indexes.
-/

namespace Refutation

/-- A list of clauses with a resolution index and a subsumption index. -/
structure IndexedStore where
  /-- The members. -/
  plain : PlainStore
  /-- Their literals. -/
  resolution : ResolutionIndex
  /-- Their abstractions. -/
  subsumption : SubsumptionIndex
deriving DecidableEq, Inhabited

namespace IndexedStore

/-- The store without members. -/
def empty : IndexedStore := ⟨.empty, .empty, .empty⟩

variable (s : IndexedStore)

/-- Add a clause to the members and to both indexes. -/
def insert (e : Entry) : IndexedStore :=
  ⟨s.plain.insert e, s.resolution.insert e, s.subsumption.insert e⟩

/-- Take out the clause with the given number, also from both indexes. -/
def extract? (n : Nat) : Option (Entry × IndexedStore) :=
  (s.plain.extract? n).map fun (e, plain) =>
    (e, ⟨plain, s.resolution.erase e, s.subsumption.erase e⟩)

/-- The clause with the given number is a member. -/
def contains (n : Nat) : Bool := s.plain.contains n

instance : ClauseStore IndexedStore where
  insert := insert
  extract? := extract?
  toList s := s.plain.members
  partners s l := s.resolution.partners l
  subsuming s c := s.subsumption.subsuming c
  subsumed s c := s.subsumption.subsumed c

end IndexedStore

end Refutation
