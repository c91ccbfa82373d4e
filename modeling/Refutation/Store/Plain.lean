import Refutation.Store.Basic

/-!
# Plain stores

A plain store is a list of clauses in the order in which they were added.  It answers every query by
looking at all members.
-/

namespace Refutation

/-- Take out the first member with the given number. -/
def extractFrom? (n : Nat) : List Entry → Option (Entry × List Entry)
  | [] => none
  | e :: es =>
    if e.number = n then some (e, es) else (extractFrom? n es).map fun (d, ds) => (d, e :: ds)

/-- A list of clauses, oldest first. -/
structure PlainStore where
  /-- The members. -/
  members : List Entry
deriving DecidableEq, Repr, Inhabited

namespace PlainStore

/-- The store without members. -/
def empty : PlainStore := ⟨[]⟩

variable (s : PlainStore)

/-- Add a clause as the youngest member. -/
def insert (e : Entry) : PlainStore := ⟨s.members ++ [e]⟩

/-- Take out the clause with the given number. -/
def extract? (n : Nat) : Option (Entry × PlainStore) :=
  (extractFrom? n s.members).map fun (e, es) => (e, ⟨es⟩)

/-- Take out the oldest member. -/
def extractFirst? : Option (Entry × PlainStore) :=
  match s.members with
  | [] => none
  | e :: es => some (e, ⟨es⟩)

/-- The clause with the given number is a member. -/
def contains (n : Nat) : Bool := s.members.any (·.number = n)

instance : ClauseQueue PlainStore where
  insert := insert
  extract? := extract?
  toList s := s.members
  partners s l := partnersIn s.members l
  subsuming s _ := s.members
  subsumed s _ := s.members
  next? := extractFirst?

end PlainStore

end Refutation
