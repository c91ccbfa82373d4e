import Refutation.Archive
import Refutation.Unifier

/-!
# The inference rules

Binary resolution takes a literal of one clause and a literal of a second clause with the same
predicate and the other sign, renames the second clause apart, unifies the two atoms and keeps the
instances of all other literals.  Factoring unifies two literals of one clause with the same
predicate and sign and drops the second.

Neither rule removes repeated literals, and the results have no name yet.
-/

namespace Refutation

/-- The literals of a resolvent: what is left of both lists, instantiated by the unifier of the two
literals resolved upon. -/
def resolvent? (ls : List Literal) (i : Nat) (ms : List Literal) (j : Nat) :
    Option (List Literal) := do
  let l ← ls[i]?
  let m ← ms[j]?
  let σ ← l.atom.unifier? m.atom
  return (ls.eraseIdx i ++ ms.eraseIdx j).map (·.instantiate σ)

/-- The literals of a factor: all but the second of the two, instantiated by their unifier. -/
def factor? (ls : List Literal) (i j : Nat) : Option (List Literal) := do
  let l ← ls[i]?
  let m ← ls[j]?
  let σ ← l.atom.unifier? m.atom
  return (ls.eraseIdx j).map (·.instantiate σ)

/-- The clause that a rule makes of premises. -/
def Clause.conclude (rule : String) (premises : List Entry) (literals : List Literal) : Clause :=
  { Clause.of literals with derivation := some (.inference rule (premises.map (·.asParent))) }

namespace Entry

/-- Resolve literal `i` of the first clause with literal `j` of the second.  Fresh variables are
drawn for all variables of the second clause if the literals have opposite signs and the same
predicate. -/
def resolve (c : Entry) (i : Nat) (d : Entry) (j : Nat) (fresh : FreshVars) :
    Option Clause × FreshVars :=
  match c.clause.literals[i]?, d.clause.literals[j]? with
  | some l, some m =>
    if l.isPartner m then
      let (d', fresh) := d.clause.freshCopy fresh
      ((resolvent? c.clause.literals i d'.literals j).map (Clause.conclude "resolution" [c, d]),
        fresh)
    else (none, fresh)
  | _, _ => (none, fresh)

/-- Unify literals `i` and `j` of a clause, which have the same sign and predicate, and drop `j`. -/
def factor (c : Entry) (i j : Nat) : Option Clause :=
  match c.clause.literals[i]?, c.clause.literals[j]? with
  | some l, some m =>
    if i ≠ j ∧ l.negative = m.negative ∧ l.predicate = m.predicate then
      (factor? c.clause.literals i j).map (Clause.conclude "factor" [c])
    else none
  | _, _ => none

end Entry

end Refutation
