import Refutation.Clause.Basic

/-!
# Subsumption

A clause subsumes another one if one substitution maps its literals onto distinct literals of the
other.  `Clause.subsumes` searches for the substitution literal by literal, on a trail of bindings.
-/

namespace Refutation

/-- Each element of a list together with the others. -/
def picks {α : Type} : List α → List (α × List α)
  | [] => []
  | a :: as => (a, as) :: (picks as).map fun (b, bs) => (b, a :: bs)

namespace Clause

/-- The literals can be mapped onto distinct ones of `targets` by bindings that extend the trail. -/
def embeds : (literals targets : List Literal) → Trail → Bool
  | [], _, _ => true
  | l :: ls, targets, τ =>
    (picks targets).any fun (m, others) =>
      match l.matchOnto m τ with
      | (true, τ') => embeds ls others τ'
      | (false, _) => false

/-- The first clause subsumes the second.  The empty clause subsumes every clause. -/
def subsumes (c d : Clause) : Bool := c.size ≤ d.size && embeds c.literals d.literals .empty

end Clause

end Refutation
