import Refutation.Signature

/-!
# Axioms of equality

Equality is an ordinary predicate.  A problem that uses it can be completed by the clauses that say
that equality is an equivalence relation which all functions and predicates of the problem respect.
-/

namespace Refutation

namespace Equality

/-- The rule named in the derivation of the axioms. -/
def ruleName : String := "eq_axiom"

/-- An axiom of the given name. -/
def axiomNamed (name : String) (literals : List Literal) : Clause :=
  ⟨name, .axiomatic, literals, some (.introduced ruleName)⟩

/-- The variables with the names `base` followed by 1, 2, …, `n`. -/
def numbered (base : String) (n : Nat) : List Term :=
  (List.range n).map fun i => .var (base ++ toString (i + 1))

/-- The literals that say that two lists of terms are not equal position by position. -/
def disequations (xs ys : List Term) : List Literal := xs.zipWith Literal.disequation ys

/-- Equality is reflexive, symmetric and transitive. -/
def equivalence : List Clause :=
  let x := .var "X"
  let y := .var "Y"
  let z := .var "Z"
  [axiomNamed "eq_refl" [.equation x x],
    axiomNamed "eq_sym" [.disequation x y, .equation y x],
    axiomNamed "eq_trans" [.disequation x y, .disequation y z, .equation x z]]

/-- A function has equal values at equal arguments. -/
def functionAxiom (f : String) (n : Nat) : Clause :=
  let xs := numbered "X" n
  let ys := numbered "Y" n
  axiomNamed ("eq_fun_" ++ f) (disequations xs ys ++ [.equation (.app f xs) (.app f ys)])

/-- A predicate that holds of some arguments holds of equal ones. -/
def predicateAxiom (p : String) (n : Nat) : Clause :=
  let xs := numbered "X" n
  let ys := numbered "Y" n
  axiomNamed ("eq_pred_" ++ p) (disequations xs ys ++ [.neg (.app p xs), .pos (.app p ys)])

/-- The functions and the predicates that take arguments respect equality; equality itself needs no
such axiom. -/
def compatibility (S : Signature) : List Clause :=
  (S.functions.filter fun s => 0 < s.2).map (fun s => functionAxiom s.1 s.2) ++
    (S.predicates.filter fun s => s.1 ≠ equality ∧ 0 < s.2).map fun s => predicateAxiom s.1 s.2

/-- The axioms of equality for a signature. -/
def axioms (S : Signature) : List Clause := equivalence ++ compatibility S

/-- The axioms that a list of clauses needs: none if they do not use equality. -/
def axiomsFor (cs : List Clause) : Except Error (List Clause) :=
  (Signature.ofClauses cs).map fun S => if S.isPredicate equality then axioms S else []

end Equality

end Refutation
