import Refutation.Substitution

/-!
# Unification

`Term.unifier?` looks for a most general unifier of two terms.  It works on a list of pending
equations, always solving the first: equal sides are dropped, a variable is bound to the other side,
applications of one symbol are taken apart.

There is no occurs check: `X` and `f(X)` give the binding of `X` to `f(X)`.  Instead every variable
is bound at most once.  The variables that may still be bound are kept in a list; an equation
between a variable that is no longer in it and a different term has no solution.  The list is also
the reason why the procedure stops (`Unifier.solve`): each binding makes it shorter, and between
bindings the equations become smaller.
-/

namespace Refutation

namespace Unifier

/-- An equation between two terms. -/
abbrev Equation := Term × Term

/-- The number of symbols and variables in a list of equations. -/
def size : List Equation → Nat
  | [] => 0
  | e :: eqs => e.1.size + e.2.size + size eqs

/-- The equation with `x` replaced by `u` on both sides. -/
def replace (x : String) (u : Term) (e : Equation) : Equation :=
  (e.1.replace x u, e.2.replace x u)

/-- The term is a variable that may not be bound any more. -/
def isClosedVar (free : List String) : Term → Bool
  | .var x => !free.contains x
  | .app _ _ => false

@[simp] theorem size_nil : size [] = 0 := rfl

@[simp] theorem size_cons (e : Equation) (eqs : List Equation) :
    size (e :: eqs) = e.1.size + e.2.size + size eqs := rfl

@[simp] theorem size_append (eqs eqs' : List Equation) :
    size (eqs ++ eqs') = size eqs + size eqs' := by
  induction eqs with
  | nil => simp
  | cons e eqs ih => simp [ih, Nat.add_assoc]

theorem size_zip_le (ss ts : List Term) :
    size (ss.zip ts) ≤ Term.sizeList ss + Term.sizeList ts := by
  induction ss generalizing ts with
  | nil => simp
  | cons s ss ih =>
    cases ts with
    | nil => simp
    | cons t ts =>
      have := ih ts
      simp only [List.zip_cons_cons, size_cons, Term.sizeList]
      omega

/-- Solve the equations from first to last, where `free` holds the variables that may still be bound
and `σ` the bindings made so far. -/
def solve (free : List String) : List Equation → Substitution → Option Substitution
  | [], σ => some σ
  | (s, t) :: rest, σ =>
    if s = t then solve free rest σ
    else if isClosedVar free s || isClosedVar free t then none
    else
      match s, t with
      | .var x, t =>
        if x ∈ free then solve (free.erase x) (rest.map (replace x t)) (σ.bind x t) else none
      | s, .var x =>
        if x ∈ free then solve (free.erase x) (rest.map (replace x s)) (σ.bind x s) else none
      | .app f ss, .app g ts =>
        if f = g ∧ ss.length = ts.length then solve free (ss.zip ts ++ rest) σ else none
termination_by eqs => (free.length, size eqs)
decreasing_by
  · have := s.size_pos
    exact Prod.Lex.right _ (by simp; omega)
  · exact Prod.Lex.left _ _ (by
      have := List.length_pos_of_mem ‹x ∈ free›
      rw [List.length_erase_of_mem ‹x ∈ free›]; omega)
  · exact Prod.Lex.left _ _ (by
      have := List.length_pos_of_mem ‹x ∈ free›
      rw [List.length_erase_of_mem ‹x ∈ free›]; omega)
  · refine Prod.Lex.right _ ?_
    have := size_zip_le ss ts
    simp only [size_append, size_cons, Term.size]
    omega

end Unifier

/-- A most general unifier of two terms, if there is one; the result may be cyclic. -/
def Term.unifier? (s t : Term) : Option Substitution :=
  Unifier.solve (s.occurrences ++ t.occurrences).eraseDups [(s, t)] .empty

end Refutation
