import Refutation.Clause.Basic

/-!
# Predicate abstraction of a clause

The abstraction of a clause forgets the arguments of its literals: it is the sorted list of their
signs and predicates.  A clause can subsume another one only if its abstraction is a subsequence of
the other's (`isSubsequence`), which is what the subsumption index uses.
-/

namespace Refutation

/-- A predicate with a sign. -/
structure SignedPredicate where
  /-- The literal is positive. -/
  positive : Bool
  /-- The predicate. -/
  predicate : String
deriving DecidableEq, Repr, Inhabited

namespace SignedPredicate

/-- Negative predicates come first; predicates of one sign are ordered by name. -/
instance : Ord SignedPredicate :=
  ⟨compareLex (compareOn (·.positive)) (compareOn (·.predicate))⟩

instance : Std.TransOrd SignedPredicate :=
  inferInstanceAs (Std.TransCmp
    (compareLex (compareOn SignedPredicate.positive) (compareOn SignedPredicate.predicate)))

instance : Std.LawfulEqOrd SignedPredicate where
  eq_of_compare {a b} h := by
    obtain ⟨h₁, h₂⟩ := compareLex_eq_eq.1 h
    have h₁ : a.positive = b.positive := Std.LawfulEqOrd.eq_of_compare h₁
    have h₂ : a.predicate = b.predicate := Std.LawfulEqOrd.eq_of_compare h₂
    cases a
    cases b
    simp_all

end SignedPredicate

/-- The literal without its arguments. -/
def Literal.signedPredicate (l : Literal) : SignedPredicate := ⟨l.isPositive, l.predicate⟩

/-- The signs and predicates of a clause's literals, in increasing order. -/
abbrev Abstraction := List SignedPredicate

/-- The abstraction of a clause. -/
def Clause.abstraction (c : Clause) : Abstraction :=
  (c.literals.map (·.signedPredicate)).mergeSort fun a b => (compare a b).isLE

/-- The first list results from the second by leaving out elements. -/
def isSubsequence {α : Type} [DecidableEq α] : List α → List α → Bool
  | [], _ => true
  | _ :: _, [] => false
  | a :: as, b :: bs => if a = b then isSubsequence as bs else isSubsequence (a :: as) bs

/-- Looking for each element from left to right finds a subsequence whenever there is one. -/
theorem isSubsequence_iff_sublist {α : Type} [DecidableEq α] {as bs : List α} :
    isSubsequence as bs = true ↔ as.Sublist bs := by
  induction bs generalizing as with
  | nil => cases as <;> simp [isSubsequence]
  | cons b bs ih =>
    cases as with
    | nil => simp [isSubsequence]
    | cons a as =>
      by_cases hab : a = b
      · subst hab
        simp [isSubsequence, ih]
      · simp only [isSubsequence, hab, if_false, ih]
        constructor
        · exact fun h => h.cons b
        · intro h
          cases h with
          | cons _ h => exact h
          | cons_cons _ _ => exact absurd rfl hab

end Refutation
