import Refutation.Clause.Basic

/-!
# Keys that forget variable names

`Clause.key` is a text that clauses share if they differ in the names of their variables.  The
literals are sorted by their text with all variables written as `_`, keeping the order of those that
then look alike, and the variables are renamed `X0`, `X1`, … in order of first occurrence.
-/

namespace Refutation

namespace Literal

/-- The text of the literal with every variable written as an underscore. -/
def shape (l : Literal) : String := (l.toSignedAtom.subst fun _ => .var "_").toLiteral.render

end Literal

namespace Clause

/-- The literals in increasing order of shape; literals of one shape keep their order. -/
def sortedByShape (literals : List Literal) : List Literal :=
  literals.mergeSort fun l m => decide (l.shape ≤ m.shape)

/-- The variable at position `n` of a key. -/
def keyVar (n : Nat) : Term := .var ("X" ++ toString n)

/-- The literals with their variables numbered in order of first occurrence. -/
def numberVars (literals : List Literal) : List Literal :=
  let vars := (occurrences literals).eraseDups
  literals.map fun l => (l.toSignedAtom.subst fun x => keyVar (vars.idxOf x)).toLiteral

/-- A text that does not depend on the names of the variables. -/
def key (c : Clause) : String :=
  Token.spellAll (literalTokens (numberVars (sortedByShape c.literals)))

end Clause

end Refutation
