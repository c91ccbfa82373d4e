import Refutation.Substitution

/-!
# Fresh names

The sources of new names in a search: variables `V_1`, `V_2`, … for renaming clauses apart, and
clause names `c1`, `c2`, … for derived clauses.  Each source is a counter of the names drawn so far.
-/

namespace Refutation

/-- The source of fresh variables. -/
structure FreshVars where
  /-- How many names have been drawn. -/
  drawn : Nat
deriving DecidableEq, Repr, Inhabited

namespace FreshVars

/-- The source from which nothing has been drawn. -/
def initial : FreshVars := ⟨0⟩

/-- The `n`-th fresh variable. -/
def varName (n : Nat) : String := "V_" ++ toString n

/-- Draw the next name. -/
def next (fresh : FreshVars) : String × FreshVars := (varName (fresh.drawn + 1), ⟨fresh.drawn + 1⟩)

/-- A substitution that maps each of `vars` to a fresh variable, drawn in the order of the list. -/
def renamingFor (fresh : FreshVars) (vars : List String) : Substitution × FreshVars :=
  vars.foldl (fun (σ, fresh) x => let (y, fresh) := fresh.next; (σ.insert x (.var y), fresh))
    (.empty, fresh)

end FreshVars

/-- The source of names for derived clauses. -/
structure ClauseNames where
  /-- How many names have been drawn. -/
  drawn : Nat
deriving DecidableEq, Repr, Inhabited

namespace ClauseNames

/-- The source from which nothing has been drawn. -/
def initial : ClauseNames := ⟨0⟩

/-- The `n`-th clause name. -/
def clauseName (n : Nat) : String := "c" ++ toString n

/-- Draw the next name. -/
def next (names : ClauseNames) : String × ClauseNames :=
  (clauseName (names.drawn + 1), ⟨names.drawn + 1⟩)

end ClauseNames

/-- The two sources of names that a search owns. -/
structure Names where
  /-- Fresh variables. -/
  vars : FreshVars
  /-- Names of derived clauses. -/
  clauses : ClauseNames
deriving DecidableEq, Repr, Inhabited

/-- The sources from which nothing has been drawn. -/
def Names.initial : Names := ⟨.initial, .initial⟩

end Refutation
