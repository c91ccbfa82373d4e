import Refutation.Inference.Rule
import Refutation.Store.Basic

/-!
# All inferences with a given clause

The resolvents of a given clause with the members of a store, and the factors of a clause.  Only
eligible literals are used.  Each conclusion gets the next clause name; names and fresh variables
are drawn in the order in which the inferences are tried.
-/

namespace Refutation

/-- The literal at position `i` is there and eligible. -/
def Clause.isEligible (c : Clause) (i : Nat) : Bool := c.literals[i]?.any (·.eligible)

/-- A resolution to be tried: a literal of the given clause, and the clause and the literal to
resolve it with. -/
structure Pairing where
  /-- The position of the literal of the given clause. -/
  position : Nat
  /-- The other clause. -/
  partner : Entry
  /-- The position of its literal. -/
  partnerPosition : Nat
deriving DecidableEq, Repr, Inhabited

/-- The resolutions of a given clause with the members of a store. -/
def pairings {σ : Type} [ClauseStore σ] (given : Entry) (store : σ) : List Pairing :=
  (given.clause.literals.zipIdx.filter fun p => p.1.eligible).flatMap fun p =>
    ((ClauseStore.partners store p.1).filter fun q => q.1.clause.isEligible q.2).map fun q =>
      ⟨p.2, q.1, q.2⟩

/-- Name a conclusion. -/
def Names.christen (names : Names) (c : Clause) : Clause × Names :=
  let (name, clauses) := names.clauses.next
  ({ c with name := name }, { names with clauses := clauses })

/-- Try resolutions one after the other. -/
def resolveAll (given : Entry) : List Pairing → Names → List Clause × Names
  | [], names => ([], names)
  | p :: ps, names =>
    let (r, vars) := given.resolve p.position p.partner p.partnerPosition names.vars
    let names := { names with vars := vars }
    match r with
    | none => resolveAll given ps names
    | some c =>
      let (c, names) := names.christen c
      let (cs, names) := resolveAll given ps names
      (c :: cs, names)

/-- All resolvents of a given clause with the members of a store. -/
def resolvents {σ : Type} [ClauseStore σ] (given : Entry) (store : σ) (names : Names) :
    List Clause × Names :=
  resolveAll given (pairings given store) names

/-- The pairs of positions `i < j` of a clause of which at least one is eligible. -/
def factorPairs (c : Clause) : List (Nat × Nat) :=
  (List.range c.size).flatMap fun i =>
    ((List.range c.size).filter fun j => i < j && (c.isEligible i || c.isEligible j)).map (i, ·)

/-- Try factorings one after the other. -/
def factorAll (c : Entry) : List (Nat × Nat) → Names → List Clause × Names
  | [], names => ([], names)
  | (i, j) :: ps, names =>
    match c.factor i j with
    | none => factorAll c ps names
    | some d =>
      let (d, names) := names.christen d
      let (ds, names) := factorAll c ps names
      (d :: ds, names)

/-- All factors of a clause. -/
def factors (c : Entry) (names : Names) : List Clause × Names :=
  factorAll c (factorPairs c.clause) names

end Refutation
