import Refutation.Clause.Basic

/-!
# The archive of clauses

A clause that takes part in a search is entered into an archive and from then on known by its
number, the position at which it was entered.  Two clauses with the same literals are still two
entries.  The derivation of a clause refers to its parents by number, and parents are entered before
their children.

`Archive.ancestry` lists a clause and everything it was derived from, parents before children.
-/

namespace Refutation

/-- A clause with its number. -/
structure Entry where
  /-- The number. -/
  number : Nat
  /-- The clause. -/
  clause : Clause
deriving DecidableEq, Repr, Inhabited

/-- The entry as a parent of another clause. -/
def Entry.asParent (e : Entry) : Parent := ⟨e.number, e.clause.name⟩

/-- All clauses entered so far, by number. -/
structure Archive where
  /-- The clauses. -/
  clauses : Array Clause
deriving DecidableEq, Repr, Inhabited

namespace Archive

/-- The archive without clauses. -/
def empty : Archive := ⟨#[]⟩

variable (A : Archive)

/-- The number of clauses. -/
def size : Nat := A.clauses.size

/-- The clause with a number. -/
def get? (n : Nat) : Option Clause := A.clauses[n]?

/-- Enter a clause. -/
def record (c : Clause) : Entry × Archive := (⟨A.size, c⟩, ⟨A.clauses.push c⟩)

/-- Enter a list of clauses. -/
def recordAll (A : Archive) : List Clause → List Entry × Archive
  | [] => ([], A)
  | c :: cs =>
    let (e, A) := A.record c
    let (es, A) := A.recordAll cs
    (e :: es, A)

/-- Every parent was entered before its child. -/
def WellFormed : Prop := ∀ n c, A.get? n = some c → ∀ p ∈ c.parents, p.number < n

/-- The numbers of the parents of a clause, as far as they come before it. -/
def parentsOf (n : Nat) : List Nat :=
  match A.get? n with
  | some c => (c.parents.map (·.number)).filter (· < n)
  | none => []

/-- Extend the list `seen` by the clauses `ns` and their ancestors, parents before children, leaving
out what is there already.  The numbers `ns` are below the bound. -/
def visit (A : Archive) : (bound : Nat) → (ns seen : List Nat) → List Nat
  | 0, _, seen => seen
  | bound + 1, ns, seen =>
    ns.foldl
      (fun seen n => if n ∈ seen then seen else A.visit bound (A.parentsOf n) seen ++ [n]) seen

/-- The clause with number `root` and its ancestors, each after its parents. -/
def ancestry (root : Nat) : List Nat := A.visit (root + 1) [root] []

variable {A}

@[simp] theorem get?_record_self (c : Clause) : (A.record c).2.get? A.size = some c := by
  simp [record, get?, size]

theorem get?_record_of_lt (c : Clause) {n : Nat} (h : n < A.size) :
    (A.record c).2.get? n = A.get? n := by
  simp only [size] at h
  simp [record, get?, Array.getElem?_push, Nat.ne_of_lt h]

@[simp] theorem size_record (c : Clause) : (A.record c).2.size = A.size + 1 := by
  simp [record, size]

end Archive

end Refutation
