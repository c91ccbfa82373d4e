import Refutation.Error

/-!
# Verdicts

The possible answers to the question whether a set of clauses is satisfiable, with the names that
problem files and provers use for them.
-/

namespace Refutation

/-- What is known about a problem. -/
inductive Verdict where
  | provable
  | contradictoryAxioms
  | unsatisfiable
  | counterSatisfiable
  | satisfiable
  | undecided
  | unknown
  | gaveUp
  | resourceOut
  | timeout
deriving DecidableEq, Repr, Inhabited

namespace Verdict

/-- All verdicts. -/
def all : List Verdict :=
  [provable, contradictoryAxioms, unsatisfiable, counterSatisfiable, satisfiable,
    undecided, unknown, gaveUp, resourceOut, timeout]

/-- The name of a verdict. -/
def name : Verdict → String
  | provable => "Theorem"
  | contradictoryAxioms => "ContradictoryAxioms"
  | unsatisfiable => "Unsatisfiable"
  | counterSatisfiable => "CounterSatisfiable"
  | satisfiable => "Satisfiable"
  | undecided => "Open"
  | unknown => "Unknown"
  | gaveUp => "GaveUp"
  | resourceOut => "ResourceOut"
  | timeout => "Timeout"

/-- The verdict with the given name, or the reason why there is none. -/
def parse (word : String) : Except Error Verdict :=
  match all.find? fun v => v.name == word with
  | some v => .ok v
  | none => .error (.unknownVerdict word)

/-- The clauses can be refuted. -/
def isUnsatisfiable : Verdict → Bool
  | provable | contradictoryAxioms | unsatisfiable => true
  | _ => false

/-- The clauses have a model. -/
def isSatisfiable : Verdict → Bool
  | satisfiable | counterSatisfiable => true
  | _ => false

/-- A verdict found by a search does not contradict the expected one.  A search that stopped without
an answer contradicts nothing. -/
def agreesWith (expected found : Verdict) : Bool :=
  if found.isUnsatisfiable then !expected.isSatisfiable
  else if found.isSatisfiable then !expected.isUnsatisfiable
  else true

@[simp] theorem parse_name (v : Verdict) : parse v.name = .ok v := by
  cases v <;> rfl

end Verdict

end Refutation
