import Refutation.Error

/-!
# Roles of clauses

What a clause is for: given as an axiom, part of the goal, derived, and so on.
-/

namespace Refutation

/-- The role of a clause. -/
inductive Role where
  | axiomatic
  | hypothesis
  | definition
  | assumption
  | provedLemma
  | provedTheorem
  | corollary
  | conjecture
  | negatedConjecture
  /-- Derived by an inference. -/
  | plain
  | unknown
deriving DecidableEq, Repr, Inhabited

namespace Role

/-- All roles. -/
def all : List Role :=
  [axiomatic, hypothesis, definition, assumption, provedLemma, provedTheorem, corollary, conjecture,
    negatedConjecture, plain, unknown]

/-- The name of a role in the clause notation. -/
def name : Role → String
  | axiomatic => "axiom"
  | hypothesis => "hypothesis"
  | definition => "definition"
  | assumption => "assumption"
  | provedLemma => "lemma"
  | provedTheorem => "theorem"
  | corollary => "corollary"
  | conjecture => "conjecture"
  | negatedConjecture => "negated_conjecture"
  | plain => "plain"
  | unknown => "unknown"

/-- The role with the given name. -/
def ofName? (word : String) : Option Role := all.find? fun r => r.name == word

/-- The role with the given name, or the reason why there is none. -/
def parse (word : String) : Except Error Role :=
  match ofName? word with
  | some r => .ok r
  | none => .error (.unknownRole word)

/-- The clause belongs to the goal. -/
def isGoal : Role → Bool
  | conjecture | negatedConjecture => true
  | _ => false

@[simp] theorem ofName?_name (r : Role) : ofName? r.name = some r := by
  cases r <;> decide

end Role

end Refutation
