import Refutation.Archive

/-!
# Proofs

A proof is a list of steps, each a clause with the rule and the names of the parents it comes from.
`Proof.ofArchive` lists the derivation of a clause; the text of a proof can be read as a problem.
-/

namespace Refutation

/-- One step of a proof. -/
structure ProofStep where
  /-- The name of the clause. -/
  name : String
  /-- The name of its role. -/
  role : String
  /-- The text of its literals. -/
  clause : String
  /-- The rule, absent for an input clause. -/
  rule : Option String
  /-- The names of the parents. -/
  parents : List String
deriving DecidableEq, Repr, Inhabited

namespace ProofStep

/-- The step that a clause makes. -/
def ofClause (c : Clause) : ProofStep where
  name := c.name
  role := c.role.name
  clause := c.renderLiterals
  rule := c.derivation.map (·.rule)
  parents := c.parents.map (·.name)

/-- The annotation after the clause. -/
def annotation (s : ProofStep) : String :=
  match s.rule with
  | none => ""
  | some rule =>
    if s.parents.isEmpty then ",introduced(" ++ rule ++ ")"
    else
      ",inference(" ++ rule ++ ",[status(thm)],[" ++
        String.intercalate "," (s.parents.map fun p => (Token.ofName p).spell) ++ "])"

/-- The text of a step. -/
def render (s : ProofStep) : String :=
  "cnf(" ++ (Token.ofName s.name).spell ++ "," ++ s.role ++ "," ++ s.clause ++ s.annotation ++ ")."

end ProofStep

/-- The steps of a proof. -/
structure Proof where
  /-- The steps, each after its premises. -/
  steps : List ProofStep
deriving DecidableEq, Repr, Inhabited

namespace Proof

/-- The derivation of the clause with number `root`. -/
def ofArchive (A : Archive) (root : Nat) : Proof :=
  ⟨(A.ancestry root).filterMap fun n => (A.get? n).map .ofClause⟩

variable (p : Proof)

/-- The number of steps. -/
def size : Nat := p.steps.length

def isEmpty : Bool := p.steps.isEmpty

/-- The number of steps made by a rule. -/
def countRule (rule : String) : Nat := p.steps.countP fun s => s.rule = some rule

/-- The text of a proof, one step on each line. -/
def render : String := String.join (p.steps.map fun s => s.render ++ "\n")

end Proof

end Refutation
