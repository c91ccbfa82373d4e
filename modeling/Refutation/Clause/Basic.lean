import Refutation.Clause.Role
import Refutation.Literal

/-!
# Clauses

A clause is a named list of literals, read as their disjunction, with a role and, if it did not come
from the input, a derivation: the rule that produced it and its parents.  Parents are referred to by
the number under which they are kept (see `Refutation.Archive`) and by name.
-/

namespace Refutation

/-- A parent of a derived clause. -/
structure Parent where
  /-- The number of the parent. -/
  number : Nat
  /-- The name of the parent. -/
  name : String
deriving DecidableEq, Repr, Inhabited

/-- How a clause was obtained.  Without parents it was introduced by the prover itself. -/
structure Derivation where
  /-- The rule that produced the clause. -/
  rule : String
  /-- The premises, in the order in which the rule takes them. -/
  parents : List Parent
  /-- The status of the step, if it is not the usual one. -/
  status : Option String
deriving DecidableEq, Repr, Inhabited

namespace Derivation

/-- A step from premises. -/
def inference (rule : String) (parents : List Parent) : Derivation := ⟨rule, parents, none⟩

/-- A clause introduced without premises. -/
def introduced (rule : String) : Derivation := ⟨rule, [], none⟩

/-- The tokens of a derivation's annotation. -/
def tokens (d : Derivation) : List Token :=
  if d.parents.isEmpty then
    [.lower "introduced", .openParen, .lower d.rule, .closeParen]
  else
    [.lower "inference", .openParen, .lower d.rule, .comma, .openBracket, .lower "status",
      .openParen, .lower (d.status.getD "thm"), .closeParen, .closeBracket, .comma, .openBracket] ++
    Token.separated .comma (d.parents.map fun p => [.ofName p.name]) ++ [.closeBracket, .closeParen]

/-- The text of a derivation's annotation. -/
def annotation (d : Derivation) : String := Token.spellAll d.tokens

end Derivation

/-- A clause: a disjunction of literals. -/
structure Clause where
  /-- The name; empty for a clause that has none. -/
  name : String
  /-- The role. -/
  role : Role
  /-- The literals. -/
  literals : List Literal
  /-- How the clause was derived; absent for input clauses. -/
  derivation : Option Derivation
deriving DecidableEq, Repr, Inhabited

namespace Clause

/-- The clause of the given literals, without name and derivation. -/
def of (literals : List Literal) : Clause := ⟨"", .plain, literals, none⟩

variable (c : Clause)

/-- The parents of the clause. -/
def parents : List Parent := (c.derivation.map (·.parents)).getD []

/-- The clause was derived from others. -/
def isDerived : Bool := !c.parents.isEmpty

/-- The clause has no literals: it is false. -/
def isEmpty : Bool := c.literals.isEmpty

/-- The number of literals. -/
def size : Nat := c.literals.length

def isUnit : Bool := c.size = 1

/-- At most one literal is positive. -/
def isHorn : Bool := c.literals.countP (·.isPositive) ≤ 1

/-- Two of the literals are opposite. -/
def hasOpposites : List Literal → Bool
  | [] => false
  | l :: ls => ls.any l.isOpposite || hasOpposites ls

/-- The clause has two opposite literals or an equation between a term and itself. -/
def isTautology : Bool := hasOpposites c.literals || c.literals.any (·.isTrivial)

def isGround : Bool := c.literals.all (·.isGround)

/-- The sum of the weights of the literals, exact; it is cut to 64 bits where it is used as a
score. -/
def weight (f v : Nat) : Nat := c.literals.foldr (fun l n => l.weight f v + n) 0

/-- The variables of a list of literals, one entry for each occurrence. -/
def occurrences (literals : List Literal) : List String :=
  literals.flatMap (·.atom.occurrences)

/-- The variables in order of first occurrence. -/
def vars : List String := (occurrences c.literals).eraseDups

/-- The clause of the instances of the literals, without name and derivation. -/
def instantiate (σ : Substitution) : Clause := of (c.literals.map (·.instantiate σ))

/-- The clause with its variables renamed to fresh ones, drawn in order of first occurrence.  All
else, the eligible literals included, stays. -/
def freshCopy (fresh : FreshVars) : Clause × FreshVars :=
  let (ρ, fresh) := fresh.renamingFor c.vars
  ({ c with literals := c.literals.map fun l => { l.instantiate ρ with eligible := l.eligible } },
    fresh)

/-- The literals without repetitions; of equal literals the first stays. -/
def dedupLiterals : List Literal → List Literal
  | [] => []
  | l :: ls => l :: (dedupLiterals ls).filter fun m => m.toSignedAtom ≠ l.toSignedAtom

/-- The clause without repeated literals. -/
def dedup : Clause := { c with literals := dedupLiterals c.literals }

/-! ### Printing -/

/-- The tokens of a disjunction; the empty one is written `$false`. -/
def literalTokens (literals : List Literal) : List Token :=
  if literals.isEmpty then [.dollar "false"] else Token.separated .bar (literals.map (·.tokens))

/-- The text of the disjunction. -/
def renderLiterals : String := Token.spellAll (literalTokens c.literals)

/-- The tokens of a clause, with the annotation of its derivation or without it. -/
def tokens (annotated : Bool) : List Token :=
  [.lower "cnf", .openParen, .ofName (if c.name.isEmpty then "unnamed" else c.name), .comma,
    .lower c.role.name, .comma] ++ literalTokens c.literals ++
  (match annotated, c.derivation with
    | true, some d => .comma :: d.tokens
    | _, _ => []) ++
  [.closeParen, .dot]

/-- The text of a clause. -/
def render (annotated : Bool) : String := Token.spellAll (c.tokens annotated)

/-- The text of a list of clauses, one on each line. -/
def renderAll (annotated : Bool) (cs : List Clause) : String :=
  String.join (cs.map fun c => c.render annotated ++ "\n")

end Clause

end Refutation
