import Refutation.Matching
import Refutation.Naming

/-!
# Literals

A literal is an atom with a sign.  Its identity is the signed atom (`Literal.toSignedAtom`); beside
that it carries a tag that marks equations and disequations, and a flag that says whether inferences
may use it.

The tag is computed from the signed atom by `SignedAtom.toLiteral`.  A literal read from elsewhere
may carry another tag, which then decides how it is written; `Literal.isConsistent` compares the tag
with the sign.
-/

namespace Refutation

/-- The predicate symbol of equality. -/
def equality : String := "="

/-- A term with a sign. -/
structure SignedAtom where
  /-- The atom is negated. -/
  negative : Bool
  /-- The atom. -/
  atom : Term
deriving DecidableEq, Repr, Inhabited

/-- The mark of a literal that is written as an equation or a disequation. -/
inductive EqTag where
  | equal
  | notEqual
deriving DecidableEq, Repr, Inhabited

/-- A signed atom, its equational tag, and whether inferences may use it. -/
structure Literal extends SignedAtom where
  /-- The equational tag. -/
  tag : Option EqTag
  /-- Inferences may use the literal. -/
  eligible : Bool
deriving DecidableEq, Repr, Inhabited

namespace SignedAtom

/-- The signed atom with all variables replaced. -/
def subst (a : SignedAtom) (θ : String → Term) : SignedAtom := ⟨a.negative, a.atom.subst θ⟩

/-- The atom is the equality of two terms. -/
def isEquation (a : SignedAtom) : Bool := a.atom.symbol? = some equality ∧ a.atom.arity = 2

/-- The tag that fits the signed atom. -/
def tag (a : SignedAtom) : Option EqTag :=
  if a.isEquation then some (if a.negative then .notEqual else .equal) else none

/-- The literal of a signed atom: tagged to fit, and eligible. -/
def toLiteral (a : SignedAtom) : Literal := { a with tag := a.tag, eligible := true }

@[simp] theorem toSignedAtom_toLiteral (a : SignedAtom) : a.toLiteral.toSignedAtom = a := rfl

@[simp] theorem eligible_toLiteral (a : SignedAtom) : a.toLiteral.eligible = true := rfl

end SignedAtom

namespace Literal

/-- The literal with the given sign and atom. -/
def of (negative : Bool) (atom : Term) : Literal := SignedAtom.toLiteral ⟨negative, atom⟩

/-- The positive literal of an atom. -/
def pos (atom : Term) : Literal := of false atom

/-- The negative literal of an atom. -/
def neg (atom : Term) : Literal := of true atom

/-- The equation of two terms. -/
def equation (l r : Term) : Literal := pos (.app equality [l, r])

/-- The disequation of two terms. -/
def disequation (l r : Term) : Literal := neg (.app equality [l, r])

variable (l m : Literal)

def isPositive : Bool := !l.negative

/-- The predicate symbol; the empty name if the atom is a variable. -/
def predicate : String := l.atom.symbol?.getD ""

/-- The number of arguments of the predicate. -/
def arity : Nat := l.atom.arity

/-- The tag agrees with the sign. -/
def isConsistent : Bool :=
  match l.tag with
  | some .equal => !l.negative
  | some .notEqual => l.negative
  | none => !l.toSignedAtom.isEquation

/-- The literal of the same atom with the other sign. -/
def negate : Literal := of (!l.negative) l.atom

/-- Same atom and other sign. -/
def isOpposite : Bool := l.negative != m.negative && l.atom = m.atom

/-- Same predicate and other sign. -/
def isPartner : Bool := l.negative != m.negative && l.predicate = m.predicate

/-- An equation between a term and itself. -/
def isTrivial : Bool :=
  match l.tag, l.atom.args with
  | some .equal, [s, t] => s = t
  | _, _ => false

def isGround : Bool := l.atom.isGround

/-- The variables in order of first occurrence. -/
def vars : List String := l.atom.vars

/-- The weight of the atom; the sign counts nothing. -/
def weight (f v : Nat) : Nat := l.atom.weight f v

/-- The literal with all bound variables replaced.  The result is eligible. -/
def instantiate (σ : Substitution) : Literal := (l.toSignedAtom.subst σ.assign).toLiteral

/-- Match the literal onto another one of the same sign. -/
def matchOnto (τ : Trail) : Bool × Trail :=
  if l.negative = m.negative then τ.matchTerm l.atom m.atom else (false, τ)

/-- The tokens of a literal: an equation or a disequation if it is tagged as one and has two
arguments, otherwise the atom, after a tilde if it is negated. -/
def tokens : List Token :=
  match l.tag, l.atom.args with
  | some .equal, [s, t] => s.tokens ++ .equal :: t.tokens
  | some .notEqual, [s, t] => s.tokens ++ .notEqual :: t.tokens
  | _, _ => if l.negative then .tilde :: l.atom.tokens else l.atom.tokens

/-- The text of a literal. -/
def render : String := Token.spellAll l.tokens

@[simp] theorem toSignedAtom_instantiate (σ : Substitution) :
    (l.instantiate σ).toSignedAtom = l.toSignedAtom.subst σ.assign := rfl

end Literal

end Refutation
