import Refutation.Clause.Basic

/-!
# Signatures

The signature of a set of clauses lists its function symbols and its predicate symbols with their
arities, each in order of first occurrence.  Every symbol has one arity and is either a function or
a predicate; an occurrence that breaks this rule is an error (`Signature.declare`).
-/

namespace Refutation

/-- The two kinds of symbols. -/
inductive SymbolKind where
  | function
  | predicate
deriving DecidableEq, Repr, Inhabited

/-- An occurrence of a symbol. -/
structure Occurrence where
  /-- The kind of symbol. -/
  kind : SymbolKind
  /-- The symbol. -/
  symbol : String
  /-- The number of arguments it is used with. -/
  arity : Nat
deriving DecidableEq, Repr, Inhabited

namespace Term

mutual

/-- The function symbols of a term, from left to right, outer before inner. -/
def functionOccurrences : Term → List Occurrence
  | .var _ => []
  | .app f ts => ⟨.function, f, ts.length⟩ :: functionOccurrencesList ts

/-- The function symbols of a list of terms, one term after the other. -/
def functionOccurrencesList : List Term → List Occurrence
  | [] => []
  | t :: ts => functionOccurrences t ++ functionOccurrencesList ts

end

@[simp] theorem functionOccurrencesList_eq_flatMap (ts : List Term) :
    functionOccurrencesList ts = ts.flatMap functionOccurrences := by
  induction ts with
  | nil => rfl
  | cons t ts ih => simp [functionOccurrencesList, ih]

end Term

/-- The symbols of a literal: the predicate and then the symbols of the arguments. -/
def Literal.symbolOccurrences (l : Literal) : List Occurrence :=
  ⟨.predicate, l.predicate, l.arity⟩ :: l.atom.args.flatMap (·.functionOccurrences)

/-- The symbols of a clause. -/
def Clause.symbolOccurrences (c : Clause) : List Occurrence :=
  c.literals.flatMap (·.symbolOccurrences)

/-- Function symbols and predicate symbols with their arities, in order of first occurrence. -/
structure Signature where
  /-- The function symbols. -/
  functions : List (String × Nat)
  /-- The predicate symbols. -/
  predicates : List (String × Nat)
deriving DecidableEq, Repr, Inhabited

namespace Signature

/-- The signature without symbols. -/
def empty : Signature := ⟨[], []⟩

variable (S : Signature)

/-- The symbols of a kind. -/
def symbols : SymbolKind → List (String × Nat)
  | .function => S.functions
  | .predicate => S.predicates

def isFunction (name : String) : Bool := (S.functions.lookup name).isSome

def isPredicate (name : String) : Bool := (S.predicates.lookup name).isSome

/-- The arity of a symbol of either kind. -/
def arity? (name : String) : Option Nat := (S.functions.lookup name).or (S.predicates.lookup name)

/-- The symbol is of the other kind. -/
def clashes (o : Occurrence) : Bool :=
  match o.kind with
  | .function => S.isPredicate o.symbol
  | .predicate => S.isFunction o.symbol

/-- The signature with a further symbol. -/
def extend (o : Occurrence) : Signature :=
  match o.kind with
  | .function => { S with functions := S.functions ++ [(o.symbol, o.arity)] }
  | .predicate => { S with predicates := S.predicates ++ [(o.symbol, o.arity)] }

/-- Enter an occurrence of a symbol.  A symbol of the other kind and a known symbol with another
arity are refused, the kind being looked at first. -/
def declare (o : Occurrence) : Except Error Signature :=
  if S.clashes o then .error (.kindClash o.symbol)
  else
    match (S.symbols o.kind).lookup o.symbol with
    | none => .ok (S.extend o)
    | some arity =>
      if arity = o.arity then .ok S else .error (.arityMismatch o.symbol arity o.arity)

/-- Enter occurrences until one is refused; the result tells which error stopped it. -/
def declareAll (S : Signature) : List Occurrence → Signature × Option Error
  | [] => (S, none)
  | o :: os =>
    match S.declare o with
    | .ok S' => declareAll S' os
    | .error e => (S, some e)

/-- The signature of a list of clauses. -/
def ofClauses (cs : List Clause) : Except Error Signature :=
  match empty.declareAll (cs.flatMap (·.symbolOccurrences)) with
  | (S, none) => .ok S
  | (_, some e) => .error e

end Signature

end Refutation
