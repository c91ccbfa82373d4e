import Refutation.Clause.Basic

/-!
# Selection of negative literals

Inferences on a clause can be restricted to one of its negative literals, chosen by a
`LiteralSelection`.  Each choice ranks the literals; the least rank wins, and of equal ranks the
first literal.  A clause without negative literals is left alone.
-/

namespace Refutation

/-- How to choose among the negative literals of a clause. -/
inductive LiteralSelection where
  /-- The first one. -/
  | first
  /-- The lightest. -/
  | smallest
  /-- The heaviest. -/
  | largest
  /-- The one with the fewest variables, and of those the heaviest. -/
  | leastVars
  /-- A disequation if there is one; apart from that as `leastVars`. -/
  | eqLeastVars
deriving DecidableEq, Repr, Inhabited

namespace LiteralSelection

/-- All choices. -/
def all : List LiteralSelection := [first, smallest, largest, leastVars, eqLeastVars]

/-- The name of a choice. -/
def name : LiteralSelection → String
  | first => "first"
  | smallest => "smallest"
  | largest => "largest"
  | leastVars => "leastvars"
  | eqLeastVars => "eqleastvars"

/-- The choice with the given name. -/
def ofName? (word : String) : Option LiteralSelection := all.find? fun s => s.name == word

/-- Read a choice. -/
def parse (word : String) : Except Error LiteralSelection :=
  match ofName? word with
  | some s => .ok s
  | none => .error (.unknownSelection word)

/-- The weight in which every symbol and variable counts one, negated. -/
def lightness (l : Literal) : Int := -(l.weight 1 1 : Nat)

/-- The rank of a literal; ranks are compared lexicographically. -/
def rank : LiteralSelection → Literal → List Int
  | first, _ => []
  | smallest, l => [(l.weight 1 1 : Nat)]
  | largest, l => [lightness l]
  | leastVars, l => [(l.vars.length : Nat), lightness l]
  | eqLeastVars, l =>
    [if l.tag = some .notEqual then 0 else 1, (l.vars.length : Nat), lightness l]

end LiteralSelection

/-- The first of the least elements of a list. -/
def firstLeast? {α : Type} (lt : α → α → Bool) : List α → Option α
  | [] => none
  | a :: as =>
    match firstLeast? lt as with
    | some b => if lt b a then some b else some a
    | none => some a

namespace LiteralSelection

/-- The position of the chosen literal, if any literal is negative. -/
def select (s : LiteralSelection) (literals : List Literal) : Option Nat :=
  (firstLeast? (fun p q => decide (s.rank p.1 < s.rank q.1))
    (literals.zipIdx.filter fun p => p.1.negative)).map (·.2)

end LiteralSelection

/-- Make the chosen negative literal the only eligible one. -/
def Clause.select (c : Clause) (s : LiteralSelection) : Clause :=
  match s.select c.literals with
  | some i => { c with literals := c.literals.mapIdx fun k l => { l with eligible := k = i } }
  | none => c

end Refutation
