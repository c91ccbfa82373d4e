import Refutation.Clause.Basic
import Refutation.Rotation

/-!
# Evaluation of clauses

An evaluation gives each clause a score when it enters a queue; a low score is good.  A schedule is
a list of evaluations with ratings: a clause gets one score for each evaluation, and the evaluations
take turns in deciding which clause is used next.

Scores and counters have 64 bits, and what exceeds them is cut off (`Evaluation.wrap`).
-/

namespace Refutation

/-- A way to score clauses. -/
inductive Evaluation where
  /-- By age: the score is the count of clauses scored so far, this one included. -/
  | fifo (count : Nat)
  /-- By weight, with the given weights of symbols and variables. -/
  | symbolCount (f v : Nat)
deriving DecidableEq, Repr, Inhabited

namespace Evaluation

/-- The evaluation by age that has scored nothing yet. -/
def oldest : Evaluation := fifo 0

/-- A number cut to 64 bits. -/
def wrap (n : Nat) : Nat := n % UInt64.size

/-- The score of a clause, and the evaluation after it. -/
def score (c : Clause) : Evaluation → Nat × Evaluation
  | fifo count => (wrap (count + 1), fifo (wrap (count + 1)))
  | symbolCount f v => (wrap (c.weight f v), symbolCount f v)

/-- The text of an evaluation. -/
def render : Evaluation → String
  | fifo _ => "FIFOEval"
  | symbolCount f v => "SymbolCountEval(" ++ toString f ++ "," ++ toString v ++ ")"

end Evaluation

/-- Evaluations that take turns. -/
structure Schedule where
  /-- The evaluations. -/
  evaluations : List Evaluation
  /-- Whose turn it is. -/
  rotation : Rotation
deriving DecidableEq, Repr, Inhabited

namespace Schedule

/-- The schedule of evaluations with ratings.  There must be at least one evaluation, and none may
have rating zero. -/
def of (rated : List (Evaluation × Nat)) : Except Error Schedule :=
  if rated.isEmpty then .error .noEvaluations
  else
    match rated.find? fun p => p.2 = 0 with
    | some p => .error (.zeroRating p.1.render)
    | none => .ok ⟨rated.map (·.1), .start (rated.map (·.2))⟩

variable (s : Schedule)

/-- The number of evaluations. -/
def size : Nat := s.evaluations.length

def isEmpty : Bool := s.evaluations.isEmpty

/-- The scores of a clause, one for each evaluation. -/
def evaluate (c : Clause) : List Nat × Schedule :=
  let scored := s.evaluations.map (·.score c)
  (scored.map (·.1), { s with evaluations := scored.map (·.2) })

/-- The evaluation whose turn it is. -/
def next : Nat × Schedule :=
  let (i, rotation) := s.rotation.next
  (i, { s with rotation := rotation })

/-- The text of a schedule. -/
def render : String :=
  "[" ++ String.intercalate ", " (s.evaluations.zipWith
    (fun e rating => toString rating ++ "*" ++ e.render) s.rotation.ratings) ++ "]"

end Schedule

/-- The named schedules. -/
inductive Heuristic where
  /-- By age. -/
  | fifo
  /-- By weight. -/
  | symbolCount
  /-- Five times by weight, once by age. -/
  | pickGiven5
  /-- Twice by weight, once by age. -/
  | pickGiven2
deriving DecidableEq, Repr

namespace Heuristic

instance : Inhabited Heuristic := ⟨pickGiven5⟩

/-- All heuristics. -/
def all : List Heuristic := [fifo, symbolCount, pickGiven5, pickGiven2]

/-- The name of a heuristic. -/
def name : Heuristic → String
  | fifo => "FIFO"
  | symbolCount => "SymbolCount"
  | pickGiven5 => "PickGiven5"
  | pickGiven2 => "PickGiven2"

/-- The heuristic with the given name. -/
def ofName? (word : String) : Option Heuristic := all.find? fun h => h.name == word

/-- Read a heuristic. -/
def parse (word : String) : Except Error Heuristic :=
  match ofName? word with
  | some h => .ok h
  | none => .error (.unknownHeuristic word)

/-- The evaluations of a heuristic with their ratings. -/
def rated : Heuristic → List (Evaluation × Nat)
  | fifo => [(.oldest, 1)]
  | symbolCount => [(.symbolCount 2 1, 1)]
  | pickGiven5 => [(.symbolCount 2 1, 5), (.oldest, 1)]
  | pickGiven2 => [(.symbolCount 2 1, 2), (.oldest, 1)]

/-- The schedule of a heuristic. -/
def schedule (h : Heuristic) : Schedule := ⟨h.rated.map (·.1), .start (h.rated.map (·.2))⟩

theorem of_rated (h : Heuristic) : Schedule.of h.rated = .ok h.schedule := by
  cases h <;> rfl

end Heuristic

end Refutation
