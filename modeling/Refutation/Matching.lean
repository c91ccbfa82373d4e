import Refutation.Trail
import Refutation.Unifier

/-!
# One-way matching

Matching a pattern onto a target looks for bindings of the pattern's variables that make it equal to
the target; the target's variables are left alone.  The bindings go onto a trail, where earlier
bindings are respected, and a failed attempt takes back what it added.

There are two procedures: `Trail.matchTerm` works off a stack of pairs, `Trail.matchTermRec`
recurses along the pattern.
-/

namespace Refutation

namespace Trail

/-- Match one variable: it must be bound to the target already, or is bound to it now. -/
def matchVar (τ : Trail) (x : String) (t : Term) : Bool × Trail :=
  match τ.get? x with
  | some u => (u = t, τ)
  | none => (true, τ.bind x t)

/-- The number of symbols and variables in the patterns of a stack. -/
def patternSize : List (Term × Term) → Nat
  | [] => 0
  | p :: stack => p.1.size + patternSize stack

@[simp] theorem patternSize_cons (p : Term × Term) (stack : List (Term × Term)) :
    patternSize (p :: stack) = p.1.size + patternSize stack := rfl

@[simp] theorem patternSize_append (s s' : List (Term × Term)) :
    patternSize (s ++ s') = patternSize s + patternSize s' := by
  induction s with
  | nil => simp [patternSize]
  | cons p s ih => simp [ih, Nat.add_assoc]

theorem patternSize_zip_le (ss ts : List Term) : patternSize (ss.zip ts) ≤ Term.sizeList ss := by
  induction ss generalizing ts with
  | nil => simp [patternSize]
  | cons s ss ih =>
    cases ts with
    | nil => simp [patternSize]
    | cons t ts =>
      have := ih ts
      simp only [List.zip_cons_cons, patternSize_cons, Term.sizeList]
      omega

/-- Match the pairs of a stack from top to bottom, stopping at the first that fails. -/
def matchStack : List (Term × Term) → Trail → Bool × Trail
  | [], τ => (true, τ)
  | (.var x, t) :: rest, τ =>
    match τ.matchVar x t with
    | (true, τ') => matchStack rest τ'
    | (false, τ') => (false, τ')
  | (.app f ss, .app g ts) :: rest, τ =>
    if f = g ∧ ss.length = ts.length then matchStack (ss.zip ts ++ rest) τ else (false, τ)
  | (.app _ _, .var _) :: _, τ => (false, τ)
termination_by stack => patternSize stack
decreasing_by
  · simp [Term.size]
  · have := patternSize_zip_le ss ts
    simp only [patternSize_append, patternSize_cons, Term.size]
    omega

mutual

/-- Match along the pattern, from left to right, stopping at the first mismatch. -/
def matchAlong : Term → Term → Trail → Bool × Trail
  | .var x, t, τ => τ.matchVar x t
  | .app f ss, .app g ts, τ =>
    if f = g ∧ ss.length = ts.length then matchAlongList ss ts τ else (false, τ)
  | .app _ _, .var _, τ => (false, τ)

/-- Match two lists of equal length position by position. -/
def matchAlongList : List Term → List Term → Trail → Bool × Trail
  | [], _, τ => (true, τ)
  | _ :: _, [], τ => (true, τ)
  | s :: ss, t :: ts, τ =>
    match matchAlong s t τ with
    | (true, τ') => matchAlongList ss ts τ'
    | (false, τ') => (false, τ')

end

variable (τ : Trail)

/-- Keep the trail of a successful attempt; after a failure go back to the mark. -/
def commit (m : Mark) : Bool × Trail → Bool × Trail
  | (true, τ) => (true, τ)
  | (false, τ) => (false, τ.undoTo m)

/-- Match `pattern` onto `target` with a work stack. -/
def matchTerm (pattern target : Term) : Bool × Trail :=
  commit τ.mark (matchStack [(pattern, target)] τ)

/-- Match `pattern` onto `target` by recursion along the pattern. -/
def matchTermRec (pattern target : Term) : Bool × Trail :=
  commit τ.mark (matchAlong pattern target τ)

end Trail

end Refutation
