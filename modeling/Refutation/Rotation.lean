/-!
# Weighted round robin

A rotation goes through the positions of a list of ratings again and again and stays at each
position as many turns as its rating says.
-/

namespace Refutation

/-- A place in an endless round through a list of ratings. -/
structure Rotation where
  /-- How many turns each position gets in a round. -/
  ratings : List Nat
  /-- The position whose turn it is. -/
  current : Nat
  /-- How many turns it has had in this round. -/
  used : Nat
deriving DecidableEq, Repr, Inhabited

namespace Rotation

/-- The beginning of the first round. -/
def start (ratings : List Nat) : Rotation := ⟨ratings, 0, 0⟩

/-- The position whose turn it is, and the rotation after this turn. -/
def next (r : Rotation) : Nat × Rotation :=
  let used := r.used + 1
  if r.ratings.getD r.current 0 ≤ used then
    (r.current, { r with current := (r.current + 1) % r.ratings.length, used := 0 })
  else (r.current, { r with used := used })

end Rotation

end Refutation
