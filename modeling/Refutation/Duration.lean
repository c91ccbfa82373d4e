import Refutation.Decimal.Double
import Refutation.Error

/-!
# Durations

A duration is a number of nanoseconds, with fewer than `2 ^ 64` seconds.  Outside of the program it
is a number of seconds in double precision.
-/

namespace Refutation

/-- A length of time. -/
structure Duration where
  /-- The number of nanoseconds. -/
  nanoseconds : Nat
deriving DecidableEq, Repr, Inhabited

namespace Duration

/-- No time at all. -/
def zero : Duration := ⟨0⟩

instance : LE Duration := ⟨fun a b => a.nanoseconds ≤ b.nanoseconds⟩

instance (a b : Duration) : Decidable (a ≤ b) :=
  inferInstanceAs (Decidable (a.nanoseconds ≤ b.nanoseconds))

/-- The number of nanoseconds in a second. -/
def perSecond : Nat := Nat.pow 10 9

/-- The duration of the given number of seconds, rounded to nanoseconds; `none` if it is too
long. -/
def ofSeconds? (b : Binary) : Option Duration :=
  let (num, den) := b.toRatio
  if Nat.pow 2 64 * den ≤ num then none else some ⟨roundQuotient .toEven (num * perSecond) den⟩

/-- The duration that a user asks for. -/
def ofDouble : Double → Except LimitFault Duration
  | .undefined => .error .tooLargeOrUndefined
  | .infinite negative => .error (if negative then .negative else .tooLargeOrUndefined)
  | .finite negative b =>
    if negative && b.significand ≠ 0 then .error .negative
    else
      match ofSeconds? b with
      | some d => .ok d
      | none => .error .tooLargeOrUndefined

/-- The number of seconds: the whole seconds plus the fraction, each in double precision. -/
def toSeconds (d : Duration) : Binary :=
  (do
    let whole ← Binary.ofNat? (d.nanoseconds / perSecond)
    let fraction ← Binary.ofRatio? (d.nanoseconds % perSecond) perSecond
    whole.add? fraction).getD .zero

end Duration

end Refutation
