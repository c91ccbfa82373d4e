import Refutation.Decimal.Binary
import Refutation.Json.Basic

/-!
# Taking JSON values apart

Functions that take a JSON value for a value of another type.  A record is written as an object with
its fields in any order, or as an array of the fields in order; fields that it does not have are
skipped, and repeated ones are refused.  A plain choice is written as its name, or as an object with
the name and null.
-/

namespace Refutation

namespace Json

/-- How deeply the brackets of a value may be nested. -/
def maxDepth : Nat := 127

def asBool? : Json → Option Bool
  | bool b => some b
  | _ => none

def asString? : Json → Option String
  | string s => some s
  | _ => none

def asStrings? : Json → Option (List String)
  | array items => items.mapM asString?
  | _ => none

/-- A value that may be null. -/
def asOption? {α : Type} (f : Json → Option α) : Json → Option (Option α)
  | null => some none
  | j => (f j).map some

/-- A choice by name. -/
def asChoice? {α : Type} (ofName? : String → Option α) : Json → Option α
  | string name => ofName? name
  | object [(name, null)] => ofName? name
  | _ => none

/-! ### Numbers -/

/-- The largest number of 64 bits. -/
def maxWord : Nat := Nat.pow 2 64 - 1

/-- A natural number of at most 64 bits, written without point and exponent. -/
def asNat? : Json → Option Nat
  | number n =>
    let value := Numeral.valueOf n.whole
    if n.isInteger && !n.negative && value ≤ maxWord then some value else none
  | _ => none

/-- Append digits to a number as long as it stays below 64 bits; the second result counts the digits
that were left. -/
def appendDigits : (n : Nat) → List Nat → Nat × Nat
  | n, [] => (n, 0)
  | n, d :: ds => if 10 * n + d ≤ maxWord then appendDigits (10 * n + d) ds else (n, ds.length + 1)

/-- The leading digits of a numeral as a number of 64 bits, and the power of ten that it is to be
multiplied with. -/
def significand (n : Numeral) : Nat × Int :=
  let (whole, left) := appendDigits 0 n.whole
  let (digits, dropped) := appendDigits whole n.fraction
  (digits, (left : Int) - (n.fraction.length - dropped : Nat) + n.exponent.getD 0)

/-- The largest power of ten that is a number of double precision. -/
def maxTen : Nat := 308

/-- A power of ten, rounded. -/
def ten (n : Nat) : Binary := (Binary.ofNat? (Nat.pow 10 n)).getD .zero

/-- Divide several times by the largest power of ten. -/
def divideOften : (times : Nat) → Binary → Option Binary
  | 0, b => some b
  | times + 1, b => (b.div? (ten maxTen)).bind (divideOften times)

/-- Multiply by a power of ten: with one multiplication or division if the power is a number of
double precision; a smaller power is taken off piece by piece, and three pieces leave nothing of a
number of 64 bits. -/
def shift (b : Binary) (e : Int) : Option Binary :=
  if b.significand = 0 then some b
  else if 0 ≤ e then if e ≤ maxTen then b.mul? (ten e.toNat) else none
  else
    let n := (-e).toNat
    let pieces := (n - 1) / maxTen
    (divideOften (min pieces 3) b).bind fun b => b.div? (ten (n - pieces * maxTen))

/-- A number of double precision: whether it is negative, and its size.  The leading digits are
rounded before they are multiplied by the power of ten. -/
def asDouble? : Json → Option (Bool × Binary)
  | number n => do
    let (digits, e) := significand n
    let b ← Binary.ofNat? digits
    return (n.negative, ← shift b e)
  | _ => none

/-! ### Records -/

/-- The values of the named fields of a record, each absent if it is not there. -/
def record? (names : List String) : Json → Option (List (Option Json))
  | object fields =>
    let known := (fields.map (·.1)).filter names.contains
    if known.eraseDups.length = known.length then some (names.map fun name => fields.lookup name)
    else none
  | array items =>
    if items.length ≤ names.length then some ((List.range names.length).map fun i => items[i]?)
    else none
  | _ => none

/-- A record given as an array has all of its fields. -/
def isComplete (names : List String) : Json → Bool
  | array items => items.length = names.length
  | _ => true

end Json

end Refutation
