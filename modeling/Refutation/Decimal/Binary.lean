import Refutation.Decimal.Numeral

/-!
# Binary numbers of limited precision

A `Binary` is a number `m · 2 ^ e` with at most 53 bits in `m`: the non-negative numbers of double
precision, computed with exactly.  Every operation rounds the exact result to the nearest such
number, a tie going to the even significand, and fails if the result is too large.
-/

namespace Refutation

/-- Where a number goes that lies in the middle between two neighbours. -/
inductive Tie where
  /-- To the even neighbour. -/
  | toEven
  /-- To the greater neighbour. -/
  | up
deriving DecidableEq, Repr, Inhabited

/-- The integer nearest to a quotient. -/
def roundQuotient (tie : Tie) (num den : Nat) : Nat :=
  let q := num / den
  let r := num % den
  if 2 * r < den then q
  else if den < 2 * r then q + 1
  else
    match tie with
    | .toEven => if q % 2 = 0 then q else q + 1
    | .up => q + 1

/-- A number `significand · 2 ^ exponent`. -/
structure Binary where
  /-- The significand. -/
  significand : Nat
  /-- The exponent of two. -/
  exponent : Int
deriving DecidableEq, Repr, Inhabited

namespace Binary

/-- The number of bits of a significand. -/
def precision : Nat := 53

/-- The least exponent. -/
def minExponent : Int := -1074

/-- All numbers are below this power of two. -/
def maxPower : Int := 1024

def zero : Binary := ⟨0, minExponent⟩

/-- The quotient `num / den` divided by `2 ^ e`, as a numerator and a denominator. -/
def scale (num den : Nat) (e : Int) : Nat × Nat :=
  if 0 ≤ e then (num, den * Nat.pow 2 e.toNat) else (num * Nat.pow 2 (-e).toNat, den)

/-- The exponent with which a positive quotient has a significand of full precision, or the least
one. -/
def exponentFor (num den : Nat) : Int :=
  let e := max ((num.log2 : Int) - den.log2 - precision) minExponent
  let (n, d) := scale num den e
  if Nat.pow 2 precision ≤ n / d then e + 1 else e

/-- The number nearest to a quotient. -/
def ofRatio? (num den : Nat) : Option Binary :=
  if num = 0 then some zero
  else
    let e := exponentFor num den
    let (n, d) := scale num den e
    let m := roundQuotient .toEven n d
    let b : Binary := if m = Nat.pow 2 precision then ⟨Nat.pow 2 (precision - 1), e + 1⟩ else ⟨m, e⟩
    if b.exponent + b.significand.log2 < maxPower then some b else none

/-- The number nearest to a natural number. -/
def ofNat? (n : Nat) : Option Binary := ofRatio? n 1

/-- The number as a numerator and a denominator. -/
def toRatio (b : Binary) : Nat × Nat :=
  if 0 ≤ b.exponent then (b.significand * Nat.pow 2 b.exponent.toNat, 1)
  else (b.significand, Nat.pow 2 (-b.exponent).toNat)

/-- The rounded sum. -/
def add? (a b : Binary) : Option Binary :=
  let (n, d) := a.toRatio
  let (n', d') := b.toRatio
  ofRatio? (n * d' + n' * d) (d * d')

/-- The rounded product. -/
def mul? (a b : Binary) : Option Binary :=
  let (n, d) := a.toRatio
  let (n', d') := b.toRatio
  ofRatio? (n * n') (d * d')

/-- The rounded quotient of a number by a positive one. -/
def div? (a b : Binary) : Option Binary :=
  let (n, d) := a.toRatio
  let (n', d') := b.toRatio
  ofRatio? (n * d') (d * n')

/-- The number nearest to `digits · 10 ^ e`. -/
def ofDecimal? (digits : Nat) (e : Int) : Option Binary :=
  let size : Int := (Numeral.digitsOf digits).length + e
  if digits = 0 ∨ size < -400 then some zero
  else if 400 < size then none
  else if 0 ≤ e then ofRatio? (digits * Nat.pow 10 e.toNat) 1
  else ofRatio? digits (Nat.pow 10 (-e).toNat)

end Binary

end Refutation
