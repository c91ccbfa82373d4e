import Refutation.Decimal.Binary

/-!
# The shortest decimal

`Binary.shortest` finds the decimal number with the fewest digits that reads back as a given binary
number; among those the nearest, and of two equally near the one that the rule for ties says.

Two ways to write it follow.  `Binary.plain` never uses an exponent, and a tie goes up.
`Binary.scientific` uses an exponent for very large and very small numbers and always shows a point
or an exponent, and a tie goes to the even last digit.
-/

namespace Refutation

/-- A decimal number `digits · 10 ^ exponent`. -/
structure Decimal where
  /-- The digits, read as a number. -/
  digits : Nat
  /-- The exponent of ten. -/
  exponent : Int
deriving DecidableEq, Repr, Inhabited

namespace Binary

/-- How many digits a positive quotient has before the point; for a quotient below one tenth minus
the number of zeros after the point. -/
def magnitude (num den : Nat) : Int :=
  if den ≤ num then (Numeral.digitsOf (num / den)).length
  else -(((List.range 400).find? fun j => den ≤ num * Nat.pow 10 (j + 1)).getD 0 : Nat)

/-- The number nearest to a decimal. -/
def ofDecimal (d : Decimal) : Option Binary := ofDecimal? d.digits d.exponent

/-- The nearest decimals with the given exponent that read back as `b`, the better one first. -/
def candidates (tie : Tie) (b : Binary) (e : Int) : List Decimal :=
  let (num, den) := b.toRatio
  let (n, d) := if 0 ≤ e then (num, den * Nat.pow 10 e.toNat)
    else (num * Nat.pow 10 (-e).toNat, den)
  let near := roundQuotient tie n d
  let other := if near = n / d then near + 1 else n / d
  ([near, other].map fun q => ⟨q, e⟩).filter fun c => ofDecimal c = some b

/-- A decimal without zeros at the end. -/
def strip : (fuel : Nat) → Decimal → Decimal
  | 0, d => d
  | fuel + 1, d =>
    if d.digits ≠ 0 ∧ d.digits % 10 = 0 then strip fuel ⟨d.digits / 10, d.exponent + 1⟩ else d

/-- The shortest decimal that reads back as the number. -/
def shortest (tie : Tie) (b : Binary) : Decimal :=
  if b.significand = 0 then ⟨0, 0⟩
  else
    let (num, den) := b.toRatio
    let size := magnitude num den
    let found := (List.range 17).findSome? fun (n : Nat) =>
      (b.candidates tie (size - n - 1)).head?
    strip 17 (found.getD ⟨0, 0⟩)

/-- The decimal written without an exponent; `pad` are the digits after the point of an integer. -/
def positional (d : Decimal) (pad : List Nat) : Numeral :=
  let digits := Numeral.digitsOf d.digits
  let point := (digits.length : Int) + d.exponent
  if 0 ≤ d.exponent then ⟨false, digits ++ List.replicate d.exponent.toNat 0, pad, none⟩
  else if 0 < point then ⟨false, digits.take point.toNat, digits.drop point.toNat, none⟩
  else ⟨false, [0], List.replicate (-point).toNat 0 ++ digits, none⟩

/-- The shortest decimal without an exponent. -/
def plain (b : Binary) : Numeral := positional (b.shortest .up) []

/-- The shortest decimal, with an exponent unless the point falls among the first 16 places or at
most five places before the first digit; an integer without exponent is written with one zero after
the point. -/
def scientific (b : Binary) : Numeral :=
  let d := b.shortest .toEven
  let digits := Numeral.digitsOf d.digits
  let point := (digits.length : Int) + d.exponent
  if b.significand = 0 ∨ (-5 < point ∧ point ≤ 16) then positional d [0]
  else ⟨false, digits.take 1, digits.drop 1, some (point - 1)⟩

end Binary

end Refutation
