/-!
# Decimal numerals

A numeral is a number as it is written: a sign, the digits before and after the point, and an
exponent of ten.
-/

namespace Refutation

/-- A number as it is written. -/
structure Numeral where
  /-- A minus sign stands before it. -/
  negative : Bool
  /-- The digits before the point. -/
  whole : List Nat
  /-- The digits after the point; without any there is no point. -/
  fraction : List Nat
  /-- The exponent of ten. -/
  exponent : Option Int
deriving DecidableEq, Repr, Inhabited

namespace Numeral

/-- The decimal digits of a number. -/
def digitsOf (n : Nat) : List Nat := (Nat.toDigits 10 n).map fun c => c.toNat - '0'.toNat

/-- The number with the given decimal digits. -/
def valueOf (digits : List Nat) : Nat := digits.foldl (fun n d => 10 * n + d) 0

/-- The numeral of a natural number. -/
def ofNat (n : Nat) : Numeral := ⟨false, digitsOf n, [], none⟩

/-- The text of a list of digits. -/
def renderDigits (digits : List Nat) : String := String.ofList (digits.map Nat.digitChar)

/-- The text of an exponent, with its sign. -/
def renderExponent (e : Int) : String := (if 0 ≤ e then "e+" else "e") ++ toString e

/-- The text of a numeral. -/
def render (n : Numeral) : String :=
  (if n.negative then "-" else "") ++ renderDigits n.whole ++
    (if n.fraction.isEmpty then "" else "." ++ renderDigits n.fraction) ++
    (n.exponent.map renderExponent).getD ""

/-- The numeral is written without point and exponent. -/
def isInteger (n : Numeral) : Bool := n.fraction.isEmpty && n.exponent.isNone

/-- The digits at the beginning of a text, and what follows them. -/
def scanDigits (cs : List Char) : List Nat × List Char :=
  ((cs.takeWhile Char.isDigit).map fun c => c.toNat - '0'.toNat, cs.dropWhile Char.isDigit)

/-- One or more digits. -/
def scanSomeDigits (cs : List Char) : Option (List Nat × List Char) :=
  match scanDigits cs with
  | ([], _) => none
  | scanned => some scanned

/-- The digits of an exponent after its sign. -/
def scanPower (negative : Bool) (cs : List Char) : Option (Option Int × List Char) :=
  (scanSomeDigits cs).map fun (digits, rest) =>
    let value : Int := valueOf digits
    (some (if negative then -value else value), rest)

/-- An exponent, if there is one; `none` if the mark of an exponent is not followed by digits. -/
def scanExponent : List Char → Option (Option Int × List Char)
  | 'e' :: rest | 'E' :: rest =>
    match rest with
    | '+' :: rest => scanPower false rest
    | '-' :: rest => scanPower true rest
    | rest => scanPower false rest
  | cs => some (none, cs)

end Numeral

end Refutation
