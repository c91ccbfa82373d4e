import Refutation.Decimal.Shortest

/-!
# Numbers as a user writes them

A number of double precision in decimal notation, with or without sign, point and exponent, or one
of the words for infinity and for what is no number.
-/

namespace Refutation

/-- A number of double precision, infinity, or no number. -/
inductive Double where
  | undefined
  | infinite (negative : Bool)
  | finite (negative : Bool) (magnitude : Binary)
deriving DecidableEq, Repr, Inhabited

namespace Double

/-- The digits before and after the point, of which there must be at least one. -/
def scanMantissa (cs : List Char) : Option (List Nat × List Nat × List Char) :=
  let (whole, rest) := Numeral.scanDigits cs
  let (fraction, rest) := match rest with
    | '.' :: rest => Numeral.scanDigits rest
    | rest => ([], rest)
  if whole.isEmpty && fraction.isEmpty then none else some (whole, fraction, rest)

/-- A number without sign, or a word for infinity or for what is no number. -/
def parseUnsigned? (negative : Bool) (cs : List Char) : Option Double :=
  let word := String.ofList (cs.map Char.toLower)
  if word = "nan" then some undefined
  else if word = "inf" ∨ word = "infinity" then some (infinite negative)
  else do
    let (whole, fraction, rest) ← scanMantissa cs
    let (exponent, rest) ← Numeral.scanExponent rest
    guard rest.isEmpty
    match Binary.ofDecimal? (Numeral.valueOf (whole ++ fraction))
      (exponent.getD 0 - fraction.length) with
    | some b => return finite negative b
    | none => return infinite negative

/-- Read a number. -/
def parse? (text : String) : Option Double :=
  match text.toList with
  | '-' :: cs => parseUnsigned? true cs
  | '+' :: cs => parseUnsigned? false cs
  | cs => parseUnsigned? false cs

/-- The text of a number: the shortest decimal without an exponent. -/
def render : Double → String
  | undefined => "NaN"
  | infinite negative => if negative then "-inf" else "inf"
  | finite negative b => { b.plain with negative := negative }.render

end Double

end Refutation
