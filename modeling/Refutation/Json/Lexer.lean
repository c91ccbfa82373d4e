import Refutation.Decimal.Numeral

/-!
# Tokens of JSON

The tokens of a JSON text and the function that finds them.  The text may have spaces, tabs and line
breaks between tokens.  Where anything else begins no token, the list of tokens ends with a mark
that belongs to no value, so what stands before it can still be read.
-/

namespace Refutation

namespace Json

/-- The tokens of a JSON text. -/
inductive Token where
  | openBrace
  | closeBrace
  | openBracket
  | closeBracket
  | comma
  | colon
  | null
  | bool (value : Bool)
  | number (value : Numeral)
  | string (value : String)
  /-- A string in which half of a surrogate pair stands alone. -/
  | brokenString
  /-- The rest of the text begins with no token. -/
  | unreadable
deriving DecidableEq, Repr, Inhabited

/-- The characters between tokens. -/
def isLayout (c : Char) : Bool := c = ' ' || c = '\n' || c = '\t' || c = '\r'

/-- The text after a word, if it begins with the word. -/
def afterWord? : (word cs : List Char) → Option (List Char)
  | [], cs => some cs
  | _ :: _, [] => none
  | w :: word, c :: cs => if w = c then afterWord? word cs else none

/-! ### Strings -/

/-- The value of a hexadecimal digit. -/
def hexValue? (c : Char) : Option Nat :=
  if c.isDigit then some (c.toNat - '0'.toNat)
  else if 'a' ≤ c ∧ c ≤ 'f' then some (c.toNat - 'a'.toNat + 10)
  else if 'A' ≤ c ∧ c ≤ 'F' then some (c.toNat - 'A'.toNat + 10)
  else none

/-- The number written by four hexadecimal digits. -/
def hexQuad? (a b c d : Char) : Option Nat := do
  return ((← hexValue? a) * 16 + (← hexValue? b)) * 256 + (← hexValue? c) * 16 + (← hexValue? d)

/-- The character that a letter after a backslash stands for. -/
def unescape? : Char → Option Char
  | '"' => some '"'
  | '\\' => some '\\'
  | '/' => some '/'
  | 'b' => some (Char.ofNat 8)
  | 'f' => some (Char.ofNat 12)
  | 'n' => some '\n'
  | 'r' => some '\r'
  | 't' => some '\t'
  | _ => none

/-- A code unit of a string: a character, or a number given in hexadecimal. -/
inductive CodeUnit where
  | char (c : Char)
  | hex (n : Nat)
deriving DecidableEq, Repr, Inhabited

/-- The units of a string up to the closing quote, and the text after it. -/
def scanString : List Char → Option (List CodeUnit × List Char)
  | [] => none
  | '"' :: rest => some ([], rest)
  | '\\' :: 'u' :: a :: b :: c :: d :: rest =>
    match hexQuad? a b c d, scanString rest with
    | some n, some (units, rest) => some (.hex n :: units, rest)
    | _, _ => none
  | '\\' :: c :: rest =>
    match unescape? c, scanString rest with
    | some c, some (units, rest) => some (.char c :: units, rest)
    | _, _ => none
  | c :: rest =>
    if c.toNat < 32 || c = '\\' then none
    else
      match scanString rest with
      | some (units, rest) => some (.char c :: units, rest)
      | none => none

/-- The number is the first half of a surrogate pair. -/
def isHighSurrogate (n : Nat) : Bool := 0xd800 ≤ n && n < 0xdc00

/-- The number is the second half of a surrogate pair. -/
def isLowSurrogate (n : Nat) : Bool := 0xdc00 ≤ n && n < 0xe000

/-- The characters of a string; `none` if half of a surrogate pair stands alone. -/
def decodeUnits : List CodeUnit → Option (List Char)
  | [] => some []
  | .char c :: units => (decodeUnits units).map (c :: ·)
  | .hex n :: .hex m :: units =>
    if isHighSurrogate n && isLowSurrogate m then
      (decodeUnits units).map (Char.ofNat (0x10000 + (n - 0xd800) * 0x400 + (m - 0xdc00)) :: ·)
    else if isHighSurrogate n || isLowSurrogate n then none
    else (decodeUnits (.hex m :: units)).map (Char.ofNat n :: ·)
  | .hex n :: units =>
    if isHighSurrogate n || isLowSurrogate n then none
    else (decodeUnits units).map (Char.ofNat n :: ·)

/-- The token of a string. -/
def stringToken (units : List CodeUnit) : Token :=
  match decodeUnits units with
  | some cs => .string (String.ofList cs)
  | none => .brokenString

/-! ### Numbers -/

/-- The digits before the point: a single zero, or digits that do not begin with zero. -/
def scanWhole : List Char → Option (List Nat × List Char)
  | '0' :: rest => some ([0], rest)
  | cs => Numeral.scanSomeDigits cs

/-- The digits after the point, if there is a point. -/
def scanFraction : List Char → Option (List Nat × List Char)
  | '.' :: rest => Numeral.scanSomeDigits rest
  | cs => some ([], cs)

/-- A number without its sign. -/
def scanUnsigned (negative : Bool) (cs : List Char) : Option (Numeral × List Char) := do
  let (whole, cs) ← scanWhole cs
  let (fraction, cs) ← scanFraction cs
  let (exponent, cs) ← Numeral.scanExponent cs
  return (⟨negative, whole, fraction, exponent⟩, cs)

/-- A number. -/
def scanNumber : List Char → Option (Numeral × List Char)
  | '-' :: rest => scanUnsigned true rest
  | cs => scanUnsigned false cs

/-! ### Tokens -/

/-- The token at the beginning of a text without leading layout, and the text after it. -/
def scanToken : List Char → Option (Token × List Char)
  | '\x7b' :: rest => some (.openBrace, rest)
  | '\x7d' :: rest => some (.closeBrace, rest)
  | '[' :: rest => some (.openBracket, rest)
  | ']' :: rest => some (.closeBracket, rest)
  | ',' :: rest => some (.comma, rest)
  | ':' :: rest => some (.colon, rest)
  | '"' :: rest => (scanString rest).map fun (units, rest) => (stringToken units, rest)
  | 'n' :: rest => (afterWord? "ull".toList rest).map (.null, ·)
  | 't' :: rest => (afterWord? "rue".toList rest).map (.bool true, ·)
  | 'f' :: rest => (afterWord? "alse".toList rest).map (.bool false, ·)
  | cs => (scanNumber cs).map fun (n, rest) => (.number n, rest)

/-- The tokens of a text; every step must shorten it, so its length bounds the number of steps. -/
def lexWithin : (fuel : Nat) → List Char → List Token
  | 0, cs => if (cs.dropWhile isLayout).isEmpty then [] else [.unreadable]
  | fuel + 1, cs =>
    match cs.dropWhile isLayout with
    | [] => []
    | cs =>
      match scanToken cs with
      | some (t, rest) => t :: lexWithin fuel rest
      | none => [.unreadable]

/-- The tokens of a text. -/
def lex (cs : List Char) : List Token := lexWithin cs.length cs

end Json

end Refutation
