/-!
# Blanks, lines and words

The white space of Unicode and the few operations on text that depend on it: trimming, splitting
into words, splitting into lines.  Everything works on lists of characters.
-/

namespace Refutation

namespace Text

/-- The characters with the Unicode property `White_Space`. -/
def isBlank (c : Char) : Bool :=
  let n := c.toNat
  (9 ≤ n && n ≤ 13) || n == 0x20 || n == 0x85 || n == 0xa0 || n == 0x1680 ||
    (0x2000 ≤ n && n ≤ 0x200a) || n == 0x2028 || n == 0x2029 || n == 0x202f || n == 0x205f ||
    n == 0x3000

/-- The text without its leading blanks. -/
def trimStart (cs : List Char) : List Char := cs.dropWhile isBlank

/-- The text without its trailing blanks. -/
def trimEnd (cs : List Char) : List Char := (trimStart cs.reverse).reverse

/-- The text without leading and trailing blanks. -/
def trim (cs : List Char) : List Char := trimEnd (trimStart cs)

/-- The first maximal run of characters that are not blank; empty if all are blank. -/
def firstWord (cs : List Char) : List Char := (trimStart cs).takeWhile fun c => !isBlank c

/-- What follows `start`, if the text begins with it. -/
def after? : (start cs : List Char) → Option (List Char)
  | [], cs => some cs
  | _ :: _, [] => none
  | a :: start, c :: cs => if a = c then after? start cs else none

/-- A line without the carriage return that ends it. -/
def dropReturn (line : List Char) : List Char :=
  if line.getLast? = some '\r' then line.dropLast else line

/-- The lines of a text.  A line ends at a line feed, which together with a carriage return before
it is not part of the line; nothing follows a final line feed. -/
def lines (cs : List Char) : List (List Char) :=
  go [] cs
where
  /-- The lines of `cs`, where `current` holds the characters before it on its line, reversed. -/
  go (current : List Char) : List Char → List (List Char)
    | [] => if current.isEmpty then [] else [current.reverse]
    | '\n' :: cs => dropReturn current.reverse :: go [] cs
    | c :: cs => go (c :: current) cs

/-- The number of line feeds. -/
def lineFeeds (cs : List Char) : Nat := cs.count '\n'

theorem after?_eq_some_iff {start cs rest : List Char} :
    after? start cs = some rest ↔ cs = start ++ rest := by
  induction start generalizing cs with
  | nil => simp [after?, eq_comm]
  | cons a start ih =>
    cases cs with
    | nil => simp [after?]
    | cons c cs => by_cases h : a = c <;> simp [after?, h, ih, eq_comm]

end Text

end Refutation
