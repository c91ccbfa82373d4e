/-!
# Tokens of the clause notation

The clause notation is written with a small set of tokens: words, numbers, quoted names and
punctuation.  Printing a term, a literal or a clause means listing its tokens; `Token.spellAll`
turns the list into text.  Names that are neither lower-case words nor numbers are quoted.
-/

namespace Refutation

namespace Symbol

/-- The character of a word after its first one. -/
def isWordChar (c : Char) : Bool := c.isAlphanum || c == '_'

/-- The character that may begin a variable. -/
def isVariableStart (c : Char) : Bool := c.isUpper || c == '_'

/-- A lower-case letter followed by word characters. -/
def isLowerWord (name : String) : Bool :=
  match name.toList with
  | [] => false
  | c :: cs => c.isLower && cs.all isWordChar

/-- One or more digits. -/
def isNumber (name : String) : Bool :=
  match name.toList with
  | [] => false
  | c :: cs => c.isDigit && cs.all Char.isDigit

/-- The name can be written without quotes. -/
def isPlain (name : String) : Bool := isLowerWord name || isNumber name

/-- The name begins like a variable. -/
def isVariableName (name : String) : Bool := name.toList.head?.any isVariableStart

/-- The characters of a quoted name: a backslash stands before each backslash and quote. -/
def escape : List Char → List Char
  | [] => []
  | c :: cs => if c == '\\' || c == '\'' then '\\' :: c :: escape cs else c :: escape cs

/-- The name in single quotes. -/
def quoted (name : String) : String :=
  String.ofList ('\'' :: escape name.toList ++ ['\''])

end Symbol

/-- The tokens of the clause notation. -/
inductive Token where
  /-- A word that begins with a lower-case letter. -/
  | lower (word : String)
  /-- A word that begins with an upper-case letter or an underscore. -/
  | upper (word : String)
  /-- A run of digits. -/
  | number (digits : String)
  /-- A name in single quotes; the token holds the name itself. -/
  | quoted (name : String)
  /-- A dollar sign and a lower-case word; the token holds the word. -/
  | dollar (word : String)
  | openParen
  | closeParen
  | openBracket
  | closeBracket
  | comma
  | dot
  | colon
  | bar
  | tilde
  | equal
  | notEqual
  /-- A character that begins no other token. -/
  | stray (char : Char)
deriving DecidableEq, Repr, Inhabited

namespace Token

/-- The text of a token. -/
def spell : Token → String
  | lower word => word
  | upper word => word
  | number digits => digits
  | quoted name => Symbol.quoted name
  | dollar word => "$" ++ word
  | openParen => "("
  | closeParen => ")"
  | openBracket => "["
  | closeBracket => "]"
  | comma => ","
  | dot => "."
  | colon => ":"
  | bar => "|"
  | tilde => "~"
  | equal => "="
  | notEqual => "!="
  | stray char => String.singleton char

/-- The text of a list of tokens, with nothing between them. -/
def spellAll (tokens : List Token) : String := String.join (tokens.map spell)

/-- The token that writes a name: the bare name if it is plain, the quoted name otherwise. -/
def ofName (name : String) : Token :=
  if Symbol.isLowerWord name then lower name
  else if Symbol.isNumber name then number name
  else quoted name

/-- The name that a token writes. -/
def name? : Token → Option String
  | lower word => some word
  | number digits => some digits
  | quoted name => some name
  | _ => none

/-- The lists of `groups`, separated by the token `sep`. -/
def separated (sep : Token) : List (List Token) → List Token
  | [] => []
  | [group] => group
  | group :: groups => group ++ sep :: separated sep groups

@[simp] theorem name?_ofName (name : String) : (ofName name).name? = some name := by
  unfold ofName
  split
  · rfl
  · split <;> rfl

end Token

end Refutation
