import Refutation.Token.Basic

/-!
# From text to tokens

`Token.lex` splits a text into tokens.  Layout is skipped before and after every token: spaces, tabs
and line ends, line comments (`%` up to the end of the line) and block comments (`/*` up to the
first `*/`).  Words and numbers are as long as possible.  Splitting never fails: a character that
begins no token becomes a token of its own, which no rule of the grammar accepts.
-/

namespace Refutation

namespace Token

/-! ### Layout -/

/-- A space, a tab or a line end. -/
def isLayout (c : Char) : Bool := c == ' ' || c == '\t' || c == '\r' || c == '\n'

/-- A character of a line comment. -/
def isInLine (c : Char) : Bool := c != '\r' && c != '\n'

/-- What follows the first end of a block comment. -/
def afterBlock? : List Char → Option (List Char)
  | [] => none
  | '*' :: '/' :: cs => some cs
  | _ :: cs => afterBlock? cs

theorem length_dropWhile_le (p : Char → Bool) (cs : List Char) :
    (cs.dropWhile p).length ≤ cs.length :=
  (List.dropWhile_sublist p).length_le

theorem length_afterBlock?_le {cs rest : List Char} (h : afterBlock? cs = some rest) :
    rest.length ≤ cs.length := by
  fun_induction afterBlock? cs with
  | case1 => simp at h
  | case2 cs =>
    obtain rfl : cs = rest := by simpa using h
    simp only [List.length_cons]; omega
  | case3 c cs _ ih =>
    have := ih h
    simp only [List.length_cons]; omega

/-- The text without the layout at its beginning.  A block comment without an end is no layout. -/
def skipLayout : List Char → List Char
  | [] => []
  | '%' :: cs => skipLayout (cs.dropWhile isInLine)
  | '/' :: '*' :: cs =>
    match _h : afterBlock? cs with
    | some rest => skipLayout rest
    | none => '/' :: '*' :: cs
  | c :: cs => if isLayout c then skipLayout cs else c :: cs
termination_by cs => cs.length
decreasing_by
  · have := length_dropWhile_le isInLine cs
    simp only [List.length_cons]; omega
  · have := length_afterBlock?_le _h
    simp only [List.length_cons]; omega
  · simp

theorem length_skipLayout_le (cs : List Char) : (skipLayout cs).length ≤ cs.length := by
  fun_induction skipLayout cs with
  | case1 => simp
  | case2 cs ih =>
    have := length_dropWhile_le isInLine cs
    simp only [List.length_cons]; omega
  | case3 cs rest h ih =>
    have := length_afterBlock?_le h
    simp only [List.length_cons]; omega
  | case4 => simp
  | case5 c cs _ _ _ ih => simp only [List.length_cons]; omega
  | case6 => simp

/-! ### Single tokens -/

/-- The characters of a quoted name and what follows its closing quote.  A backslash must stand
before a backslash or a quote, and takes away its special meaning. -/
def unquote? : List Char → Option (List Char × List Char)
  | [] => none
  | '\'' :: cs => some ([], cs)
  | '\\' :: c :: cs =>
    if c == '\\' || c == '\'' then (unquote? cs).map fun p => (c :: p.1, p.2) else none
  | '\\' :: [] => none
  | c :: cs => (unquote? cs).map fun p => (c :: p.1, p.2)

theorem length_unquote?_le {cs name rest : List Char} (h : unquote? cs = some (name, rest)) :
    rest.length ≤ cs.length := by
  fun_induction unquote? cs generalizing name with
  | case1 => simp at h
  | case2 cs =>
    obtain ⟨-, rfl⟩ : [] = name ∧ cs = rest := by simpa using h
    simp
  | case3 c cs _ ih =>
    obtain ⟨⟨n, r⟩, hp, he⟩ := Option.map_eq_some_iff.1 h
    obtain ⟨-, rfl⟩ : c :: n = name ∧ r = rest := by simpa using he
    have := ih hp
    simp only [List.length_cons]; omega
  | case4 => simp at h
  | case5 => simp at h
  | case6 c cs _ _ _ ih =>
    obtain ⟨⟨n, r⟩, hp, he⟩ := Option.map_eq_some_iff.1 h
    obtain ⟨-, rfl⟩ : c :: n = name ∧ r = rest := by simpa using he
    have := ih hp
    simp only [List.length_cons]; omega

/-- The word of a first character and the characters after it that satisfy `p`. -/
def word (p : Char → Bool) (c : Char) (cs : List Char) : String :=
  String.ofList (c :: cs.takeWhile p)

/-- The token at the beginning of the text `c :: cs`, and what follows it. -/
def scan (c : Char) (cs : List Char) : Token × List Char :=
  if c.isLower then (.lower (word Symbol.isWordChar c cs), cs.dropWhile Symbol.isWordChar)
  else if Symbol.isVariableStart c then
    (.upper (word Symbol.isWordChar c cs), cs.dropWhile Symbol.isWordChar)
  else if c.isDigit then (.number (word Char.isDigit c cs), cs.dropWhile Char.isDigit)
  else
    match c, cs with
    | '(', _ => (.openParen, cs)
    | ')', _ => (.closeParen, cs)
    | '[', _ => (.openBracket, cs)
    | ']', _ => (.closeBracket, cs)
    | ',', _ => (.comma, cs)
    | '.', _ => (.dot, cs)
    | ':', _ => (.colon, cs)
    | '|', _ => (.bar, cs)
    | '~', _ => (.tilde, cs)
    | '=', _ => (.equal, cs)
    | '!', '=' :: rest => (.notEqual, rest)
    | '$', d :: rest =>
      if d.isLower then (.dollar (word Symbol.isWordChar d rest), rest.dropWhile Symbol.isWordChar)
      else (.stray c, cs)
    | '\'', _ =>
      match unquote? cs with
      | some (d :: name, rest) => (.quoted (String.ofList (d :: name)), rest)
      | _ => (.stray c, cs)
    | _, _ => (.stray c, cs)

theorem length_scan_le (c : Char) (cs : List Char) : (scan c cs).2.length ≤ cs.length := by
  unfold scan
  split
  · exact length_dropWhile_le _ _
  split
  · exact length_dropWhile_le _ _
  split
  · exact length_dropWhile_le _ _
  split <;> try exact Nat.le_refl _
  · simp
  · split
    · have := length_dropWhile_le Symbol.isWordChar ‹List Char›
      simp only [List.length_cons]; omega
    · exact Nat.le_refl _
  · split
    · next h => exact length_unquote?_le h
    · exact Nat.le_refl _

/-! ### The whole text -/

/-- The tokens of a text, each with the text from its first character on. -/
def lex (cs : List Char) : List (Token × List Char) :=
  match _h : skipLayout cs with
  | [] => []
  | c :: rest => ((scan c rest).1, c :: rest) :: lex (scan c rest).2
termination_by cs.length
decreasing_by
  have h1 := length_skipLayout_le cs
  have h2 := length_scan_le c rest
  rw [_h, List.length_cons] at h1
  omega

end Token

end Refutation
