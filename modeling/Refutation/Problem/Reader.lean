import Refutation.Problem.Grammar
import Refutation.Text.Blank
import Refutation.Token.Lexer
import Refutation.Verdict

/-!
# Problem texts

A problem text is a sequence of statements, each a clause, with layout around its tokens.  A comment
line `% Status : …` states the expected verdict.

`readClauses` reads all clauses of a text.  A statement that cannot be read is reported with the
number of the line on which it begins and its first characters.
-/

namespace Refutation

/-- A problem: its clauses and, if stated, the expected verdict. -/
structure Problem where
  /-- The clauses. -/
  clauses : List Clause
  /-- The verdict stated in the text. -/
  expected : Option Verdict
deriving DecidableEq, Repr, Inhabited

/-- The number of the line on which the end `rest` of a text begins, where `total` is the number of
line feeds in the whole text. -/
def lineOf (total : Nat) (rest : List Char) : Nat := total - Text.lineFeeds rest + 1

/-- The keywords of statements that are recognised but not read. -/
def unsupportedKeywords : List String := ["fof", "tff", "thf", "include"]

/-- The text opens a statement with the given keyword; blanks may stand before the parenthesis. -/
def opensStatement (keyword : String) (text : List Char) : Bool :=
  match Text.after? keyword.toList text with
  | some rest => (Text.trimStart rest).head? = some '('
  | none => false

/-- How many characters of a statement are shown when it cannot be read. -/
def snippetLength : Nat := 40

/-- The beginning of a statement, as shown in a message. -/
def snippet (text : List Char) : String :=
  String.ofList (Text.trimEnd (text.take snippetLength))

/-- Read statements until the tokens end.  `starts` holds for each token the text from it on, and
`total` is the number of line feeds in the whole text. -/
def readStatements (total : Nat) (ts : List Token) (starts : List (List Char)) :
    Except Error (List Clause) :=
  match ts with
  | [] => .ok []
  | t :: ts =>
    let text := starts.headD []
    match unsupportedKeywords.find? fun k => opensStatement k text with
    | some keyword => .error (.unsupported (lineOf total text) keyword)
    | none =>
      match readStatement (t :: ts) with
      | none => .error (.invalidClause (lineOf total text) (snippet text))
      | some first => do
        let others ← readStatements total first.rest
          (starts.drop ((t :: ts).length - first.rest.length))
        return first.value :: others
termination_by ts.length
decreasing_by exact first.shorter

/-- Read the clauses of a text. -/
def readClauses (text : String) : Except Error (List Clause) :=
  let cs := text.toList
  let lexemes := Token.lex cs
  readStatements (Text.lineFeeds cs) (lexemes.map (·.1)) (lexemes.map (·.2))

/-- The value of a comment line that states the verdict: what follows the first colon, if the
comment says `Status` before it. -/
def statusValue? (line : List Char) : Option (List Char) :=
  match Text.trimStart line with
  | '%' :: comment =>
    match comment.dropWhile (· != ':') with
    | ':' :: value =>
      if Text.trim (comment.takeWhile (· != ':')) = "Status".toList then some value else none
    | _ => none
  | _ => none

/-- The verdict stated by the first line that states one. -/
def readStatus (text : String) : Except Error (Option Verdict) :=
  match (Text.lines text.toList).findSome? statusValue? with
  | none => .ok none
  | some value => (Verdict.parse (String.ofList (Text.firstWord value))).map some

/-- Read a problem: first the stated verdict, then the clauses. -/
def readProblem (text : String) : Except Error Problem := do
  let expected ← readStatus text
  let clauses ← readClauses text
  return ⟨clauses, expected⟩

end Refutation
