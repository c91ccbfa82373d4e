import Refutation.Json.Basic
import Refutation.Json.Lexer
import Refutation.Parsed

/-!
# Reading JSON

`Json.parse` reads a text that consists of one JSON value.
-/

namespace Refutation

namespace Json

/-- The object with the given fields, unless a field name has no meaning. -/
def ofFields (fields : List (Option String × Json)) : Json :=
  match fields.mapM fun f => f.1.map (·, f.2) with
  | some fields => object fields
  | none => unusable

/-- Read a value that is neither an array nor an object. -/
def readAtom : (ts : List Token) → Option (Parsed Json ts)
  | .null :: rest => some (.first null .null rest)
  | .bool b :: rest => some (.first (bool b) (.bool b) rest)
  | .number n :: rest => some (.first (number n) (.number n) rest)
  | .string s :: rest => some (.first (string s) (.string s) rest)
  | .brokenString :: rest => some (.first unusable .brokenString rest)
  | _ => none

/-- Read the name of a field and the colon after it. -/
def readFieldName : (ts : List Token) → Option (Parsed (Option String) ts)
  | .string s :: rest => (Parsed.first (some s) (.string s) rest).token? .colon
  | .brokenString :: rest => (Parsed.first none .brokenString rest).token? .colon
  | _ => none

mutual

/-- Read a value. -/
def readValue (ts : List Token) : Option (Parsed Json ts) :=
  match readToken .openBracket ts with
  | some opened =>
    match opened.token? .closeBracket with
    | some closed => some (closed.map fun _ => array [])
    | none =>
      match readItems opened.rest with
      | none => none
      | some items => ((opened.after items).token? .closeBracket).map fun p => p.map array
  | none =>
    match readToken .openBrace ts with
    | some opened =>
      match opened.token? .closeBrace with
      | some closed => some (closed.map fun _ => object [])
      | none =>
        match readFields opened.rest with
        | none => none
        | some fields => ((opened.after fields).token? .closeBrace).map fun p => p.map ofFields
    | none => readAtom ts
termination_by (ts.length, 0)
decreasing_by all_goals exact Prod.Lex.left _ _ opened.shorter

/-- Read one or more values separated by commas. -/
def readItems (ts : List Token) : Option (Parsed (List Json) ts) :=
  match readValue ts with
  | none => none
  | some item =>
    match item.token? .comma with
    | none => some (item.map ([·]))
    | some next =>
      match readItems next.rest with
      | none => none
      | some items => some ((next.after items).map (item.value :: ·))
termination_by (ts.length, 1)
decreasing_by
  · exact Prod.Lex.right _ Nat.zero_lt_one
  · exact Prod.Lex.left _ _ next.shorter

/-- Read one or more fields separated by commas. -/
def readFields (ts : List Token) : Option (Parsed (List (Option String × Json)) ts) :=
  match readFieldName ts with
  | none => none
  | some name =>
    match readValue name.rest with
    | none => none
    | some value =>
      let field := (name.after value).map (name.value, ·)
      match field.token? .comma with
      | none => some (field.map ([·]))
      | some next =>
        match readFields next.rest with
        | none => none
        | some fields => some ((next.after fields).map (field.value :: ·))
termination_by (ts.length, 1)
decreasing_by
  · exact Prod.Lex.left _ _ name.shorter
  · exact Prod.Lex.left _ _ next.shorter

end

/-- Read a text that consists of one value. -/
def parse (text : String) : Option Json := do
  let p ← readValue (lex text.toList)
  if p.rest.isEmpty then some p.value else none

end Json

end Refutation
