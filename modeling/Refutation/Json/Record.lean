import Refutation.Json.Reader

/-!
# Records, field by field

A record is an object with the fields in any order, or an array with the values of the fields in
order.  `Json.readRecord` lists the values in the order of the text, as far as it can be read.  So
whoever takes the values one after the other reports the first fault of the text, whether it lies in
a value or in the text around the values.
-/

namespace Refutation

namespace Json

/-- A record as far as it can be read. -/
structure Record where
  /-- The values in the order of the text, each with the name that stands before it in an object or
  that belongs to its place in an array; `none` if the name has no meaning or the place belongs to
  no field. -/
  fields : List (Option String × Json)
  /-- The record is closed and nothing follows it. -/
  isComplete : Bool
deriving Inhabited

namespace Record

/-- A record that breaks off. -/
def brokenOff : Record := ⟨[], false⟩

/-- A record with one more value at the front. -/
def cons (name : Option String) (value : Json) (r : Record) : Record :=
  ⟨(name, value) :: r.fields, r.isComplete⟩

/-- What is left of a record when no value follows: the closing bracket, which must be the last
token. -/
def ending (closing : Token) (ts : List Token) : Record := ⟨[], ts = [closing]⟩

end Record

/-- Read the fields of an object, at least one. -/
def recordOfFields (ts : List Token) : Record :=
  match readFieldName ts with
  | none => .brokenOff
  | some name =>
    match readValue name.rest with
    | none => .brokenOff
    | some value =>
      let field := name.after value
      match field.token? .comma with
      | some next => .cons name.value value.value (recordOfFields next.rest)
      | none => .cons name.value value.value (.ending .closeBrace field.rest)
termination_by ts.length
decreasing_by exact next.shorter

/-- Read the items of an array, at least one, as the values of the named fields. -/
def recordOfItems (names : List String) (ts : List Token) : Record :=
  match readValue ts with
  | none => .brokenOff
  | some value =>
    match value.token? .comma with
    | some next => .cons names.head? value.value (recordOfItems names.tail next.rest)
    | none => .cons names.head? value.value (.ending .closeBracket value.rest)
termination_by ts.length
decreasing_by exact next.shorter

/-- Read a text that consists of one record with the named fields, as far as possible; `none` if it
does not even begin like a record. -/
def readRecord (names : List String) (text : String) : Option Record :=
  match lex text.toList with
  | .openBrace :: .closeBrace :: ts => some ⟨[], ts.isEmpty⟩
  | .openBrace :: ts => some (recordOfFields ts)
  | .openBracket :: .closeBracket :: ts => some ⟨[], ts.isEmpty⟩
  | .openBracket :: ts => some (recordOfItems names ts)
  | _ => none

end Json

end Refutation
