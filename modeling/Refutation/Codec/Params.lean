import Refutation.Decimal.Shortest
import Refutation.Json.Decode
import Refutation.Json.Record
import Refutation.Search.Params

/-!
# Search parameters as JSON

Parameters that are not given have their defaults.  The time limit is a number of seconds.
-/

namespace Refutation

namespace Search

namespace Params

/-- The names of the parameters. -/
def fieldNames : List String :=
  ["heuristics", "delete_tautologies", "forward_subsumption", "backward_subsumption",
    "literal_selection", "max_iterations", "timeout"]

/-- A duration as a number of seconds. -/
def durationJson (d : Duration) : Json := .number d.toSeconds.scientific

/-- The parameters as JSON. -/
def toJson (p : Params) : Json :=
  .object (fieldNames.zip
    [.string p.heuristic.name, .bool p.deleteTautologies, .bool p.forwardSubsumption,
      .bool p.backwardSubsumption, .ofOption (fun s => .string s.name) p.selection,
      .ofOption .ofNat p.maxIterations, .ofOption durationJson p.timeout])

/-- The reason for which a text is not taken for parameters. -/
def invalid : Error := .json "invalid search parameters"

/-- A value that must be there. -/
def required {α : Type} : Option α → Except Error α
  | some a => .ok a
  | none => .error invalid

/-- The duration of a number of seconds, which must not be negative; null stands for no limit. -/
def readTimeout (j : Json) : Except Error (Option Duration) :=
  match j.asOption? Json.asDouble? with
  | none => .error invalid
  | some none => .ok none
  | some (some (negative, b)) =>
    if negative && b.significand ≠ 0 then .error invalid
    else
      match Duration.ofSeconds? b with
      | some d => .ok (some d)
      | none => .error .limitOverflow

/-- Set the parameter with the given name; other names are skipped. -/
def set (p : Params) (name : String) (j : Json) : Except Error Params :=
  match name with
  | "heuristics" => do
    return { p with heuristic := ← required (j.asChoice? Heuristic.ofName?) }
  | "delete_tautologies" => do return { p with deleteTautologies := ← required j.asBool? }
  | "forward_subsumption" => do return { p with forwardSubsumption := ← required j.asBool? }
  | "backward_subsumption" => do return { p with backwardSubsumption := ← required j.asBool? }
  | "literal_selection" => do
    return { p with
      selection := ← required (j.asOption? (Json.asChoice? LiteralSelection.ofName?)) }
  | "max_iterations" => do
    return { p with maxIterations := ← required (j.asOption? Json.asNat?) }
  | "timeout" => do return { p with timeout := ← readTimeout j }
  | _ => .ok p

/-- Set parameters one after the other; none of those in `missing` has been set, and only these may
be set. -/
def setAll (missing : List String) (p : Params) : List (Option String × Json) → Except Error Params
  | [] => .ok p
  | (none, _) :: _ => .error invalid
  | (some name, j) :: fields =>
    if fieldNames.contains name && !missing.contains name then .error invalid
    else
      match p.set name j with
      | .ok p => setAll (missing.erase name) p fields
      | .error e => .error e

/-- Read parameters from a text.  The values are taken in the order of the text and the first fault
counts, also if the text goes wrong after it. -/
def parse (text : String) : Except Error Params :=
  match Json.readRecord fieldNames text with
  | none => .error invalid
  | some r => do
    let p ← setAll fieldNames {} r.fields
    if r.isComplete then return p else throw invalid

end Params

end Search

end Refutation
