import Refutation.Json.Decode
import Refutation.Json.Reader
import Refutation.Literal
import Refutation.Proof

/-!
# Terms, literals, substitutions and proofs as JSON
-/

namespace Refutation

namespace Term

mutual

/-- A term as JSON. -/
def toJson : Term → Json
  | .var x => .object [("Variable", .string x)]
  | .app f ts => .object [("Compound", .array [.string f, .array (toJsonList ts)])]

/-- A list of terms as JSON. -/
def toJsonList : List Term → List Json
  | [] => []
  | t :: ts => toJson t :: toJsonList ts

end

/-- Read a term, whose brackets may be nested to the given depth. -/
def ofJson? : (depth : Nat) → Json → Option Term
  | _ + 1, .object [("Variable", .string x)] => some (.var x)
  | depth + 3, .object [("Compound", .array [.string f, .array args])] =>
    (args.mapM (ofJson? depth)).map (.app f)
  | _, _ => none

end Term

namespace EqTag

/-- The name of a tag. -/
def name : EqTag → String
  | equal => "Equal"
  | notEqual => "NotEqual"

/-- The tag with the given name. -/
def ofName? (word : String) : Option EqTag := [equal, notEqual].find? fun t => t.name == word

end EqTag

namespace Literal

/-- The fields of a literal. -/
def fieldNames : List String := ["atom", "negative", "equation", "inference"]

/-- A literal as JSON. -/
def toJson (l : Literal) : Json :=
  .object [("atom", l.atom.toJson), ("negative", .bool l.negative),
    ("equation", .ofOption (fun t => .string t.name) l.tag), ("inference", .bool l.eligible)]

/-- Read a literal; the tag is taken as it stands, and may be missing. -/
def ofJson? (j : Json) : Option Literal := do
  guard (j.isComplete fieldNames)
  match ← j.record? fieldNames with
  | [some atom, some negative, tag, some eligible] =>
    return {
      atom := ← Term.ofJson? (Json.maxDepth - 1) atom
      negative := ← negative.asBool?
      tag := ← (tag.getD .null).asOption? (Json.asChoice? EqTag.ofName?)
      eligible := ← eligible.asBool? }
  | _ => none

end Literal

namespace Substitution

/-- The fields of a substitution. -/
def fieldNames : List String := ["map"]

/-- A substitution as JSON. -/
def toJson (σ : Substitution) : Json :=
  .object [("map", .object (σ.bindings.entries.map fun p => (p.1, p.2.toJson)))]

/-- Read a substitution; of several bindings of one variable the last counts. -/
def ofJson? (j : Json) : Option Substitution := do
  match ← j.record? fieldNames with
  | [some (.object fields)] =>
    return .ofList (← fields.mapM fun f => (Term.ofJson? (Json.maxDepth - 2) f.2).map (f.1, ·))
  | _ => none

end Substitution

namespace ProofStep

/-- The fields of a proof step. -/
def fieldNames : List String := ["name", "role", "clause", "rule", "parents"]

/-- A proof step as JSON. -/
def toJson (s : ProofStep) : Json :=
  .object [("name", .string s.name), ("role", .string s.role), ("clause", .string s.clause),
    ("rule", .ofOption .string s.rule), ("parents", .ofStrings s.parents)]

/-- Read a proof step; the rule may be missing. -/
def ofJson? (j : Json) : Option ProofStep := do
  guard (j.isComplete fieldNames)
  match ← j.record? fieldNames with
  | [some name, some role, some clause, rule, some parents] =>
    return {
      name := ← name.asString?
      role := ← role.asString?
      clause := ← clause.asString?
      rule := ← (rule.getD .null).asOption? Json.asString?
      parents := ← parents.asStrings? }
  | _ => none

end ProofStep

namespace Proof

/-- The fields of a proof. -/
def fieldNames : List String := ["steps"]

/-- A proof as JSON. -/
def toJson (p : Proof) : Json := .object [("steps", .array (p.steps.map (·.toJson)))]

/-- Read a proof. -/
def ofJson? (j : Json) : Option Proof := do
  match ← j.record? fieldNames with
  | [some (.array steps)] => return ⟨← steps.mapM ProofStep.ofJson?⟩
  | _ => none

end Proof

end Refutation
