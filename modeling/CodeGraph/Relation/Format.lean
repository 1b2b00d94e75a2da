import CodeGraph.Json.Basic
import CodeGraph.Json.Shape
import CodeGraph.Relation

/-!
# The text form of relations

A relation is written as its label. It is read from its label, or from an object whose only member
has the label for its name and null for its value.
-/

namespace CodeGraph.Relation

open Json (Offence Reading)

/-- The JSON form of a relation. -/
def toJson (r : Relation) : Json := .text r.label

/-- The relation with a label. -/
def ofLabel (label : String) : Except Mismatch Relation :=
  match ofLabel? label with
  | some r => .ok r
  | none => .error (.unknownVariant label (all.map (·.label)))

/-- The only member of an object, where the last of several members of one name counts. -/
def onlyMember (members : List (Option String × Reading)) : Except Mismatch (String × Reading) :=
  let named := members.filterMap fun (name, value) => name.map (·, value)
  match (Record.ofList named).entries with
  | [member] => .ok member
  | _ => .error (.wrongValue .map "map with a single key")

/-- The relation that JSON data names. -/
def ofReading : Reading → Except Offence Relation
  | .text (some label) => (ofLabel label).mapError .mismatch
  | .object members _ => do
    let (label, content) ← (onlyMember members).mapError .mismatch
    let relation ← (ofLabel label).mapError .mismatch
    match content with
    | .null => .ok relation
    | other => .error (other.refuse "unit")
  | other => .error (other.refuse "string or map")

end CodeGraph.Relation
