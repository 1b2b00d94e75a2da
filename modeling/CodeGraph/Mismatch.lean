import CodeGraph.Text.Quoted

/-!
# Mismatches

Data that is read from a text may be well-formed and still not have the wanted shape. A `Mismatch`
is the first place where it has not.
-/

namespace CodeGraph

/-- What stands where something else was wanted, as far as a report shows it. -/
inductive Found
  | bool (b : Bool)
  | integer (n : Int)
  | fraction (written : String)
  | text (s : String)
  | null
  | sequence
  | map
  deriving DecidableEq, Inhabited

def Found.display : Found → String
  | bool b => s!"boolean `{b}`"
  | integer n => s!"integer `{n}`"
  | fraction written => s!"floating point `{written}`"
  | text s => s!"string {Text.quote s}"
  | null => "null"
  | sequence => "sequence"
  | map => "map"

/-- Why data does not have the wanted shape. -/
inductive Mismatch
  | wrongType (found : Found) (expected : String)
  | wrongValue (found : Found) (expected : String)
  /-- A sequence of `length` items was read and more were wanted. -/
  | tooShort (length : Nat) (expected : String)
  | unknownVariant (name : String) (known : List String)
  | duplicateField (name : String)
  | missingField (name : String)
  /-- The value is neither a text nor an integer that a property can hold. -/
  | noProperty
  /-- A variant is given neither as a text nor as a table. -/
  | noVariant
  /-- The table that is to name a variant is empty. -/
  | noEntry
  /-- The table that is to name a variant has several entries. -/
  | severalEntries
  /-- The variant takes no content, but an array or a table with some stands here. -/
  | contentOfVariant (kind : String)
  /-- The variant takes no content, but a value that never is without stands here. -/
  | valueOfVariant (kind : String)
  deriving DecidableEq, Inhabited

namespace Mismatch

/-- The names of a list of variants as alternatives. -/
def alternatives (known : List String) : String :=
  "one of " ++ ", ".intercalate (known.map fun name => s!"`{name}`")

def message : Mismatch → String
  | wrongType found expected => s!"invalid type: {found.display}, expected {expected}"
  | wrongValue found expected => s!"invalid value: {found.display}, expected {expected}"
  | tooShort length expected => s!"invalid length {length}, expected {expected}"
  | unknownVariant name known => s!"unknown variant `{name}`, expected {alternatives known}"
  | duplicateField name => s!"duplicate field `{name}`"
  | missingField name => s!"missing field `{name}`"
  | noProperty => "data did not match any variant of untagged enum PropertyValue"
  | noVariant => "wanted string or table"
  | noEntry => "wanted exactly 1 element, found 0 elements"
  | severalEntries => "wanted exactly 1 element, more than 1 element"
  | contentOfVariant kind => s!"expected empty {kind}"
  | valueOfVariant kind => s!"expected table, found {kind}"

end Mismatch

end CodeGraph
