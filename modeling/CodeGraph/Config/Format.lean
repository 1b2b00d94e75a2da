import CodeGraph.Config
import CodeGraph.Decimal.Shortest
import CodeGraph.Mismatch
import CodeGraph.Relation.Format
import CodeGraph.Toml.Reading

/-!
# The text form of configurations

A configuration is written in TOML, where the names of its fields have hyphens. Fields that are
missing keep their standard value, and what is no field is passed over. The fields are checked in
the order of the document.
-/

namespace CodeGraph

/-- Why a text does not give a configuration. -/
inductive ConfigError
  | malformed
  | mismatch (m : Mismatch)
  deriving DecidableEq, Inhabited

def ConfigError.message : ConfigError → String
  | malformed => "no TOML"
  | mismatch m => m.message

namespace Config

/-- Numbers are written out in full. -/
def floatStyle : FloatStyle := ⟨fun _ => true⟩

/-- A value as a report shows it. -/
def found : Toml.Value → Found
  | .text s => .text s
  | .integer n => .integer n.toInt
  | .float x => .fraction (floatStyle.write x)
  | .bool b => .bool b
  | .moment | .table _ => .map
  | .array _ => .sequence

def refuse (v : Toml.Value) (expected : String) : Mismatch := .wrongType (found v) expected

def boolOf : Toml.Value → Except Mismatch Bool
  | .bool b => .ok b
  | v => .error (refuse v "a boolean")

def textOf : Toml.Value → Except Mismatch String
  | .text s => .ok s
  | v => .error (refuse v "a string")

def listOf {α : Type} (item : Toml.Value → Except Mismatch α) :
    Toml.Value → Except Mismatch (List α)
  | .array items => items.mapM item
  | v => .error (refuse v "a sequence")

/-- Whether a value is the content of a variant that takes none. -/
def checkContent : Toml.Value → Except Mismatch Unit
  | .array items => if items.isEmpty then .ok () else .error (.contentOfVariant "array")
  | .table entries => if entries.isEmpty then .ok () else .error (.contentOfVariant "table")
  | .text _ => .error (.valueOfVariant "string")
  | .integer _ => .error (.valueOfVariant "integer")
  | .float _ => .error (.valueOfVariant "float")
  | .bool _ => .error (.valueOfVariant "boolean")
  | .moment => .error (.valueOfVariant "datetime")

/-- A relation is named by a text, or by the only key of a table. -/
def relationOf : Toml.Value → Except Mismatch Relation
  | .text label => Relation.ofLabel label
  | .table [] => .error .noEntry
  | .table [(label, content)] => do
    let relation ← Relation.ofLabel label
    checkContent content
    .ok relation
  | .table _ => .error .severalEntries
  | _ => .error .noVariant

/-- Takes up one entry of a document. -/
def takeEntry (c : Config) (entry : String × Toml.Value) : Except Mismatch Config :=
  match entry.1 with
  | "include-anonymous" =>
    (boolOf entry.2).map fun includeAnonymous => { c with includeAnonymous }
  | "strict" => (boolOf entry.2).map fun strict => { c with strict }
  | "spans" => (boolOf entry.2).map fun spans => { c with spans }
  | "disabled-relations" =>
    (listOf relationOf entry.2).map fun disabledRelations => { c with disabledRelations }
  | "exclude" => (listOf textOf entry.2).map fun exclude => { c with exclude }
  | _ => .ok c

/-- The configuration that a text describes. -/
def ofText (text : String) : Except ConfigError Config :=
  match Toml.Document.ofText? text with
  | none => .error .malformed
  | some entries => (entries.foldlM takeEntry standard).mapError .mismatch

end Config

end CodeGraph
