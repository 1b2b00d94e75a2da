import CodeGraph.Record

/-!
# Properties of vertices and edges

A property is a text or a 64-bit integer. The names that the conversion writes itself are reserved:
nobody else may supply them.
-/

namespace CodeGraph

/-- The value of a property. -/
inductive Value
  | int (n : Int64)
  | text (s : String)
  deriving DecidableEq, Inhabited

/-- The properties of a vertex or an edge. -/
abbrev Properties := Record Value

namespace Value

def text? : Value → Option String
  | text s => some s
  | int _ => none

def int? : Value → Option Int64
  | int n => some n
  | text _ => none

/-- A value as it reads in a report: texts stand for themselves. -/
def display : Value → String
  | int n => toString n.toInt
  | text s => s

end Value

/-! ## Property names -/

namespace PropertyName

/-- The kind of the node, or the label of the edge. -/
def type : String := "type"

/-- The kind of the node's recorded parent. -/
def parentType : String := "parentType"

/-- The source text of the node. -/
def text : String := "text"

/-- The names of the node's types, joined by commas. -/
def reference : String := "reference"

/-- The names that no source of extra attributes may supply. -/
def reserved : List String := ["id", type, parentType, text, reference]

end PropertyName

end CodeGraph
