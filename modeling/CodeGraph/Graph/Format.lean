import CodeGraph.Graph.Document
import CodeGraph.Json.Basic
import CodeGraph.Json.Shape

/-!
# The text form of graphs

A document is written as a JSON object with the version of the format, the vertices and the edges.
`PropertyGraph.ofText` reads such a text back. It refuses another version, but only after the whole
document was read, and before it looks at the ends of the edges.
-/

namespace CodeGraph

/-! ## Writing -/

def Value.toJson : Value → Json
  | int n => .int n.toInt
  | text s => .text s

def Properties.toJson (p : Properties) : Json := .object (p.entries.map fun e => (e.1, e.2.toJson))

def Vertex.toJson (v : Vertex) : Json :=
  .object [("id", .int v.id), ("properties", v.properties.toJson)]

def Edge.toJson (e : Edge) : Json :=
  .object [("label", .text e.label), ("source", .int e.source), ("target", .int e.target),
    ("properties", e.properties.toJson)]

def GraphDocument.toJson (d : GraphDocument) : Json :=
  .object [("version", .int d.version), ("vertices", .array (d.vertices.map Vertex.toJson)),
    ("edges", .array (d.edges.map Edge.toJson))]

/-- The text of a graph. -/
def PropertyGraph.toText (g : PropertyGraph) : String := (GraphDocument.ofGraph g).toJson.toText

/-! ## Reading -/

open Json (Offence Reading)

/-- A property is a text or an integer from `-2 ^ 63` to below `2 ^ 63`. -/
def Value.ofReading (depth : Nat) (r : Reading) : Except Offence Value :=
  if r.isSound (Json.maxDepth - depth) then
    match r with
    | .number (some (.natural n)) =>
      if n.toNat < 1 <<< 63 then .ok (.int (Int64.ofNat n.toNat))
      else .error (.mismatch .noProperty)
    | .number (some (.negative n)) => .ok (.int n)
    | .text (some s) => .ok (.text s)
    | _ => .error (.mismatch .noProperty)
  else .error .malformed

/-- The properties of an element at a depth. -/
def Properties.ofReading (depth : Nat) (r : Reading) : Except Offence Properties :=
  r.members depth (Value.ofReading (depth + 1))

/-- An id has 64 bits. -/
def vertexIdOfReading (r : Reading) : Except Offence Nat := r.natural UInt64.size "u64"

def Vertex.ofReading (depth : Nat) (r : Reading) : Except Offence Vertex :=
  r.fields depth "Vertex"
    [⟨"id", fun r => (vertexIdOfReading r).map fun id v => { v with id }, false⟩,
     ⟨"properties",
      fun r => (Properties.ofReading (depth + 1) r).map fun properties v => { v with properties },
      true⟩]
    ⟨0, ∅⟩

def Edge.ofReading (depth : Nat) (r : Reading) : Except Offence Edge :=
  r.fields depth "Edge"
    [⟨"label", fun r => r.string.map fun label e => { e with label }, false⟩,
     ⟨"source", fun r => (vertexIdOfReading r).map fun source e => { e with source }, false⟩,
     ⟨"target", fun r => (vertexIdOfReading r).map fun target e => { e with target }, false⟩,
     ⟨"properties",
      fun r => (Properties.ofReading (depth + 1) r).map fun properties e => { e with properties },
      true⟩]
    ⟨"", 0, 0, ∅⟩

def GraphDocument.ofReading (r : Reading) : Except Offence GraphDocument :=
  r.fields 0 "GraphDocument"
    [⟨"version",
      fun r => (r.natural UInt32.size "u32").map fun version d => { d with version }, false⟩,
     ⟨"vertices",
      fun r => (r.items 1 (Vertex.ofReading 2)).map fun vertices d => { d with vertices }, false⟩,
     ⟨"edges", fun r => (r.items 1 (Edge.ofReading 2)).map fun edges d => { d with edges }, false⟩]
    ⟨0, [], []⟩

/-- Why a text does not become a graph. -/
inductive ImportError
  | malformed
  | mismatch (m : Mismatch)
  | unsupportedVersion (version : Nat)
  /-- An end of this edge is no vertex of the document. -/
  | unknownVertex (e : Edge)
  deriving DecidableEq, Inhabited

namespace ImportError

def ofOffence : Offence → ImportError
  | .malformed => malformed
  | .mismatch m => mismatch m

/-- The report of an error in a file, which says nothing of what no JSON is. -/
def message (file : String) : ImportError → String
  | malformed => "no JSON"
  | mismatch m => m.message
  | unsupportedVersion version => s!"unsupported graph format version {version} in {file}"
  | unknownVertex e =>
    s!"edge {e.label} references unknown vertex ({e.source} -> {e.target})"

end ImportError

/-- The graph that a text holds. -/
def PropertyGraph.ofText (text : String) : Except ImportError PropertyGraph := do
  let d ← (Reading.decode GraphDocument.ofReading text).mapError .ofOffence
  if d.version = formatVersion then d.toGraph.mapError .unknownVertex
  else .error (.unsupportedVersion d.version)

end CodeGraph
