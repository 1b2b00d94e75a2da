import CodeGraph.Graph.Basic

/-!
# Graphs as documents

A `GraphDocument` lists vertices and edges in order of creation. A graph that is made from one joins
each edge to the vertices listed last under the ids of its ends.
-/

namespace CodeGraph

/-- The version of the format that documents are written in. -/
def formatVersion : Nat := 1

/-- A flat view of a graph. -/
structure GraphDocument where
  version : Nat
  vertices : List Vertex
  edges : List Edge
  deriving DecidableEq, Inhabited

namespace GraphDocument

/-- The document of a graph. -/
def ofGraph (g : PropertyGraph) : GraphDocument :=
  ⟨formatVersion, g.vertices.toList, g.edges.toList⟩

/-- Adds an edge between the vertices under its ids, or gives it back if there are none. -/
def joinEdge (g : PropertyGraph) (e : Edge) : Except Edge PropertyGraph :=
  match g.handles[e.source]?, g.handles[e.target]? with
  | some tail, some head => .ok (g.addEdge tail head e.label e.properties)
  | _, _ => .error e

/-- The graph of a document, or the first edge with an end that is no vertex. -/
def toGraph (d : GraphDocument) : Except Edge PropertyGraph :=
  d.edges.foldlM joinEdge (d.vertices.foldl PropertyGraph.addVertex ∅)

end GraphDocument

end CodeGraph
