import CodeGraph.Graph.Property
import Std.Data.TreeMap

/-!
# Property graphs

A `PropertyGraph` is a directed multigraph that only grows. Vertices and edges are numbered in
order of creation, and that number is their handle. A vertex also has an id, which its maker picks;
`vertexById?` finds the vertex added last under an id. An edge knows the ids that its ends had when
it was made, and the graph knows the handles of its ends: `edgesFrom` and `edgesTo` go by the
handles.
-/

namespace CodeGraph

structure Vertex where
  id : Nat
  properties : Properties
  deriving DecidableEq, Inhabited

/-- An edge of the graph, by the ids of its ends. -/
structure Edge where
  label : String
  source : Nat
  target : Nat
  properties : Properties
  deriving DecidableEq, Inhabited

namespace Vertex

def text? (v : Vertex) (name : String) : Option String := (v.properties.get? name).bind Value.text?

def kind? (v : Vertex) : Option String := v.text? PropertyName.type

def parentKind? (v : Vertex) : Option String := v.text? PropertyName.parentType

def nodeText? (v : Vertex) : Option String := v.text? PropertyName.text

def reference? (v : Vertex) : Option String := v.text? PropertyName.reference

def setProperty (v : Vertex) (name : String) (value : Value) : Vertex :=
  { v with properties := v.properties.insert name value }

/-- The id and the kind, with `?` for a vertex without a kind. -/
def display (v : Vertex) : String := toString v.id ++ " " ++ v.kind?.getD "?"

end Vertex

namespace Edge

def type? (e : Edge) : Option String := (e.properties.get? PropertyName.type).bind Value.text?

def setProperty (e : Edge) (name : String) (value : Value) : Edge :=
  { e with properties := e.properties.insert name value }

def display (e : Edge) : String := e.label

end Edge

structure Arc where
  tail : Nat
  head : Nat
  edge : Edge
  deriving DecidableEq, Inhabited

structure PropertyGraph where
  vertices : Array Vertex
  arcs : Array Arc
  /-- For each id, the handle of the vertex added last under it. -/
  handles : Std.TreeMap Nat Nat

namespace PropertyGraph

def empty : PropertyGraph := ⟨#[], #[], ∅⟩

instance : EmptyCollection PropertyGraph := ⟨empty⟩

instance : Inhabited PropertyGraph := ⟨empty⟩

/-! ## Growing -/

/-- Adds a vertex. Its handle is the number of vertices before. -/
def addVertex (g : PropertyGraph) (v : Vertex) : PropertyGraph :=
  { g with
    handles := g.handles.insert v.id g.vertices.size
    vertices := g.vertices.push v }

def hasHandle (g : PropertyGraph) (handle : Nat) : Bool := handle < g.vertices.size

/-- Adds an edge between two handles; if the graph lacks one of them, nothing happens. -/
def addEdge (g : PropertyGraph) (tail head : Nat) (label : String) (properties : Properties) :
    PropertyGraph :=
  match g.vertices[tail]?, g.vertices[head]? with
  | some source, some target =>
    { g with arcs := g.arcs.push ⟨tail, head, ⟨label, source.id, target.id, properties⟩⟩ }
  | _, _ => g

/-- Sets a property of the vertex with a handle; a handle that the graph lacks changes nothing. -/
def setVertexProperty (g : PropertyGraph) (handle : Nat) (name : String) (value : Value) :
    PropertyGraph :=
  { g with vertices := g.vertices.modify handle (·.setProperty name value) }

/-- Sets a property of the edge with a handle; a handle that the graph lacks changes nothing. -/
def setEdgeProperty (g : PropertyGraph) (handle : Nat) (name : String) (value : Value) :
    PropertyGraph :=
  { g with arcs := g.arcs.modify handle fun a => { a with edge := a.edge.setProperty name value } }

/-! ## Looking -/

def edges (g : PropertyGraph) : Array Edge := g.arcs.map (·.edge)

def vertexById? (g : PropertyGraph) (id : Nat) : Option Vertex :=
  g.handles[id]?.bind (g.vertices[·]?)

/-- The edges that leave the vertex found under an id, in order of creation. -/
def edgesFrom (g : PropertyGraph) (id : Nat) : List Edge :=
  match g.handles[id]? with
  | none => []
  | some handle => (g.arcs.toList.filter (·.tail == handle)).map (·.edge)

/-- The edges that enter the vertex found under an id, in order of creation. -/
def edgesTo (g : PropertyGraph) (id : Nat) : List Edge :=
  match g.handles[id]? with
  | none => []
  | some handle => (g.arcs.toList.filter (·.head == handle)).map (·.edge)

def edgesLabeled (g : PropertyGraph) (label : String) : List Edge :=
  g.edges.toList.filter (·.label == label)

/-- Whether an edge with this label leaves the vertex under `source` for the id `target`. -/
def hasEdge (g : PropertyGraph) (source target : Nat) (label : String) : Bool :=
  (g.edgesFrom source).any fun e => e.target == target && e.label == label

/-- The vertices whose property `name` is the text `value`. -/
def verticesWhere (g : PropertyGraph) (name value : String) : List Vertex :=
  g.vertices.toList.filter fun v => v.text? name == some value

def labelCounts (g : PropertyGraph) : Record Nat :=
  g.edges.foldl (fun counts e => counts.update e.label 0 (· + 1)) ∅

def summary (g : PropertyGraph) : String :=
  s!"PropertyGraph \x7b vertex_count: {g.vertices.size}, edge_count: {g.arcs.size} \x7d"

end PropertyGraph

end CodeGraph
