import CodeGraph.Ast.Preorder
import CodeGraph.Conversion.EdgeWalk

/-!
# Converting syntax trees into a graph

A `Conversion` takes up one tree after the other into a single graph. `add` first gives every node
in pre-order a vertex, numbered on from 1, and then walks the tree again for the edges: vertices
come first because a link may point anywhere in the tree. What was built is lost if a tree fails,
the trees before it included: `process` then starts anew.
-/

namespace CodeGraph

/-- Extra attributes of the nodes of one tree: for each node a record, or the text of a failure. -/
abbrev AttributeSource (n : Nat) := Fin n → Except String (Record String)

def AttributeSource.none {n : Nat} : AttributeSource n := fun _ => .ok ∅

structure Conversion where
  graph : PropertyGraph
  /-- The vertex of each node that was taken up, by the node's identity. -/
  handles : Std.TreeMap NodeId Nat
  nextId : Nat

namespace Conversion

variable {n : Nat}

/-- Nothing is taken up yet, and the first vertex will be 1. -/
def empty : Conversion := ⟨∅, ∅, 1⟩

instance : EmptyCollection Conversion := ⟨empty⟩

instance : Inhabited Conversion := ⟨empty⟩

/-- What the vertex of a node says about it before any link is followed. -/
def properties (a : Ast n) (i : Fin n) (extra : Record String) : Properties :=
  let own := (∅ : Properties).insert PropertyName.type (.text (a.kind i))
  let own := match a.parent? i with
    | some parent => own.insert PropertyName.parentType (.text (a.kind parent))
    | none => own
  let own := own.insert PropertyName.text (.text (a.text i))
  extra.entries.foldl (fun r e => r.insert e.1 (.text e.2)) own

/-- The extra attributes of a node, none of which may have a reserved name. -/
def extraAttributes (a : Ast n) (source : AttributeSource n) (i : Fin n) :
    Except ConversionError (Record String) :=
  match source i with
  | .error text => .error (.attributes text)
  | .ok extra =>
    match extra.entries.find? fun e => PropertyName.reserved.contains e.1 with
    | some (name, _) => .error (.reservedName name (a.kind i))
    | none => .ok extra

/-- Gives a node its vertex, unless it has one. -/
def addVertex (a : Ast n) (source : AttributeSource n) (c : Conversion) (i : Fin n) :
    Except ConversionError Conversion :=
  if c.handles.contains (a.identity i) then
    .error (.duplicateNode (a.kind i) (a.identity i))
  else do
    let extra ← extraAttributes a source i
    let handle := c.graph.vertices.size
    .ok { c with
      graph := c.graph.addVertex ⟨c.nextId, properties a i extra⟩
      handles := c.handles.insert (a.identity i) handle
      nextId := c.nextId + 1 }

def add (c : Conversion) (a : Ast n) (source : AttributeSource n) (root : Fin n) :
    Except ConversionError Conversion := do
  let ⟨graph, handles, nextId⟩ ← (a.preorder root).foldlM (addVertex a source) c
  let graph ← EdgeWalk.start a (handles[·]?) graph root
  .ok ⟨graph, handles, nextId⟩

/-- Discards what was taken up. -/
def reset (c : Conversion) : Conversion := { c with graph := ∅, handles := ∅, nextId := 1 }

/-- Hands over the graph, of which nothing is left behind. -/
def takeGraph (c : Conversion) : PropertyGraph × Conversion := (c.graph, c.reset)

/-- Takes up the tree under `root`; if it fails, nothing at all is left. -/
def process (c : Conversion) (a : Ast n) (source : AttributeSource n) (root : Fin n) :
    Conversion × Except ConversionError Unit :=
  match c.add a source root with
  | .ok c' => (c', .ok ())
  | .error e => (c.reset, .error e)

def graphOf (a : Ast n) (source : AttributeSource n) (root : Fin n) :
    Except ConversionError PropertyGraph :=
  (empty.add a source root).map (·.graph)

end Conversion

end CodeGraph
