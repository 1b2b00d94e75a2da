import CodeGraph.Graph.Basic

/-!
# Graphs as DOT

One line for each vertex and one for each edge, between an opening and a closing line. Vertices are
numbered from 0 in order of creation. In a label a quote or a backslash is preceded by a backslash,
and a line break is written `\l`, so that a label never breaks its line.
-/

namespace CodeGraph

namespace Dot

/-- The written form of one character of a label. -/
def escapeChar (c : Char) : List Char :=
  if c = '"' ∨ c = '\\' then ['\\', c]
  else if c = '\n' then ['\\', 'l']
  else [c]

/-- The written form of a label, without its quotes. -/
def escape (label : String) : String := String.ofList (label.toList.flatMap escapeChar)

/-- `[ label = "…" ]` -/
def attributes (label : String) : String := s!"[ label = \"{escape label}\" ]"

def vertexLine (index : Nat) (v : Vertex) : String := s!"    {index} {attributes v.display}\n"

def arcLine (a : Arc) : String := s!"    {a.tail} -> {a.head} {attributes a.edge.display}\n"

end Dot

/-- The graph in the DOT language: vertices show id and kind, edges their label. -/
def PropertyGraph.toDot (g : PropertyGraph) : String :=
  let vertexLines := g.vertices.toList.zipIdx.map fun (v, i) => Dot.vertexLine i v
  let arcLines := g.arcs.toList.map Dot.arcLine
  "digraph \x7b\n" ++ String.join vertexLines ++ String.join arcLines ++ "\x7d\n"

end CodeGraph
