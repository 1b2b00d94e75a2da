import CodeGraph.Cst.Outline
import CodeGraph.SyntaxTree.Basic

/-!
# The shape of the syntax tree

Each kept row becomes a node, a child of the nearest kept row above it.
-/

namespace CodeGraph

namespace Cst.Row

/-- The range of a row, with lines and columns counted from 1. -/
def span (r : Row) : Span :=
  ⟨r.startRow + 1, r.startColumn + 1, r.endRow + 1, r.endColumn + 1, r.startByte, r.endByte⟩

end Cst.Row

namespace Outline

/-- What the node of a row is made of. The root has no role. -/
def nodeData (o : Outline) (i : Nat) (r : Cst.Row) : Except Utf8.Defect NodeData := do
  let text ← o.text i
  let role := if i = 0 then none else r.field
  .ok ⟨r.kind, text, o.tables.isSimpleName r.kind, some r.span, role⟩

/-- Adds the node of a row below the nearest kept row above it. -/
def addRow (o : Outline) (t : SyntaxTree) (i : Nat) : Except Utf8.Defect SyntaxTree :=
  match o.cst.rows[i]? with
  | none => .ok t
  | some r => do
    let data ← o.nodeData i r
    let key := t.size
    let t := t.addNode data
    match (o.scopes i).head? with
    | some parent => .ok (t.addChild parent key)
    | none => .ok t

/-- The syntax tree without any relation but its shape. -/
def shape (o : Outline) (number : UInt32) (path : String) : Except Utf8.Defect SyntaxTree :=
  o.kept.foldlM o.addRow ((SyntaxTree.empty number).setSourcePath path)

end Outline

end CodeGraph
