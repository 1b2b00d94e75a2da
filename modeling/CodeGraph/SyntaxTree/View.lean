import CodeGraph.Ast.Preorder
import CodeGraph.Conversion.Basic
import CodeGraph.SyntaxTree.Basic
import CodeGraph.Text.Quoted

/-!
# Syntax trees for conversion

`ast` shows a syntax tree as an `Ast` over its keys. Targets outside the tree are left out there, so
a walk must not start before `preorder?` has found none that it would meet. `sourceAttributes` are
the extra attributes that a tree made from source text has to offer.
-/

namespace CodeGraph.SyntaxTree

/-- A key as the name of a node. -/
def nodeName? (t : SyntaxTree) (key : Nat) : Option (Fin t.size) :=
  if h : key < t.size then some ⟨key, h⟩ else none

def astNode (t : SyntaxTree) (key : Nat) (x : Node) : Ast.Node t.size where
  identity := t.identity key
  kind := x.data.kind
  text := x.data.text
  parent := x.parent.bind t.nodeName?
  name := x.name?
  links := x.links.map fun e => (e.1, e.2.filterMap t.nodeName?)

def ast (t : SyntaxTree) : Ast t.size := ⟨⟨t.nodes.mapIdx t.astNode, Array.size_mapIdx⟩⟩

/-- The root, which must be a node of the tree if there is one. -/
def root? (t : SyntaxTree) : Except Fault (Option (Fin t.size)) :=
  match t.rootKey with
  | none => .ok none
  | some key =>
    match t.nodeName? key with
    | some root => .ok (some root)
    | none => .error .noSuchNode

/-- The keys from `root` on in pre-order; no link of any of them may lead out of the tree. -/
def preorder? (t : SyntaxTree) (root : Fin t.size) : Except Fault (List (Fin t.size)) :=
  let reached := t.ast.preorder root
  if reached.all fun i => (t.links? i).isOk then .ok reached else .error .noSuchNode

/-- One line that tells key and kind of a node. -/
def Node.summary (key : Nat) (x : Node) : String :=
  s!"NodeRef \x7b key: NodeKey({key}), kind: {Text.quote x.data.kind} \x7d"

/-! ## Attributes from the source -/

/-- The six numbers of a span, by the names of their attributes. -/
def spanAttributes (s : Span) : List (String × String) :=
  [("line", s.startLine), ("column", s.startColumn), ("endLine", s.endLine),
    ("endColumn", s.endColumn), ("startByte", s.startByte), ("endByte", s.endByte)].map
    fun e => (e.1, toString e.2)

/-- The name that the first child in the role `name` spells. -/
def declaredName? (t : SyntaxTree) (key : Nat) : Except Fault (Option String) := do
  let child ← t.childByField? key "name"
  .ok (child.bind fun c => t.nodes[c]?.bind (·.name?))

/-- The position if it is asked for, the role, the declared name, and for a node without a parent
the path of the source. -/
def sourceAttributes? (t : SyntaxTree) (spans : Bool) (key : Nat) :
    Except Fault (Record String) := do
  let x ← t.node? key
  let name ← t.declaredName? key
  let position := if spans then x.data.span.elim [] spanAttributes else []
  let field := x.data.field.toList.map ("field", ·)
  let file := if x.parent.isNone then t.sourcePath.toList.map ("file", ·) else []
  .ok (Record.ofList (position ++ field ++ name.toList.map ("name", ·) ++ file))

def sourceAttributes (t : SyntaxTree) (spans : Bool) : AttributeSource t.size := fun i =>
  (t.sourceAttributes? spans i).mapError Fault.message

end CodeGraph.SyntaxTree
