import CodeGraph.Ast.Basic

/-!
# Syntax trees

A `SyntaxTree` is a growing list of nodes, which are named by their place in it, their key. Nodes
are added without links; `link` and `addChild` relate them by keys. A node's links are kept by
relation, in the order in which the relations were first used, and no target is held twice under a
relation. The first node becomes the root unless `setRoot` says otherwise.

Keys are not checked when they are stored. A link from a key that no node has does not take place;
a link to such a key stays, and shows as a `Fault` when it is followed.
-/

namespace CodeGraph

/-- The source range of a node: lines and columns count from 1, bytes from 0. -/
structure Span where
  startLine : Nat
  startColumn : Nat
  endLine : Nat
  endColumn : Nat
  startByte : Nat
  endByte : Nat
  deriving DecidableEq, Repr, Inhabited

structure NodeData where
  kind : String
  text : String
  /-- Whether the whole text is one name. -/
  simple : Bool
  span : Option Span
  /-- The role of the node under its parent. -/
  field : Option String
  deriving DecidableEq, Inhabited

namespace SyntaxTree

structure Node where
  data : NodeData
  parent : Option Nat
  links : List (Relation × List Nat)
  deriving DecidableEq, Inhabited

inductive Fault
  /-- A node was asked for that is not there. -/
  | noSuchNode
  /-- A node was to be changed that is not there, in a tree of `length` nodes. -/
  | outOfBounds (length key : Nat)
  deriving DecidableEq, Inhabited

def Fault.message : Fault → String
  | noSuchNode => "node key out of range"
  | outOfBounds length key =>
    s!"index out of bounds: the len is {length} but the index is {key}"

/-- Adds a target under a relation, unless it is there. -/
def insertLink (relation : Relation) (target : Nat) :
    List (Relation × List Nat) → List (Relation × List Nat)
  | [] => [(relation, [target])]
  | (r, targets) :: rest =>
    if r = relation then
      (r, if targets.contains target then targets else targets ++ [target]) :: rest
    else (r, targets) :: insertLink relation target rest

end SyntaxTree

structure SyntaxTree where
  /-- What tells the tree from others. A copy has the same number. -/
  number : UInt32
  nodes : Array SyntaxTree.Node
  rootKey : Option Nat
  sourcePath : Option String
  deriving DecidableEq, Inhabited

namespace SyntaxTree

def empty (number : UInt32) : SyntaxTree := ⟨number, #[], none, none⟩

def size (t : SyntaxTree) : Nat := t.nodes.size

/-! ## Growing -/

/-- Adds a node without links. Its key is the number of nodes before. -/
def addNode (t : SyntaxTree) (data : NodeData) : SyntaxTree :=
  { t with
    rootKey := t.rootKey <|> some t.nodes.size
    nodes := t.nodes.push ⟨data, none, []⟩ }

def setRoot (t : SyntaxTree) (key : Nat) : SyntaxTree := { t with rootKey := some key }

def setSourcePath (t : SyntaxTree) (path : String) : SyntaxTree :=
  { t with sourcePath := some path }

/-- Records that `source` is related to `target`. -/
def link (t : SyntaxTree) (source : Nat) (relation : Relation) (target : Nat) : SyntaxTree :=
  { t with
    nodes := t.nodes.modify source fun x => { x with links := insertLink relation target x.links } }

def linkFault? (t : SyntaxTree) (source : Nat) : Option Fault :=
  if source < t.size then none else some (.outOfBounds t.size source)

/-- Records `parent` as the parent of a node that has none yet. -/
def adopt (t : SyntaxTree) (parent child : Nat) : SyntaxTree :=
  { t with
    nodes := t.nodes.modify child fun x => { x with parent := x.parent <|> some parent } }

/-- Makes `child` the last child of `parent`. Its recorded parent is the first it was given. -/
def addChild (t : SyntaxTree) (parent child : Nat) : SyntaxTree :=
  if parent < t.size then (t.link parent .structural child).adopt parent child else t

def addChildFault? (t : SyntaxTree) (parent child : Nat) : Option Fault :=
  t.linkFault? parent <|> t.linkFault? child

/-! ## Looking -/

/-- The identity of the node with a key: the tree's number above the key, 32 bits each. -/
def identity (t : SyntaxTree) (key : Nat) : NodeId :=
  t.number.toUInt64 <<< 32 ||| (UInt32.ofNat key).toUInt64

def node? (t : SyntaxTree) (key : Nat) : Except Fault Node :=
  match t.nodes[key]? with
  | some x => .ok x
  | none => .error .noSuchNode

def linksInRange (t : SyntaxTree) (x : Node) : Bool :=
  x.links.all fun e => e.2.all (· < t.size)

/-- The links of a node, none of which may lead out of the tree. -/
def links? (t : SyntaxTree) (key : Nat) : Except Fault (List (Relation × List Nat)) := do
  let x ← t.node? key
  if t.linksInRange x then .ok x.links else .error .noSuchNode

def related? (t : SyntaxTree) (key : Nat) (relation : Relation) : Except Fault (List Nat) := do
  let links ← t.links? key
  .ok (((links.find? (·.1 == relation)).map (·.2)).getD [])

def children? (t : SyntaxTree) (key : Nat) : Except Fault (List Nat) := t.related? key .structural

/-- The name that a node spells, if it is a simple name. -/
def Node.name? (x : Node) : Option String := if x.data.simple then some x.data.text else none

def childByField? (t : SyntaxTree) (key : Nat) (field : String) : Except Fault (Option Nat) := do
  let children ← t.children? key
  .ok (children.find? fun child => (t.nodes[child]?.bind (·.data.field)) == some field)

end SyntaxTree

end CodeGraph
