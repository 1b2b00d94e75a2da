import CodeGraph.Relation

/-!
# Syntax trees as a conversion sees them

An `Ast n` has `n` nodes, named by `Fin n`. Each tells its identity, its kind and text, its
recorded parent, the name it spells if it is a simple name, and its links: for each relation entry
the targets in order. Nothing forces the links to form a tree: nodes may be shared, cycles may
occur, a relation may have several entries, and two nodes may have the same identity.
-/

namespace CodeGraph

/-- What tells one node of the source from another, across all trees. -/
abbrev NodeId := UInt64

/-- An identity as it reads in a report: `#` and lower-case hexadecimal digits. -/
def NodeId.display (id : NodeId) : String := "#" ++ String.ofList (Nat.toDigits 16 id.toNat)

namespace Ast

structure Node (n : Nat) where
  identity : NodeId
  kind : String
  text : String
  parent : Option (Fin n)
  /-- The name that the node spells, if it is a simple name. -/
  name : Option String
  /-- The relation entries, each with its targets in order. -/
  links : List (Relation × List (Fin n))
  deriving DecidableEq

end Ast

structure Ast (n : Nat) where
  nodes : Vector (Ast.Node n) n
  deriving DecidableEq

namespace Ast

variable {n : Nat}

def node (a : Ast n) (i : Fin n) : Node n := a.nodes[i]

def identity (a : Ast n) (i : Fin n) : NodeId := (a.node i).identity

def kind (a : Ast n) (i : Fin n) : String := (a.node i).kind

def text (a : Ast n) (i : Fin n) : String := (a.node i).text

def name? (a : Ast n) (i : Fin n) : Option String := (a.node i).name

def parent? (a : Ast n) (i : Fin n) : Option (Fin n) := (a.node i).parent

def links (a : Ast n) (i : Fin n) : List (Relation × List (Fin n)) := (a.node i).links

/-- The targets under a relation: those of its first entry. -/
def related (a : Ast n) (i : Fin n) (r : Relation) : List (Fin n) :=
  (((a.links i).find? (·.1 == r)).map (·.2)).getD []

def children (a : Ast n) (i : Fin n) : List (Fin n) := a.related i .structural

end Ast

end CodeGraph
