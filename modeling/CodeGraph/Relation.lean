/-!
# Relations between syntax nodes

A node of a syntax tree is related to others under six kinds. `structural` is the shape of the
tree, `type` is written into the node's vertex as a reference, and the other four become edges that
may point anywhere in the tree.
-/

namespace CodeGraph

inductive Relation
  | structural
  | type
  | resolvesTo
  | declares
  | calls
  | overrides
  deriving DecidableEq, Repr, Inhabited

namespace Relation

/-- Every kind, in declaration order. -/
def all : List Relation := [structural, type, resolvesTo, declares, calls, overrides]

def label : Relation → String
  | structural => "STRUCTURAL"
  | type => "TYPE"
  | resolvesTo => "RESOLVES_TO"
  | declares => "DECLARES"
  | calls => "CALLS"
  | overrides => "OVERRIDES"

def ofLabel? (text : String) : Option Relation := all.find? (·.label == text)

/-- The place of a kind in `all`. -/
def position (r : Relation) : Nat := all.idxOf r

theorem ofLabel?_label (r : Relation) : ofLabel? r.label = some r := by cases r <;> decide

end Relation

end CodeGraph
