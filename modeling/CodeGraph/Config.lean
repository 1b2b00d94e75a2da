import CodeGraph.Relation

/-!
# Configuration

What a user may choose: which rows become nodes, what happens to files with syntax errors, whether
positions are recorded, which relations are left out, and which paths are skipped.
-/

namespace CodeGraph

structure Config where
  /-- Also keep the tokens that have no name in the grammar. -/
  includeAnonymous : Bool
  /-- Refuse a file with a syntax error. -/
  strict : Bool
  /-- Record where in the source a node stands. -/
  spans : Bool
  /-- Relations that are not derived. -/
  disabledRelations : List Relation
  /-- Patterns of the paths to skip, relative to the root of the project. -/
  exclude : List String
  deriving DecidableEq, Repr

namespace Config

def standard : Config := ⟨false, false, true, [], []⟩

instance : Inhabited Config := ⟨standard⟩

/-- Whether a relation is derived. The shape of the tree always is. -/
def emits (c : Config) (relation : Relation) : Bool :=
  relation == .structural || !c.disabledRelations.contains relation

end Config

end CodeGraph
