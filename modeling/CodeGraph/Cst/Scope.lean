import CodeGraph.Cst.Outline

/-!
# Declarations and what they are visible in

A named declaration is a kept row of a declaration kind with a child in the role `name`. It is
owned by the nearest declaration above it, or by the root, and visible below its owner. A name means
the declaration with the nearest owner, and of two with one owner the first.
-/

namespace CodeGraph

structure Declaration where
  row : Nat
  name : String
  /-- The key of the node that it is visible in. -/
  owner : Nat
  deriving DecidableEq, Inhabited

namespace Outline

def nameRow? (o : Outline) (i : Nat) : Option Nat := o.cst.childByField? i "name"

/-- The key of the nearest declaration above a row if that is kept, else that of the root. -/
def owner (o : Outline) (i : Nat) : Nat :=
  (((o.cst.ancestors i).find? fun a => o.tables.isDeclaration (o.cst.kind a)).bind o.key?).getD 0

/-- The declaration that a row makes, if it names one. -/
def declaration? (o : Outline) (i : Nat) : Option Declaration :=
  if o.tables.isDeclaration (o.cst.kind i) then
    ((o.nameRow? i).bind o.text?).map (⟨i, ·, o.owner i⟩)
  else none

def declarations (o : Outline) : List Declaration := o.kept.filterMap o.declaration?

/-- The one of the candidates that is visible from a row: its owner is nearest above the row. -/
def visible? (o : Outline) (candidates : List Declaration) (i : Nat) : Option Declaration :=
  (o.scopes i).findSome? fun scope => candidates.find? (·.owner == scope)

end Outline

end CodeGraph
