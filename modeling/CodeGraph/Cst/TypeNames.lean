import CodeGraph.Cst.Outline

/-!
# Type names

The names in a type expression, in source order. A qualified type contributes its last segment.
-/

namespace CodeGraph.Outline

/-- The last named child of a qualified type, if it names a type. -/
def lastSegment? (o : Outline) (i : Nat) : Option Nat :=
  ((o.cst.namedChildren i).getLast?).filter fun j => o.tables.isTypeName (o.cst.kind j)

/-- The type names at or below the rows on a stack, with at most so many turns to go. Each turn
takes the first row: a type name is one of them, a qualified type has its last segment, and any
other row gives way to its named children. -/
def typeNamesFrom (o : Outline) : (turns : Nat) → (stack : List Nat) → List Nat
  | 0, _ => []
  | _ + 1, [] => []
  | turns + 1, i :: rest =>
    if o.tables.isTypeName (o.cst.kind i) then i :: o.typeNamesFrom turns rest
    else if o.tables.isQualifiedType (o.cst.kind i) then
      (o.lastSegment? i).toList ++ o.typeNamesFrom turns rest
    else o.typeNamesFrom turns (o.cst.namedChildren i ++ rest)

/-- The type names at or below a row. No row comes to its turn twice. -/
def typeNames (o : Outline) (i : Nat) : List Nat := o.typeNamesFrom o.cst.size [i]

def typeRow? (o : Outline) (i : Nat) : Option Nat :=
  (o.tables.typeField? (o.cst.kind i)).bind (o.cst.childByField? i)

end CodeGraph.Outline
