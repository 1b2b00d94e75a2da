import CodeGraph.Cst.Basic
import CodeGraph.Json.Reading

/-!
# The text form of concrete syntax trees

The rows are written as a JSON array of arrays: the number of the parent, or `-1` for the root, the
kind, the marks, the role or null, the first and the last byte, and row and column of both. The
marks are `n` for a name in the grammar, `m` for a missing node and `e` for an error.
-/

namespace CodeGraph.Cst

open Json (Reading)

/-- A natural number. -/
def natOf? : Reading → Option Nat
  | .number (some (.natural n)) => some n.toNat
  | _ => none

/-- A text. -/
def textOf? : Reading → Option String
  | .text s => s
  | _ => none

/-- The number of a parent. Any negative number stands for none. -/
def parentOf? : Reading → Option (Option Nat)
  | .number (some (.negative _)) => some none
  | r => (natOf? r).map some

/-- A role, which may be null. -/
def fieldOf? : Reading → Option (Option String)
  | .null => some none
  | r => (textOf? r).map some

/-- A row. -/
def rowOf? : Reading → Option Row
  | .array [parent, kind, marks, field, startByte, endByte, startRow, startColumn, endRow,
      endColumn] true => do
    let marks := (← textOf? marks).toList
    some {
      parent := ← parentOf? parent
      kind := ← textOf? kind
      named := marks.contains 'n'
      missing := marks.contains 'm'
      error := marks.contains 'e'
      field := ← fieldOf? field
      startByte := ← natOf? startByte
      endByte := ← natOf? endByte
      startRow := ← natOf? startRow
      startColumn := ← natOf? startColumn
      endRow := ← natOf? endRow
      endColumn := ← natOf? endColumn }
  | _ => none

/-- A concrete syntax tree. -/
def ofReading? : Reading → Option Cst
  | .array rows true => (rows.mapM rowOf?).map fun rows => ofRows rows.toArray
  | _ => none

/-- The concrete syntax tree that a text describes. -/
def ofText? (text : String) : Option Cst :=
  match Reading.ofText text with
  | (r, true) => ofReading? r
  | (_, false) => none

end CodeGraph.Cst
