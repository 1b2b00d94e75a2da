/-!
# Concrete syntax trees

A concrete syntax tree comes as rows in pre-order, one for each node that a parser made, tokens
included. A row names its parent by number; the numbers of a row's children are kept beside the
rows. Columns count bytes.
-/

namespace CodeGraph

namespace Cst

structure Row where
  parent : Option Nat
  kind : String
  /-- Whether the node has a name in the grammar; tokens such as `(` have none. -/
  named : Bool
  /-- Whether the parser made the node up to go on after an error. -/
  missing : Bool
  /-- Whether the node holds what the parser could not read. -/
  error : Bool
  /-- The role of the node under its parent. -/
  field : Option String
  startByte : Nat
  endByte : Nat
  startRow : Nat
  startColumn : Nat
  endRow : Nat
  endColumn : Nat
  deriving DecidableEq, Inhabited

def childTable (rows : Array Row) : Array (List Nat) :=
  (List.range rows.size).foldr
    (fun i table =>
      match rows[i]?.bind (·.parent) with
      | some parent => table.modify parent (i :: ·)
      | none => table)
    (Array.replicate rows.size [])

end Cst

structure Cst where
  rows : Array Cst.Row
  below : Array (List Nat)
  below_eq : below = Cst.childTable rows

namespace Cst

def ofRows (rows : Array Row) : Cst := ⟨rows, childTable rows, rfl⟩

instance : Inhabited Cst := ⟨ofRows #[]⟩

def size (c : Cst) : Nat := c.rows.size

/-- The kind of a row; a row that is not there has an empty one. -/
def kind (c : Cst) (i : Nat) : String := c.rows[i]?.elim "" (·.kind)

def parent? (c : Cst) (i : Nat) : Option Nat := c.rows[i]?.bind (·.parent)

def children (c : Cst) (i : Nat) : List Nat := c.below[i]?.getD []

def namedChildren (c : Cst) (i : Nat) : List Nat :=
  (c.children i).filter fun j => c.rows[j]?.any (·.named)

def childByField? (c : Cst) (i : Nat) (field : String) : Option Nat :=
  (c.children i).find? fun j => c.rows[j]?.bind (·.field) == some field

/-- The rows above a row, from its parent to the root. -/
def ancestors (c : Cst) (i : Nat) : List Nat :=
  match c.parent? i with
  | some parent => if parent < i then parent :: c.ancestors parent else []
  | none => []
termination_by i

/-- Whether a row stands for a syntax error. -/
def Row.isFaulty (r : Row) : Bool := r.error || r.missing

/-- The first faulty row at or below the rows on a stack, with at most so many turns to go. Each
turn takes the first row, which gives way to its children unless it is the one. -/
def firstErrorFrom? (c : Cst) : (turns : Nat) → (stack : List Nat) → Option Row
  | 0, _ => none
  | _ + 1, [] => none
  | turns + 1, i :: rest =>
    match c.rows[i]?.filter Row.isFaulty with
    | some r => some r
    | none => c.firstErrorFrom? turns (c.children i ++ rest)

/-- The faulty row that a search from the root meets first. No row comes to its turn twice. -/
def firstError? (c : Cst) : Option Row := c.firstErrorFrom? c.size [0]

end Cst

end CodeGraph
