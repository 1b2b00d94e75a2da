import CodeGraph.Config
import CodeGraph.Cst.Basic
import CodeGraph.Language.Basic
import CodeGraph.Text.Utf8

/-!
# Outlines

An `Outline` is a concrete syntax tree with its source and the choice of rows that become nodes: the
root, and the rows that are not missing and have a name in the grammar or are kept on request. The
kept rows are the nodes of the syntax tree in the same order, so that the key of a row is the
number of kept rows before it.
-/

namespace CodeGraph

namespace Cst

/-- Whether a row other than the root becomes a node. -/
def Row.keep (r : Row) (includeAnonymous : Bool) : Bool :=
  !r.missing && (r.named || includeAnonymous)

def kept (c : Cst) (includeAnonymous : Bool) : List Nat :=
  (List.range c.size).filter fun i => i == 0 || c.rows[i]?.any (·.keep includeAnonymous)

def keyTable (c : Cst) (kept : List Nat) : Array (Option Nat) :=
  kept.zipIdx.foldl (fun table (i, key) => table.setIfInBounds i (some key))
    (Array.replicate c.size none)

end Cst

/-- A concrete syntax tree with its source and the rows that become nodes. -/
structure Outline where
  source : ByteArray
  cst : Cst
  tables : Language.Tables
  kept : List Nat
  keys : Array (Option Nat)

namespace Outline

def make (source : String) (cst : Cst) (tables : Language.Tables) (config : Config) : Outline :=
  let kept := cst.kept config.includeAnonymous
  ⟨source.toUTF8, cst, tables, kept, cst.keyTable kept⟩

def key? (o : Outline) (i : Nat) : Option Nat := o.keys[i]?.join

def text (o : Outline) (i : Nat) : Except Utf8.Defect String :=
  match o.cst.rows[i]? with
  | some r => Utf8.decode (o.source.extract r.startByte r.endByte)
  | none => .ok ""

/-- The source text of a row, if it can be read. -/
def text? (o : Outline) (i : Nat) : Option String := (o.text i).toOption

/-- The keys of the kept rows above a row, from the nearest on. -/
def scopes (o : Outline) (i : Nat) : List Nat := (o.cst.ancestors i).filterMap o.key?

end Outline

end CodeGraph
