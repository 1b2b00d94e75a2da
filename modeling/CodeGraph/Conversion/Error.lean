import CodeGraph.Ast.Basic

/-!
# Why a conversion fails

Every cause aborts the whole conversion.
-/

namespace CodeGraph

/-- Why a link leads to nothing that the graph can show. -/
inductive UnresolvedReason
  /-- A type target is not a simple name but a node of this kind. -/
  | unexpectedKind (kind : String)
  /-- A target of this kind has no vertex. -/
  | missingTarget (kind : String)
  deriving DecidableEq, Inhabited

namespace UnresolvedReason

def targetKind : UnresolvedReason → String
  | unexpectedKind kind | missingTarget kind => kind

def message : UnresolvedReason → String
  | unexpectedKind kind => s!"expected a simple name, found {kind}"
  | missingTarget kind => s!"{kind} target is outside the converted tree"

end UnresolvedReason

inductive ConversionError
  /-- The node of this kind and identity has a vertex already. -/
  | duplicateNode (kind : String) (identity : NodeId)
  /-- A link of a node of kind `source` cannot be followed. -/
  | unresolved (relation : Relation) (source : String) (reason : UnresolvedReason)
  /-- The source of extra attributes failed, with this text. -/
  | attributes (text : String)
  /-- An extra attribute of a node of this kind has a reserved name. -/
  | reservedName (name kind : String)
  /-- A node lies structurally below itself, so the edge walk has no end. -/
  | endless (kind : String)
  deriving DecidableEq, Inhabited

namespace ConversionError

def message : ConversionError → String
  | duplicateNode kind identity => s!"not a tree: {kind} node {identity.display} reached twice"
  | unresolved relation source reason =>
    s!"unresolved {relation.label} reference from {source} node: {reason.message}"
  | attributes text => text
  | reservedName name kind =>
    s!"attribute extractor produced reserved property '{name}' for {kind} node"
  | endless kind => s!"not a tree: {kind} node lies below itself"

end ConversionError

end CodeGraph
