/-!
# Source languages

For each language a few tables say which node kinds of its grammar spell names, refer to
declarations, declare something, spell types and call functions. Everything that is known about a
language is in its tables.
-/

namespace CodeGraph

inductive Language
  | java
  | python
  | rust
  | go
  deriving DecidableEq, Repr, Inhabited

structure Language.Tables where
  name : String
  /-- Kinds whose whole text is a single identifier. -/
  simpleNames : List String
  /-- Identifier kinds that may refer to a declaration. -/
  references : List String
  /-- Kinds that declare what their `name` child spells. -/
  declarations : List String
  /-- Declarations that a call can reach. -/
  callables : List String
  /-- Kinds with the field under which they spell a type. -/
  typed : List (String × String)
  /-- Kinds that name a type inside a type expression. -/
  typeNames : List String
  /-- Qualified type kinds, whose last named child is the type name. -/
  qualifiedTypes : List String
  /-- Kinds of call sites with the field that holds the callee. -/
  calls : List (String × String)
  /-- Fields of a compound callee that may hold the called name, in order of preference. -/
  calleeNameFields : List String

namespace Language.Tables

def isSimpleName (t : Tables) (kind : String) : Bool := t.simpleNames.contains kind

def isReference (t : Tables) (kind : String) : Bool := t.references.contains kind

def isDeclaration (t : Tables) (kind : String) : Bool := t.declarations.contains kind

def isCallable (t : Tables) (kind : String) : Bool := t.callables.contains kind

def isTypeName (t : Tables) (kind : String) : Bool := t.typeNames.contains kind

def isQualifiedType (t : Tables) (kind : String) : Bool := t.qualifiedTypes.contains kind

/-- The field under which a kind spells a type. -/
def typeField? (t : Tables) (kind : String) : Option String := t.typed.lookup kind

/-- The field under which a kind of call site holds its callee. -/
def calleeField? (t : Tables) (kind : String) : Option String := t.calls.lookup kind

end Language.Tables

end CodeGraph
