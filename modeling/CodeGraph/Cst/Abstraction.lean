import CodeGraph.Cst.Scope
import CodeGraph.Cst.Shape
import CodeGraph.Cst.TypeNames

/-!
# From concrete to abstract syntax

`Cst.toSyntaxTree` copies the kept rows of a concrete syntax tree and then relates them:
declarations to what they are declared in, typed nodes to the type names they spell, names to the
declarations they mean, and calls to the functions they reach. A link only leads to a kept row of
the same file.
-/

namespace CodeGraph

inductive SourceError
  /-- The source called `path` has a syntax error, and none is allowed. -/
  | syntaxError (path : String) (line column : Nat)
  | encoding (defect : Utf8.Defect)
  deriving DecidableEq, Inhabited

def SourceError.message : SourceError → String
  | syntaxError path line column => s!"syntax error in {path} at {line}:{column}"
  | encoding defect => s!"source is not valid UTF-8: {defect.message}"

namespace Outline

structure Link where
  source : Nat
  relation : Relation
  target : Nat
  deriving DecidableEq, Inhabited

/-- The link between two rows, if both are kept. -/
def link? (o : Outline) (i : Nat) (relation : Relation) (j : Nat) : Option Link := do
  let source ← o.key? i
  let target ← o.key? j
  some ⟨source, relation, target⟩

/-- Each declaration is declared in its owner. -/
def declaresLinks (o : Outline) (declarations : List Declaration) : List Link :=
  declarations.filterMap fun d => (o.key? d.row).map (⟨d.owner, .declares, ·⟩)

/-- A typed node has the type names that its type spells. -/
def typeLinks (o : Outline) (i : Nat) : List Link :=
  match o.typeRow? i with
  | some t => (o.typeNames t).filterMap (o.link? i .type)
  | none => []

/-- A reference that is not itself the name of a declaration resolves to the one it means. -/
def resolvesToLink? (o : Outline) (declarations : List Declaration) (nameRows : List Nat)
    (i : Nat) : Option Link :=
  if o.tables.isReference (o.cst.kind i) && !nameRows.contains i then do
    let name ← o.text? i
    let d ← o.visible? (declarations.filter (·.name == name)) i
    o.link? i .resolvesTo d.row
  else none

/-- The name that a call site calls: its callee's if that is a name, else the first name in one of
the callee's fields. -/
def calleeName? (o : Outline) (i : Nat) : Option String := do
  let field ← o.tables.calleeField? (o.cst.kind i)
  let callee ← o.cst.childByField? i field
  if o.tables.isSimpleName (o.cst.kind callee) then o.text? callee
  else
    let candidates := o.tables.calleeNameFields.filterMap (o.cst.childByField? callee)
    let named ← candidates.find? fun j => o.tables.isSimpleName (o.cst.kind j)
    o.text? named

/-- A call site calls the function that its callee's name means among the callable declarations. -/
def callsLink? (o : Outline) (declarations : List Declaration) (i : Nat) : Option Link := do
  let name ← o.calleeName? i
  let callable := fun d : Declaration => o.tables.isCallable (o.cst.kind d.row)
  let d ← o.visible? (declarations.filter fun d => d.name == name && callable d) i
  o.link? i .calls d.row

/-- The links of one kept row other than what it declares. -/
def rowLinks (o : Outline) (declarations : List Declaration) (nameRows : List Nat) (i : Nat) :
    List Link :=
  o.typeLinks i ++ (o.resolvesToLink? declarations nameRows i).toList ++
    (o.callsLink? declarations i).toList

/-- All links beyond the shape of the tree, first those between declarations. -/
def links (o : Outline) : List Link :=
  let declarations := o.declarations
  let nameRows := declarations.filterMap fun d => o.nameRow? d.row
  o.declaresLinks declarations ++ o.kept.flatMap (o.rowLinks declarations nameRows)

end Outline

/-- The syntax tree of a source. In strict mode the first error in it is a reason to refuse it. -/
def Cst.toSyntaxTree (c : Cst) (source : String) (tables : Language.Tables) (config : Config)
    (path : String) (number : UInt32) : Except SourceError SyntaxTree :=
  match if config.strict then c.firstError? else none with
  | some r => .error (.syntaxError path (r.startRow + 1) (r.startColumn + 1))
  | none => do
    let o := Outline.make source c tables config
    let shape ← (o.shape number path).mapError .encoding
    let links := o.links.filter fun l => config.emits l.relation
    .ok (links.foldl (fun t l => t.link l.source l.relation l.target) shape)

end CodeGraph
