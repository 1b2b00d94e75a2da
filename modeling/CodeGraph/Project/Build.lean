import CodeGraph.Project.Sources
import CodeGraph.SyntaxTree.View

/-!
# The graph of a project

The files of a project are taken up one after the other into one graph. The first that fails ends
the build.
-/

namespace CodeGraph.FileTree

def parseFile (t : FileTree) (config : Config) (path : String) (number : UInt32) :
    Except ProjectError SyntaxTree :=
  match Language.ofPath? path with
  | none => .error (.unsupportedFile path)
  | some language => do
    let f ← (t.read path).mapError (.unreadable path)
    let text ← (Utf8.decode f.content).mapError fun defect => .source (.encoding defect)
    (f.cst.toSyntaxTree text language.tables config path number).mapError .source

/-- Takes up a syntax tree, unless it is empty. -/
def addTree (config : Config) (path : String) (c : Conversion) (s : SyntaxTree) :
    Except ProjectError Conversion :=
  match s.rootKey.bind s.nodeName? with
  | none => .ok c
  | some root => (c.add s.ast (s.sourceAttributes config.spans) root).mapError (.conversion path)

/-- Takes up a file. The trees are numbered in order. -/
def addFile (t : FileTree) (config : Config) (c : Conversion) (entry : String × Nat) :
    Except ProjectError Conversion := do
  let s ← t.parseFile config entry.1 (UInt32.ofNat entry.2)
  addTree config entry.1 c s

def graphOfFiles (t : FileTree) (config : Config) (paths : List String) :
    Except ProjectError PropertyGraph :=
  (paths.zipIdx.foldlM (t.addFile config) ∅).map (·.graph)

def projectGraph (t : FileTree) (config : Config) (root : String) :
    Except ProjectError PropertyGraph := do
  t.graphOfFiles config (← t.sources config root)

end CodeGraph.FileTree
