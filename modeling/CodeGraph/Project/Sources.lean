import CodeGraph.Ignore.Walk
import CodeGraph.Language.Detection
import CodeGraph.Project.Error

/-!
# The sources of a project

The sources below a root are the files of a supported language that a walk finds and that no pattern
excludes, in the order of their paths. A root that is a file is its own source. A configuration lies
in the root, or beside it if it is a file.
-/

namespace CodeGraph

namespace FileTree

/-- Whether one of the patterns matches a path as seen from the root. -/
def isExcluded (patterns : List Glob) (root path : String) : Bool :=
  patterns.any fun g => g.isMatch (Path.relativeTo path root)

/-- The sources below a folder. -/
def sourcesBelow (t : FileTree) (patterns : List Glob) (root : String) : List String :=
  let sources := (t.filesBelow root).filter fun path => (Language.ofPath? path).isSome
  (sources.filter fun path => !isExcluded patterns root path).mergeSort Path.le

/-- The sources of a project. -/
def sources (t : FileTree) (config : Config) (root : String) :
    Except ProjectError (List String) :=
  if t.isFileAt root then .ok (if (Language.ofPath? root).isSome then [root] else [])
  else do
    let patterns ← (Glob.ofTexts? Glob.standard config.exclude).mapError .glob
    .ok (t.sourcesBelow patterns root)

/-! ## Configuration -/

/-- The name of the file with the configuration of a project. -/
def configName : String := "treegraph.toml"

/-- The configuration in a file. -/
def loadConfig (t : FileTree) (path : String) : Except ProjectError Config := do
  let text ← (t.readText path).mapError (.unreadable path)
  (Config.ofText text).mapError .config

/-- The path of the file that may hold the configuration of a project. -/
def configPath (t : FileTree) (root : String) : String :=
  Path.join (if t.isFolderAt root then root else (Path.parent? root).getD ".") configName

/-- The configuration of a project: the standard one if there is no file. -/
def projectConfig (t : FileTree) (root : String) : Except ProjectError Config :=
  let path := t.configPath root
  if t.isFileAt path then t.loadConfig path else .ok .standard

end FileTree

end CodeGraph
