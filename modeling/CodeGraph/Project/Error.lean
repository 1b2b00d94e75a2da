import CodeGraph.Config.Format
import CodeGraph.Conversion.Error
import CodeGraph.Cst.Abstraction
import CodeGraph.Files.Tree
import CodeGraph.Glob.Basic

/-!
# What can go wrong with a project

Some errors have a cause that reads by itself.
-/

namespace CodeGraph

/-- Why a project does not become a graph. -/
inductive ProjectError
  | unsupportedFile (path : String)
  | unreadable (path : String) (fault : FileFault)
  | source (e : SourceError)
  | config (e : ConfigError)
  | glob (e : GlobError)
  | conversion (path : String) (e : ConversionError)
  deriving DecidableEq, Inhabited

namespace ProjectError

def message : ProjectError → String
  | unsupportedFile path => s!"unsupported source file: {path}"
  | unreadable path fault => s!"cannot read {path}: {fault.message}"
  | source e => e.message
  | config e => s!"invalid config: {e.message}"
  | glob e => s!"invalid exclude pattern: {e.message}"
  | conversion path e => s!"{path}: {e.message}"

/-- The texts of what an error comes from. -/
def causes : ProjectError → List String
  | unsupportedFile _ | source (.syntaxError _ _ _) => []
  | unreadable _ fault => [fault.message]
  | source (.encoding defect) => [defect.message]
  | config e => [e.message]
  | glob e => [e.message]
  | conversion _ e => [e.message]

end ProjectError

end CodeGraph
