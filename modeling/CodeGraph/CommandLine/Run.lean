import CodeGraph.CommandLine.Arguments
import CodeGraph.Graph.Dot
import CodeGraph.Graph.Format
import CodeGraph.Project.Build

/-!
# Running commands

`runArguments` does what the arguments ask for on the files of the folder that one works in, and
gives an `Outcome`: the exit code, what is printed, and the file that is written. An error is
reported with what it comes from, each cause below the one before.
-/

namespace CodeGraph

/-- What a run leads to. -/
structure Outcome where
  code : Nat
  output : String
  errors : String
  /-- The path and the text of the file that is written. -/
  written : Option (String × String)
  deriving DecidableEq, Inhabited

namespace Outcome

/-- The run went well and printed something. -/
def printed (output : String) : Outcome := ⟨0, output, "", none⟩

/-- The run went well and wrote a file. -/
def wrote (path text : String) : Outcome := ⟨0, "", "", some (path, text)⟩

/-! ## Reports -/

/-- A text with every line but the first moved to the right. -/
def hang (indent text : String) : String :=
  String.join (text.toList.map fun c => if c == '\n' then "\n" ++ indent else c.toString)

/-- One cause, numbered if there are several. -/
def causeText (numbered : Bool) (cause : String × Nat) : String :=
  if numbered then s!"\n    {cause.2}: " ++ hang "       " cause.1
  else "\n    " ++ hang "    " cause.1

/-- An error with its causes. -/
def report (error : String) (causes : List String) : String :=
  let below := String.join (causes.zipIdx.map (causeText (1 < causes.length)))
  "Error: " ++ error ++ (if causes.isEmpty then "" else "\n\nCaused by:" ++ below) ++ "\n"

/-- The run failed. -/
def failed (error : String) (causes : List String) : Outcome :=
  ⟨1, "", report error causes, none⟩

end Outcome

namespace Command

def versionText : String := "treegraph v0.1.0\n"

def usageText : String :=
  "usage: treegraph [-v] convert PATH [-o FILE] [-f json|dot] [-c FILE]\n" ++
  "       treegraph [-v] stats PATH [-c FILE]\n" ++
  "       treegraph version\n"

/-- The configuration in a file, or that of the project. -/
def configOf (t : FileTree) (path : String) (config : Option String) :
    Except ProjectError Config :=
  match config with
  | some file => t.loadConfig file
  | none => t.projectConfig path

/-- Builds the graph of a project and goes on with it. -/
def withGraph (t : FileTree) (path : String) (config : Option String)
    (next : PropertyGraph → Outcome) : Outcome :=
  match configOf t path config with
  | .error e => .failed e.message e.causes
  | .ok config =>
    match t.projectGraph config path with
    | .error e => .failed s!"Failed to convert {path}" (e.message :: e.causes)
    | .ok g => next g

/-- The text of a graph in a format. -/
def render (format : GraphFormat) (g : PropertyGraph) : String :=
  match format with
  | .json => g.toText
  | .dot => g.toDot

/-- The numbers of vertices and edges, and of the edges of each label. -/
def statsText (g : PropertyGraph) : String :=
  s!"vertices: {g.vertices.size}\nedges: {g.arcs.size}\n" ++
    String.join (g.labelCounts.entries.map fun (label, n) => s!"  {label}: {n}\n")

def run (t : FileTree) : Command → Outcome
  | convert path output format config =>
    withGraph t path config fun g =>
      let text := render format g
      match output with
      | none => .printed (text ++ "\n")
      | some file =>
        match t.write file ⟨text.toUTF8, default⟩ with
        | .ok _ => .wrote file text
        | .error fault => .failed s!"Failed to write {file}" [fault.message]
  | stats path config => withGraph t path config fun g => .printed (statsText g)
  | version => .printed versionText

/-- Does what the arguments ask for. -/
def runArguments (t : FileTree) (arguments : List String) : Outcome :=
  match ofArguments? arguments with
  | .ok command => command.run t
  | .error .help => .printed usageText
  | .error .misuse => ⟨2, "", usageText, none⟩

end Command

end CodeGraph
