import CodeGraph.Files.Path
import CodeGraph.Language.Go
import CodeGraph.Language.Java
import CodeGraph.Language.Python
import CodeGraph.Language.Rust

/-!
# Telling languages apart

A language is known by its name or by the extension of its files.
-/

namespace CodeGraph.Language

def all : List Language := [java, python, rust, go]

def tables : Language → Tables
  | java => javaTables
  | python => pythonTables
  | rust => rustTables
  | go => goTables

def name (l : Language) : String := l.tables.name

def ofName? (name : String) : Option Language := all.find? (·.name == name)

def extensions : Language → List String
  | java => ["java"]
  | python => ["py", "pyi"]
  | rust => ["rs"]
  | go => ["go"]

/-- The language whose files have this extension. -/
def ofExtension? (extension : String) : Option Language :=
  all.find? (·.extensions.contains extension)

def ofPath? (path : String) : Option Language := (Path.extension? path).bind ofExtension?

end CodeGraph.Language
