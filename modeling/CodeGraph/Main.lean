import CodeGraph.CommandLine.Run
import CodeGraph.Cst.Format

/-!
# The program

Takes up the folder that one works in, runs the command, and prints and writes what it leads to. A
source file `a.py` comes with a file `a.py.cst`, which holds what a parser made of it.
-/

namespace CodeGraph.Program

/-- The concrete syntax tree in a text, or none at all. -/
def readCst (content : ByteArray) : Cst :=
  ((Utf8.decode content).toOption.bind Cst.ofText?).getD default

/-- Takes up an entry of a folder. -/
partial def readEntry (e : IO.FS.DirEntry) : IO (String × FileTree) := do
  if ← e.path.isDir then
    let entries ← e.path.readDir
    return (e.fileName, .folder (← entries.toList.mapM readEntry))
  else
    let content ← IO.FS.readBinFile e.path
    let beside := e.path.addExtension "cst"
    let cst ← if ← beside.pathExists then readCst <$> IO.FS.readBinFile beside else pure default
    return (e.fileName, .file ⟨content, cst⟩)

end CodeGraph.Program

open CodeGraph in
/-- Runs the command that the arguments ask for. -/
def main (arguments : List String) : IO UInt32 := do
  let entries ← (← IO.currentDir).readDir
  let files := FileTree.folder (← entries.toList.mapM Program.readEntry)
  let outcome := Command.runArguments files arguments
  IO.print outcome.output
  IO.eprint outcome.errors
  if let some (path, text) := outcome.written then IO.FS.writeFile path text
  return outcome.code.toUInt32
