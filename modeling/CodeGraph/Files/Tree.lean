import CodeGraph.Cst.Basic
import CodeGraph.Files.Path
import CodeGraph.Text.Utf8

/-!
# Trees of files

A `FileTree` is a file or a folder of named trees. A file has its octets, and with them the concrete
syntax tree that a parser makes of them. Paths start at the folder that one works in: they are
followed piece by piece, and `..` leads up, also out of the tree, where nothing is known and so
nothing is found.
-/

namespace CodeGraph

/-- A file with what a parser makes of it. -/
structure SourceFile where
  content : ByteArray
  cst : Cst
  deriving Inhabited

/-- A file or a folder. -/
inductive FileTree
  | file (f : SourceFile)
  | folder (entries : List (String × FileTree))
  deriving Inhabited

/-- Why a path does not lead to what was wanted. -/
inductive FileFault
  | noSuchFile
  | notAFolder
  | isFolder
  | nameTooLong
  | zeroInName
  | notText
  deriving DecidableEq, Inhabited

def FileFault.message : FileFault → String
  | noSuchFile => "No such file or directory (os error 2)"
  | notAFolder => "Not a directory (os error 20)"
  | isFolder => "Is a directory (os error 21)"
  | nameTooLong => "File name too long (os error 36)"
  | zeroInName => "file name contained an unexpected NUL byte"
  | notText => "stream did not contain valid UTF-8"

namespace FileTree

/-- The folder without entries. -/
def empty : FileTree := folder []

def isFile : FileTree → Bool
  | file _ => true
  | folder _ => false

/-- The entries of a folder. -/
def entries : FileTree → List (String × FileTree)
  | file _ => []
  | folder entries => entries

def child? (t : FileTree) (name : String) : Option FileTree := t.entries.lookup name

/-- What the names lead to, from the tree down. -/
def descend? (t : FileTree) : List String → Option FileTree
  | [] => some t
  | name :: rest => (t.child? name).bind (·.descend? rest)

/-! ## Following paths -/

/-- The names that lead to a place in the tree, the last first; none for a place outside. -/
abbrev Place := Option (List String)

/-- What is at a place. Outside is an empty folder. -/
def atPlace (t : FileTree) : Place → FileTree
  | some names => (t.descend? names.reverse).getD empty
  | none => empty

def longestName : Nat := 255

def longestPath : Nat := 4095

/-- Follows one piece of a path. -/
def follow (t : FileTree) (place : Place) (piece : String) : Except FileFault Place :=
  if (t.atPlace place).isFile then .error .notAFolder
  else if piece == "" || piece == "." then .ok place
  else if piece == ".." then .ok (place.bind fun names => names.tail?)
  else if longestName < piece.utf8ByteSize then .error .nameTooLong
  else
    match place, (t.atPlace place).child? piece with
    | some names, some _ => .ok (some (piece :: names))
    | _, _ => .error .noSuchFile

/-- Whether a path can be followed at all, whatever files there are. -/
def checkPath (path : String) : Except FileFault Unit :=
  if path.toList.contains '\x00' then .error .zeroInName
  else if longestPath < path.utf8ByteSize then .error .nameTooLong
  else if path.isEmpty then .error .noSuchFile
  else .ok ()

/-- Where pieces lead. A path from the root starts outside. -/
def followAll (t : FileTree) (absolute : Bool) (pieces : List String) : Except FileFault Place :=
  pieces.foldlM t.follow (if absolute then none else some [])

/-- Where a path leads. -/
def locate (t : FileTree) (path : String) : Except FileFault Place := do
  checkPath path
  t.followAll (Path.isAbsolute path) (Path.pieces path)

/-- What a path leads to. -/
def find (t : FileTree) (path : String) : Except FileFault FileTree :=
  (t.locate path).map t.atPlace

def isFileAt (t : FileTree) (path : String) : Bool :=
  match t.find path with
  | .ok (file _) => true
  | _ => false

def isFolderAt (t : FileTree) (path : String) : Bool :=
  match t.find path with
  | .ok (folder _) => true
  | _ => false

/-! ## Reading and writing -/

/-- The file under a path. -/
def read (t : FileTree) (path : String) : Except FileFault SourceFile := do
  match ← t.find path with
  | file f => .ok f
  | folder _ => .error .isFolder

/-- The text under a path. -/
def readText (t : FileTree) (path : String) : Except FileFault String := do
  let f ← t.read path
  (Utf8.decode f.content).mapError fun _ => .notText

/-- Puts an entry into a list of entries, in exchange for the one of the same name. -/
def putEntry (name : String) (value : FileTree) :
    List (String × FileTree) → List (String × FileTree)
  | [] => [(name, value)]
  | (other, old) :: rest =>
    if other = name then (name, value) :: rest else (other, old) :: putEntry name value rest

/-- The tree with another tree under the names. Folders that are missing are made. -/
def put (t : FileTree) (value : FileTree) : List String → FileTree
  | [] => value
  | name :: rest =>
    folder (putEntry name (((t.child? name).getD empty).put value rest) t.entries)

/-- Whether the last piece is the name of a file, which no slash follows. -/
def namesFile (pieces : List String) : Bool := (pieces.getLast?.bind Path.part?).isSome &&
  pieces.getLast? != some ".."

/-- The tree after a file was written. -/
def write (t : FileTree) (path : String) (f : SourceFile) : Except FileFault FileTree := do
  checkPath path
  let pieces := Path.pieces path
  let core := (pieces.reverse.dropWhile (· == "")).reverse
  let above := if namesFile core then core.dropLast else core
  let place ← t.followAll (Path.isAbsolute path) above
  let name := pieces.getLast?.getD ""
  if (t.atPlace place).isFile then .error .notAFolder
  else if !namesFile pieces then .error .isFolder
  else if longestName < name.utf8ByteSize then .error .nameTooLong
  else
    match place, (t.atPlace place).child? name with
    | _, some (folder _) => .error .isFolder
    | some names, _ => .ok (t.put (file f) (name :: names).reverse)
    | none, _ => .ok t

end FileTree

end CodeGraph
