/-!
# Paths

A path is a text, and keeps its spelling. `parts` are what it leads through: slashes in a row count
as one, and a dot counts only at the start.
-/

namespace CodeGraph.Path

/-- A part of a path, in ascending order of kinds. -/
inductive Part
  | root
  | current
  | parent
  | name (s : String)
  deriving DecidableEq, Inhabited

namespace Part

def display : Part → String
  | root => ""
  | current => "."
  | parent => ".."
  | name s => s

def rank : Part → Nat
  | root => 0
  | current => 1
  | parent => 2
  | name _ => 3

/-- Whether a part comes before another or is the same: names are in the order of characters. -/
def le : Part → Part → Bool
  | name a, name b => a ≤ b
  | a, b => a.rank ≤ b.rank

end Part

/-! ## Pieces -/

/-- The texts between slashes. -/
def splitSlashes : List Char → List (List Char)
  | [] => [[]]
  | '/' :: rest => [] :: splitSlashes rest
  | c :: rest =>
    match splitSlashes rest with
    | [] => [[c]]
    | piece :: pieces => (c :: piece) :: pieces

def pieces (path : String) : List String := (splitSlashes path.toList).map String.ofList

def isAbsolute (path : String) : Bool := path.toList.head? == some '/'

/-- The part that a piece stands for, unless it stands for none. -/
def part? (piece : String) : Option Part :=
  if piece == "" || piece == "." then none
  else if piece == ".." then some .parent
  else some (.name piece)

/-- The parts of a path. -/
def parts (path : String) : List Part :=
  let first := if isAbsolute path then [Part.root]
    else if (pieces path).head? == some "." then [Part.current] else []
  first ++ (pieces path).filterMap part?

/-! ## Names -/

/-- The last part, if it is a name. -/
def fileName? (path : String) : Option String :=
  match (parts path).getLast? with
  | some (.name s) => some s
  | _ => none

/-- The text behind the last dot of the file name, unless that dot is its first character. -/
def extension? (path : String) : Option String := do
  let name := (← fileName? path).toList
  let behind := (name.reverse.takeWhile (· != '.')).reverse
  if behind.length + 1 < name.length then some (String.ofList behind) else none

/-! ## Relatives -/

/-- Appends a name. -/
def join (path name : String) : String :=
  if path.isEmpty then name
  else if path.toList.getLast? == some '/' then path ++ name
  else path ++ "/" ++ name

def joinPieces (pieces : List String) : String := "/".intercalate pieces

/-- The pieces without those at the end that stand for no part. -/
def trimPieces (pieces : List String) : List String :=
  (pieces.reverse.dropWhile fun piece => (part? piece).isNone).reverse

/-- The path without its last part, or none for a path that has no part or only the root. -/
def parent? (path : String) : Option String :=
  if isAbsolute path then
    match trimPieces (pieces path).tail with
    | [] => none
    | body => some ("/" ++ joinPieces (trimPieces body.dropLast))
  else
    match pieces path with
    | [] | [""] => none
    | first :: rest =>
      match trimPieces rest with
      | [] => some ""
      | body =>
        match trimPieces body.dropLast with
        | [] => some first
        | body => some (joinPieces (first :: body))

/-- The parts behind those of another path, if it begins with them. -/
def dropParts? : List Part → List Part → Option (List Part)
  | [], parts => some parts
  | a :: base, b :: parts => if a = b then dropParts? base parts else none
  | _ :: _, [] => none

/-- The path as seen from another, or the path itself if it does not begin there. -/
def relativeTo (path base : String) : String :=
  match dropParts? (parts base) (parts path) with
  | some rest => joinPieces (rest.map Part.display)
  | none => path

/-! ## Order -/

/-- Whether a list of parts comes before another or is the same, part by part. -/
def partsLe : List Part → List Part → Bool
  | [], _ => true
  | _ :: _, [] => false
  | a :: as, b :: bs => if a = b then partsLe as bs else a.le b

/-- Whether a path comes before another or is the same, part by part. -/
def le (a b : String) : Bool := partsLe (parts a) (parts b)

/-! ## Spelling -/

/-- What comes behind a text at the start of a path. -/
def dropFront? : List Char → List Char → Option (List Char)
  | [], path => some path
  | c :: front, d :: path => if c = d then dropFront? front path else none
  | _ :: _, [] => none

/-- The path without a text at its start, or unchanged if it does not start so. -/
def withoutFront (front path : String) : String :=
  ((dropFront? front.toList path.toList).map String.ofList).getD path

/-- Whether a path stands for the directory that it is seen from. -/
def isHere (path : String) : Bool := parts path == [.current]

end CodeGraph.Path
