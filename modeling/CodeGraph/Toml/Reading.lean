import CodeGraph.Toml.Number
import CodeGraph.Toml.Table
import CodeGraph.Toml.Text

/-!
# Reading TOML

`Document.ofText?` reads a document: lines with a key and a value, headers of tables, and comments.
Arrays and tables lie in each other less than 80 deep, and a key has less than 80 parts.
-/

namespace CodeGraph.Toml

/-- How deep values lie in each other, and how many parts keys have, at most. -/
def maxDepth : Nat := 79

/-! ## Keys -/

def isKeyChar (c : Char) : Bool := c.isAlphanum || c == '-' || c == '_'

/-- A part of a key, with blanks around it. -/
def readKeyPart : Reader String := fun s =>
  let s := skipBlanks s
  match s with
  | '"' :: _ | '\'' :: _ => (readShortText s).map fun (part, rest) => (part, skipBlanks rest)
  | s =>
    let part := s.takeWhile isKeyChar
    if part.isEmpty then none
    else some (String.ofList part, skipBlanks (s.dropWhile isKeyChar))

/-- A key: its parts between dots. -/
def readKey : Reader (List String) := fun s => do
  let (path, rest) ← readSeparated '.' readKeyPart s
  if path.length ≤ maxDepth then some (path, rest) else none

/-! ## Values -/

def readWord (word : List Char) (v : Value) : Reader Value := fun s =>
  if word.isPrefixOf s then some (v, s.drop word.length) else none

/-- A value that holds no others. -/
def readScalar : Reader Value := fun s =>
  match s with
  | '"' :: _ | '\'' :: _ => (readText s).map fun (text, rest) => (.text text, rest)
  | 't' :: _ => readWord ['t', 'r', 'u', 'e'] (.bool true) s
  | 'f' :: _ => readWord ['f', 'a', 'l', 's', 'e'] (.bool false) s
  | s => readNumber s

/-- A value with lines to skip around it. -/
def readArrayItem (value : Reader Value) : Reader Value := fun s =>
  (value (skipLines s)).map fun (v, rest) => (v, skipLines rest)

/-- An array behind its bracket. A comma may follow the last item. -/
def readArray (value : Reader Value) : Reader Value := fun s =>
  match readSeparated ',' (readArrayItem value) s with
  | none => (readChar ']' (skipLines s)).map (.array [], ·)
  | some (items, rest) =>
    let rest := skipLines ((readChar ',' rest).getD rest)
    (readChar ']' rest).map (.array items, ·)

/-- A key with its value, which has blanks around it. -/
def readPair (value : Reader Value) : Reader (List String × Value) := fun s => do
  let (path, rest) ← readKey s
  let (v, rest) ← value (skipBlanks (← readChar '=' rest))
  some ((path, v), skipBlanks rest)

/-- A table behind its brace. -/
def readInlineTable (value : Reader Value) : Reader Value := fun s => do
  let (pairs, rest) := match readSeparated ',' (readPair value) s with
    | some found => found
    | none => ([], s)
  let rest ← readChar '\x7d' (skipBlanks rest)
  let t ← pairs.foldlM (fun (t : Table) (path, v) => t.insert path v) .empty
  some (t.toValue, rest)

/-- A value that holds others at most `room` levels deep. -/
def readValue (room : Nat) : Reader Value := fun s =>
  match s, room with
  | '[' :: rest, room + 1 => readArray (readValue room) rest
  | '\x7b' :: rest, room + 1 => readInlineTable (readValue room) rest
  | s, _ => readScalar s

/-! ## Documents -/

/-- A header behind its brackets, of which there are `depth`. -/
def readHeader (depth : Nat) (s : List Char) : Option (List String × List Char) := do
  let (path, rest) ← readKey s
  let rest ← (List.replicate depth ']').foldlM (fun rest c => readChar c rest) rest
  some (path, ← readLineEnd rest)

/-- One line of a document, with blanks in front skipped. -/
def readLine (d : Draft) (s : List Char) : Option (Draft × List Char) :=
  match s with
  | '[' :: '[' :: rest => do
    let (path, rest) ← readHeader 2 rest
    some (← d.header path true, rest)
  | '[' :: rest => do
    let (path, rest) ← readHeader 1 rest
    some (← d.header path false, rest)
  | '#' :: _ | '\n' :: _ | '\r' :: _ => (readLineEnd s).map (d, ·)
  | s => do
    let (path, rest) ← readKey s
    let (v, rest) ← readValue maxDepth (skipBlanks (← readChar '=' rest))
    some (← d.insert path v, ← readLineEnd rest)

/-- The lines of a document from one on. -/
def readLines (d : Draft) (s : List Char) : Option Draft :=
  let s' := skipBlanks s
  if s'.isEmpty then some d
  else
    match readLine d s' with
    | some (d, rest) => if rest.length < s.length then readLines d rest else none
    | none => none
termination_by s.length

/-- What a document says: the entries of its root in order, or nothing if it is no TOML. -/
def Document.ofText? (text : String) : Option (List (String × Value)) := do
  let s := text.toList
  let d ← readLines .empty (if s.head? == some '\ufeff' then s.tail else s)
  some (entryValues (← d.finish).entries)

end CodeGraph.Toml
