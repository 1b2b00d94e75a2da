/-!
# JSON values for output

The part of JSON that graphs are written in: texts, integers, arrays and objects. `write` lays a
value out with two blanks for each level, one item or member on a line, and nothing between the
brackets of an empty array or object.
-/

namespace CodeGraph

/-- A JSON value without truth values, fractions and null. -/
inductive Json
  | int (n : Int)
  | text (s : String)
  | array (items : List Json)
  | object (members : List (String × Json))
  deriving Inhabited

namespace Json

/-! ## Quoted texts -/

/-- The four hexadecimal digits of a character below `U+10000`. -/
def hexDigits (c : Char) : List Char :=
  let digits := Nat.toDigits 16 c.toNat
  List.replicate (4 - digits.length) '0' ++ digits

/-- A character in a quoted text: a quote, a backslash and a control character need an escape. -/
def escapeChar (c : Char) : List Char :=
  match c with
  | '"' => ['\\', '"']
  | '\\' => ['\\', '\\']
  | '\x08' => ['\\', 'b']
  | '\x0c' => ['\\', 'f']
  | '\n' => ['\\', 'n']
  | '\r' => ['\\', 'r']
  | '\t' => ['\\', 't']
  | c => if c.toNat < 0x20 then '\\' :: 'u' :: hexDigits c else [c]

/-- A text between quotes. -/
def quote (s : String) : List Char := '"' :: s.toList.flatMap escapeChar ++ ['"']

/-! ## Layout -/

/-- A new line at a level. -/
def newLine (level : Nat) : List Char := '\n' :: List.replicate (2 * level) ' '

mutual

/-- A value whose first line begins at `level`. -/
def write (level : Nat) : Json → List Char
  | int n => (toString n).toList
  | text s => quote s
  | array [] => ['[', ']']
  | array (item :: items) =>
    '[' :: newLine (level + 1) ++ write (level + 1) item ++ writeItems (level + 1) items ++
      newLine level ++ [']']
  | object [] => ['\x7b', '\x7d']
  | object ((name, value) :: members) =>
    '\x7b' :: newLine (level + 1) ++ quote name ++ [':', ' '] ++ write (level + 1) value ++
      writeMembers (level + 1) members ++ newLine level ++ ['\x7d']

/-- The items after the first, each behind a comma. -/
def writeItems (level : Nat) : List Json → List Char
  | [] => []
  | item :: items => ',' :: newLine level ++ write level item ++ writeItems level items

/-- The members after the first, each behind a comma. -/
def writeMembers (level : Nat) : List (String × Json) → List Char
  | [] => []
  | (name, value) :: members =>
    ',' :: newLine level ++ quote name ++ [':', ' '] ++ write level value ++
      writeMembers level members

end

/-- The text of a value. -/
def toText (j : Json) : String := String.ofList (j.write 0)

end Json

end CodeGraph
