import CodeGraph.Decimal.Binary64

/-!
# TOML values

What a TOML document says, whichever of the notations for tables it uses. The entries of a table are
in the order in which they were made.
-/

namespace CodeGraph.Toml

/-- A TOML value. -/
inductive Value
  | text (s : String)
  | integer (n : Int64)
  | float (x : Binary64)
  | bool (b : Bool)
  /-- A date, a time, or both. Nobody asks which. -/
  | moment
  | array (items : List Value)
  | table (entries : List (String × Value))
  deriving Inhabited

/-- Reads something from the start of a text and gives the rest, or fails. -/
abbrev Reader (α : Type) := List Char → Option (α × List Char)

/-- Reads something that may be missing. -/
def readOpt {α : Type} (reader : Reader α) (s : List Char) : Option α × List Char :=
  match reader s with
  | some (x, rest) => (some x, rest)
  | none => (none, s)

/-- The items behind separators, up to a separator that no item follows. -/
def readMore {α : Type} (separator : Char) (item : Reader α) (s : List Char) :
    List α × List Char :=
  match s with
  | [] => ([], [])
  | c :: rest =>
    if c = separator then
      match item rest with
      | some (x, rest') =>
        if rest'.length < (c :: rest).length then
          let (xs, rest'') := readMore separator item rest'
          (x :: xs, rest'')
        else ([], s)
      | none => ([], s)
    else ([], s)
termination_by s.length
decreasing_by assumption

/-- One or more items with separators between them. -/
def readSeparated {α : Type} (separator : Char) (item : Reader α) : Reader (List α) := fun s =>
  (item s).map fun (x, rest) =>
    let (xs, rest) := readMore separator item rest
    (x :: xs, rest)

/-- One character. -/
def readChar (c : Char) : List Char → Option (List Char)
  | d :: rest => if d = c then some rest else none
  | [] => none

/-! ## Blanks -/

def isBlank (c : Char) : Bool := c == ' ' || c == '\t'

def skipBlanks (s : List Char) : List Char := s.dropWhile isBlank

/-- A line break is a line feed, or a return and a line feed. -/
def readLineBreak : List Char → Option (List Char)
  | '\n' :: rest => some rest
  | '\r' :: '\n' :: rest => some rest
  | _ => none

/-- Whether a character other than a tab controls something instead of being shown. -/
def isControl (c : Char) : Bool := (c.toNat < 0x20 && c != '\t') || c.toNat == 0x7F

/-- Skips a comment, if there is one. -/
def skipComment : List Char → List Char
  | '#' :: rest => rest.dropWhile fun c => !isControl c
  | s => s

/-- Skips blanks, comments and line breaks. A comment ends with its line. -/
def skipLines : List Char → List Char
  | ' ' :: rest | '\t' :: rest | '\n' :: rest | '\r' :: '\n' :: rest => skipLines rest
  | '#' :: rest => skipCommentLine rest
  | s => s
where
  /-- Skips the rest of a comment and what comes after its line. -/
  skipCommentLine : List Char → List Char
    | '\n' :: rest | '\r' :: '\n' :: rest => skipLines rest
    | c :: rest => if isControl c then '#' :: c :: rest else skipCommentLine rest
    | [] => ['#']

/-- The end of a line: blanks, a comment, and a line break or the end of the text. -/
def readLineEnd (s : List Char) : Option (List Char) :=
  match skipComment (skipBlanks s) with
  | [] => some []
  | rest => readLineBreak rest

end CodeGraph.Toml
