import CodeGraph.Toml.Basic

/-!
# Quoted texts in TOML

A text stands between quotes, where a backslash begins an escape, or between apostrophes, where it
does not. Between three of them it may have several lines; a line break right at the start does not
count, and a backslash at the end of a line joins it with the next. One or two quotes may stand
right before the three that end a text.
-/

namespace CodeGraph.Toml

/-- The value of a hexadecimal digit. -/
def hexValue? (c : Char) : Option Nat :=
  if '0' ≤ c ∧ c ≤ '9' then some (c.toNat - '0'.toNat)
  else if 'a' ≤ c ∧ c ≤ 'f' then some (c.toNat - 'a'.toNat + 10)
  else if 'A' ≤ c ∧ c ≤ 'F' then some (c.toNat - 'A'.toNat + 10)
  else none

/-- The character with the number that hexadecimal digits spell. -/
def hexChar? (digits : List Char) : Option Char := do
  let values ← digits.mapM hexValue?
  let n := values.foldl (fun n d => n * 16 + d) 0
  if h : n.isValidChar then some (Char.ofNatAux n h) else none

/-- The character that an escape stands for, behind its backslash. -/
def readEscape : Reader Char
  | 'b' :: rest => some ('\x08', rest)
  | 'f' :: rest => some ('\x0c', rest)
  | 'n' :: rest => some ('\n', rest)
  | 'r' :: rest => some ('\r', rest)
  | 't' :: rest => some ('\t', rest)
  | '\\' :: rest => some ('\\', rest)
  | '"' :: rest => some ('"', rest)
  | 'u' :: a :: b :: c :: d :: rest => (hexChar? [a, b, c, d]).map (·, rest)
  | 'U' :: a :: b :: c :: d :: e :: f :: g :: h :: rest =>
    (hexChar? [a, b, c, d, e, f, g, h]).map (·, rest)
  | _ => none

/-- Skips blanks and line breaks. -/
def skipJoined : List Char → List Char
  | ' ' :: rest | '\t' :: rest | '\n' :: rest | '\r' :: '\n' :: rest => skipJoined rest
  | s => s

/-- What comes behind a backslash that joins two lines. -/
def joinLines? (s : List Char) : Option (List Char) := (readLineBreak (skipBlanks s)).map skipJoined

/-- How a text is quoted. -/
structure Quoting where
  quote : Char
  /-- Whether the text may have several lines, and stands between three quotes. -/
  long : Bool
  deriving DecidableEq

namespace Quoting

def escapes (q : Quoting) : Bool := q.quote == '"'

/-- Reads the text up to its end, behind the characters in `before`, which are in reverse. -/
def readBody (q : Quoting) (before : List Char) (s : List Char) : Option (List Char × List Char) :=
  match s with
  | [] => none
  | c :: rest =>
    if c = q.quote then
      if !q.long then some (before.reverse, rest)
      else
        match rest with
        | d :: e :: rest' =>
          if d = q.quote ∧ e = q.quote then
            let more := (rest'.takeWhile (· == q.quote)).take 2
            some ((more ++ before).reverse, rest'.drop more.length)
          else readBody q (c :: before) (d :: e :: rest')
        | _ => none
    else if c = '\\' ∧ q.escapes then
      match if q.long then joinLines? rest else none with
      | some rest' =>
        if rest'.length < (c :: rest).length then readBody q before rest' else none
      | none =>
        match readEscape rest with
        | some (d, rest') =>
          if rest'.length < (c :: rest).length then readBody q (d :: before) rest' else none
        | none => none
    else if c = '\n' then if q.long then readBody q (c :: before) rest else none
    else if c = '\r' then
      match rest with
      | '\n' :: rest' => if q.long then readBody q ('\n' :: before) rest' else none
      | _ => none
    else if isControl c then none
    else readBody q (c :: before) rest
termination_by s.length
decreasing_by
  all_goals first
    | assumption
    | (subst_vars; simp only [List.length_cons]; omega)

/-- Reads a text behind its opening quotes. -/
def read (q : Quoting) : Reader String := fun s =>
  let s := if q.long then (readLineBreak s).getD s else s
  (q.readBody [] s).map fun (body, rest) => (String.ofList body, rest)

end Quoting

/-- A text on one line. -/
def readShortText : Reader String
  | '"' :: rest => Quoting.read ⟨'"', false⟩ rest
  | '\'' :: rest => Quoting.read ⟨'\'', false⟩ rest
  | _ => none

/-- A text. -/
def readText : Reader String
  | '"' :: '"' :: '"' :: rest => Quoting.read ⟨'"', true⟩ rest
  | '\'' :: '\'' :: '\'' :: rest => Quoting.read ⟨'\'', true⟩ rest
  | s => readShortText s

end CodeGraph.Toml
