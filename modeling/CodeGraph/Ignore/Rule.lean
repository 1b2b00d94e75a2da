import CodeGraph.Glob.Matching
import CodeGraph.Text.Blank
import CodeGraph.Text.Utf8

/-!
# Ignore rules

An ignore file holds one rule a line: a pattern for the paths below the folder of the file. Of the
rules that match a path the last counts. A rule with `!` in front keeps what it matches. A pattern
without a slash matches at any depth.
-/

namespace CodeGraph

/-- One line of an ignore file. -/
structure IgnoreRule where
  glob : Glob
  /-- Whether the rule keeps what it matches. -/
  keeps : Bool
  /-- Whether the rule only speaks of folders. -/
  onlyFolders : Bool

/-- What rules say about a path. -/
inductive Verdict
  | skip
  | keep
  deriving DecidableEq, Inhabited

namespace IgnoreRule

/-- Wildcards do not match slashes, and a bracket need not be closed. -/
def style : Glob.Style := ⟨true, true⟩

/-- Whether a pattern begins with two stars as a folder of their own. -/
def beginsAnywhere (pattern : List Char) : Bool :=
  ['*', '*', '/'].isPrefixOf pattern || pattern == ['*', '*']

/-- A pattern that matches at any depth, unless it is bound to a folder or says so itself. -/
def unbind (bound : Bool) (pattern : List Char) : List Char :=
  if bound || pattern.contains '/' || beginsAnywhere pattern then pattern
  else ['*', '*', '/'] ++ pattern

/-- A pattern for all in a folder, which does not match the folder itself. -/
def insideOnly (pattern : List Char) : List Char :=
  if ['/', '*', '*'].isSuffixOf pattern then pattern ++ ['/', '*'] else pattern

/-- A pattern without a slash at its end, and whether there was one. An escaped slash counts. -/
def splitFolderMark (pattern : List Char) : List Char × Bool :=
  if pattern.getLast? == some '/' then
    let body := pattern.dropLast
    (if body.getLast? == some '\\' then body.dropLast else body, true)
  else (pattern, false)

/-- A line without its marks in front: the pattern, whether it keeps, and whether it is bound to the
folder of the file. -/
def splitMarks (line : List Char) : List Char × Bool × Bool :=
  match line with
  | '\\' :: '!' :: rest => ('!' :: rest, false, false)
  | '\\' :: '#' :: rest => ('#' :: rest, false, false)
  | '!' :: '/' :: rest => (rest, true, true)
  | '!' :: rest => (rest, true, false)
  | '/' :: rest => (rest, false, true)
  | line => (line, false, false)

/-- A line without white space at its end, unless its last blank is escaped. -/
def trimLine (line : List Char) : List Char :=
  if ['\\', ' '].isSuffixOf line then line else Text.trimEnd line

/-- The rule of a line, if it holds one. A pattern at fault is passed over. -/
def ofLine? (line : List Char) : Option IgnoreRule :=
  let trimmed := trimLine line
  if line.head? == some '#' || trimmed.isEmpty then none
  else
    let (pattern, keeps, bound) := splitMarks trimmed
    let (pattern, onlyFolders) := splitFolderMark pattern
    let pattern := insideOnly (unbind bound pattern)
    ((Glob.ofText? style (String.ofList pattern)).toOption).map (⟨·, keeps, onlyFolders⟩)

/-- Whether a rule speaks of a path. -/
def applies (r : IgnoreRule) (path : String) (isFolder : Bool) : Bool :=
  r.glob.isMatch path && (!r.onlyFolders || isFolder)

/-- What rules say about a path. -/
def verdict? (rules : List IgnoreRule) (path : String) (isFolder : Bool) : Option Verdict :=
  (rules.reverse.find? (·.applies path isFolder)).map fun r => if r.keeps then .keep else .skip

/-! ## Files -/

/-- The lines of a file, each without its end; a file that ends a line holds no further line. -/
def splitLines : List UInt8 → List (List UInt8)
  | [] => []
  | 0x0A :: rest => [] :: splitLines rest
  | o :: rest =>
    match rest, splitLines rest with
    | [], _ | _, [] => [[o]]
    | _, line :: lines => (o :: line) :: lines

/-- A line as text, without the return at its end if the line is ended. -/
def lineText? (line : List UInt8) (ended : Bool) : Option (List Char) :=
  let body := if ended && line.getLast? == some 0x0D then line.dropLast else line
  (Utf8.decode ⟨body.toArray⟩).toOption.map (·.toList)

/-- The texts of lines up to the first that is no text. -/
def lineTexts (ended : Bool) : List (List UInt8) → List (List Char)
  | [] => []
  | line :: rest =>
    match lineText? line (ended || !rest.isEmpty) with
    | some text => text :: lineTexts ended rest
    | none => []

/-- A first line without byte order marks. -/
def withoutMarks (lines : List (List Char)) : List (List Char) :=
  match lines with
  | [] => []
  | line :: rest => line.dropWhile (· == '\ufeff') :: rest

/-- The rules of a file. -/
def ofContent (content : ByteArray) : List IgnoreRule :=
  let octets := content.toList
  (withoutMarks (lineTexts (octets.getLast? == some 0x0A) (splitLines octets))).filterMap ofLine?

end IgnoreRule

end CodeGraph
