import CodeGraph.Glob.Reading
import CodeGraph.Glob.Regex

/-!
# Matching paths

A pattern stands for a regular expression over the octets of a path. So `?` is one octet, and a
class is the set of the octets of its characters: a range goes from the last octet of its first
character to the first octet of its last. An alternative without any text is left out.

A path whose last part is `..` names no file. A pattern that is checked against the end of the file
name therefore does not match it, even if its expression does.
-/

namespace CodeGraph.Glob

/-- The octets of a character. -/
def octets (c : Char) : List UInt8 := (String.singleton c).toUTF8.toList

/-- The octets of a range of characters, as ranges. -/
def rangeOctets (first last : Char) : List (UInt8 × UInt8) :=
  let single := fun o : UInt8 => (o, o)
  if first = last then (octets first).map single
  else
    let low := (octets first).getLast?.getD 0
    let high := (octets last).head?.getD 0
    (octets first).dropLast.map single ++ (low, high) :: (octets last).tail.map single

def slash : UInt8 := 0x2F

def anything : Regex := .many .any

def slashRegex : Regex := .octet (.single slash)

/-- The octets that a wildcard stands for. -/
def wildcard (style : Style) : OctetSet :=
  if style.wildcardsStopAtSlash then .other slash else .any

/-- One expression after the other; one that has no text is left out. -/
def append? (first second : Option Regex) : Option Regex :=
  match first, second with
  | some first, some second => some (.seq first second)
  | some first, none => some first
  | none, second => second

mutual

/-- The expression of a token, which has no text if it consists of alternatives without text. -/
def Token.regex? (style : Style) : Token → Option Regex
  | .literal c => some (.ofOctets (octets c))
  | .any => some (.octet (wildcard style))
  | .star => some (.many (wildcard style))
  | .leading => some (.alt (.alt slashRegex .empty) (.seq anything slashRegex))
  | .trailing => some (.seq slashRegex anything)
  | .between => some (.alt slashRegex (.seq slashRegex (.seq anything slashRegex)))
  | .oneOf negated ranges =>
    some (.octet ⟨negated, ranges.flatMap fun (first, last) => rangeOctets first last⟩)
  | .alternatives branches =>
    match branchRegexes style branches with
    | [] => none
    | first :: others => some (.oneOf first others)

/-- The expression of tokens in a row. -/
def tokensRegex? (style : Style) : List Token → Option Regex
  | [] => none
  | t :: rest => append? (t.regex? style) (tokensRegex? style rest)

/-- The expressions of the branches that have text. -/
def branchRegexes (style : Style) : List (List Token) → List Regex
  | [] => []
  | branch :: rest => (tokensRegex? style branch).toList ++ branchRegexes style rest

end

/-- The expression of a pattern. Two stars alone stand for anything. -/
def regex (g : Glob) : Regex :=
  match g.tokens with
  | [.leading] => anything
  | tokens => (tokensRegex? g.style tokens).getD .empty

def isLiteral : Token → Bool
  | .literal _ => true
  | _ => false

def isDot : Token → Bool
  | .literal c => c == '.'
  | _ => false

/-- The tokens behind two stars at the start. -/
def withoutLeading : List Token → List Token
  | .leading :: rest => rest
  | tokens => tokens

/-- The tokens behind a star at the start. -/
def withoutStar : List Token → List Token
  | .star :: rest => rest
  | tokens => tokens

/-- Whether the pattern asks for the file name `..`. -/
def isParentName (g : Glob) : Bool :=
  match g.tokens with
  | [.leading, a, b] => isDot a && isDot b
  | _ => false

/-- Whether the pattern asks for an empty extension. -/
def isEmptyExtension (g : Glob) : Bool :=
  match withoutLeading g.tokens with
  | [.star, a] => isDot a
  | _ => false

/-- Whether the pattern is checked against the end of the file name and that end is a dot. -/
def asksForDot (g : Glob) : Bool :=
  g.isParentName || g.isEmptyExtension ||
    (g.tokens.getLast?.any isDot && !(withoutStar (withoutLeading g.tokens)).all isLiteral)

/-- Whether the last part of a path is `..`. -/
def endsInParent (path : List UInt8) : Bool :=
  path.reverse.takeWhile (· != slash) == [0x2E, 0x2E]

/-- Whether a path matches. -/
def isMatch (g : Glob) (path : String) : Bool :=
  let octets := path.toUTF8.toList
  g.regex.accepts octets && !(g.asksForDot && endsInParent octets)

/-- Patterns of paths relative to a directory, where wildcards also stand for slashes. -/
def standard : Style := ⟨false, false⟩

/-- The patterns of a list, or the first fault. -/
def ofTexts? (style : Style) (texts : List String) : Except GlobError (List Glob) :=
  texts.mapM (ofText? style)

end CodeGraph.Glob
