/-!
# Glob patterns

A `Glob` is a pattern for paths, split into tokens. Two stars next to a slash, or at an end, are a
token of their own together with the slash; elsewhere they are two single stars. Braces hold
alternatives, which may hold braces in turn.
-/

namespace CodeGraph

namespace Glob

/-- A piece of a pattern. -/
inductive Token
  | literal (c : Char)
  /-- `?` -/
  | any
  /-- `*` -/
  | star
  /-- `**` at the start, with the slash behind it. -/
  | leading
  /-- `**` at the end, with the slash before it. -/
  | trailing
  /-- `**` between two slashes. -/
  | between
  /-- `[…]` -/
  | oneOf (negated : Bool) (ranges : List (Char × Char))
  /-- `{…}` -/
  | alternatives (branches : List (List Token))
  deriving Inhabited

/-- How a pattern is understood. -/
structure Style where
  /-- Whether `*` and `?` leave slashes out. -/
  wildcardsStopAtSlash : Bool
  /-- Whether a `[` without `]` stands for itself. -/
  looseBracket : Bool
  deriving DecidableEq, Inhabited

/-- What is wrong with a pattern. -/
inductive Fault
  | unclosedClass
  | invalidRange (first last : Char)
  | unopenedAlternatives
  | unclosedAlternatives
  | danglingEscape
  deriving DecidableEq, Inhabited

def Fault.message : Fault → String
  | unclosedClass => "unclosed character class; missing ']'"
  | invalidRange first last =>
    "invalid range; '" ++ first.toString ++ "' > '" ++ last.toString ++ "'"
  | unopenedAlternatives =>
    "unopened alternate group; missing '\x7b' (maybe escape '\x7d' with '[\x7d]'?)"
  | unclosedAlternatives =>
    "unclosed alternate group; missing '\x7d' (maybe escape '\x7b' with '[\x7b]'?)"
  | danglingEscape => "dangling '\\'"

end Glob

/-- A pattern for paths. -/
structure Glob where
  style : Glob.Style
  tokens : List Glob.Token

/-- A pattern at fault. -/
structure GlobError where
  pattern : String
  fault : Glob.Fault
  deriving DecidableEq, Inhabited

def GlobError.message (e : GlobError) : String :=
  "error parsing glob '" ++ e.pattern ++ "': " ++ e.fault.message

end CodeGraph
