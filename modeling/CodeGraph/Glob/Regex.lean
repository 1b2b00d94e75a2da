/-!
# Regular expressions over octets

`Regex.accepts` goes through the expression and not through the octets: it keeps a mark for each
place between two octets, and every part of the expression moves the marks from where it may begin
to where it may end. So each part is looked at once, and costs one pass over the octets.
-/

namespace CodeGraph

/-- A set of octets: those in one of the ranges, or those in none of them. -/
structure OctetSet where
  negated : Bool
  ranges : List (UInt8 × UInt8)
  deriving DecidableEq, Inhabited

namespace OctetSet

def contains (s : OctetSet) (octet : UInt8) : Bool :=
  (s.ranges.any fun (low, high) => low ≤ octet && octet ≤ high) != s.negated

/-- Every octet. -/
def any : OctetSet := ⟨true, []⟩

def single (octet : UInt8) : OctetSet := ⟨false, [(octet, octet)]⟩

/-- Every octet but one. -/
def other (octet : UInt8) : OctetSet := ⟨true, [(octet, octet)]⟩

end OctetSet

/-- A regular expression over octets. -/
inductive Regex
  | empty
  | octet (s : OctetSet)
  /-- Any number of octets of a set. -/
  | many (s : OctetSet)
  | seq (first second : Regex)
  | alt (left right : Regex)
  deriving DecidableEq, Inhabited

namespace Regex

/-- The marks behind those octets of a set that have a mark in front. -/
def shift (s : OctetSet) (octets : List UInt8) (marks : List Bool) : List Bool :=
  false :: List.zipWith (fun mark o => mark && s.contains o) marks octets

/-- The marks spread over octets of a set. `carried` tells whether the place in front is marked and
the octet behind it is in the set. -/
def spread (s : OctetSet) (carried : Bool) : List UInt8 → List Bool → List Bool
  | o :: octets, mark :: marks =>
    (mark || carried) :: spread s ((mark || carried) && s.contains o) octets marks
  | [], mark :: marks => (mark || carried) :: marks
  | _, [] => []

/-- The places where an expression may end if it begins at a mark. -/
def advance (octets : List UInt8) : Regex → List Bool → List Bool
  | empty, marks => marks
  | octet s, marks => shift s octets marks
  | many s, marks => spread s false octets marks
  | seq first second, marks => advance octets second (advance octets first marks)
  | alt left right, marks =>
    List.zipWith (· || ·) (advance octets left marks) (advance octets right marks)

/-- Whether the octets as a whole are accepted. -/
def accepts (r : Regex) (octets : List UInt8) : Bool :=
  (advance octets r (true :: octets.map fun _ => false)).getLast? == some true

/-- The octets of a text one after the other. -/
def ofOctets : List UInt8 → Regex
  | [] => empty
  | [o] => octet (.single o)
  | o :: rest => seq (octet (.single o)) (ofOctets rest)

/-- One of several expressions, of which there is at least one. -/
def oneOf (first : Regex) (others : List Regex) : Regex := others.foldl alt first

end Regex

end CodeGraph
