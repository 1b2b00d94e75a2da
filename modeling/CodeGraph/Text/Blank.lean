/-!
# Blank characters

The characters that Unicode counts as white space.
-/

namespace CodeGraph.Text

/-- The ranges of the characters that are white space. -/
def blank : List (Nat × Nat) :=
  [(0x09, 0x0D), (0x20, 0x20), (0x85, 0x85), (0xA0, 0xA0), (0x1680, 0x1680), (0x2000, 0x200A),
    (0x2028, 0x2029), (0x202F, 0x202F), (0x205F, 0x205F), (0x3000, 0x3000)]

/-- Whether a character is white space. -/
def isBlank (c : Char) : Bool := blank.any fun (low, high) => low ≤ c.toNat && c.toNat ≤ high

/-- The text without white space at its end. -/
def trimEnd (s : List Char) : List Char := (s.reverse.dropWhile isBlank).reverse

end CodeGraph.Text
