/-!
# UTF-8

`decode` reads octets as text. Where they are no UTF-8, the `Defect` says where the first character
begins that cannot be read, and how many octets of it are certainly wrong; it does not say how many
if the octets end too early.
-/

namespace CodeGraph.Utf8

/-- The first place where octets are no UTF-8. -/
structure Defect where
  /-- How many octets before it are in order. -/
  validUpTo : Nat
  /-- How many octets belong to the fault; none if more octets might mend it. -/
  length : Option Nat
  deriving DecidableEq, Repr, Inhabited

def Defect.message (d : Defect) : String :=
  match d.length with
  | some length => s!"invalid utf-8 sequence of {length} bytes from index {d.validUpTo}"
  | none => s!"incomplete utf-8 byte sequence from index {d.validUpTo}"

/-- A range of octets, both ends included. -/
abbrev OctetRange := UInt8 × UInt8

def tail : OctetRange := (0x80, 0xBF)

/-- The octets that follow a first octet, or none if no character begins with it. -/
def tails? (first : UInt8) : Option (List OctetRange) :=
  if first ≤ 0x7F then some []
  else if first < 0xC2 then none
  else if first ≤ 0xDF then some [tail]
  else if first = 0xE0 then some [(0xA0, 0xBF), tail]
  else if first = 0xED then some [(0x80, 0x9F), tail]
  else if first ≤ 0xEF then some [tail, tail]
  else if first = 0xF0 then some [(0x90, 0xBF), tail, tail]
  else if first ≤ 0xF3 then some [tail, tail, tail]
  else if first = 0xF4 then some [(0x80, 0x8F), tail, tail]
  else none

/-- Reads on at the character that begins at `start`, of which `seen` octets are read and the octets
`owed` are still to come. -/
def scan (start seen : Nat) (owed : List OctetRange) (octets : List UInt8) : Option Defect :=
  match owed, octets with
  | [], [] => none
  | _ :: _, [] => some ⟨start, none⟩
  | [], first :: rest =>
    match tails? first with
    | none => some ⟨start, some 1⟩
    | some [] => scan (start + 1) 0 [] rest
    | some owed => scan start 1 owed rest
  | (low, high) :: owed, octet :: rest =>
    if low ≤ octet ∧ octet ≤ high then
      if owed.isEmpty then scan (start + seen + 1) 0 [] rest else scan start (seen + 1) owed rest
    else some ⟨start, some seen⟩

/-- The first place where octets are no UTF-8, if there is one. -/
def defect? (octets : ByteArray) : Option Defect := scan 0 0 [] octets.toList

/-- The text that octets spell. -/
def decode (octets : ByteArray) : Except Defect String :=
  match String.fromUTF8? octets with
  | some text => .ok text
  | none => .error ((defect? octets).getD ⟨0, none⟩)

end CodeGraph.Utf8
