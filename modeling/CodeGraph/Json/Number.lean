import CodeGraph.Decimal.Binary64
import CodeGraph.Decimal.Shortest

/-!
# JSON numbers

A number without fraction and exponent that fits into 64 bits is an integer, except that `-0` is
not. Any other is a floating point number: its first digits are taken as a 64-bit integer as far as
they fit, the digits after those only count as places, and the integer is then multiplied or divided
by a power of ten. Both steps round, so that the result may be off in its last place.
-/

namespace CodeGraph.Json

/-- A number as it was read. -/
inductive Number
  | natural (n : UInt64)
  | negative (n : Int64)
  | fraction (x : Binary64)
  deriving DecidableEq, Inhabited

/-- The text of a number, split up. -/
structure Numeral where
  negative : Bool
  whole : List Char
  /-- The digits behind the point, if there is one. -/
  fraction : Option (List Char)
  /-- The exponent, if there is one. -/
  exponent : Option Int
  deriving DecidableEq, Inhabited

namespace Numeral

def digitValue (c : Char) : Nat := c.toNat - '0'.toNat

/-- Appends digits to a number as long as it fits into 64 bits; the others are left over. -/
def appendDigits (n : Nat) : List Char → Nat × List Char
  | [] => (n, [])
  | c :: rest =>
    let n' := n * 10 + digitValue c
    if n' < UInt64.size then appendDigits n' rest else (n, c :: rest)

/-- The greatest power of ten by which a single step divides. -/
def greatestPower : Nat := 308

def powerOfTen (k : Nat) : Magnitude := (Magnitude.nearest? (tenTo k) 1).getD default

/-- A magnitude divided by `10 ^ k`, in steps that are rounded each. -/
def divideByPower (x : Magnitude) (k : Nat) : Magnitude :=
  if k ≤ greatestPower then (x.div? (powerOfTen k)).getD default
  else if x.mantissa = 0 then x
  else divideByPower ((x.div? (powerOfTen greatestPower)).getD default) (k - greatestPower)
termination_by k
decreasing_by simp only [greatestPower] at *; omega

/-- A magnitude times `10 ^ exponent`, or none if that is too large. -/
def scale? (x : Magnitude) (exponent : Int) : Option Magnitude :=
  if exponent < 0 then some (divideByPower x exponent.natAbs)
  else if exponent.toNat ≤ greatestPower then x.mul? (powerOfTen exponent.toNat)
  else if x.mantissa = 0 then some x
  else none

/-- The value of a number that is not an integer of 64 bits, or none if it is too large. -/
def fraction? (t : Numeral) : Option Number :=
  let (first, dropped) := appendDigits 0 t.whole
  let behind := t.fraction.getD []
  let (digits, unused) := appendDigits first behind
  let used : Int := behind.length - unused.length
  let exponent := dropped.length - used + t.exponent.getD 0
  ((Magnitude.nearest? digits 1).bind (scale? · exponent)).map
    fun x => .fraction (.finite t.negative x)

/-- The value of a number, or none if it is too large. -/
def value? (t : Numeral) : Option Number :=
  let (n, dropped) := appendDigits 0 t.whole
  if t.fraction.isSome || t.exponent.isSome || !dropped.isEmpty then t.fraction?
  else if !t.negative then some (.natural (UInt64.ofNat n))
  else if 0 < n ∧ n ≤ 1 <<< 63 then some (.negative (Int64.ofInt (-n)))
  else t.fraction?

end Numeral

/-- Floating point numbers are written out in full from `10 ^ -5` to below `10 ^ 16`. -/
def floatStyle : FloatStyle := ⟨fun top => -5 ≤ top && top < 16⟩

end CodeGraph.Json
